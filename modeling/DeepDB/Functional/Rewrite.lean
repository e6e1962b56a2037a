import DeepDB.Functional.Lookup
import DeepDB.Functional.Loss

/-!
A put at a key that is stored rewrites the record in its leaf and rebuilds the nodes above. A node
keeps one child in front of the path, so that a path through its third child drops the second one.
`Diverts` says when a key in front of the one that is put gets the new record too.
-/

namespace DeepDB.Functional
open SortedAssoc Multiway

variable {V X : Type} {d : Nat} {root : Bool} {r : Range Key} {k K : Key} {v : V} {x : X}
  {n n' n₀ : Node V X} {c c' : Cursor V X}

/-! ### The nodes after an update -/

section
variable {pre : List (Node V X × Key)} {f f' : Node V X} {post : List (Key × Node V X)}
  {F L : Bool} {b : X}

theorem wellFormed_widen {u u' : Key} (raised : u ≤ u') (h : WellFormed d root (r.left u) n) :
    WellFormed d root (r.left u') n := by
  induction d generalizing root r n with
  | zero =>
    obtain ⟨recs, F, L, b, rfl, flags, sorted, within, rest⟩ := h
    refine ⟨recs, F, L, b, rfl, flags, sorted, fun e he => ?_, rest⟩
    obtain ⟨low, high⟩ := Range.mem_left.mp (within e he)
    exact Range.mem_left.mpr ⟨low, high.trans_le raised⟩
  | succ d ih =>
    obtain ⟨t, ts, F, L, b, rfl, flags, hs, rest⟩ := h
    exact ⟨t, ts, F, L, b, rfl, flags, siblings_widen raised (fun _ _ => ih) hs, rest⟩

theorem focusRange_kept (r : Range Key) (pre : List (Node V X × Key))
    (post : List (Key × Node V X)) : focusRange r (kept pre) post = focusRange r pre post := by
  cases pre with
  | nil => rfl
  | cons e pre =>
    induction pre generalizing e r with
    | nil => rfl
    | cons e' pre ih =>
      rw [focusRange, ← ih (r.right e.2) e', kept, kept, focusRange, focusRange]
      cases pre <;> rfl

/-- The first child goes up to the separator in front of the focus. -/
theorem siblings_kept
    (h : Siblings (WellFormed d false) r (join pre f post).1 (join pre f post).2)
    (hf : WellFormed d false (focusRange r pre post) f') :
    Siblings (WellFormed d false) r (join (kept pre) f' post).1 (join (kept pre) f' post).2 := by
  cases pre with
  | nil => exact siblings_replace h hf
  | cons e pre =>
    obtain ⟨A, entries, -⟩ := join_cons_entries e pre f post
    rw [entries] at h
    obtain ⟨inside, left, right⟩ := siblings_cut h
    have behind : Siblings (WellFormed d false) (r.right (pre.getLastD e).2) (join [] f post).1
        (join [] f post).2 := right
    rw [← focusRange_kept] at hf
    refine ⟨?_, inside, siblings_replace behind hf⟩
    cases A with
    | nil => exact left
    | cons a A => exact wellFormed_widen (left.2.1.2 _ rfl).le left.1

theorem wellFormed_kept
    (h : WellFormed (d + 1) root r (internNode (join pre f post).1 (join pre f post).2 F L b))
    (hf : WellFormed d false (focusRange r pre post) f') :
    WellFormed (d + 1) root r
      (internNode (join (kept pre) f' post).1 (join (kept pre) f' post).2 F L b) := by
  have children := siblings_kept (wellFormed_children h) hf
  obtain ⟨t, ts, F', L', b', same, flags, -, few, filled⟩ := h
  have entries := congrArg (fun n => n.le.length) same
  simp only [internNode, Node.le, List.length_map, length_join] at entries
  simp only [internNode, Node.btnode.injEq] at same
  obtain ⟨-, -, -, rfl, rfl, rfl⟩ := same
  refine ⟨_, _, F, L, b, rfl, flags, children, ?_, ?_⟩
  all_goals
    rw [length_join]
    cases pre with
    | nil => simp only [kept, List.length_nil] at *; omega
    | cons e pre => simp only [kept, List.length_cons, List.length_nil] at *; omega

end

/-! ### Rewriting a record -/

/-- The tree and the path to the record of `K`, before and after the record is rewritten. -/
inductive Rewrites (K : Key) (v : V) (x : X) :
    Node V X → Cursor V X → Node V X → Cursor V X → Prop where
  | leaf {recs F L b} (sorted : Sorted recs) (stored : K ∈ recs.map Prod.fst) :
      Rewrites K v x (leafNode recs F L b) [(leafNode recs F L b, (rank K recs : Int))]
        (leafNode (put K (v, x) recs) F L b)
        [(leafNode (put K (v, x) recs) F L b, (rank K recs : Int))]
  | node {pre f f' post F L b c c'} (below : ∀ y ∈ pre, y.2 ≤ K) (above : ∀ y ∈ post, K < y.1)
      (child : Rewrites K v x f c f' c') :
      Rewrites K v x (internNode (join pre f post).1 (join pre f post).2 F L b)
        (c ++ [(internNode (join pre f post).1 (join pre f post).2 F L b, (pre.length : Int) - 1)])
        (internNode (join (kept pre) f' post).1 (join (kept pre) f' post).2 F L b)
        (c' ++ [(internNode (join (kept pre) f' post).1 (join (kept pre) f' post).2 F L b,
          (pre.length : Int) - 1)])

theorem mem_records_join {pre : List (Node V X × Key)} {f : Node V X}
    {post : List (Key × Node V X)} {F L : Bool} {b : X} {e : Key × V × X} :
    e ∈ records (internNode (join pre f post).1 (join pre f post).2 F L b) ↔
      e ∈ pre.flatMap (fun y => records y.1) ∨ e ∈ records f ∨
        e ∈ post.flatMap (fun y => records y.2) := by
  rw [records_internNode, gather_join, List.mem_append, List.mem_append, or_assoc]

/-- A stored key is stored in the child that the descent goes to. -/
theorem stored_focus {pre : List (Node V X × Key)} {f : Node V X} {post : List (Key × Node V X)}
    {F L : Bool} {b : X}
    (hs : Siblings (WellFormed d false) r (join pre f post).1 (join pre f post).2)
    (hk : (focusRange r pre post).Mem K)
    (stored : K ∈ (records (internNode (join pre f post).1 (join pre f post).2 F L b)).map Prod.fst) :
    K ∈ (records f).map Prod.fst := by
  obtain ⟨before, behind⟩ := focus_outer (c := records) (fun _ _ => records_within) hs hk
  obtain ⟨e, he, rfl⟩ := List.mem_map.mp stored
  rcases mem_records_join.mp he with he | he | he
  · exact absurd (before e he) (Nat.lt_irrefl _)
  · exact List.mem_map_of_mem he
  · exact absurd (behind e he) (Nat.lt_irrefl _)

theorem exists_rewrites (h : WellFormed d root r n) (hk : r.Mem K)
    (stored : K ∈ (records n).map Prod.fst) (v : V) (x : X) :
    ∃ n' c', Rewrites K v x n (moveToKey n K []) n' c' ∧ WellFormed d root r n' := by
  induction d generalizing root r n with
  | zero =>
    obtain ⟨recs, F, L, b, rfl, flags, sorted, within, few, filled⟩ := h
    rw [records_leafNode] at stored
    rw [moveToKey_leaf rfl, findRecordIndex_rank sorted]
    refine ⟨_, _, .leaf sorted stored, put K (v, x) recs, F, L, b, rfl, flags, sorted_put sorted,
      within_put within hk _, ?_, fun _ => put_ne_nil _ _ _⟩
    rwa [length_put_of_mem sorted stored]
  | succ d ih =>
    have whole := h
    obtain ⟨t, ts, F, L, b, rfl, -, hs, -⟩ := h
    obtain ⟨pre, f, post, hj, below, above⟩ := exists_focus K t ts hs
    obtain ⟨rfl, rfl⟩ := Prod.mk.inj hj
    have hf := siblings_focus hs
    have hkf := focusRange_mem hk below above
    obtain ⟨f', c', rewrites, hf'⟩ := ih hf hkf (stored_focus hs hkf stored)
    rw [moveToKey_join whole hf below above, moveToKey_append hf hkf]
    exact ⟨_, _, .node below above rewrites, wellFormed_kept whole hf'⟩

/-- The update of the path from the new leaf on. -/
theorem Rewrites.update (h : Rewrites K v x n c n' c') :
    ∃ recs F L b rest rest', c = (leafNode recs F L b, (rank K recs : Int)) :: rest ∧
      c' = (leafNode (put K (v, x) recs) F L b, (rank K recs : Int)) :: rest' ∧
      Sorted recs ∧ K ∈ recs.map Prod.fst ∧
      ∀ rel, updatePartialCursorRel rest rel (leafNode (put K (v, x) recs) F L b) =
        (rest', (n', rel.2)) := by
  induction h with
  | @leaf recs F L b sorted stored =>
    exact ⟨recs, F, L, b, [], [], rfl, rfl, sorted, stored, fun _ => rfl⟩
  | node below above child ih =>
    obtain ⟨recs, F, L, b, rest, rest', rfl, rfl, sorted, stored, update⟩ := ih
    refine ⟨recs, F, L, b, _, _, List.cons_append, List.cons_append, sorted, stored, fun rel => ?_⟩
    rw [updatePartial_append, update, updateNode_join]

theorem Rewrites.mem_self (h : Rewrites K v x n c n' c') : (K, v, x) ∈ records n' := by
  induction h with
  | leaf sorted stored =>
    rw [records_leafNode]
    exact mem_put_self _ _ _
  | node below above child ih => exact mem_records_join.mpr (Or.inr (Or.inl ih))

/-- The rewriting brings no other record. -/
theorem Rewrites.mem (h : Rewrites K v x n c n' c') {e : Key × V × X} (he : e ∈ records n') :
    e = (K, v, x) ∨ e ∈ records n := by
  induction h with
  | leaf sorted stored =>
    rw [records_leafNode] at he ⊢
    exact mem_put he
  | @node pre f f' post F L b c c' below above child ih =>
    rcases mem_records_join.mp he with he | he | he
    · obtain ⟨y, hy, he⟩ := List.mem_flatMap.mp he
      have kept := List.mem_of_mem_take (by simpa using mem_kept (List.mem_map_of_mem hy))
      obtain ⟨z, hz, same⟩ := List.mem_map.mp kept
      refine Or.inr (mem_records_join.mpr (Or.inl (List.mem_flatMap.mpr ⟨z, hz, ?_⟩)))
      rwa [same]
    · exact (ih he).imp id fun old => mem_records_join.mpr (Or.inr (Or.inl old))
    · exact Or.inr (mem_records_join.mpr (Or.inr (Or.inr he)))

/-- The put at a stored key. -/
theorem Rewrites.put (hn : WellFormed d true Range.full n₀) (hc : completeCursor c n₀)
    (h : Rewrites K v x n₀ (moveToKey n₀ K []) n' c') (prel a : X) (newx : List X) :
    ∃ leaf i rest, c' = (leaf, i) :: rest ∧
      RL_PutRecord c (n₀, prel) K v x newx a = ((leaf, i + 1) :: rest, (n', prel)) := by
  obtain ⟨recs, F, L, b, rest, rest', descent, rfl, sorted, stored, update⟩ := h.update
  refine ⟨_, _, rest', rfl, ?_⟩
  have inLe := keyInLe_ofRecord.mpr stored
  have rewritten := updateLe_ofRecord (v := v) (x := x) sorted stored
  have entry : putEntry ((leafNode recs F L b, (rank K recs : Int)) :: rest) (n₀, prel)
      (.keyval K v x) K newx a =
        ((leafNode (put K (v, x) recs) F L b, (rank K recs : Int)) :: rest', (n', prel)) := by
    have step := update (n₀, prel)
    simp only [leafNode] at step ⊢
    simp only [putEntry, putEntryIn, entryKey, inLe, Bool.and_self, if_true, rewritten,
      updateCurrnodeCursorRel, step]
  have inside : rank K recs < (leafNode (put K (v, x) recs) F L b).le.length := by
    have bound := List.getElem?_eq_some_iff.mp
      (getElem?_rank_of_mem (sorted_put sorted) (mem_put_self K (v, x) recs))
    rw [rank_put_self] at bound
    rw [leafNode, Node.le, List.length_map]
    exact bound.1
  have notEnd : ¬ (rank K recs : Int) = (leafNode (put K (v, x) recs) F L b).le.length := by omega
  rw [RL_PutRecord, goToKey_eq hn hc, descent]
  simp only [entry]
  rw [RL_MoveToNext, if_neg notEnd, moveToNext_inside rfl inside]
  rfl

/-! ### Keys that get the record of another key -/

/-- The ascent for `k` along the cursor ends on a path to the root `n`. -/
def Climbs (k : Key) (c : Cursor V X) (n : Node V X) : Prop :=
  ∃ low m j high, c = low ++ (m, j) :: high ∧ (∀ e ∈ low, isNodeParent e.1 k = false) ∧
    partialCursorCorrect high m n

theorem correct_append {m p q : Node V X} {j : Int} (h : partialCursorCorrect c m p)
    (hq : nthNode j q = some p) : partialCursorCorrect (c ++ [(q, j)]) m q := by
  induction c generalizing m with
  | nil =>
    obtain rfl := h
    exact ⟨rfl, hq⟩
  | cons e c ih => exact ⟨ih h.1, h.2⟩

theorem Climbs.append {p q : Node V X} {j : Int} (h : Climbs k c p) (hq : nthNode j q = some p) :
    Climbs k (c ++ [(q, j)]) q := by
  obtain ⟨low, m, i, high, rfl, notParents, correct⟩ := h
  refine ⟨low, m, i, high ++ [(q, j)], ?_, notParents, correct_append correct hq⟩
  rw [List.append_assoc, List.cons_append]

theorem goToKey_skip (low : Cursor V X) (notParents : ∀ e ∈ low, isNodeParent e.1 k = false)
    (e : Node V X × Int) (high : Cursor V X) (rel : Relation V X) :
    goToKey (low ++ e :: high) rel k = goToKey (e :: high) rel k := by
  induction low with
  | nil => rfl
  | cons a low ih =>
    obtain ⟨m, j⟩ := a
    have notParent : isNodeParent m k = false := notParents (m, j) List.mem_cons_self
    rw [← ih fun e he => notParents e (List.mem_cons_of_mem _ he)]
    cases low with
    | nil => simp [goToKey, ascendToParent, notParent]
    | cons b low => simp [goToKey, ascendToParent, notParent]

/-- The index in the leaf does not count. -/
theorem Climbs.goToKey (h : WellFormed d true Range.full n) {leaf : Node V X} {i : Int}
    (climbs : Climbs k ((leaf, i) :: c) n) (i' : Int) (prel : X) :
    goToKey ((leaf, i') :: c) (n, prel) k = moveToKey n k [] := by
  obtain ⟨low, m, j, high, whole, notParents, correct⟩ := climbs
  cases low with
  | nil =>
    obtain ⟨same, rfl⟩ := List.cons.inj whole
    obtain ⟨rfl, rfl⟩ := Prod.mk.inj same
    exact goToKey_partial h correct i' prel k
  | cons e low =>
    rw [List.cons_append] at whole
    obtain ⟨rfl, rfl⟩ := List.cons.inj whole
    have notParents' : ∀ e ∈ (leaf, i') :: low, isNodeParent e.1 k = false := by
      intro e he
      rcases List.mem_cons.mp he with rfl | he
      · exact notParents (leaf, i) List.mem_cons_self
      · exact notParents e (List.mem_cons_of_mem _ he)
    rw [← List.cons_append, goToKey_skip _ notParents']
    exact goToKey_partial h correct j prel k

/-- Whatever is put at `K`, the key `k` in front of it gets the record. -/
structure Diverts (k K : Key) (d : Nat) (root : Bool) (r : Range Key) (n : Node V X) : Prop where
  before : k < K
  stored : K ∈ (records n).map Prod.fst
  rewritten : ∀ v x, ∃ n' c', Rewrites K v x n (moveToKey n K []) n' c' ∧
    WellFormed d root r n' ∧ Climbs k c' n' ∧ ∀ e ∈ records n', e.1 < k ∨ K ≤ e.1

section
variable {pre : List (Node V X × Key)} {f f' : Node V X} {post : List (Key × Node V X)}
  {F L : Bool} {b : X}

/-- A child that the update keeps the path to hands its key on. -/
theorem Diverts.node
    (h : WellFormed (d + 1) root r (internNode (join pre f post).1 (join pre f post).2 F L b))
    (child : Diverts k K d false (focusRange r pre post) f) (few : pre.length ≤ 1)
    (hk : (focusRange r pre post).Mem k) :
    Diverts k K (d + 1) root r (internNode (join pre f post).1 (join pre f post).2 F L b) := by
  have hs := wellFormed_children h
  have hf := siblings_focus hs
  obtain ⟨e, he, same⟩ := List.mem_map.mp child.stored
  have hkf : (focusRange r pre post).Mem K := same ▸ records_within hf e he
  obtain ⟨-, below, above⟩ := focusRange_seps hs hkf
  refine ⟨child.before, List.mem_map.mpr ⟨e, mem_records_join.mpr (Or.inr (Or.inl he)), same⟩,
    fun v x => ?_⟩
  obtain ⟨f', c', rewrites, hf', climbs, gap⟩ := child.rewritten v x
  have node := Rewrites.node (F := F) (L := L) (b := b) below above rewrites
  have whole := wellFormed_kept h hf'
  rw [kept_eq few] at node whole
  rw [moveToKey_join h hf below above, moveToKey_append hf hkf]
  refine ⟨_, _, node, whole, climbs.append nthNode_join, fun e he => ?_⟩
  have hs' := wellFormed_children whole
  obtain ⟨before, -⟩ := focus_outer (c := records) (fun _ _ => records_within) hs' hk
  obtain ⟨-, behind⟩ := focus_outer (c := records) (fun _ _ => records_within) hs' hkf
  rcases mem_records_join.mp he with he | he | he
  · exact Or.inl (before e he)
  · exact gap e he
  · exact Or.inr (behind e he).le

end

/-- No node on the rewritten path is the parent of a key outside of its range. -/
theorem Rewrites.notParent (h : Rewrites K v x n c n' c') (hn : WellFormed d false r n')
    (outside : ¬ r.Mem k) : ∀ e ∈ c', isNodeParent e.1 k = false := by
  have notParent : ∀ {d : Nat} {r : Range Key} {m : Node V X}, WellFormed d false r m →
      ¬ r.Mem k → isNodeParent m k = false := fun hm outside =>
    Bool.eq_false_iff.mpr fun parent => outside (isNodeParent_mem hm parent)
  induction h generalizing d r with
  | leaf sorted stored =>
    intro e he
    obtain rfl := List.mem_singleton.mp he
    exact notParent hn outside
  | node below above child ih =>
    intro e he
    rcases List.mem_append.mp he with he | he
    · cases d with
      | zero =>
        obtain ⟨recs, F, L, b, same, -⟩ := hn
        cases same
      | succ d =>
        have hs := wellFormed_children hn
        exact ih (siblings_focus hs) (fun inside => outside (focusRange_seps hs inside).1) e he
    · obtain rfl := List.mem_singleton.mp he
      exact notParent hn outside

/-- A path to the left keeps all entries, and the rewritten path leads to the new leaf. -/
theorem Rewrites.correct (h : Rewrites K v x n c n' c') (hn : WellFormed d root r n)
    (left : LeftPath K d n) :
    ∃ leaf i rest, c' = (leaf, i) :: rest ∧ partialCursorCorrect rest leaf n' := by
  induction h generalizing d root r with
  | leaf sorted stored => exact ⟨_, _, [], rfl, rfl⟩
  | node below above child ih =>
    cases d with
    | zero =>
      obtain ⟨recs, F, L, b, same, -⟩ := hn
      cases same
    | succ d =>
      obtain ⟨few, left⟩ := (leftPath_join below above).mp left
      obtain ⟨leaf, i, rest, rfl, correct⟩ := ih (siblings_focus (wellFormed_children hn)) left
      refine ⟨leaf, i, _, List.cons_append, correct_append correct ?_⟩
      rw [kept_eq few]
      exact nthNode_join

/-- The key in front of a stored one, on a path to the left. -/
theorem diverts_gap (h : WellFormed d root r n) (left : LeftPath K d n) (before : k < K)
    (hK : r.Mem K) (stored : K ∈ (records n).map Prod.fst)
    (gap : ∀ e ∈ records n, e.1 < k ∨ K ≤ e.1) : Diverts k K d root r n := by
  refine ⟨before, stored, fun v x => ?_⟩
  obtain ⟨n', c', rewrites, hn'⟩ := exists_rewrites h hK stored v x
  refine ⟨n', c', rewrites, hn', ?_, fun e he => ?_⟩
  · obtain ⟨leaf, i, rest, rfl, correct⟩ := rewrites.correct h left
    exact ⟨[], leaf, i, rest, rfl, fun _ no => (by cases no), correct⟩
  · rcases rewrites.mem he with rfl | he
    · exact Or.inr (Nat.le_refl _)
    · exact gap e he

/-- The first record. -/
theorem exists_first (h : WellFormed d false r n) :
    ∃ e ∈ records n, r.Mem e.1 ∧ ∀ e' ∈ records n, e.1 ≤ e'.1 := by
  have sorted := records_sorted h
  have within := records_within h
  cases all : records n with
  | nil =>
    have none := length_records n
    rw [all, List.length_nil] at none
    exact absurd (List.length_eq_zero_iff.mp none.symm) (wellFormed_nonempty h)
  | cons e rest =>
    rw [all] at sorted within
    refine ⟨e, List.mem_cons_self, within e List.mem_cons_self, fun e' he' => ?_⟩
    rcases List.mem_cons.mp he' with rfl | he'
    · exact Nat.le_refl _
    · exact ((sorted_cons.mp sorted).1 e' he').le

/-- A put at the first key of the third child gives its record to the keys of the second one, which
the node has lost. -/
theorem diverts_drop {t g f : Node V X} {k₀ k₁ : Key} {ts : List (Key × Node V X)} {F L : Bool}
    {b : X} (h : WellFormed (d + 1) root r (internNode t ((k₀, g) :: (k₁, f) :: ts) F L b)) :
    ∃ k K, r.Mem k ∧ Diverts k K (d + 1) root r (internNode t ((k₀, g) :: (k₁, f) :: ts) F L b) := by
  have second : WellFormed (d + 1) root r (internNode (join [(t, k₀)] g ((k₁, f) :: ts)).1
    (join [(t, k₀)] g ((k₁, f) :: ts)).2 F L b) := h
  have third : WellFormed (d + 1) root r (internNode (join [(t, k₀), (g, k₁)] f ts).1
    (join [(t, k₀), (g, k₁)] f ts).2 F L b) := h
  have hg := siblings_focus (wellFormed_children second)
  have hf := siblings_focus (wellFormed_children third)
  obtain ⟨y, -, hyg, -⟩ := exists_first hg
  obtain ⟨z, hz, hzf, first⟩ := exists_first hf
  obtain ⟨hyr, hyt, hyf⟩ := focusRange_seps (wellFormed_children second) hyg
  obtain ⟨hzr, below, above⟩ := focusRange_seps (wellFormed_children third) hzf
  have less : y.1 < k₁ := hyf (k₁, f) List.mem_cons_self
  have before : y.1 < z.1 := less.trans_le (below (g, k₁) (by simp))
  have stored : z.1 ∈ (records f).map Prod.fst := List.mem_map_of_mem hz
  refine ⟨y.1, z.1, hyr, before, ?_, fun v x => ?_⟩
  · have inside : z ∈ records (internNode (join [(t, k₀), (g, k₁)] f ts).1
        (join [(t, k₀), (g, k₁)] f ts).2 F L b) :=
      mem_records_join.mpr (Or.inr (Or.inl hz))
    exact List.mem_map_of_mem inside
  · obtain ⟨f', c', rewrites, hf'⟩ := exists_rewrites hf hzf stored v x
    have outside : ¬ (focusRange r [(t, k₀), (g, k₁)] ts).Mem y.1 := by
      intro inside
      have low := (focusRange_seps (wellFormed_children third) inside).2.1 (g, k₁) (by simp)
      exact absurd less (Nat.not_lt.mpr low)
    have whole := wellFormed_kept third hf'
    have descent := moveToKey_join third hf below above []
    rw [moveToKey_append hf hzf] at descent
    refine ⟨_, _, descent ▸ Rewrites.node below above rewrites, whole,
      ⟨c', _, _, [], rfl, rewrites.notParent hf' outside, rfl⟩, fun e he => ?_⟩
    have hs' := wellFormed_children whole
    obtain ⟨-, behind⟩ := focus_outer (c := records) (fun _ _ => records_within)
      (wellFormed_children third) hzf
    rcases mem_records_join.mp he with he | he | he
    · obtain ⟨front, -⟩ := focus_outer (c := records) (fun _ _ => records_within)
        (wellFormed_children second) hyg
      exact Or.inl (front e he)
    · rcases rewrites.mem he with rfl | he
      · exact Or.inr (Nat.le_refl _)
      · exact Or.inr (first e he)
    · exact Or.inr (behind e he).le

/-- One entry keeps the paths of both children to the left. -/
theorem leftPath_pair {t g : Node V X} {k₀ : Key} {F L : Bool} {b : X}
    (left : ∀ K, (r.left k₀).Mem K → LeftPath K d t)
    (left' : ∀ K, (r.right k₀).Mem K → LeftPath K d g) (hK : r.Mem K) :
    LeftPath K (d + 1) (internNode t [(k₀, g)] F L b) := by
  by_cases before : K < k₀
  · have below : ∀ y ∈ ([] : List (Node V X × Key)), y.2 ≤ K := fun y no => by cases no
    have above : ∀ y ∈ [(k₀, g)], K < y.1 := by
      intro y hy
      obtain rfl := List.mem_singleton.mp hy
      exact before
    exact (leftPath_join below above).mpr
      ⟨Nat.zero_le 1, left K (Range.mem_left.mpr ⟨hK.1, before⟩)⟩
  · have behind : k₀ ≤ K := Nat.le_of_not_lt before
    have below : ∀ y ∈ [(t, k₀)], y.2 ≤ K := by
      intro y hy
      obtain rfl := List.mem_singleton.mp hy
      exact behind
    have above : ∀ y ∈ ([] : List (Key × Node V X)), K < y.1 := fun y no => by cases no
    exact (leftPath_join below above).mpr
      ⟨Nat.le_refl 1, left' K (Range.mem_right.mpr ⟨behind, hK.2⟩)⟩

/-- With one entry in every interior node there are few records and all paths go to the left; else
a put drops a child. -/
theorem few_or_diverts (h : WellFormed d root r n) :
    ((records n).length ≤ Fanout * 2 ^ d ∧ ∀ K, r.Mem K → LeftPath K d n) ∨
      ∃ k K, r.Mem k ∧ Diverts k K d root r n := by
  induction d generalizing root r n with
  | zero =>
    obtain ⟨recs, F, L, b, rfl, -, -, -, few, -⟩ := h
    rw [records_leafNode]
    exact Or.inl ⟨by omega, fun _ _ => trivial⟩
  | succ d ih =>
    have whole := h
    obtain ⟨t, ts, F, L, b, rfl, -, hs, -, filled⟩ := h
    rcases ts with - | ⟨⟨k₀, g⟩, - | ⟨⟨k₁, f⟩, ts⟩⟩
    · exact absurd filled (Nat.lt_irrefl 0)
    · have first : WellFormed (d + 1) root r (internNode (join [] t [(k₀, g)]).1
        (join [] t [(k₀, g)]).2 F L b) := whole
      have second : WellFormed (d + 1) root r (internNode (join [(t, k₀)] g []).1
        (join [(t, k₀)] g []).2 F L b) := whole
      rcases ih (siblings_focus (wellFormed_children first)) with ⟨few, left⟩ | ⟨k, K, hk, child⟩
      · rcases ih (siblings_focus (wellFormed_children second)) with
          ⟨few', left'⟩ | ⟨k, K, hk, child⟩
        · refine Or.inl ⟨?_, fun K hK => ?_⟩
          · have double : Fanout * 2 ^ (d + 1) = Fanout * 2 ^ d + Fanout * 2 ^ d := by
              rw [Nat.pow_succ, Nat.mul_two, Nat.mul_add]
            rw [records_internNode, gather, List.length_append, List.flatMap_singleton, double]
            exact Nat.add_le_add few few'
          · exact leftPath_pair left left' hK
        · exact Or.inr ⟨k, K, (focusRange_seps (wellFormed_children second) hk).1,
            child.node second (Nat.le_refl 1) hk⟩
      · exact Or.inr ⟨k, K, (focusRange_seps (wellFormed_children first) hk).1,
          child.node first (Nat.zero_le 1) hk⟩
    · exact Or.inr (diverts_drop whole)

end DeepDB.Functional
