import DeepDB.Functional.Path

/-!
Stepping a cursor of the functional model. A complete cursor denotes a position in the abstract
list of the relation. `RL_MoveToNext` always goes on to the next position. `RL_MoveToPrevious`
starts from the tail of its cursor, without the leaf, and goes back by one position only from the
first entries of a leaf.
-/

namespace DeepDB.Functional
open SortedAssoc Multiway

variable {V X : Type} {d : Nat} {root : Bool} {r : Range Key}

/-! ### Positions -/

/-- How many entries of the abstract list a node has in front of an index. -/
def entriesBefore : Node V X → Int → Nat
  | .btnode ptr0 le isLeaf _ _ _, i =>
    if isLeaf then i.toNat
    else if i = -1 then 0
    else (absPtr0 ptr0 ++ absLe (le.take i.toNat)).length

def position : Cursor V X → Nat
  | [] => 0
  | (n, i) :: c => entriesBefore n i + position c

/-- The cursor is complete and denotes the position `pos`. -/
def Denotes (n₀ : Node V X) (c : Cursor V X) (pos : Nat) : Prop :=
  completeCursor c n₀ ∧ position c = pos

theorem entriesBefore_leaf {n : Node V X} (h : n.isLeaf = true) (i : Nat) :
    entriesBefore n i = i := by
  obtain ⟨ptr0, le, isLeaf, F, L, x⟩ := n
  obtain rfl : isLeaf = true := h
  rfl

theorem absLe_take_join (e : Node V X × Key) (pre : List (Node V X × Key)) (f : Node V X)
    (post : List (Key × Node V X)) :
    absNode e.1 ++ absLe (((join (e :: pre) f post).2.map ofChild).take pre.length) =
      (e :: pre).flatMap fun x => absNode x.1 := by
  induction pre generalizing e with
  | nil => simp [absLe]
  | cons e' pre ih =>
    rw [join, List.map_cons, List.length_cons, List.take_succ_cons, absLe, List.flatMap_cons,
      ← ih e']
    rfl

theorem entriesBefore_join {pre : List (Node V X × Key)} {f : Node V X}
    {post : List (Key × Node V X)} {F L : Bool} {x : X} :
    entriesBefore (internNode (join pre f post).1 (join pre f post).2 F L x)
      ((pre.length : Int) - 1) = (pre.flatMap fun x => absNode x.1).length := by
  cases pre with
  | nil => rfl
  | cons e pre =>
    have index : ((e :: pre).length : Int) - 1 = (pre.length : Int) := by simp
    have inside : ¬ (pre.length : Int) = -1 := by omega
    rw [index, internNode, entriesBefore, if_neg Bool.false_ne_true, if_neg inside,
      Int.toNat_natCast, ← absLe_take_join e pre f post]
    rfl

/-! ### Nodes of a relation -/

/-- The cursor `c` leads from the root `n₀` to `n`. -/
structure Under (n₀ : Node V X) (c : Cursor V X) (n : Node V X) (d : Nat) (root : Bool)
    (r : Range Key) : Prop where
  correct : partialCursorCorrect c n n₀
  wellFormed : WellFormed d root r n
  notRoot : c ≠ [] → root = false
  lo : r.lo = none ↔ ∀ e ∈ c, e.2 = -1
  hi : r.hi = none ↔ ∀ e ∈ c, e.2 = lastpointer e.1
  start : r.lo = none → position c = 0
  stop : r.hi = none → position c + (absNode n).length = (absNode n₀).length
  inside : position c + (absNode n).length ≤ (absNode n₀).length

variable {n₀ n : Node V X} {c : Cursor V X}

theorem under_root (h : WellFormed d true Range.full n₀) : Under n₀ [] n₀ d true Range.full where
  correct := rfl
  wellFormed := h
  notRoot no := absurd rfl no
  lo := ⟨fun _ _ no => (by cases no), fun _ => rfl⟩
  hi := ⟨fun _ _ no => (by cases no), fun _ => rfl⟩
  start _ := rfl
  stop _ := by rw [position, Nat.zero_add]
  inside := by rw [position, Nat.zero_add]

section
variable {pre : List (Node V X × Key)} {f : Node V X} {post : List (Key × Node V X)} {F L : Bool}
  {x : X}

theorem lastpointer_join :
    lastpointer (internNode (join pre f post).1 (join pre f post).2 F L x) =
      (pre.length : Int) + post.length - 1 := by
  have length := length_join pre f post
  unfold lastpointer internNode
  rw [Node.isLeaf, if_neg Bool.false_ne_true, Node.le, List.length_map]
  omega

theorem wellFormed_children
    (h : WellFormed (d + 1) root r (internNode (join pre f post).1 (join pre f post).2 F L x)) :
    Siblings (WellFormed d false) r (join pre f post).1 (join pre f post).2 := by
  obtain ⟨t, ts, F', L', x', same, -, hs, -⟩ := h
  simp only [internNode, Node.btnode.injEq, Option.some.injEq] at same
  obtain ⟨rfl, same, -⟩ := same
  have entries : (join pre f post).2 = ts := by
    refine List.map_injective_iff.mpr ?_ same
    intro a b same
    obtain ⟨k, n⟩ := a
    obtain ⟨k', n'⟩ := b
    cases same
    rfl
  rw [entries]
  exact hs

theorem Under.child
    (h : Under n₀ c (internNode (join pre f post).1 (join pre f post).2 F L x) (d + 1) root r) :
    Under n₀ ((internNode (join pre f post).1 (join pre f post).2 F L x, (pre.length : Int) - 1) :: c)
      f d false (focusRange r pre post) := by
  have total := h.inside
  rw [absNode_internNode, gather_join, List.length_append, List.length_append] at total
  refine ⟨⟨h.correct, nthNode_join⟩, siblings_focus (wellFormed_children h.wellFormed),
    fun _ => rfl, ?_, ?_, ?_, ?_, ?_⟩
  · rw [focusRange_lo, h.lo, List.forall_mem_cons]
    refine and_congr_left fun _ => ?_
    rw [← List.length_eq_zero_iff]
    dsimp only
    omega
  · rw [focusRange_hi, h.hi, List.forall_mem_cons, lastpointer_join]
    refine and_congr_left fun _ => ?_
    rw [← List.length_eq_zero_iff]
    dsimp only
    omega
  · intro lo
    obtain ⟨rfl, outer⟩ := (focusRange_lo r pre post).mp lo
    rw [position, entriesBefore_join, h.start outer]
    rfl
  · intro hi
    obtain ⟨rfl, outer⟩ := (focusRange_hi r pre post).mp hi
    have all := h.stop outer
    rw [absNode_internNode, gather_join, List.length_append, List.length_append,
      List.flatMap_nil, List.length_nil] at all
    rw [position, entriesBefore_join]
    omega
  · rw [position, entriesBefore_join]
    omega

end

theorem exists_under (h : WellFormed d true Range.full n₀) (hc : partialCursorCorrect c n n₀) :
    ∃ d root r, Under n₀ c n d root r := by
  induction c generalizing n with
  | nil =>
    obtain rfl := hc
    exact ⟨d, true, Range.full, under_root h⟩
  | cons e c ih =>
    obtain ⟨n', i⟩ := e
    obtain ⟨hc, hn⟩ := hc
    obtain ⟨d', root, r, hu⟩ := ih hc
    cases d' with
    | zero =>
      obtain ⟨recs, F, L, x, rfl, -⟩ := hu.wellFormed
      simp [leafNode, nthNode] at hn
    | succ d' =>
      obtain ⟨t, ts, F, L, x, rfl, -⟩ := hu.wellFormed
      obtain ⟨pre, post, hj, rfl⟩ := exists_join hn
      obtain ⟨rfl, rfl⟩ := Prod.mk.inj hj
      exact ⟨d', false, focusRange r pre post, hu.child⟩

/-- The node above `n`, seen as a node with `n` in its focus. -/
theorem Under.parent (h : WellFormed d true Range.full n₀) {p : Node V X} {j : Int} {d' : Nat}
    (hu : Under n₀ ((p, j) :: c) n d' root r) :
    ∃ pre post F L x root' r',
      p = internNode (join pre n post).1 (join pre n post).2 F L x ∧
        j = (pre.length : Int) - 1 ∧ Under n₀ c p (d' + 1) root' r' := by
  obtain ⟨hc, hn⟩ := hu.correct
  obtain ⟨d₁, root', r', hp⟩ := exists_under h hc
  cases d₁ with
  | zero =>
    obtain ⟨recs, F, L, x, rfl, -⟩ := hp.wellFormed
    simp [leafNode, nthNode] at hn
  | succ d₁ =>
    obtain ⟨t, ts, F, L, x, rfl, -⟩ := id hp.wellFormed
    obtain ⟨pre, post, hj, rfl⟩ := exists_join hn
    obtain ⟨rfl, rfl⟩ := Prod.mk.inj hj
    have depth := (wellFormed_depth hp.child.wellFormed).symm.trans (wellFormed_depth hu.wellFormed)
    rw [← depth]
    exact ⟨pre, post, F, L, x, root', r', rfl, rfl, hp⟩

theorem length_leaf (h : WellFormed 0 root r n) : n.le.length = (absNode n).length := by
  obtain ⟨recs, F, L, x, rfl, -⟩ := h
  rw [absNode_leafNode, List.length_map, leafNode, Node.le, List.length_map]

theorem leaf_nonempty (h : WellFormed 0 false r n) : 0 < n.le.length := by
  rw [length_leaf h]
  exact List.length_pos_iff.mpr (wellFormed_nonempty h)

theorem wellFormed_First (h : WellFormed d root r n) : n.First = r.lo.isNone := by
  cases d with
  | zero =>
    obtain ⟨recs, F, L, x, rfl, flags, -⟩ := h
    exact flags.1
  | succ d =>
    obtain ⟨t, ts, F, L, x, rfl, flags, -⟩ := h
    exact flags.1

theorem wellFormed_Last (h : WellFormed d root r n) : n.Last = r.hi.isNone := by
  cases d with
  | zero =>
    obtain ⟨recs, F, L, x, rfl, flags, -⟩ := h
    exact flags.2
  | succ d =>
    obtain ⟨t, ts, F, L, x, rfl, flags, -⟩ := h
    exact flags.2

/-! ### Going down -/

theorem moveToFirst_leaf (h : n.isLeaf = true) (c : Cursor V X) : moveToFirst n c = (n, 0) :: c := by
  obtain ⟨ptr0, le, isLeaf, F, L, x⟩ := n
  obtain rfl : isLeaf = true := h
  rfl

theorem moveToLast_leaf (h : n.isLeaf = true) (c : Cursor V X) :
    moveToLast n c = (n, (n.le.length : Int)) :: c := by
  rw [moveToLast, moveToLastIn, if_pos h]

theorem moveToFirst_spec (hu : Under n₀ c n d root r) :
    ∃ leaf rest root' r', moveToFirst n c = (leaf, 0) :: rest ∧ Under n₀ rest leaf 0 root' r' ∧
      position rest = position c ∧ isFirst rest = (n.isLeaf && isFirst c) ∧
      (r.lo = none → r'.lo = none) ∧ (root = false → root' = false) := by
  induction d generalizing n c root r with
  | zero =>
    have hleaf := (wellFormed_isLeaf hu.wellFormed).mpr rfl
    exact ⟨n, c, root, r, moveToFirst_leaf hleaf c, hu, rfl, by rw [hleaf, Bool.true_and], id,
      id⟩
  | succ d ih =>
    obtain ⟨t, ts, F, L, x, rfl, -⟩ := id hu.wellFormed
    have focused : Under n₀ c (internNode (join [] t ts).1 (join [] t ts).2 F L x) (d + 1) root r := hu
    have child : Under n₀ ((internNode t ts F L x, -1) :: c) t d false (focusRange r [] ts) :=
      focused.child
    obtain ⟨leaf, rest, root', r', down, hleaf, same, first, lo, inner⟩ := ih child
    refine ⟨leaf, rest, root', r', ?_, hleaf, ?_, ?_, fun outer => lo ?_, fun _ => inner rfl⟩
    · rw [← down, moveToFirst, wellFormed_depth hu.wellFormed, internNode, moveToFirstIn,
        if_neg Bool.false_ne_true, moveToFirst, wellFormed_depth child.wellFormed]
    · rw [same]
      exact Nat.zero_add _
    · rw [first]
      simp [isFirst, internNode, Node.isLeaf]
    · exact (focusRange_lo r [] ts).mpr ⟨rfl, outer⟩

theorem moveToLast_spec (hu : Under n₀ c n d root r) :
    ∃ leaf rest root' r', moveToLast n c = (leaf, (leaf.le.length : Int)) :: rest ∧
      Under n₀ rest leaf 0 root' r' ∧
      position rest + leaf.le.length = position c + (absNode n).length ∧
      (root = false → root' = false) := by
  induction d generalizing n c root r with
  | zero =>
    have hleaf := (wellFormed_isLeaf hu.wellFormed).mpr rfl
    exact ⟨n, c, root, r, moveToLast_leaf hleaf c, hu, by rw [length_leaf hu.wellFormed], id⟩
  | succ d ih =>
    obtain ⟨t, ts, F, L, x, rfl, -, -, -, filled⟩ := id hu.wellFormed
    obtain ⟨e, he⟩ : ∃ e, ts[ts.length - 1]? = some e :=
      ⟨_, List.getElem?_eq_getElem (Nat.sub_lt filled Nat.one_pos)⟩
    obtain ⟨pre, post, hj, hlen⟩ := join_of_getElem? (t := t) he
    obtain ⟨rfl, rfl⟩ := Prod.mk.inj hj
    have total := length_join pre e.2 post
    obtain rfl : post = [] := List.length_eq_zero_iff.mp (by omega)
    obtain ⟨leaf, rest, root', r', down, hleaf, stop, inner⟩ := ih hu.child
    refine ⟨leaf, rest, root', r', ?_, hleaf, ?_, fun _ => inner rfl⟩
    · have index : ((internNode (join pre e.2 []).1 (join pre e.2 []).2 F L x).le.length : Int) - 1 =
          (pre.length : Int) - 1 := by
        rw [internNode, Node.le, List.length_map, total]
        rfl
      rw [← down, moveToLast, wellFormed_depth hu.wellFormed, moveToLastIn,
        if_neg (by simp [internNode, Node.isLeaf]), index, nthNode_join, moveToLast,
        wellFormed_depth hu.child.wellFormed]
    · rw [stop, position, entriesBefore_join, absNode_internNode, gather_join, List.length_append,
        List.length_append]
      simp only [List.flatMap_nil, List.length_nil]
      omega

/-! ### One step forward -/

theorem denotes_leaf (hu : Under n₀ c n 0 root r) {i : Nat} (hi : i ≤ n.le.length) :
    Denotes n₀ ((n, (i : Int)) :: c) (i + position c) := by
  have hleaf := (wellFormed_isLeaf hu.wellFormed).mpr rfl
  refine ⟨⟨hu.correct, hleaf, Int.natCast_nonneg _, by exact_mod_cast hi⟩, ?_⟩
  rw [position, entriesBefore_leaf hleaf]

/-- The cursor is at the `ptr0` of the first node of its level. -/
def firstPtr0 : Cursor V X → Bool
  | [] => false
  | (p, j) :: _ => p.First && j == -1

theorem upAtLast_here {p : Node V X} {k : Int} (hk : k ≠ lastpointer p) (c : Cursor V X) :
    upAtLast ((p, k) :: c) = (p, k) :: c := by
  cases c with
  | nil => rfl
  | cons e c => simp [upAtLast, hk]

/-- The ascent ends in front of the child whose entries come next. -/
theorem upAtLast_spec (h : WellFormed d true Range.full n₀) {d' : Nat} (hu : Under n₀ c n d' root r)
    (notLast : r.hi ≠ none) :
    ∃ p k rest child d₁ r₁, upAtLast c = (p, k) :: rest ∧ p.isLeaf = false ∧
      nthNode (k + 1) p = some child ∧ Under n₀ ((p, k + 1) :: rest) child d₁ false r₁ ∧
      position ((p, k + 1) :: rest) = position c + (absNode n).length ∧
      (child.isLeaf && isFirst ((p, k + 1) :: rest)) = (n.isLeaf && firstPtr0 c) := by
  induction c generalizing n d' root r with
  | nil => exact absurd (hu.hi.mpr fun _ no => (by cases no)) notLast
  | cons e c ih =>
    obtain ⟨p, j⟩ := e
    obtain ⟨pre, post, F, L, x, root', r', rfl, rfl, hp⟩ := hu.parent h
    cases post with
    | nil =>
      have last : (pre.length : Int) - 1 = lastpointer
          (internNode (join pre n []).1 (join pre n []).2 F L x) := by
        rw [lastpointer_join]
        simp
      have outer : r'.hi ≠ none := fun none => notLast (hu.hi.mpr fun e he => by
        rcases List.mem_cons.mp he with rfl | he
        · exact last
        · exact hp.hi.mp none e he)
      obtain ⟨p', k, rest, child, d₁, r₁, up, hleaf, hchild, hu₁, stop, first⟩ := ih hp outer
      refine ⟨p', k, rest, child, d₁, r₁, ?_, hleaf, hchild, hu₁, ?_, ?_⟩
      · cases c with
        | nil => cases up
        | cons e c =>
          rw [← up, upAtLast, if_pos last]
          exact fun no => by cases no
      · rw [stop, position, entriesBefore_join, absNode_internNode, gather_join, List.length_append,
          List.length_append]
        simp only [List.flatMap_nil, List.length_nil]
        omega
      · have filled : 0 < pre.length := by
          obtain ⟨t, ts, F', L', x', same, -, -, -, filled⟩ := hp.wellFormed
          have entries := congrArg (fun n => n.le.length) same
          simp only [internNode, Node.le, List.length_map, length_join, List.length_nil] at entries
          omega
        have inside : ((pre.length : Int) - 1 == -1) = false := by
          rw [beq_eq_false_iff_ne]
          omega
        rw [first, firstPtr0, inside, Bool.and_false, Bool.and_false]
        rfl
    | cons e post =>
      obtain ⟨k, g⟩ := e
      have notHere : (pre.length : Int) - 1 ≠ lastpointer
          (internNode (join pre n ((k, g) :: post)).1 (join pre n ((k, g) :: post)).2 F L x) := by
        rw [lastpointer_join, List.length_cons]
        omega
      have shift := join_shift pre n g k post
      have index : (pre.length : Int) - 1 + 1 = ((pre ++ [(n, k)]).length : Int) - 1 := by
        rw [List.length_append, List.length_singleton]
        omega
      have hp' := hp
      rw [shift] at hp'
      refine ⟨_, (pre.length : Int) - 1, c, g, d', focusRange r' (pre ++ [(n, k)]) post,
        upAtLast_here notHere c, rfl, ?_, ?_, ?_, ?_⟩
      · rw [index, shift]
        exact nthNode_join
      · rw [index, shift]
        exact hp'.child
      · rw [index, position, position, entriesBefore_join, shift, entriesBefore_join,
          List.flatMap_append, List.length_append, List.flatMap_singleton]
        dsimp only
        omega
      · have level : g.isLeaf = n.isLeaf := by
          rw [Bool.eq_iff_iff, wellFormed_isLeaf hp'.child.wellFormed,
            wellFormed_isLeaf hu.wellFormed]
        have zero : ((pre.length : Int) - 1 + 1 == 0) = ((pre.length : Int) - 1 == -1) := by
          rw [Bool.eq_iff_iff, beq_iff_eq, beq_iff_eq]
          omega
        rw [level, isFirst, firstPtr0, zero]

variable {x : X}

theorem moveToNext_inside (hleaf : n.isLeaf = true) {i : Nat} (hi : i < n.le.length)
    (c : Cursor V X) (rel : Relation V X) :
    moveToNext ((n, (i : Int)) :: c) rel = (n, ((i + 1 : Nat) : Int)) :: c := by
  have before : (i : Int) ≠ n.le.length := by omega
  have valid : isValid ((n, (i : Int)) :: c) rel = true := by
    simp [isValid, entryIndex, currNode, beq_eq_false_iff_ne.mpr before]
  have here : (i : Int) ≠ lastpointer n := by
    unfold lastpointer
    rw [if_pos hleaf]
    exact before
  rw [moveToNext, if_pos valid, upAtLast_here here, nextCursor]
  simp [hleaf]

theorem moveToNext_end (hu : Under n₀ c n 0 root r) (last : r.hi = none) :
    moveToNext ((n, (n.le.length : Int)) :: c) (n₀, x) = (n, (n.le.length : Int)) :: c := by
  have flag : n.Last = true := by rw [wellFormed_Last hu.wellFormed, last]; rfl
  have invalid : isValid ((n, (n.le.length : Int)) :: c) (n₀, x) = false := by
    simp [isValid, entryIndex, currNode, flag]
  rw [moveToNext, invalid, if_neg Bool.false_ne_true]

/-- From the end of a leaf the cursor goes to the first entry of the next one. -/
theorem moveToNext_leaves (h : WellFormed d true Range.full n₀) (hu : Under n₀ c n 0 root r)
    (notLast : r.hi ≠ none) :
    ∃ leaf rest r', moveToNext ((n, (n.le.length : Int)) :: c) (n₀, x) = (leaf, 0) :: rest ∧
      Under n₀ rest leaf 0 false r' ∧ position rest = n.le.length + position c ∧
      isFirst rest = firstPtr0 c := by
  have hleaf := (wellFormed_isLeaf hu.wellFormed).mpr rfl
  have flag : n.Last = false := by
    rw [wellFormed_Last hu.wellFormed, Option.isNone_eq_false_iff]
    exact Option.isSome_iff_ne_none.mpr notLast
  have valid : isValid ((n, (n.le.length : Int)) :: c) (n₀, x) = true := by
    simp [isValid, currNode, flag]
  obtain ⟨p, k, rest, child, d₁, r₁, up, hp, hchild, hu₁, stop, first⟩ := upAtLast_spec h hu notLast
  obtain ⟨leaf, rest', root', r', down, hu', same, first', -, inner⟩ := moveToFirst_spec hu₁
  obtain rfl := inner rfl
  refine ⟨leaf, rest', r', ?_, hu', ?_, ?_⟩
  · have climbs : upAtLast ((n, (n.le.length : Int)) :: c) = upAtLast c := by
      cases c with
      | nil => cases up
      | cons e c =>
        rw [upAtLast, if_pos (by unfold lastpointer; rw [if_pos hleaf])]
        exact fun no => by cases no
    rw [moveToNext, if_pos valid, climbs, up, nextCursor]
    simp only [hp, Bool.false_eq_true, if_false, hchild]
    exact down
  · rw [same, stop, length_leaf hu.wellFormed, Nat.add_comm]
  · rw [first', first, hleaf, Bool.true_and]

theorem complete_under (h : WellFormed d true Range.full n₀) (hc : completeCursor c n₀) :
    ∃ n i c' root r, c = (n, ((i : Nat) : Int)) :: c' ∧ Under n₀ c' n 0 root r ∧ i ≤ n.le.length := by
  cases c with
  | nil => exact absurd hc id
  | cons e c =>
    obtain ⟨n, i⟩ := e
    obtain ⟨correct, hleaf, nonneg, bounded⟩ := hc
    obtain ⟨i, rfl⟩ := Int.eq_ofNat_of_zero_le nonneg
    obtain ⟨d', root, r, hu⟩ := exists_under h correct
    obtain rfl := (wellFormed_isLeaf hu.wellFormed).mp hleaf
    exact ⟨n, i, c, root, r, rfl, hu, Int.ofNat_le.mp bounded⟩

/-- The next position, from inside a leaf, from the end of the relation and from the end of any
other leaf. -/
theorem RL_MoveToNext_spec (h : WellFormed d true Range.full n₀) (hu : Under n₀ c n 0 root r)
    {i : Nat} (hi : i ≤ n.le.length) :
    (i < n.le.length ∧
        RL_MoveToNext ((n, (i : Int)) :: c) (n₀, x) = (n, ((i + 1 : Nat) : Int)) :: c) ∨
      (i = n.le.length ∧ r.hi = none ∧
        RL_MoveToNext ((n, (i : Int)) :: c) (n₀, x) = (n, (i : Int)) :: c) ∨
      (i = n.le.length ∧ ∃ leaf rest r',
        RL_MoveToNext ((n, (i : Int)) :: c) (n₀, x) = (leaf, ((1 : Nat) : Int)) :: rest ∧
        Under n₀ rest leaf 0 false r' ∧ position rest = i + position c ∧
        isFirst rest = firstPtr0 c) := by
  rcases Nat.lt_or_ge i n.le.length with before | after
  · have inside : ¬ (i : Int) = n.le.length := by omega
    refine Or.inl ⟨before, ?_⟩
    rw [RL_MoveToNext, if_neg inside]
    exact moveToNext_inside ((wellFormed_isLeaf hu.wellFormed).mpr rfl) before _ _
  · obtain rfl : i = n.le.length := Nat.le_antisymm hi after
    refine Or.inr ?_
    rw [RL_MoveToNext, if_pos rfl]
    cases last : r.hi with
    | none => exact Or.inl ⟨rfl, rfl, by rw [moveToNext_end hu last, moveToNext_end hu last]⟩
    | some k =>
      obtain ⟨leaf, rest, r', leaves, hu', same, first⟩ :=
        moveToNext_leaves (x := x) h hu (by rw [last]; exact Option.some_ne_none k)
      refine Or.inr ⟨rfl, leaf, rest, r', ?_, hu', same, first⟩
      rw [leaves]
      exact moveToNext_inside ((wellFormed_isLeaf hu'.wellFormed).mpr rfl)
        (leaf_nonempty hu'.wellFormed) _ _

theorem RL_MoveToNext_denotes (h : WellFormed d true Range.full n₀) {pos : Nat}
    (hc : Denotes n₀ c pos) :
    Denotes n₀ (RL_MoveToNext c (n₀, x)) (min (pos + 1) (absNode n₀).length) := by
  obtain ⟨complete, rfl⟩ := hc
  obtain ⟨n, i, c, root, r, rfl, hu, hi⟩ := complete_under h complete
  have here := (denotes_leaf hu hi).2
  have inside := hu.inside
  rw [← length_leaf hu.wellFormed] at inside
  rw [here]
  rcases RL_MoveToNext_spec (x := x) h hu hi with
    ⟨before, next⟩ | ⟨rfl, last, next⟩ | ⟨rfl, leaf, rest, r', next, hu', same, -⟩
  · rw [next, Nat.min_eq_left (by omega)]
    rw [Nat.add_right_comm]
    exact denotes_leaf hu (Nat.succ_le_of_lt before)
  · have all := hu.stop last
    rw [← length_leaf hu.wellFormed] at all
    rw [next, Nat.min_eq_right (by omega), ← all, Nat.add_comm (position c)]
    exact denotes_leaf hu (Nat.le_refl _)
  · have filled := leaf_nonempty hu'.wellFormed
    have inside' := hu'.inside
    rw [← length_leaf hu'.wellFormed] at inside'
    rw [next, Nat.min_eq_left (by omega), ← same, Nat.add_comm (position rest)]
    exact denotes_leaf hu' filled

/-! ### One step backward -/

/-- The ascent ends behind the child whose entries come before, or goes past the root. -/
theorem upAtFirst_spec (h : WellFormed d true Range.full n₀) {d' : Nat}
    (hu : Under n₀ c n d' root r) :
    (upAtFirst c = [] ∧ position c = 0) ∨
      ∃ p k rest child d₁ r₁, upAtFirst c = (p, k) :: rest ∧ p.isLeaf = false ∧
        nthNode (k - 1) p = some child ∧ Under n₀ ((p, k - 1) :: rest) child d₁ false r₁ ∧
        position ((p, k - 1) :: rest) + (absNode child).length = position c := by
  induction c generalizing n d' root r with
  | nil => exact Or.inl ⟨rfl, rfl⟩
  | cons e c ih =>
    obtain ⟨p, j⟩ := e
    obtain ⟨pre, post, F, L, x, root', r', rfl, rfl, hp⟩ := hu.parent h
    rcases List.eq_nil_or_concat pre with rfl | ⟨pre, ⟨g, k⟩, rfl⟩
    · have climbs : upAtFirst
          ((internNode (join [] n post).1 (join [] n post).2 F L x, -1) :: c) = upAtFirst c :=
        if_pos rfl
      have start : entriesBefore (internNode (join [] n post).1 (join [] n post).2 F L x) (-1) = 0 :=
        rfl
      rw [List.length_nil, Int.natCast_zero, Int.zero_sub, climbs, position, start, Nat.zero_add]
      exact ih hp
    · rw [List.concat_eq_append] at hp ⊢
      have index : ((pre ++ [(g, k)]).length : Int) - 1 - 1 = (pre.length : Int) - 1 := by
        rw [List.length_append, List.length_singleton]
        omega
      have notHere : ((pre ++ [(g, k)]).length : Int) - 1 ≠ firstpointer
          (internNode (join (pre ++ [(g, k)]) n post).1 (join (pre ++ [(g, k)]) n post).2 F L x) := by
        rw [List.length_append, List.length_singleton]
        unfold firstpointer
        rw [internNode, Node.isLeaf, if_neg Bool.false_ne_true]
        omega
      have shift := (join_shift pre g n k post).symm
      have hp' := hp
      rw [shift] at hp'
      refine Or.inr ⟨_, ((pre ++ [(g, k)]).length : Int) - 1, c, g, d', focusRange r' pre ((k, n) :: post),
        if_neg notHere, rfl, ?_, ?_, ?_⟩
      · rw [index, shift]
        exact nthNode_join
      · rw [index, shift]
        exact hp'.child
      · rw [index, position, position, entriesBefore_join, shift, entriesBefore_join,
          List.flatMap_append, List.length_append, List.flatMap_singleton]
        dsimp only
        omega

theorem moveToPrev_back (hu : Under n₀ c n 0 root r) {i : Nat} (hi : 0 < i) :
    moveToPrev ((n, (i : Int)) :: c) (n₀, x) = (n, ((i - 1 : Nat) : Int)) :: c := by
  have hleaf := (wellFormed_isLeaf hu.wellFormed).mpr rfl
  have inside : (i : Int) ≠ 0 := by omega
  have notFirst : isFirst ((n, (i : Int)) :: c) = false := by
    rw [isFirst, beq_eq_false_iff_ne.mpr inside, Bool.and_false]
  have here : upAtFirst ((n, (i : Int)) :: c) = (n, (i : Int)) :: c := by
    unfold upAtFirst firstpointer
    rw [if_pos hleaf, if_neg inside]
  rw [moveToPrev, notFirst, if_neg Bool.false_ne_true, here, prevCursor]
  have index : (i : Int) - 1 = ((i - 1 : Nat) : Int) := by omega
  simp only [hleaf, if_true, index]

/-- From the nodes above a leaf `moveToPrev` goes to the end of the leaf in front, or to the start. -/
theorem moveToPrev_tail (h : WellFormed d true Range.full n₀) {d' : Nat}
    (hu : Under n₀ c n d' root r) (notFirst : isFirst c = false) :
    ∃ leaf i rest root' r', moveToPrev c (n₀, x) = (leaf, ((i : Nat) : Int)) :: rest ∧
      Under n₀ rest leaf 0 root' r' ∧ i ≤ leaf.le.length ∧ i + position rest = position c ∧
      (0 < i ∨ i = 0 ∧ leaf.First = true ∧ position c = 0) := by
  rcases upAtFirst_spec h hu with ⟨up, start⟩ | ⟨p, k, rest, child, d₁, r₁, up, hp, hchild, hu₁, stop⟩
  · obtain ⟨leaf, rest, root', r', down, hu', same, -, lo, -⟩ := moveToFirst_spec (under_root h)
    refine ⟨leaf, 0, rest, root', r', ?_, hu', Nat.zero_le _, ?_, Or.inr ⟨rfl, ?_, start⟩⟩
    · rw [moveToPrev, notFirst, if_neg Bool.false_ne_true, up]
      exact down
    · rw [same, start]
      rfl
    · rw [wellFormed_First hu'.wellFormed, lo rfl]
      rfl
  · obtain ⟨leaf, rest', root', r', down, hu', same, inner⟩ := moveToLast_spec hu₁
    obtain rfl := inner rfl
    refine ⟨leaf, leaf.le.length, rest', false, r', ?_, hu', Nat.le_refl _, ?_,
      Or.inl (leaf_nonempty hu'.wellFormed)⟩
    · rw [moveToPrev, notFirst, if_neg Bool.false_ne_true, up, prevCursor]
      simp only [hp, Bool.false_eq_true, if_false, hchild]
      exact down
    · rw [← stop, ← same, Nat.add_comm]

/-- Above a first node at its first entry the steps stay where they are, on a cursor with no leaf. -/
theorem RL_MoveToPrevious_stuck (first : isFirst c = true) (i : Int) :
    RL_MoveToPrevious ((n, i) :: c) (n₀, x) = c := by
  have stays : moveToPrev c (n₀, x) = c := by rw [moveToPrev, if_pos first]
  rw [RL_MoveToPrevious, stays, stays, ite_self]

theorem tail_incomplete (h : WellFormed d true Range.full n₀) {d' : Nat}
    (hu : Under n₀ c n d' root r) : ¬ completeCursor c n₀ := by
  intro complete
  cases c with
  | nil => exact complete
  | cons e c =>
    obtain ⟨p, j⟩ := e
    obtain ⟨pre, post, F, L, x, root', r', rfl, -, -⟩ := hu.parent h
    exact Bool.false_ne_true complete.2.1

/-- Anywhere else they go back by one position from the first entry of the leaf, and from each other
entry to the position of the first one. -/
theorem RL_MoveToPrevious_denotes (h : WellFormed d true Range.full n₀) (hu : Under n₀ c n 0 root r)
    (notFirst : isFirst c = false) (i : Nat) :
    Denotes n₀ (RL_MoveToPrevious ((n, (i : Int)) :: c) (n₀, x))
      (if i = 0 then position c - 1 else position c) := by
  obtain ⟨leaf, j, rest, root', r', prev, hu', hj, same, here⟩ :=
    moveToPrev_tail (x := x) h hu notFirst
  by_cases hi : i = 0
  · obtain rfl := hi
    rw [RL_MoveToPrevious, if_pos Int.natCast_zero, if_pos rfl, prev]
    rcases here with later | ⟨rfl, first, start⟩
    · rw [moveToPrev_back hu' later, ← same, Nat.sub_add_comm later]
      exact denotes_leaf hu' (Nat.le_trans (Nat.sub_le _ _) hj)
    · have stays : isFirst ((leaf, ((0 : Nat) : Int)) :: rest) = true := by
        rw [isFirst, first]
        rfl
      have zero : position c - 1 = 0 + position rest := by omega
      rw [moveToPrev, if_pos stays, zero]
      exact denotes_leaf hu' hj
  · have inside : ¬ (i : Int) = 0 := by omega
    rw [RL_MoveToPrevious, if_neg inside, if_neg hi, prev, ← same]
    exact denotes_leaf hu' hj

theorem previous_denotes_iff (h : WellFormed d true Range.full n₀) (hu : Under n₀ c n 0 root r)
    (i : Nat) :
    Denotes n₀ (RL_MoveToPrevious ((n, (i : Int)) :: c) (n₀, x)) (i + position c - 1) ↔
      i ≤ 1 ∧ isFirst c = false := by
  cases first : isFirst c with
  | true =>
    refine iff_of_false (fun denotes => ?_) (fun no => by cases no.2)
    rw [RL_MoveToPrevious_stuck first] at denotes
    exact tail_incomplete h hu denotes.1
  | false =>
    have denotes := RL_MoveToPrevious_denotes (x := x) h hu first i
    refine ⟨fun same => ⟨?_, rfl⟩, fun few => ?_⟩
    · have pos := denotes.2.symm.trans same.2
      split at pos
      · omega
      · omega
    · have pos : i + position c - 1 = if i = 0 then position c - 1 else position c := by
        split
        · omega
        · omega
      rwa [pos]

/-! ### The laws of the steps -/

/-- What the steps should do from the cursor `c`. -/
structure StepLaws (n₀ : Node V X) (x : X) (c : Cursor V X) : Prop where
  next : Denotes n₀ (RL_MoveToNext c (n₀, x)) (min (position c + 1) (absNode n₀).length)
  previous : Denotes n₀ (RL_MoveToPrevious c (n₀, x)) (position c - 1)
  next_previous : 0 < position c → position c < (absNode n₀).length →
    Denotes n₀ (RL_MoveToNext (RL_MoveToPrevious c (n₀, x)) (n₀, x)) (position c)
  previous_next : 0 < position c → position c < (absNode n₀).length →
    Denotes n₀ (RL_MoveToPrevious (RL_MoveToNext c (n₀, x)) (n₀, x)) (position c)

/-- The cursor is at the first entry of its leaf or behind its only entry, and no first node of a
level is at its first entry just above. -/
def StepsBack : Cursor V X → Prop
  | [] => False
  | (n, i) :: c => (i = 0 ∨ i = 1 ∧ n.le.length = 1) ∧ isFirst c = false ∧
      (i = 1 → firstPtr0 c = false)

theorem firstPtr0_last (h : WellFormed d true Range.full n₀) {d' : Nat}
    (hu : Under n₀ c n d' root r) (last : r.hi = none) : firstPtr0 c = false := by
  cases c with
  | nil => rfl
  | cons e c =>
    obtain ⟨p, j⟩ := e
    obtain ⟨pre, post, F, L, x, root', r', rfl, rfl, hp⟩ := hu.parent h
    have here := hu.hi.mp last _ List.mem_cons_self
    obtain ⟨t, ts, F', L', x', same, -, -, -, filled⟩ := hp.wellFormed
    have entries := congrArg (fun n => n.le.length) same
    simp only [internNode, Node.le, List.length_map, length_join] at entries
    rw [lastpointer_join] at here
    have inside : (pre.length : Int) - 1 ≠ -1 := by
      dsimp only at here
      omega
    rw [firstPtr0, beq_eq_false_iff_ne.mpr inside, Bool.and_false]

theorem stepsBack_few {i : Nat} (back : StepsBack ((n, (i : Int)) :: c)) : i ≤ 1 := by
  obtain ⟨index, -⟩ := back
  omega

/-- A step forward can be taken back exactly from these cursors. -/
theorem previous_next_iff (h : WellFormed d true Range.full n₀) (hu : Under n₀ c n 0 root r)
    {i : Nat} (hi : i ≤ n.le.length) (few : i ≤ 1) (first : isFirst c = false) :
    (0 < i + position c → i + position c < (absNode n₀).length →
        Denotes n₀ (RL_MoveToPrevious (RL_MoveToNext ((n, (i : Int)) :: c) (n₀, x)) (n₀, x))
          (i + position c)) ↔
      StepsBack ((n, (i : Int)) :: c) := by
  have inside := hu.inside
  rw [← length_leaf hu.wellFormed] at inside
  rcases RL_MoveToNext_spec (x := x) h hu hi with
    ⟨before, next⟩ | ⟨rfl, last, -⟩ | ⟨rfl, leaf, rest, r', next, hu', same, ptr0⟩
  · have again := previous_denotes_iff (x := x) h hu (i + 1)
    rw [Nat.add_right_comm, Nat.add_sub_cancel] at again
    rw [next, again]
    constructor
    · intro later
      by_cases atStart : i = 0
      · exact ⟨Or.inl (by omega), first, fun no => absurd no (by omega)⟩
      · exact absurd (later (by omega) (by omega)).1 (by omega)
    · intro back _ _
      obtain ⟨index, -⟩ := back
      exact ⟨by omega, first⟩
  · have all := hu.stop last
    rw [← length_leaf hu.wellFormed] at all
    refine iff_of_true (fun _ no => absurd no (by omega)) ⟨?_, first, fun _ => firstPtr0_last h hu last⟩
    omega
  · have again := previous_denotes_iff (x := x) h hu' 1
    rw [Nat.add_sub_cancel_left, same, ptr0] at again
    have filled := leaf_nonempty hu'.wellFormed
    have inside' := hu'.inside
    rw [← length_leaf hu'.wellFormed] at inside'
    rw [next, again]
    constructor
    · intro later
      refine ⟨by omega, first, fun one => (later (by omega) (by omega)).2⟩
    · intro back later _
      refine ⟨Nat.le_refl _, back.2.2 ?_⟩
      by_contra empty
      have none : n.le.length = 0 := by omega
      cases root with
      | false => exact absurd (leaf_nonempty hu.wellFormed) (by omega)
      | true =>
        obtain rfl : c = [] := by
          by_contra below
          cases hu.notRoot below
        rw [none] at later
        exact Nat.lt_irrefl 0 later

/-- The steps obey their laws exactly from these cursors. -/
theorem stepLaws_iff (h : WellFormed d true Range.full n₀) (x : X) (hc : completeCursor c n₀) :
    StepLaws n₀ x c ↔ StepsBack c := by
  obtain ⟨n, i, c, root, r, rfl, hu, hi⟩ := complete_under h hc
  have here := (denotes_leaf hu hi).2
  constructor
  · intro laws
    have back := laws.previous
    rw [here] at back
    obtain ⟨few, first⟩ := (previous_denotes_iff h hu i).mp back
    have later := laws.previous_next
    rw [here] at later
    exact (previous_next_iff h hu hi few first).mp later
  · intro back
    have few := stepsBack_few back
    have first := back.2.1
    have previous := (previous_denotes_iff (x := x) h hu i).mpr ⟨few, first⟩
    have next := RL_MoveToNext_denotes (x := x) h ⟨hc, rfl⟩
    have again := RL_MoveToNext_denotes (x := x) h previous
    have later := (previous_next_iff (x := x) h hu hi few first).mpr back
    rw [← here] at previous again later
    refine ⟨next, previous, fun notFirst notLast => ?_, later⟩
    rwa [Nat.sub_add_cancel notFirst, Nat.min_eq_left notLast.le] at again

/-- Three records in one leaf; the cursor is at the last of them. -/
def threeRecords : Node Nat Unit :=
  leafNode [(1, 10, ()), (2, 20, ()), (3, 30, ())] true true ()

theorem wellFormed_threeRecords : WellFormed 0 true Range.full threeRecords := by
  refine ⟨_, true, true, (), rfl, ⟨rfl, rfl⟩, ?_, ?_, by decide, fun no => by cases no⟩
  · unfold Sorted
    decide
  · intro e _
    exact Range.mem_full e.1

theorem stepLaws_start : StepLaws threeRecords () [(threeRecords, 0)] := by
  have complete : completeCursor [(threeRecords, 0)] threeRecords :=
    ⟨rfl, rfl, by decide, by decide⟩
  exact (stepLaws_iff wellFormed_threeRecords () complete).mpr
    ⟨Or.inl rfl, rfl, fun no => absurd no (by decide)⟩

/-- From the third record the step backward goes to the first one. -/
theorem threeRecords_steps_back_twice :
    WellFormed 0 true Range.full threeRecords ∧ completeCursor [(threeRecords, 2)] threeRecords ∧
      position (RL_MoveToPrevious [(threeRecords, 2)] (threeRecords, ())) = 0 ∧
      ¬ StepLaws threeRecords () [(threeRecords, 2)] := by
  have complete : completeCursor [(threeRecords, 2)] threeRecords :=
    ⟨rfl, rfl, by decide, by decide⟩
  refine ⟨wellFormed_threeRecords, complete, rfl, fun laws => ?_⟩
  exact absurd laws.previous.2 (by decide)

end DeepDB.Functional
