import DeepDB.Library.Previous

/-!
Which backward steps and scans of the built copy are right, on every relation that its calls can
build.
-/

namespace DeepDB.Library
open SortedAssoc Multiway
open BTree hiding findChildIndexFrom findChildIndex moveToKeyIn moveToKey isNodeParent
  ascendToParent goToKey moveToNext skipLeafEnd RL_MoveToNext RL_GetKey RL_GetRecord RL_MoveToKey
  RL_MoveToFirst RL_NewRelation RL_NewCursor RL_CursorIsValid RL_IsEmpty RL_NumRecords splitnode
  putEntry RL_PutRecord State Result step run run_snoc
open BTree.Tree

variable {R : Type} {d : Nat} {aliased : Bool} {π : Cursor} {pos : Nat}

/-! ### Reachable relations -/

/-- The state after a sequence of calls on a new relation; none once a call has failed. -/
def run (calls : List (Call R)) : Option (State R) := do
  let (s, _) ← newCursor RL_NewRelation
  calls.foldlM (fun s call => (step s call).map Prod.fst) s

theorem run_snoc (calls : List (Call R)) (call : Call R) :
    run (calls ++ [call]) = (run calls).bind fun s => (step s call).map Prod.fst := by
  cases hs : (newCursor (RL_NewRelation : Relation R)) <;> simp [run, hs, List.foldlM_append]

theorem run_refines {calls : List (Call R)} {s : State R} (h : run calls = some s) :
    ∃ s', Refines s s' := by
  induction calls using List.reverseRecOn generalizing s with
  | nil =>
    obtain ⟨s₀, s', made, -, refines⟩ := start_refines R
    obtain rfl : s₀ = s := by simpa [run, made] using h
    exact ⟨s', refines⟩
  | append_singleton calls call ih =>
    rw [run_snoc] at h
    obtain ⟨s₁, hs₁, hs⟩ := Option.bind_eq_some_iff.mp h
    obtain ⟨s₁', refines⟩ := ih hs₁
    rcases step_matched refines call with ⟨failed, -⟩ | ⟨s₂, s₂', result, hstep, -, refines'⟩
    · simp [failed] at hs
    · obtain rfl : s₂ = s := by simpa [hstep] using hs
      exact ⟨s₂', refines'⟩

/-! ### Positions -/

/-- The cursor leads to a leaf of the tree in memory, behind `pos` of the records. -/
def At (rel : Relation R) (π : Cursor) (pos : Nat) : Prop :=
  ∃ (rel' : Relation R) (d : Nat) (t : Tree R d),
    rel = forgetRel rel' ∧ Holds rel' d t ∧ PathAt d t π pos

theorem run_at {calls : List (Call R)} {s : State R} (h : run calls = some s) :
    ∃ pos, At s.rel s.cursor pos := by
  obtain ⟨s', ⟨rel, cursor⟩, d, t, pos, hrel, hπ⟩ := run_refines h
  exact ⟨pos, s'.rel, d, t, rel, hrel, cursor ▸ hπ⟩

theorem at_leaf (recs : List (Key × R)) (sorted : Sorted recs) (few : recs.length ≤ FANOUT)
    (i : Nat) (inside : i ≤ recs.length) :
    At ⟨[toNode (leaf 0 true true recs)], 0, recs.length, 0⟩ [(0, (i : Int))] i := by
  have within : Within Range.full recs := fun x _ => Range.mem_full x.1
  exact ⟨⟨[toNode (leaf 0 true true recs)], 0, recs.length, 0⟩, 0, leaf 0 true true recs, rfl,
    ⟨rfl, List.nodup_singleton 0, ⟨⟨rfl, rfl⟩, sorted, within, few, by simp⟩, by decide, rfl, rfl,
      rfl⟩, inside, rfl⟩

/-- The cursor reads the record. -/
def Reads (rel : Relation R) (π : Cursor) (x : Key × R) : Prop :=
  (∃ π', RL_GetKey rel π = some (π', x.1)) ∧ ∃ π', RL_GetRecord rel π = some (π', x.2)

/-- A step back goes to `x`, and the step forward after it to `y` again. -/
def MovesBack (aliased : Bool) (rel : Relation R) (π : Cursor) (x y : Key × R) : Prop :=
  ∃ π', RL_MoveToPrevious aliased rel π = some π' ∧ Reads rel π' x ∧
    ∃ π'', RL_MoveToNext rel π' = some π'' ∧ Reads rel π'' y

/-- Read and step back, `n` times. -/
def scanBack (aliased : Bool) (rel : Relation R) : Nat → Cursor → Option (List (Key × R))
  | 0, _ => some []
  | n + 1, cursor => do
    let (cursor, k) ← RL_GetKey rel cursor
    let (cursor, r) ← RL_GetRecord rel cursor
    let rest ← scanBack aliased rel n (← RL_MoveToPrevious aliased rel cursor)
    return (k, r) :: rest

theorem leafEntries_forget (nodes : Nodes R) (levels : Nat) (p : Ptr) :
    leafEntries (nodes.map forget) levels p = leafEntries nodes levels p := by
  induction levels generalizing p with
  | zero => rfl
  | succ levels ih =>
    have same : leafEntries (nodes.map forget) levels = leafEntries nodes levels := funext ih
    rw [leafEntries, leafEntries, getElem?_forget, same]
    cases nodes[p]? with
    | none => rfl
    | some n =>
      simp only [Option.map_some, Option.bind_eq_bind, Option.bind_some, forget_isLeaf,
        forget_entries, forget_ptr0]

section
variable {rel : Relation R} {t : Tree R d} {x : Key × R}

theorem leafEntries_holds (hrel : Holds rel d t) :
    leafEntries (forgetRel rel).nodes MAX_TREE_DEPTH (forgetRel rel).root =
      some (contents d t) := by
  have read := leafEntries_forget rel.nodes MAX_TREE_DEPTH rel.root
  rw [hrel.root, leafEntries_repr hrel.repr hrel.shallow, ← hrel.root] at read
  exact read

theorem reads_path (hrel : Holds rel d t) (hπ : PathAt d t π pos)
    (hx : (contents d t)[pos]? = some x) : Reads (forgetRel rel) π x := by
  obtain ⟨π₁, key, -⟩ := RL_GetKey_spec hrel.repr hrel.good hrel.shallow hπ hx
  obtain ⟨π₂, record, -⟩ := RL_GetRecord_spec hrel.repr hrel.good hrel.shallow hπ hx
  exact ⟨⟨π₁, by rw [RL_GetKey_forget hrel hπ, key]⟩, π₂,
    by rw [RL_GetRecord_forget hrel hπ, record]⟩

/-- What a cursor reads says where it is. -/
theorem pos_of_key (hrel : Holds rel d t) (hπ : PathAt d t π pos) {π' : Cursor} {k : Key}
    (hk : RL_GetKey (forgetRel rel) π = some (π', k)) {pos' : Nat}
    (hx : (contents d t)[pos']? = some x) (same : x.1 = k) : pos = pos' := by
  have valid : pos < (contents d t).length := by
    by_contra outside
    have invalid := isValid_spec hrel.repr hrel.good hπ
    rw [RL_GetKey_forget hrel hπ, BTree.RL_GetKey, invalid, decide_eq_false outside] at hk
    cases hk
  obtain ⟨⟨π₁, here⟩, -⟩ := reads_path hrel hπ (List.getElem?_eq_getElem valid)
  obtain ⟨-, key⟩ := Prod.mk.inj (Option.some.inj (here.symm.trans hk))
  exact eq_of_getElem? (good_sorted hrel.good) (List.getElem?_eq_getElem valid) hx
    (key.trans same.symm)

/-- One step back and forth, from any position behind the first one. -/
theorem movesBack_iff (hrel : Holds rel d t) {y : Key × R} (hπ : PathAt d t π (pos + 1))
    (hx : (contents d t)[pos]? = some x) (hy : (contents d t)[pos + 1]? = some y) :
    MovesBack aliased (forgetRel rel) π x y ↔ LeafBehind aliased π := by
  have spec := RL_MoveToPrevious_spec aliased hrel hπ (Nat.succ_pos pos)
  constructor
  · rintro ⟨π', hback, ⟨⟨π₁, hkey⟩, -⟩, -⟩
    rcases spec with ⟨behind, -⟩ | ⟨-, failed | ⟨π'', pos', hback', hπ'', far⟩⟩
    · exact behind
    · rw [failed] at hback
      cases hback
    · obtain rfl := Option.some.inj (hback'.symm.trans hback)
      have := pos_of_key hrel hπ'' hkey hx rfl
      omega
  · intro behind
    rcases spec with ⟨-, π', hback, hπ'⟩ | ⟨apart, -⟩
    · rw [Nat.add_sub_cancel] at hπ'
      obtain ⟨π'', hnext, hπ''⟩ := RL_MoveToNext_spec hrel.repr hrel.good hrel.shallow hπ'
      obtain ⟨inside, -⟩ := List.getElem?_eq_some_iff.mp hy
      rw [Nat.min_eq_left (Nat.le_of_lt inside)] at hπ''
      refine ⟨π', hback, reads_path hrel hπ' hx, π'', ?_, reads_path hrel hπ'' hy⟩
      rw [RL_MoveToNext_forget hrel hπ', hnext]
    · exact absurd behind apart

/-! ### The whole scan -/

/-- The cursor is at an entry of a leaf, not at its end. -/
def AtEntry (t : Tree R d) (π : Cursor) (pos : Nat) : Prop :=
  PathAt d t π pos ∧ ∃ (p : Ptr) (i : Nat) (rest : Cursor), π = (p, (i : Int)) :: rest ∧
    PathAt d t ((p, ((i + 1 : Nat) : Int)) :: rest) (pos + 1)

/-- Reading the key and the record brings the cursor to the entry. -/
theorem read_entry (hrel : Holds rel d t) (hπ : PathAt d t π pos)
    (hx : (contents d t)[pos]? = some x) :
    ∃ π₁ π₂, RL_GetKey (forgetRel rel) π = some (π₁, x.1) ∧
      RL_GetRecord (forgetRel rel) π₁ = some (π₂, x.2) ∧ AtEntry t π₂ pos := by
  obtain ⟨π₁, hkey, hπ₁⟩ := RL_GetKey_spec hrel.repr hrel.good hrel.shallow hπ hx
  obtain ⟨π₂, hrecord, hπ₂⟩ := RL_GetRecord_spec hrel.repr hrel.good hrel.shallow hπ₁ hx
  obtain ⟨inside, -⟩ := List.getElem?_eq_some_iff.mp hx
  obtain ⟨π₃, hskip, -, entry⟩ := skipLeafEnd_spec hrel.repr hrel.good hrel.shallow hπ₁
  have skipped : π₂ = π₃ := by
    rw [BTree.RL_GetRecord, hskip] at hrecord
    simp only [Option.bind_eq_bind, Option.bind_eq_some_iff, Option.pure_def, Option.some.injEq,
      Prod.mk.injEq] at hrecord
    obtain ⟨_, -, _, -, _, rfl, _, -, _, -, _, -, rfl, -⟩ := hrecord
    rfl
  obtain ⟨p, F, L, recs, i, rest, rfl, -, -, -, next⟩ := entry inside
  exact ⟨π₁, π₂, by rw [RL_GetKey_forget hrel hπ, hkey], by rw [RL_GetRecord_forget hrel hπ₁, hrecord],
    hπ₂, p, i, rest, skipped, next⟩

theorem scanBack_succ (aliased : Bool) (hrel : Holds rel d t) (hπ : PathAt d t π pos)
    (hx : (contents d t)[pos]? = some x) : ∃ π', AtEntry t π' pos ∧ ∀ n,
      scanBack aliased (forgetRel rel) (n + 1) π =
        ((RL_MoveToPrevious aliased (forgetRel rel) π').bind
          (scanBack aliased (forgetRel rel) n)).map (x :: ·) := by
  obtain ⟨π₁, π₂, hkey, hrecord, entry⟩ := read_entry hrel hπ hx
  refine ⟨π₂, entry, fun n => ?_⟩
  simp only [scanBack, hkey, hrecord, Option.bind_eq_bind, Option.bind_some]
  cases RL_MoveToPrevious aliased (forgetRel rel) π₂ with
  | none => rfl
  | some π' =>
    cases hscan : scanBack aliased (forgetRel rel) n π' with
    | none => simp [hscan]
    | some l => simp [hscan]

theorem RL_MoveToPrevious_zero (hrel : Holds rel d t) (hπ : AtEntry t π 0)
    (some_record : contents d t ≠ []) : RL_MoveToPrevious aliased (forgetRel rel) π = some π := by
  obtain ⟨hπ, p, i, rest, rfl, next⟩ := hπ
  obtain ⟨p', F, L, recs, i', base, rest', heq, -, -, hpos, -⟩ :=
    pathAt_leaf hrel.repr hrel.good hπ
  simp only [List.cons.injEq, Prod.mk.injEq, Int.natCast_inj] at heq
  obtain ⟨⟨rfl, rfl⟩, rfl⟩ := heq
  obtain rfl : i = 0 := by omega
  have stays : moveToPrev aliased (forgetRel rel) ((p, 0) :: rest) = some ((p, 0) :: rest) := by
    rw [moveToPrev_front hrel hπ some_record, if_pos rfl]
  rw [RL_MoveToPrevious, entryIndex, Option.bind_eq_bind, Option.bind_some, Int.natCast_zero,
    if_pos rfl, stays]
  exact stays

theorem take_succ_reverse {α : Type} {l : List α} {i : Nat} {y : α} (h : l[i]? = some y) :
    (l.take (i + 1)).reverse = y :: (l.take i).reverse := by
  rw [List.take_add_one, h]
  simp

/-- Where every step back is right, the scan reads everything in decreasing order. -/
theorem scanBack_reverse (hrel : Holds rel d t) (hπ : PathAt d t π pos)
    (inside : pos < (contents d t).length)
    (behind : ∀ π' pos', PathAt d t π' pos' → 0 < pos' → LeafBehind aliased π') :
    scanBack aliased (forgetRel rel) (pos + 1) π =
      some ((contents d t).take (pos + 1)).reverse := by
  induction pos generalizing π with
  | zero =>
    have hx := List.getElem?_eq_getElem inside
    obtain ⟨π', entry, scan⟩ := scanBack_succ aliased hrel hπ hx
    rw [scan, RL_MoveToPrevious_zero hrel entry (List.ne_nil_of_length_pos inside),
      take_succ_reverse hx]
    rfl
  | succ pos ih =>
    have hx := List.getElem?_eq_getElem inside
    obtain ⟨π', entry, scan⟩ := scanBack_succ aliased hrel hπ hx
    have here := behind π' (pos + 1) entry.1 (Nat.succ_pos pos)
    rcases RL_MoveToPrevious_spec aliased hrel entry.1 (Nat.succ_pos pos) with
      ⟨-, π'', hback, hπ''⟩ | ⟨apart, -⟩
    · rw [scan, hback, Option.bind_some, ih hπ'' (Nat.lt_of_succ_lt inside), take_succ_reverse hx]
      rfl
    · exact absurd here apart

/-- A scan that reads everything in decreasing order has made only right steps. -/
theorem scanBack_behind (hrel : Holds rel d t) (hπ : PathAt d t π pos)
    (inside : pos < (contents d t).length)
    (scan : scanBack aliased (forgetRel rel) (pos + 1) π =
      some ((contents d t).take (pos + 1)).reverse) :
    ∀ pos', 0 < pos' → pos' ≤ pos → ∃ π', AtEntry t π' pos' ∧ LeafBehind aliased π' := by
  induction pos generalizing π with
  | zero =>
    intro pos' first last
    omega
  | succ pos ih =>
    have hx := List.getElem?_eq_getElem inside
    obtain ⟨π', entry, step⟩ := scanBack_succ aliased hrel hπ hx
    rw [step, take_succ_reverse hx] at scan
    obtain ⟨later, hlater, cons⟩ := Option.map_eq_some_iff.mp scan
    obtain rfl := (List.cons.inj cons).2
    obtain ⟨π'', hback, hscan⟩ := Option.bind_eq_some_iff.mp hlater
    have inside' := Nat.lt_of_succ_lt inside
    rcases RL_MoveToPrevious_spec aliased hrel entry.1 (Nat.succ_pos pos) with
      ⟨behind, π₁, hback', hπ₁⟩ | ⟨-, failed | ⟨π₁, pos₁, hback', hπ₁, far⟩⟩
    · obtain rfl := Option.some.inj (hback'.symm.trans hback)
      intro pos' first last
      rcases Nat.lt_or_eq_of_le last with before | rfl
      · exact ih hπ₁ inside' hscan pos' first (Nat.le_of_lt_succ before)
      · exact ⟨π', entry, behind⟩
    · rw [failed] at hback
      cases hback
    · obtain rfl := Option.some.inj (hback'.symm.trans hback)
      have hy := List.getElem?_eq_getElem inside'
      rw [take_succ_reverse hy, scanBack] at hscan
      simp only [Option.bind_eq_bind, Option.bind_eq_some_iff, Option.pure_def, Option.some.injEq,
        List.cons.injEq] at hscan
      obtain ⟨⟨π₂, k⟩, hkey, _, -, _, -, _, -, same, -⟩ := hscan
      have := pos_of_key hrel hπ₁ hkey hy (congrArg Prod.fst same).symm
      omega

/-- In a tree of leaves under one root, no step fails if `entries[-1]` is `ptr0`. -/
theorem leafBehind_shallow (hg : Good d true Range.full t) (hπ : PathAt d t π pos) (later : 0 < pos)
    (shallow : d ≤ if aliased then 1 else 0) : LeafBehind aliased π := by
  match d with
  | 0 =>
    obtain ⟨p, F, L, recs, rfl⟩ := exists_leaf t
    obtain ⟨-, rfl⟩ := hπ
    simp only [LeafBehind]
    omega
  | 1 =>
    have same : aliased = true := by
      by_contra apart
      rw [if_neg apart] at shallow
      omega
    obtain ⟨p, F, L, t, ts, rfl⟩ := exists_node t
    obtain ⟨pre, f, post, π', pos', hj, hf, rfl, hpos⟩ := hπ
    obtain ⟨q, F', L', recs, rfl⟩ := exists_leaf f
    obtain ⟨-, rfl⟩ := hf
    cases pre with
    | nil =>
      have : pos' ≠ 0 := by
        rintro rfl
        exact absurd hpos (by simp; omega)
      simp only [LeafBehind, List.cons_append, List.nil_append]
      omega
    | cons e pre =>
      refine Or.inr ?_
      rcases Nat.eq_zero_or_pos pre.length with single | more
      · exact Or.inr ⟨same, by rw [List.length_cons, single]; rfl⟩
      · refine Or.inl ?_
        rw [List.length_cons]
        omega
  | d + 2 =>
    exfalso
    split at shallow <;> omega

/-- An entry in a subtree of a node: the position in the child is inside the child. -/
theorem atEntry_child {p : Ptr} {F L : Bool} {t : Tree R d} {ts : List (Key × Tree R d)}
    (h : AtEntry (node p F L t ts) π pos) : ∃ pre f post π' pos',
      (t, ts) = join pre f post ∧ PathAt d f π' pos' ∧ pos' < (contents d f).length ∧
      π = π' ++ [(p, (pre.length : Int) - 1)] ∧
      pos = (pre.flatMap fun x => contents d x.1).length + pos' := by
  obtain ⟨⟨pre, f, post, π', pos', hj, hf, hπ, hpos⟩, q, i, rest, rfl, next⟩ := h
  obtain ⟨pre₁, f₁, post₁, π₁, pos₁, hj₁, hf₁, hπ₁, hpos₁⟩ := next
  obtain ⟨e, tail, rfl⟩ := List.exists_cons_of_ne_nil (pathAt_ne_nil hf)
  obtain ⟨e₁, tail₁, rfl⟩ := List.exists_cons_of_ne_nil (pathAt_ne_nil hf₁)
  simp only [List.cons_append, List.cons.injEq] at hπ hπ₁
  have frames := List.append_inj_right' (hπ.2.symm.trans hπ₁.2) rfl
  simp only [List.cons.injEq, Prod.mk.injEq, true_and, and_true] at frames
  obtain ⟨rfl, rfl, rfl⟩ := join_inj (hj.symm.trans hj₁) (by omega)
  have bounded := pathAt_le hf₁
  exact ⟨pre, f, post, e :: tail, pos', hj, hf, by omega, by simp [hπ], hpos⟩

/-- In a taller tree the step from the second child of the root fails. -/
theorem exists_apart (hg : Good d true Range.full t) (tall : (if aliased then 1 else 0) < d) :
    ∃ pos, 0 < pos ∧ pos < (contents d t).length ∧
      ∀ π, AtEntry t π pos → ¬ LeafBehind aliased π := by
  cases d with
  | zero => omega
  | succ d =>
    obtain ⟨p, F, L, t, ts, rfl⟩ := exists_node t
    obtain ⟨e, ts, rfl⟩ := List.exists_cons_of_ne_nil (List.length_pos_iff.mp hg.2.2.2.1)
    have atFirst : (t, e :: ts) = join [] t (e :: ts) := rfl
    have atSecond : (t, e :: ts) = join [(t, e.1)] e.2 ts := rfl
    have first := good_nonempty (good_focus hg atFirst)
    have second := good_nonempty (good_focus hg atSecond)
    refine ⟨(contents d t).length, List.length_pos_iff.mpr first, ?_, fun π entry => ?_⟩
    · have := List.length_pos_iff.mpr second
      rw [contents_node, show e = (e.1, e.2) from rfl, gather_cons, List.length_append]
      simp only [gather, List.length_append]
      omega
    · obtain ⟨pre, f, post, π', pos', hj, hf, inside, rfl, hpos⟩ := atEntry_child entry
      cases pre with
      | nil =>
        obtain ⟨rfl, -⟩ := Prod.mk.inj hj
        simp only [List.flatMap_nil, List.length_nil, Nat.zero_add] at hpos
        omega
      | cons e' pre =>
        have same : t = e'.1 := (Prod.mk.inj hj).1
        have others := front_nonempty hg hj
        simp only [List.flatMap_cons, List.length_append, ← same] at hpos
        obtain rfl : pos' = 0 := by omega
        have none : (pre.flatMap fun x => contents d x.1) = [] :=
          List.length_eq_zero_iff.mp (by omega)
        obtain rfl : pre = [] := List.eq_nil_iff_forall_not_mem.mpr fun x hx =>
          others x (List.mem_cons_of_mem _ hx) (List.flatMap_eq_nil_iff.mp none x hx)
        cases d with
        | zero =>
          obtain ⟨q, F', L', recs, rfl⟩ := exists_leaf f
          obtain ⟨-, rfl⟩ := hf
          have apart : aliased = false := by
            by_contra same
            rw [Bool.not_eq_false] at same
            rw [if_pos same] at tall
            omega
          simp [LeafBehind, apart]
        | succ d =>
          obtain ⟨q, q', rest, rfl⟩ := pathAt_zero (good_focus hg hj) hf
          simp [LeafBehind]

theorem scanBack_iff (hrel : Holds rel d t) (hπ : PathAt d t π pos)
    (last : pos + 1 = (contents d t).length) :
    scanBack aliased (forgetRel rel) (contents d t).length π = some (contents d t).reverse ↔
      d ≤ if aliased then 1 else 0 := by
  have all : (contents d t).take (pos + 1) = contents d t := List.take_of_length_le (by omega)
  have inside : pos < (contents d t).length := by omega
  rw [← last, ← all]
  constructor
  · intro scan
    by_contra tall
    obtain ⟨pos', first, inside', apart⟩ := exists_apart hrel.good (Nat.not_le.mp tall)
    obtain ⟨π', entry, behind⟩ := scanBack_behind hrel hπ inside scan pos' first (by omega)
    exact apart π' entry behind
  · intro shallow
    exact scanBack_reverse hrel hπ inside fun π' pos' hπ' later =>
      leafBehind_shallow hrel.good hπ' later shallow

end

/-! ### Every reachable relation -/

/-- On a relation that calls have built, a step back from the entry after `x` goes to `x`, and the
step forward then to the entry again, exactly from the positions in `LeafBehind`; and the scan from
the last key reads every record in decreasing order exactly when the tree is a leaf, or has one
level above its leaves and `entries[-1]` is `ptr0`. -/
theorem RL_MoveToPrevious_iff (aliased : Bool) (calls : List (Call R)) (s : State R)
    (h : run calls = some s) :
    ∃ entries, leafEntries s.rel.nodes MAX_TREE_DEPTH s.rel.root = some entries ∧
      Sorted entries ∧ (∃ pos, At s.rel s.cursor pos) ∧
      (∀ π pos x y, At s.rel π (pos + 1) → entries[pos]? = some x → entries[pos + 1]? = some y →
        (MovesBack aliased s.rel π x y ↔ LeafBehind aliased π)) ∧
      ∀ π pos, At s.rel π pos → pos + 1 = entries.length →
        (scanBack aliased s.rel entries.length π = some entries.reverse ↔
          s.rel.depth ≤ if aliased then 1 else 0) := by
  obtain ⟨s', ⟨same, -⟩, d, t, pos, hrel, -⟩ := run_refines h
  have read := leafEntries_holds hrel
  rw [← same] at read
  refine ⟨contents d t, read, good_sorted hrel.good, run_at h, ?_, ?_⟩
  · rintro π pos x y ⟨rel', d', t', same', hrel', hπ⟩ hx hy
    rw [same', leafEntries_holds hrel'] at read
    rw [← Option.some.inj read] at hx hy
    rw [same']
    exact movesBack_iff hrel' hπ hx hy
  · rintro π pos ⟨rel', d', t', same', hrel', hπ⟩ last
    rw [same', leafEntries_holds hrel'] at read
    rw [← Option.some.inj read] at last ⊢
    rw [same', show (forgetRel rel').depth = d' from hrel'.depth]
    exact scanBack_iff hrel' hπ last

theorem RL_MoveToPrevious_two : ∃ s : State Nat,
    run [.put 1 10, .put 2 20, .moveToKey 2] = some s ∧
      MovesBack false s.rel s.cursor (1, 10) (2, 20) ∧
      scanBack false s.rel 2 s.cursor = some [(2, 20), (1, 10)] := by
  refine ⟨_, rfl, ?_⟩
  obtain ⟨entries, leaves, -, -, back, scan⟩ :=
    RL_MoveToPrevious_iff false [.put 1 10, .put 2 20, .moveToKey 2] _ rfl
  obtain rfl : [(1, 10), (2, 20)] = entries := Option.some.inj (leaves.symm.trans (by rfl)).symm
  have here := at_leaf [(1, 10), (2, 20)] (by simp [Sorted]) (by decide) 1 (by decide)
  exact ⟨(back _ 0 _ _ here rfl rfl).mpr (by simp [LeafBehind]), (scan _ 1 here rfl).mpr (Nat.zero_le _)⟩

/-- What a step back from the cursor and a read give. -/
def previousKey (aliased : Bool) (s : State R) : Option Key := do
  let cursor ← RL_MoveToPrevious aliased s.rel s.cursor
  return (← RL_GetKey s.rel cursor).2

theorem previousKey_of_movesBack {s : State R} {x y : Key × R}
    (h : MovesBack aliased s.rel s.cursor x y) : previousKey aliased s = some x.1 := by
  obtain ⟨π, hback, ⟨⟨π', hkey⟩, -⟩, -⟩ := h
  simp [previousKey, hback, hkey]

/-- With keys 0 to 135 the root has two interior children. Key 72 is the first one of the second
child: the step back from it goes to key 64, or it has no value. -/
theorem RL_MoveToPrevious_skips : ∃ s : State Nat,
    run ((List.range 136).map (fun k => .put k k) ++ [.moveToKey 72]) = some s ∧
      Reads s.rel s.cursor (72, 72) ∧ (∃ π, RL_MoveToKey s.rel s.cursor 71 = some (π, true)) ∧
      ∀ aliased, ¬ MovesBack aliased s.rel s.cursor (71, 71) (72, 72) := by
  have facts : ((run ((List.range 136).map (fun k => .put k k) ++ [.moveToKey 72])).map
      fun s : State Nat => ((RL_GetKey s.rel s.cursor).map Prod.snd,
        (RL_GetRecord s.rel s.cursor).map Prod.snd, (RL_MoveToKey s.rel s.cursor 71).map Prod.snd,
        previousKey true s, previousKey false s)) =
      some (some 72, some 72, some true, some 64, none) := by decide +kernel
  obtain ⟨s, hs, values⟩ := Option.map_eq_some_iff.mp facts
  simp only [Prod.mk.injEq, Option.map_eq_some_iff] at values
  obtain ⟨⟨⟨π₁, _⟩, hkey, rfl⟩, ⟨⟨π₂, _⟩, hrecord, rfl⟩, ⟨⟨π₃, _⟩, hmove, rfl⟩, skips, fails⟩ := values
  refine ⟨s, hs, ⟨⟨π₁, hkey⟩, π₂, hrecord⟩, ⟨π₃, hmove⟩, ?_⟩
  rintro (_ | _) back
  · rw [previousKey_of_movesBack back] at fails
    cases fails
  · rw [previousKey_of_movesBack back] at skips
    cases skips

end DeepDB.Library
