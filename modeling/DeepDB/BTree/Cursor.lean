import DeepDB.BTree.Search

/-!
The cursor as a position. Validity, `RL_MoveToNext` and the two reads of a cursor depend only on
the position it denotes in the contents of the tree, wherever in the tree that position is.
-/

namespace DeepDB.BTree
open SortedAssoc Multiway BTree.Tree

variable {R : Type} {d : Nat} {root : Bool} {r : Range Key} {nodes : Nodes R}

/-- The leaf under a cursor: `recs` are the entries of the contents from position `base` on, and
the cursor is at the end of a last leaf exactly when its position is the end of the tree. -/
theorem pathAt_leaf {t : Tree R d} (hm : Repr nodes d t) (hg : Good d root r t) {π : Cursor}
    {pos : Nat} (hπ : PathAt d t π pos) :
    ∃ (p : Ptr) (F L : Bool) (recs : List (Key × R)) (i base : Nat) (rest : Cursor),
      π = (p, (i : Int)) :: rest ∧ nodes[p]? = some (toNode (leaf p F L recs)) ∧
      i ≤ recs.length ∧ pos = base + i ∧
      (∀ j ≤ recs.length, PathAt d t ((p, (j : Int)) :: rest) (base + j)) ∧
      (∀ j < recs.length, (contents d t)[base + j]? = recs[j]?) ∧
      (recs = [] → contents d t = []) ∧
      ((i = recs.length ∧ L = true) ↔ (pos = (contents d t).length ∧ r.hi = none)) := by
  induction d generalizing root r π pos with
  | zero =>
    obtain ⟨p, F, L, recs, rfl⟩ := exists_leaf t
    obtain ⟨hle, rfl⟩ := hπ
    refine ⟨p, F, L, recs, pos, 0, [], rfl, repr_ptr hm, hle, by simp, ?_, by simp, by simp, ?_⟩
    · exact fun j hj => ⟨by simpa using hj, by simp⟩
    · rw [hg.1.2, Option.isNone_iff_eq_none, contents_leaf]
  | succ d ih =>
    obtain ⟨p, F, L, t, ts, rfl⟩ := exists_node t
    obtain ⟨pre, f, post, π', pos', hj, hf, rfl, rfl⟩ := hπ
    have hmf := hm.2 f (mem_of_join hj)
    have hs := hg.2.1
    obtain ⟨rfl, rfl⟩ := Prod.mk.inj hj
    have hgf := siblings_focus hs
    obtain ⟨q, F', L', recs, i, base, rest, rfl, hq, hi, rfl, moves, reads, filled, ends⟩ :=
      ih hmf hgf hf
    refine ⟨q, F', L', recs, i, (pre.flatMap fun x => contents d x.1).length + base,
      rest ++ [(p, (pre.length : Int) - 1)], rfl, hq, hi, by omega, ?_, ?_,
      fun none => absurd (filled none) (good_nonempty hgf), ?_⟩
    · exact fun j hj => ⟨pre, f, post, _, _, rfl, moves j hj, rfl, by omega⟩
    · intro j hj
      have hlt : base + j < (contents d f).length := by
        have := reads j hj
        rw [List.getElem?_eq_getElem hj] at this
        exact (List.getElem?_eq_some_iff.mp this).1
      rw [contents_node, gather_join, List.append_assoc, Nat.add_assoc,
        List.getElem?_append_right (Nat.le_add_right _ _), Nat.add_sub_cancel_left,
        List.getElem?_append_left hlt]
      exact reads j hj
    · have bounded := pathAt_le hf
      rw [ends, focusRange_hi, contents_node, gather_join]
      simp only [List.length_append]
      constructor
      · rintro ⟨same, rfl, last⟩
        exact ⟨by simp [same], last⟩
      · rintro ⟨same, last⟩
        cases post with
        | nil => exact ⟨by simpa using same, rfl, last⟩
        | cons e post =>
          obtain ⟨g, hg'⟩ := siblings_mem hs e.2 (List.mem_cons.mpr
            ((mem_join pre f (e :: post) e.2).mpr (Or.inr (Or.inr (by simp)))))
          have some_entry := List.length_pos_iff.mpr (good_nonempty hg')
          simp only [List.flatMap_cons, List.length_append] at same
          omega

/-- A leaf is flagged as the first one exactly when no record stands in front of it. -/
theorem pathAt_first {t : Tree R d} (hm : Repr nodes d t) (hg : Good d root r t)
    {p : Ptr} {i : Int} {rest : Cursor} {n : BtNode R}
    {pos : Nat} (hπ : PathAt d t ((p, i) :: rest) pos) (hn : nodes[p]? = some n) :
    n.First = true ↔ (pos : Int) = i ∧ r.lo = none := by
  induction d generalizing root r rest pos with
  | zero =>
    obtain ⟨p', F, L, recs, rfl⟩ := exists_leaf t
    obtain ⟨-, hπ⟩ := hπ
    simp only [List.cons.injEq, Prod.mk.injEq] at hπ
    obtain ⟨⟨rfl, rfl⟩, rfl⟩ := hπ
    obtain rfl := Option.some.inj (hn.symm.trans (repr_ptr hm))
    rw [(good_flags hg).1, Option.isNone_iff_eq_none]
    simp
  | succ d ih =>
    obtain ⟨p', F, L, t, ts, rfl⟩ := exists_node t
    obtain ⟨pre, f, post, π', pos', hj, hf, hrest, rfl⟩ := hπ
    obtain ⟨e', rest', rfl⟩ := List.exists_cons_of_ne_nil (pathAt_ne_nil hf)
    simp only [List.cons_append, List.cons.injEq] at hrest
    obtain ⟨rfl, rfl⟩ := hrest
    have hmf := hm.2 f (mem_of_join hj)
    have hgf := good_focus hg hj
    have front := length_front hg hj
    obtain ⟨p₀, F', L', recs, i₀, base, rest₀, heq, -, -, rfl, -⟩ := pathAt_leaf hmf hgf hf
    simp only [List.cons.injEq, Prod.mk.injEq] at heq
    obtain ⟨⟨-, rfl⟩, -⟩ := heq
    rw [ih hmf hgf hf, focusRange_lo]
    constructor
    · rintro ⟨same, rfl, lo⟩
      exact ⟨by simpa using same, lo⟩
    · rintro ⟨same, lo⟩
      have none : pre = [] := List.length_eq_zero_iff.mp (by omega)
      exact ⟨by omega, none, lo⟩

/-- At the first position of a subtree all indices are those of first pointers. -/
theorem pathAt_zero {t : Tree R (d + 1)} (hg : Good (d + 1) root r t) {π : Cursor}
    (hπ : PathAt (d + 1) t π 0) : ∃ p q rest, π = (p, 0) :: (q, -1) :: rest := by
  induction d generalizing root r π with
  | zero =>
    obtain ⟨p', F, L, t, ts, rfl⟩ := exists_node t
    obtain ⟨pre, f, post, π', pos', hj, hf, rfl, hpos⟩ := hπ
    obtain ⟨q, F', L', recs, rfl⟩ := exists_leaf f
    obtain ⟨-, rfl⟩ := hf
    have front := length_front hg hj
    obtain ⟨none, rfl⟩ := Nat.add_eq_zero_iff.mp hpos.symm
    obtain rfl : pre = [] := List.length_eq_zero_iff.mp (Nat.le_zero.mp (front.trans_eq none))
    exact ⟨q, p', [], rfl⟩
  | succ d ih =>
    obtain ⟨p', F, L, t, ts, rfl⟩ := exists_node t
    obtain ⟨pre, f, post, π', pos', hj, hf, rfl, hpos⟩ := hπ
    obtain rfl : pos' = 0 := by omega
    obtain ⟨p, q, rest, rfl⟩ := ih (good_focus hg hj) hf
    exact ⟨p, q, _, rfl⟩

/-! ### Validity -/

/-- A cursor on the whole tree is valid unless it is at the end. -/
theorem isValid_spec {t : Tree R d} (hm : Repr nodes d t) (hg : Good d true Range.full t)
    {π : Cursor} {pos : Nat} (hπ : PathAt d t π pos) :
    isValid nodes π = some (decide (pos < (contents d t).length)) := by
  obtain ⟨p, F, L, recs, i, base, rest, rfl, hp, hi, rfl, -, -, -, ends⟩ := pathAt_leaf hm hg hπ
  have bounded := pathAt_le hπ
  have value : isValid nodes ((p, (i : Int)) :: rest) =
      some (!((i : Int) == (recs.length : Int) && L)) := by
    simp only [isValid, currNode, hp, entryIndex, Option.bind_eq_bind, Option.bind_some,
      numKeys_leaf]
    rfl
  rw [value]
  congr 1
  rw [Bool.eq_iff_iff]
  simp only [Range.full, and_true] at ends
  simp only [Bool.not_eq_true', Bool.and_eq_false_iff, beq_eq_false_iff_ne, decide_eq_true_eq,
    ne_eq, Int.natCast_inj]
  by_cases hend : i = recs.length ∧ L = true
  · have atEnd := ends.mp hend
    obtain ⟨rfl, rfl⟩ := hend
    simp [atEnd]
  · have : base + i ≠ (contents d t).length := fun same => hend (ends.mpr same)
    rw [not_and_or, Bool.not_eq_true] at hend
    simp only [hend, true_iff]
    exact lt_of_le_of_ne bounded this

/-! ### One step forward -/

theorem stepNext_last {p : Ptr} {i : Int} {up : Cursor} {n : BtNode R} (hup : up ≠ [])
    (hn : nodes[p]? = some n) (hi : i = lastpointer n) :
    stepNext nodes ((p, i) :: up) = stepNext nodes up := by
  obtain ⟨e, rest, rfl⟩ := List.exists_cons_of_ne_nil hup
  simp [stepNext, ascendLast, hn, hi]

theorem stepNext_here {p : Ptr} {i : Int} {up : Cursor} {n : BtNode R}
    (hn : nodes[p]? = some n) (hi : i ≠ lastpointer n) :
    stepNext nodes ((p, i) :: up) =
      if n.isLeaf then some ((p, i + 1) :: up)
      else (entryChild n (i + 1)).bind fun q => moveToFirst nodes q ((p, i + 1) :: up) := by
  have stays : ascendLast nodes ((p, i) :: up) = some ((p, i) :: up) := by
    cases up with
    | nil => rfl
    | cons e rest => simp [ascendLast, hn, hi]
  rw [stepNext, stays]
  simp [hn]

/-- From the end of a leaf: the leaf is the last one of the subtree and the step leaves the
subtree, or the step goes to the first entry of the next leaf, which has the same position. -/
theorem stepNext_subtree {t : Tree R d} (hm : Repr nodes d t) (hg : Good d root r t)
    {p : Ptr} {i : Int} {rest : Cursor} {n : BtNode R} {pos : Nat}
    (hπ : PathAt d t ((p, i) :: rest) pos) (hn : nodes[p]? = some n) (hleaf : i = n.numKeys)
    (up : Cursor) (hroom : d + up.length < MAX_TREE_DEPTH) :
    (pos = (contents d t).length ∧
        (up ≠ [] → stepNext nodes ((p, i) :: rest ++ up) = stepNext nodes up)) ∨
      ∃ q rest', stepNext nodes ((p, i) :: rest ++ up) = some ((q, 0) :: rest' ++ up) ∧
        PathAt d t ((q, 0) :: rest') pos ∧ pos < (contents d t).length := by
  induction d generalizing root r rest pos up with
  | zero =>
    obtain ⟨p', F, L, recs, rfl⟩ := exists_leaf t
    obtain ⟨-, hπ⟩ := hπ
    simp only [List.cons.injEq, Prod.mk.injEq] at hπ
    obtain ⟨⟨rfl, rfl⟩, rfl⟩ := hπ
    obtain rfl := Option.some.inj (hn.symm.trans (repr_ptr hm))
    rw [numKeys_leaf] at hleaf
    refine Or.inl ⟨by simpa using hleaf, fun hup => stepNext_last hup hn ?_⟩
    rw [lastpointer, if_pos (by simp), numKeys_leaf, hleaf]
  | succ d ih =>
    obtain ⟨p', F, L, t, ts, rfl⟩ := exists_node t
    obtain ⟨pre, f, post, π', pos', hj, hf, hrest, rfl⟩ := hπ
    have hmf := hm.2 f (mem_of_join hj)
    have hs := hg.2.1
    have hnode := repr_ptr hm
    rw [ptr_node] at hnode
    obtain ⟨e', rest', rfl⟩ := List.exists_cons_of_ne_nil (pathAt_ne_nil hf)
    simp only [List.cons_append, List.cons.injEq] at hrest
    obtain ⟨rfl, rfl⟩ := hrest
    have hgf := good_focus hg hj
    have deeper : d + ((p', (pre.length : Int) - 1) :: up).length < MAX_TREE_DEPTH := by
      rw [List.length_cons]
      omega
    have total : (contents (d + 1) (node p' F L t ts)).length =
        (pre.flatMap fun x => contents d x.1).length + (contents d f).length +
          (post.flatMap fun x => contents d x.2).length := by
      obtain ⟨rfl, rfl⟩ := Prod.mk.inj hj
      simp [gather_join, Nat.add_assoc]
    have outer : (p, i) :: (rest' ++ [(p', (pre.length : Int) - 1)]) ++ up =
        (p, i) :: rest' ++ (p', (pre.length : Int) - 1) :: up := by simp
    rcases ih hmf hgf hf _ deeper with ⟨rfl, out⟩ | ⟨q, rest'', hstep, hq, hlt⟩
    · have hout := out (List.cons_ne_nil _ _)
      cases post with
      | nil =>
        refine Or.inl ⟨by rw [total]; simp, fun hup => ?_⟩
        rw [outer, hout]
        refine stepNext_last hup hnode ?_
        have hlen : ts.length = pre.length := by
          have := length_join pre f ([] : List (Key × Tree R d))
          rw [← hj] at this
          simpa using this
        rw [lastpointer, if_neg (by simp), numKeys_node, hlen]
      | cons e post =>
        obtain ⟨k, g⟩ := e
        have hj' := hj.trans (join_shift pre f g k post)
        have hmg := hm.2 g (mem_of_join hj')
        have deeper' : d + ((p', (pre.length : Int)) :: up).length < MAX_TREE_DEPTH := by
          rw [List.length_cons]
          omega
        obtain ⟨π, hfirst, hpath⟩ := moveToFirst_spec hmg _ deeper'
        obtain ⟨x, hx⟩ : ∃ x, Good d false x g := by
          obtain ⟨rfl, rfl⟩ := Prod.mk.inj hj'
          exact siblings_mem hs g (mem_of_join rfl)
        have hpos := List.length_pos_iff.mpr (good_nonempty hx)
        obtain ⟨q, F', L', recs, j, base, rest'', rfl, -, -, hzero, -⟩ :=
          pathAt_leaf hmg hx hpath
        obtain rfl : j = 0 := by omega
        refine Or.inr ⟨q, rest'' ++ [(p', (pre.length : Int))], ?_, ?_, ?_⟩
        · rw [outer, hout]
          have notLast : (pre.length : Int) - 1 ≠ lastpointer (toNode (node p' F L t ts)) := by
            have hlen := length_join pre f ((k, g) :: post)
            rw [← hj, List.length_cons] at hlen
            rw [lastpointer, if_neg (by simp), numKeys_node]
            dsimp only at hlen
            omega
          have hchild : entryChild (toNode (node p' F L t ts)) (pre.length : Int) = some (ptr g) := by
            have child := childAt_join (p := p') (F := F) (L := L) hj'
            have index : ((pre ++ [(f, k)]).length : Int) - 1 = (pre.length : Int) := by simp
            rw [index, childAt, if_neg (by omega)] at child
            exact child
          rw [stepNext_here hnode notLast, if_neg (by simp), Int.sub_add_cancel, hchild,
            Option.bind_some, hfirst]
          simp
        · refine ⟨pre ++ [(f, k)], g, post, _, 0, hj', hpath, by simp, ?_⟩
          simp
        · rw [total]
          simp only [List.flatMap_cons, List.length_append]
          omega
    · refine Or.inr ⟨q, rest'' ++ [(p', (pre.length : Int) - 1)], ?_, ?_, ?_⟩
      · rw [outer, hstep]
        simp
      · exact ⟨pre, f, post, _, pos', hj, hq, rfl, rfl⟩
      · rw [total]
        omega

/-! ### The operations on the whole tree -/

variable {t : Tree R d} {π : Cursor} {pos : Nat}

/-- After the step over a leaf end a valid cursor is at its entry. -/
theorem skipLeafEnd_spec (hm : Repr nodes d t) (hg : Good d true Range.full t)
    (hroom : d < MAX_TREE_DEPTH) (hπ : PathAt d t π pos) :
    ∃ π', skipLeafEnd nodes π = some π' ∧ PathAt d t π' pos ∧
      (pos < (contents d t).length → ∃ p F L recs i rest, π' = (p, ((i : Nat) : Int)) :: rest ∧
        nodes[p]? = some (toNode (leaf p F L recs)) ∧ i < recs.length ∧
        recs[i]? = (contents d t)[pos]? ∧
        PathAt d t ((p, ((i + 1 : Nat) : Int)) :: rest) (pos + 1)) := by
  obtain ⟨p, F, L, recs, i, base, rest, rfl, hp, hi, rfl, moves, reads, -⟩ :=
    pathAt_leaf hm hg hπ
  have current : skipLeafEnd nodes ((p, (i : Int)) :: rest) =
      if (i : Int) = recs.length then moveToNext nodes ((p, (i : Int)) :: rest)
      else some ((p, (i : Int)) :: rest) := by
    simp only [skipLeafEnd, entryIndex, currNode, hp, Option.bind_eq_bind, Option.bind_some,
      numKeys_leaf]
    rfl
  rw [current]
  by_cases hend : i = recs.length
  · rw [if_pos (by exact_mod_cast hend), moveToNext, isValid_spec hm hg hπ]
    simp only [Option.bind_eq_bind, Option.bind_some, decide_eq_true_eq]
    by_cases valid : base + i < (contents d t).length
    · have hleaf : (i : Int) = (toNode (leaf p F L recs)).numKeys := by
        rw [numKeys_leaf, hend]
      rw [if_pos valid]
      rcases stepNext_subtree hm hg hπ hp hleaf [] (by simpa using hroom) with
        ⟨atEnd, -⟩ | ⟨q, rest', hstep, hq, -⟩
      · omega
      · simp only [List.append_nil] at hstep
        refine ⟨_, hstep, hq, fun _ => ?_⟩
        obtain ⟨q', F', L', recs', j, base', rest'', heq, hq', -, hpos, moves', reads', nonempty, -⟩ :=
          pathAt_leaf hm hg hq
        simp only [List.cons.injEq, Prod.mk.injEq] at heq
        obtain ⟨⟨rfl, hj⟩, rfl⟩ := heq
        obtain rfl : j = 0 := by omega
        have filled : 0 < recs'.length := by
          refine List.length_pos_iff.mpr fun none => ?_
          rw [nonempty none] at valid
          exact absurd valid (Nat.not_lt_zero _)
        exact ⟨q, F', L', recs', 0, rest', rfl, hq', filled,
          by rw [← reads' 0 filled, hpos], by simpa [hpos] using moves' 1 filled⟩
    · rw [if_neg valid]
      exact ⟨_, rfl, hπ, fun h => absurd h valid⟩
  · rw [if_neg (by exact_mod_cast hend)]
    have hlt : i < recs.length := by omega
    exact ⟨_, rfl, hπ, fun _ => ⟨p, F, L, recs, i, rest, rfl, hp, hlt, (reads i hlt).symm,
      moves (i + 1) hlt⟩⟩

theorem RL_MoveToNext_spec (hm : Repr nodes d t) (hg : Good d true Range.full t)
    (hroom : d < MAX_TREE_DEPTH) (hπ : PathAt d t π pos) :
    ∃ π', RL_MoveToNext nodes π = some π' ∧
      PathAt d t π' (min (pos + 1) (contents d t).length) := by
  obtain ⟨π', hskip, hpath, entry⟩ := skipLeafEnd_spec hm hg hroom hπ
  have bounded := pathAt_le hπ
  have call : RL_MoveToNext nodes π = moveToNext nodes π' := by simp [RL_MoveToNext, hskip]
  rw [call, moveToNext, isValid_spec hm hg hpath]
  by_cases hlt : pos < (contents d t).length
  · obtain ⟨p, F, L, recs, i, rest, rfl, hp, hi, -, hnext⟩ := entry hlt
    have notLast : (i : Int) ≠ lastpointer (toNode (leaf p F L recs)) := by
      rw [lastpointer, if_pos (by simp), numKeys_leaf]
      omega
    refine ⟨(p, ((i + 1 : Nat) : Int)) :: rest, ?_, by rwa [Nat.min_eq_left hlt]⟩
    simp only [hlt, decide_true, Option.bind_eq_bind, Option.bind_some, if_true]
    rw [stepNext_here hp notLast, if_pos (by simp)]
    rfl
  · have atEnd : min (pos + 1) (contents d t).length = pos := by omega
    exact ⟨π', by simp [hlt], by rwa [atEnd]⟩

/-- Reading the cursor's key moves it to the entry itself, at the same position. -/
theorem RL_GetKey_spec (hm : Repr nodes d t) (hg : Good d true Range.full t)
    (hroom : d < MAX_TREE_DEPTH) (hπ : PathAt d t π pos) {x : Key × R}
    (hx : (contents d t)[pos]? = some x) :
    ∃ π', RL_GetKey nodes π = some (π', x.1) ∧ PathAt d t π' pos := by
  obtain ⟨hlt, -⟩ := List.getElem?_eq_some_iff.mp hx
  obtain ⟨π', hskip, hpath, entry⟩ := skipLeafEnd_spec hm hg hroom hπ
  obtain ⟨p, F, L, recs, i, rest, rfl, hp, hi, hread, -⟩ := entry hlt
  refine ⟨_, ?_, hpath⟩
  have hentry : entryAt (toNode (leaf p F L recs)) (i : Int) = some ⟨x.1, .record x.2⟩ := by
    rw [hx] at hread
    simp [entryAt, hread]
  simp only [RL_GetKey, isValid_spec hm hg hπ, hlt, decide_true, hskip, currNode, hp, entryIndex,
    hentry, Option.bind_eq_bind, Option.bind_some, guard_true, Option.pure_def]

theorem RL_GetRecord_spec (hm : Repr nodes d t) (hg : Good d true Range.full t)
    (hroom : d < MAX_TREE_DEPTH) (hπ : PathAt d t π pos) {x : Key × R}
    (hx : (contents d t)[pos]? = some x) :
    ∃ π', RL_GetRecord nodes π = some (π', x.2) ∧ PathAt d t π' pos := by
  obtain ⟨hlt, -⟩ := List.getElem?_eq_some_iff.mp hx
  obtain ⟨π', hskip, hpath, entry⟩ := skipLeafEnd_spec hm hg hroom hπ
  obtain ⟨p, F, L, recs, i, rest, rfl, hp, hi, hread, -⟩ := entry hlt
  refine ⟨_, ?_, hpath⟩
  have hentry : entryRecord (toNode (leaf p F L recs)) (i : Int) = some x.2 := by
    rw [hx] at hread
    simp [entryRecord, entryAt, hread]
  simp only [RL_GetRecord, isValid_spec hm hg hπ, hlt, decide_true, hskip, currNode, hp,
    entryIndex, hentry, Option.bind_eq_bind, Option.bind_some, guard_true, Option.pure_def]

/-- `RL_MoveToKey` goes to the rank of the key and says whether the key is there. -/
theorem RL_MoveToKey_spec (hm : Repr nodes d t) (hg : Good d true Range.full t)
    (hroom : d < MAX_TREE_DEPTH) (hπ : PathAt d t π pos) (key : Key) :
    ∃ π', RL_MoveToKey nodes π key = some (π', decide (key ∈ (contents d t).map Prod.fst)) ∧
      PathAt d t π' (rank key (contents d t)) := by
  obtain ⟨π₁, hgo, hsearch⟩ := goToKey_spec hm hg hπ key hroom
  have hpath := searchPath_pathAt hg (Range.mem_full key) hsearch
  have hs := good_sorted hg
  cases hx : (contents d t)[rank key (contents d t)]? with
  | none =>
    have atEnd : ¬ rank key (contents d t) < (contents d t).length := by
      simpa using List.getElem?_eq_none_iff.mp hx
    have absent : key ∉ (contents d t).map Prod.fst := by
      intro hk
      obtain ⟨y, hy, rfl⟩ := List.mem_map.mp hk
      rw [getElem?_rank_of_mem hs hy] at hx
      cases hx
    refine ⟨π₁, ?_, hpath⟩
    simp [RL_MoveToKey, hgo, isValid_spec hm hg hpath, atEnd, absent]
  | some x =>
    obtain ⟨hlt, -⟩ := List.getElem?_eq_some_iff.mp hx
    obtain ⟨π₂, hget, hpath₂⟩ := RL_GetKey_spec hm hg hroom hpath hx
    have present : (x.1 == key) = decide (key ∈ (contents d t).map Prod.fst) := by
      rw [Bool.eq_iff_iff, beq_iff_eq, decide_eq_true_eq]
      constructor
      · rintro rfl
        exact List.mem_map_of_mem (List.mem_of_getElem? hx)
      · intro hk
        obtain ⟨y, hy, rfl⟩ := List.mem_map.mp hk
        rw [getElem?_rank_of_mem hs hy] at hx
        rw [← Option.some.inj hx]
    refine ⟨π₂, ?_, hpath₂⟩
    simp [RL_MoveToKey, hgo, isValid_spec hm hg hpath, hlt, hget, present]

end DeepDB.BTree
