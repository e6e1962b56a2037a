import DeepDB.Library.Refine
import DeepDB.BTree.SortedMap

/-!
Scanning backwards. From the first entry of a leaf `RL_MoveToPrevious` ascends past the first
pointers, takes the child in front and goes down in it. Below a child that is an interior node it
goes on with `moveToFirst`, so it comes out at the first entry of that child's last leaf; and the
child in front of the first entry is `ptr0`, which it reads as `entries[-1].ptr.child`.
-/

namespace DeepDB.Library
open SortedAssoc Multiway
open BTree hiding findChildIndexFrom findChildIndex moveToKeyIn moveToKey isNodeParent
  ascendToParent goToKey moveToNext skipLeafEnd RL_MoveToNext RL_GetKey RL_GetRecord RL_MoveToKey
  RL_MoveToFirst RL_NewRelation RL_NewCursor RL_CursorIsValid RL_IsEmpty RL_NumRecords splitnode
  putEntry RL_PutRecord State Result step run run_snoc
open BTree.Tree

variable {R : Type} {d : Nat} {root aliased : Bool} {r : Range Key} {nodes : Nodes R}
  {n : BtNode R} {p : Ptr} {i : Int} {up rest π : Cursor} {pos : Nat}

/-! ### The first pointers -/

theorem stepPrev_first (hup : up ≠ []) (hn : nodes[p]? = some n) (hi : i = firstpointer n) :
    stepPrev aliased nodes ((p, i) :: up) = stepPrev aliased nodes up := by
  obtain ⟨e, rest, rfl⟩ := List.exists_cons_of_ne_nil hup
  simp [stepPrev, ascendFirst, hn, hi]

theorem stepPrev_here (hn : nodes[p]? = some n) (hi : i ≠ firstpointer n) :
    stepPrev aliased nodes ((p, i) :: up) =
      if n.isLeaf then some ((p, i - 1) :: up)
      else (entryChildFront aliased n (i - 1)).bind fun q =>
        moveToLast nodes q ((p, i - 1) :: up) := by
  have stays : ascendFirst nodes ((p, i) :: up) = some ((p, i) :: up) := by
    cases up with
    | nil => rfl
    | cons e rest => simp [ascendFirst, hn, hi]
  rw [stepPrev, stays]
  simp [hn]

/-! ### Going down to the last leaf -/

theorem moveToLast_leaf {F L : Bool} {recs : List (Key × R)}
    (hm : Repr nodes 0 (leaf p F L recs)) (room : up.length < MAX_TREE_DEPTH) :
    moveToLast nodes p up = some ((p, (recs.length : Int)) :: up) := by
  have hn : nodes[p]? = some (toNode (leaf p F L recs)) := repr_ptr hm
  simp only [moveToLast, room, guard_true, hn, Option.bind_eq_bind, Option.bind_some, numKeys_leaf]
  rfl

/-- Below an interior node it comes out at the first entry of the last child, not at its end. -/
theorem moveToLast_node {t : Tree R (d + 1)} (hm : Repr nodes (d + 1) t)
    (hg : Good (d + 1) root r t) (up : Cursor) (room : d + 1 + up.length < MAX_TREE_DEPTH) :
    ∃ π pos, moveToLast nodes (ptr t) up = some (π ++ up) ∧ PathAt (d + 1) t π pos ∧
      pos + 1 < (contents (d + 1) t).length := by
  obtain ⟨p, F, L, t, ts, rfl⟩ := exists_node t
  have filled := hg.2.2.2.1
  have hn : nodes[p]? = some (toNode (node p F L t ts)) := repr_ptr hm
  obtain ⟨e, he⟩ : ∃ e, ts[ts.length - 1]? = some e :=
    ⟨_, List.getElem?_eq_getElem (Nat.sub_lt filled Nat.one_pos)⟩
  obtain ⟨pre, post, hj, hlen⟩ := join_of_getElem? (t := t) he
  have hmf := hm.2 e.2 (mem_of_join hj)
  have hgf := good_focus hg hj
  have total := length_join pre e.2 post
  rw [← hj] at total
  have index : (ts.length : Int) - 1 = (pre.length : Int) - 1 := by omega
  obtain rfl : post = [] := List.length_eq_zero_iff.mp (by dsimp only at total; omega)
  have last : entryChild (toNode (node p F L t ts)) ((pre.length : Int) - 1) = some (ptr e.2) := by
    have child := childAt_join (p := p) (F := F) (L := L) hj
    rwa [childAt, if_neg (by omega)] at child
  obtain ⟨π, first, hπ⟩ := moveToFirst_spec hmf ((p, (pre.length : Int) - 1) :: up)
    (by rw [List.length_cons]; omega)
  refine ⟨π ++ [(p, (pre.length : Int) - 1)], _, ?_, ⟨pre, e.2, [], π, 0, hj, hπ, rfl, rfl⟩, ?_⟩
  · have shallow : up.length < MAX_TREE_DEPTH := by omega
    simp only [moveToLast, ptr_node, shallow, guard_true, hn, numKeys_node, index, last,
      Option.bind_eq_bind, Option.bind_some]
    rw [if_neg (by simp), first]
    simp
  · have many := good_length hgf
    have pos : 8 ≤ 8 ^ (d + 1) := by
      rw [pow_succ]
      exact Nat.le_mul_of_pos_left 8 (Nat.pow_pos (by decide))
    obtain ⟨rfl, rfl⟩ := Prod.mk.inj hj
    rw [contents_node, gather_join]
    simp only [List.flatMap_nil, List.append_nil, List.length_append]
    omega

/-! ### One step back -/

/-- The cursor is behind the first entry of its leaf, or the leaf in front hangs on the same parent
where `moveToPrev` can read its pointer. -/
def LeafBehind (aliased : Bool) : Cursor → Prop
  | (_, k) :: (_, j) :: _ => k ≠ 0 ∨ 1 ≤ j ∨ (aliased = true ∧ j = 0)
  | [(_, k)] => k ≠ 0
  | [] => False

theorem leafBehind_append {k : Int} (hrest : rest ≠ []) (l : Cursor) :
    LeafBehind aliased ((p, k) :: (rest ++ l)) ↔ LeafBehind aliased ((p, k) :: rest) := by
  obtain ⟨e, rest, rfl⟩ := List.exists_cons_of_ne_nil hrest
  exact Iff.rfl

/-- What the step from the first entry of a leaf does inside the subtree: it goes to the end of the
leaf in front, or it has no value or goes too far back. -/
def StepsInside (aliased : Bool) (nodes : Nodes R) (t : Tree R d) (π up : Cursor) (pos : Nat) :
    Prop :=
  (LeafBehind aliased π ∧ ∃ q k rest, stepPrev aliased nodes (π ++ up) =
      some ((q, ((k + 1 : Nat) : Int)) :: rest ++ up) ∧
      PathAt d t ((q, ((k + 1 : Nat) : Int)) :: rest) pos) ∨
    (¬ LeafBehind aliased π ∧ (stepPrev aliased nodes (π ++ up) = none ∨ ∃ π' pos',
      stepPrev aliased nodes (π ++ up) = some (π' ++ up) ∧ PathAt d t π' pos' ∧ pos' + 1 < pos))

section
variable {F L : Bool} {t f : Tree R d} {ts post : List (Key × Tree R d)}
  {pre : List (Tree R d × Key)} {p' : Ptr} {pos' : Nat}

/-- Inside a child is inside the node. -/
theorem stepsInside_child (hj : (t, ts) = join pre f post) (hrest : rest ≠ [])
    (h : StepsInside aliased nodes f ((p, i) :: rest) ((p', (pre.length : Int) - 1) :: up) pos') :
    StepsInside aliased nodes (node p' F L t ts) ((p, i) :: (rest ++ [(p', (pre.length : Int) - 1)]))
      up ((pre.flatMap fun x => contents d x.1).length + pos') := by
  have outer : (p, i) :: (rest ++ [(p', (pre.length : Int) - 1)]) ++ up =
      (p, i) :: rest ++ (p', (pre.length : Int) - 1) :: up := by simp
  simp only [StepsInside, outer, leafBehind_append hrest] at h ⊢
  rcases h with ⟨behind, q, k, rest', hstep, hq⟩ | ⟨apart, later⟩
  · refine Or.inl ⟨behind, q, k, rest' ++ [(p', (pre.length : Int) - 1)], by rw [hstep]; simp, ?_⟩
    exact ⟨pre, f, post, _, pos', hj, hq, rfl, rfl⟩
  · refine Or.inr ⟨apart, later.imp_right ?_⟩
    rintro ⟨π', pos'', hstep, hπ', far⟩
    refine ⟨π' ++ [(p', (pre.length : Int) - 1)], _, by rw [hstep]; simp,
      ⟨pre, f, post, π', pos'', hj, hπ', rfl, rfl⟩, by omega⟩

theorem entryChildFront_join (hj : (t, ts) = join pre f post) :
    entryChildFront aliased (toNode (node p F L t ts)) ((pre.length : Int) - 1) =
      if pre = [] ∧ aliased = false then none else some (ptr f) := by
  have child := childAt_join (p := p) (F := F) (L := L) hj
  rw [childAt] at child
  rw [entryChildFront]
  cases pre with
  | nil =>
    cases aliased with
    | false => simp
    | true => simpa using child
  | cons e pre =>
    have later : ¬ ((e :: pre).length : Int) - 1 = -1 := by
      rw [List.length_cons]
      omega
    rw [if_neg later] at child
    rw [if_neg later, child, if_neg (by simp)]

end

/-- From the first entry of a leaf to the leaf in front, on the same parent. -/
theorem stepsInside_leaf {F L : Bool} {t g : Tree R 0} {ts post : List (Key × Tree R 0)}
    {pre : List (Tree R 0 × Key)} {p' : Ptr} (hm : Repr nodes 1 (node p' F L t ts))
    (hg : Good 1 root r (node p' F L t ts)) (hj : (t, ts) = join pre g post)
    (room : 1 + up.length < MAX_TREE_DEPTH)
    (call : stepPrev aliased nodes ((p, 0) :: (p', (pre.length : Int)) :: up) =
      (entryChildFront aliased (toNode (node p' F L t ts)) ((pre.length : Int) - 1)).bind fun q =>
        moveToLast nodes q ((p', (pre.length : Int) - 1) :: up)) :
    StepsInside aliased nodes (node p' F L t ts) [(p, 0), (p', (pre.length : Int))] up
      ((pre.flatMap fun x => contents 0 x.1).length + (contents 0 g).length) := by
  have child := good_focus hg hj
  have filled := List.length_pos_iff.mpr (good_nonempty child)
  have hmg := hm.2 g (mem_of_join hj)
  obtain ⟨q, F', L', recs, rfl⟩ := exists_leaf g
  rw [entryChildFront_join hj] at call
  by_cases front : pre = [] ∧ aliased = false
  · refine Or.inr ⟨?_, Or.inl ?_⟩
    · simp [LeafBehind, front]
    · rw [if_pos front] at call
      exact call
  · obtain ⟨k, hk⟩ : ∃ k, recs.length = k + 1 :=
      ⟨recs.length - 1, by rw [contents_leaf] at filled; omega⟩
    refine Or.inl ⟨?_, q, k, [(p', (pre.length : Int) - 1)], ?_, ?_⟩
    · cases pre with
      | nil => simpa [LeafBehind] using front
      | cons e pre =>
        refine Or.inr (Or.inl ?_)
        rw [List.length_cons]
        omega
    · rw [if_neg front, Option.bind_some, ptr_leaf,
        moveToLast_leaf hmg (by rw [List.length_cons]; omega), hk] at call
      exact call
    · exact ⟨pre, _, post, _, recs.length, hj, ⟨Nat.le_refl _, rfl⟩, by rw [hk]; rfl, rfl⟩

/-- From the first entry of a subtree with interior nodes to the subtree in front: not to its end. -/
theorem stepsInside_node {F L : Bool} {t g : Tree R (d + 1)} {ts post : List (Key × Tree R (d + 1))}
    {pre : List (Tree R (d + 1) × Key)} {p' q : Ptr} (hm : Repr nodes (d + 2) (node p' F L t ts))
    (hg : Good (d + 2) root r (node p' F L t ts)) (hj : (t, ts) = join pre g post)
    (room : d + 2 + up.length < MAX_TREE_DEPTH)
    (call : stepPrev aliased nodes ((p, 0) :: (q, -1) :: rest ++ (p', (pre.length : Int)) :: up) =
      (entryChildFront aliased (toNode (node p' F L t ts)) ((pre.length : Int) - 1)).bind fun q =>
        moveToLast nodes q ((p', (pre.length : Int) - 1) :: up)) :
    StepsInside aliased nodes (node p' F L t ts)
      ((p, 0) :: (q, -1) :: (rest ++ [(p', (pre.length : Int))])) up
      ((pre.flatMap fun x => contents (d + 1) x.1).length + (contents (d + 1) g).length) := by
  have outer : (p, 0) :: (q, -1) :: (rest ++ [(p', (pre.length : Int))]) ++ up =
      (p, 0) :: (q, -1) :: rest ++ (p', (pre.length : Int)) :: up := by simp
  have apart : ¬ LeafBehind aliased ((p, 0) :: (q, -1) :: (rest ++ [(p', (pre.length : Int))])) := by
    simp [LeafBehind]
  rw [entryChildFront_join hj] at call
  refine Or.inr ⟨apart, ?_⟩
  rw [outer, call]
  by_cases front : pre = [] ∧ aliased = false
  · rw [if_pos front]
    exact Or.inl rfl
  · obtain ⟨π, pos, hlast, hπ, far⟩ := moveToLast_node (hm.2 g (mem_of_join hj))
      (good_focus hg hj) ((p', (pre.length : Int) - 1) :: up)
      (by rw [List.length_cons]; omega)
    rw [if_neg front, Option.bind_some, hlast]
    exact Or.inr ⟨π ++ [(p', (pre.length : Int) - 1)], _, by simp,
      ⟨pre, g, post, π, pos, hj, hπ, rfl, rfl⟩, by omega⟩

/-- The step from the first entry of a leaf, unless it leaves the subtree. -/
theorem stepPrev_subtree {t : Tree R d} (hm : Repr nodes d t) (hg : Good d root r t)
    (hπ : PathAt d t ((p, 0) :: rest) pos) (up : Cursor) (room : d + up.length < MAX_TREE_DEPTH) :
    (pos = 0 ∧ (up ≠ [] →
        stepPrev aliased nodes ((p, 0) :: rest ++ up) = stepPrev aliased nodes up)) ∨
      (0 < pos ∧ StepsInside aliased nodes t ((p, 0) :: rest) up pos) := by
  induction d generalizing root r rest pos up with
  | zero =>
    obtain ⟨p', F, L, recs, rfl⟩ := exists_leaf t
    obtain ⟨-, hπ⟩ := hπ
    simp only [List.cons.injEq, Prod.mk.injEq] at hπ
    obtain ⟨⟨rfl, here⟩, rfl⟩ := hπ
    have hn : nodes[p]? = some (toNode (leaf p F L recs)) := repr_ptr hm
    exact Or.inl ⟨by omega, fun hup => stepPrev_first hup hn (by simp [firstpointer])⟩
  | succ d ih =>
    obtain ⟨p', F, L, t, ts, rfl⟩ := exists_node t
    obtain ⟨pre, f, post, π', pos', hj, hf, hrest, rfl⟩ := hπ
    obtain ⟨e', rest', rfl⟩ := List.exists_cons_of_ne_nil (pathAt_ne_nil hf)
    simp only [List.cons_append, List.cons.injEq] at hrest
    obtain ⟨rfl, rfl⟩ := hrest
    have hmf := hm.2 f (mem_of_join hj)
    have hgf := good_focus hg hj
    have hnode : nodes[p']? = some (toNode (node p' F L t ts)) := repr_ptr hm
    have outer : (p, 0) :: (rest' ++ [(p', (pre.length : Int) - 1)]) ++ up =
        (p, 0) :: rest' ++ (p', (pre.length : Int) - 1) :: up := by simp
    rcases ih hmf hgf hf ((p', (pre.length : Int) - 1) :: up) (by rw [List.length_cons]; omega) with
      ⟨rfl, out⟩ | ⟨later, inside⟩
    · have hout := out (List.cons_ne_nil _ _)
      rcases List.eq_nil_or_concat pre with rfl | ⟨pre, ⟨g, k⟩, rfl⟩
      · refine Or.inl ⟨rfl, fun hup => ?_⟩
        rw [outer, hout]
        exact stepPrev_first hup hnode (by simp [firstpointer])
      · rw [List.concat_eq_append] at hj hout ⊢
        refine Or.inr ?_
        have hj' := hj.trans (join_shift pre g f k post).symm
        have index : ((pre ++ [(g, k)]).length : Int) - 1 = (pre.length : Int) := by simp
        have notFirst : (pre.length : Int) ≠ firstpointer (toNode (node p' F L t ts)) := by
          rw [firstpointer, if_neg (by simp)]
          omega
        have front := List.length_pos_iff.mpr (good_nonempty (good_focus hg hj'))
        have before : ((pre ++ [(g, k)]).flatMap fun x => contents d x.1).length =
            (pre.flatMap fun x => contents d x.1).length + (contents d g).length := by simp
        rw [index, stepPrev_here hnode notFirst, if_neg (by simp)] at hout
        rw [index, before]
        refine ⟨by omega, ?_⟩
        cases d with
        | zero =>
          obtain ⟨-, rest_nil⟩ := hf
          obtain rfl : rest' = [] := (List.cons.inj rest_nil).2
          exact stepsInside_leaf hm hg hj' (by omega) hout
        | succ d =>
          obtain ⟨p₀, q, rest, same⟩ := pathAt_zero hgf hf
          simp only [List.cons.injEq, Prod.mk.injEq] at same
          obtain ⟨⟨rfl, -⟩, rfl⟩ := same
          exact stepsInside_node hm hg hj' (by omega) hout
    · have hrest' : rest' ≠ [] := by
        rintro rfl
        cases d with
        | zero =>
          obtain ⟨-, here⟩ := hf
          simp only [List.cons.injEq, Prod.mk.injEq] at here
          omega
        | succ d =>
          have depth := pathAt_length hf
          simp at depth
      exact Or.inr ⟨by omega, stepsInside_child hj hrest' inside⟩

/-! ### The flags of interior nodes play no part -/

@[simp] theorem firstpointer_forget (n : BtNode R) : firstpointer (forget n) = firstpointer n := by
  simp [firstpointer]

@[simp] theorem entryChildFront_forget (n : BtNode R) (i : Int) :
    entryChildFront aliased (forget n) i = entryChildFront aliased n i := by
  simp [entryChildFront]

theorem ascendFirst_forget (nodes : Nodes R) (π : Cursor) :
    ascendFirst (nodes.map forget) π = ascendFirst nodes π := by
  induction π with
  | nil => rfl
  | cons e up ih =>
    obtain ⟨p, i⟩ := e
    cases up with
    | nil => rfl
    | cons e' up =>
      have step : ∀ nodes : Nodes R, ascendFirst nodes ((p, i) :: e' :: up) =
          nodes[p]?.bind fun n =>
            if i = firstpointer n then ascendFirst nodes (e' :: up)
            else some ((p, i) :: e' :: up) := fun _ => rfl
      rw [step, step, getElem?_forget, ih]
      cases nodes[p]? with
      | none => rfl
      | some n => simp only [Option.map_some, Option.bind_some, firstpointer_forget]

theorem moveToLast_forget (nodes : Nodes R) (p : Ptr) (up : Cursor) :
    moveToLast (nodes.map forget) p up = moveToLast nodes p up := by
  rw [moveToLast, moveToLast, getElem?_forget]
  cases nodes[p]? with
  | none => rfl
  | some n =>
    simp only [Option.map_some, Option.bind_eq_bind, Option.bind_some, forget_isLeaf,
      forget_numKeys, entryChild_forget, moveToFirst_forget]

theorem stepPrev_forget (nodes : Nodes R) (π : Cursor) :
    stepPrev aliased (nodes.map forget) π = stepPrev aliased nodes π := by
  rw [stepPrev, stepPrev, ascendFirst_forget]
  cases ascendFirst nodes π with
  | none => rfl
  | some π' =>
    cases π' with
    | nil => rfl
    | cons e up =>
      simp only [Option.bind_eq_bind, Option.bind_some, getElem?_forget]
      cases nodes[e.1]? with
      | none => rfl
      | some n =>
        simp only [Option.map_some, Option.bind_some, forget_isLeaf, entryChildFront_forget,
          moveToLast_forget]

/-! ### Moving back on the whole tree -/

section
variable {rel : Relation R} {t : Tree R d}

/-- From behind an entry of a leaf it moves to that entry. -/
theorem moveToPrev_behind {F L : Bool} {recs : List (Key × R)} {k : Nat} (hrel : Holds rel d t)
    (hn : rel.nodes[p]? = some (toNode (leaf p F L recs))) (some_record : contents d t ≠ []) :
    moveToPrev aliased (forgetRel rel) ((p, ((k + 1 : Nat) : Int)) :: rest) =
      some ((p, (k : Int)) :: rest) := by
  have count : ¬ (forgetRel rel).numRecords = 0 := by
    rw [show (forgetRel rel).numRecords = rel.numRecords from rfl, hrel.count]
    exact mt List.length_eq_zero_iff.mp some_record
  have inner : isFirst (forgetRel rel).nodes ((p, ((k + 1 : Nat) : Int)) :: rest) = some false := by
    have later : ¬ (k : Int) + 1 = 0 := by omega
    simp [isFirst, currNode, forgetRel, hn, entryIndex, later]
  have later : ((k + 1 : Nat) : Int) ≠ firstpointer (toNode (leaf p F L recs)) := by
    rw [firstpointer, if_pos (by simp)]
    omega
  rw [moveToPrev, if_neg count, inner, Option.bind_eq_bind, Option.bind_some,
    if_neg (by simp), show (forgetRel rel).nodes = rel.nodes.map forget from rfl, stepPrev_forget,
    stepPrev_here hn later, if_pos (by simp)]
  simp

/-- At the first entry of a leaf the flag of the leaf decides whether it stays. -/
theorem moveToPrev_front (hrel : Holds rel d t) (hπ : PathAt d t ((p, 0) :: rest) pos)
    (some_record : contents d t ≠ []) :
    moveToPrev aliased (forgetRel rel) ((p, 0) :: rest) =
      if pos = 0 then some ((p, 0) :: rest) else stepPrev aliased rel.nodes ((p, 0) :: rest) := by
  have count : ¬ (forgetRel rel).numRecords = 0 := by
    rw [show (forgetRel rel).numRecords = rel.numRecords from rfl, hrel.count]
    exact mt List.length_eq_zero_iff.mp some_record
  obtain ⟨p', F, L, recs, i, base, rest', heq, hn, -⟩ := pathAt_leaf hrel.repr hrel.good hπ
  simp only [List.cons.injEq, Prod.mk.injEq] at heq
  obtain ⟨⟨rfl, -⟩, -⟩ := heq
  have first := pathAt_first hrel.repr hrel.good hπ hn
  have flag : F = decide (pos = 0) := by
    rw [Bool.eq_iff_iff, decide_eq_true_iff]
    simpa [Range.full] using first
  have value : isFirst (forgetRel rel).nodes ((p, 0) :: rest) = some (decide (pos = 0)) := by
    simp [isFirst, currNode, forgetRel, hn, entryIndex, forget, flag]
  rw [moveToPrev, if_neg count, value, Option.bind_eq_bind, Option.bind_some,
    show (forgetRel rel).nodes = rel.nodes.map forget from rfl, stepPrev_forget]
  simp

/-- It never moves forward. -/
theorem moveToPrev_le (hrel : Holds rel d t) (hπ : PathAt d t π pos) :
    moveToPrev aliased (forgetRel rel) π = none ∨ ∃ π' pos',
      moveToPrev aliased (forgetRel rel) π = some π' ∧ PathAt d t π' pos' ∧ pos' ≤ pos := by
  by_cases none : contents d t = []
  · have count : (forgetRel rel).numRecords = 0 := by
      rw [show (forgetRel rel).numRecords = rel.numRecords from rfl, hrel.count, none]
      rfl
    exact Or.inr ⟨π, pos, by rw [moveToPrev, if_pos count]; rfl, hπ, Nat.le_refl _⟩
  obtain ⟨p, F, L, recs, i, base, rest, rfl, hn, hi, rfl, moves, -⟩ :=
    pathAt_leaf hrel.repr hrel.good hπ
  cases i with
  | succ k =>
    exact Or.inr ⟨_, _, moveToPrev_behind hrel hn none, moves k (by omega), by omega⟩
  | zero =>
    rw [Int.natCast_zero, moveToPrev_front hrel hπ none]
    by_cases start : base + 0 = 0
    · rw [if_pos start]
      exact Or.inr ⟨_, _, rfl, hπ, Nat.le_refl _⟩
    · rw [if_neg start]
      rcases stepPrev_subtree hrel.repr hrel.good hπ [] (by simpa using hrel.shallow) with
        ⟨zero, -⟩ | ⟨-, ⟨-, q, k, rest', hstep, hq⟩ | ⟨-, failed | ⟨π', pos', hstep, hπ', far⟩⟩⟩
      · exact absurd zero start
      · simp only [List.append_nil] at hstep
        exact Or.inr ⟨_, _, hstep, hq, Nat.le_refl _⟩
      · simp only [List.append_nil] at failed
        exact Or.inl failed
      · simp only [List.append_nil] at hstep
        exact Or.inr ⟨_, _, hstep, hπ', by omega⟩

/-- `RL_MoveToPrevious` moves to the entry in front from the positions in `LeafBehind`, and from no
other. -/
theorem RL_MoveToPrevious_spec (aliased : Bool) (hrel : Holds rel d t) (hπ : PathAt d t π pos) (inside : 0 < pos) :
    (LeafBehind aliased π ∧ ∃ π', RL_MoveToPrevious aliased (forgetRel rel) π = some π' ∧
        PathAt d t π' (pos - 1)) ∨
      (¬ LeafBehind aliased π ∧ (RL_MoveToPrevious aliased (forgetRel rel) π = none ∨ ∃ π' pos',
        RL_MoveToPrevious aliased (forgetRel rel) π = some π' ∧ PathAt d t π' pos' ∧
        pos' + 1 < pos)) := by
  have some_record : contents d t ≠ [] := by
    intro none
    have := pathAt_le hπ
    rw [none, List.length_nil] at this
    omega
  obtain ⟨p, F, L, recs, i, base, rest, rfl, hn, hi, rfl, moves, -⟩ :=
    pathAt_leaf hrel.repr hrel.good hπ
  cases i with
  | succ k =>
    refine Or.inl ⟨?_, (p, (k : Int)) :: rest, ?_, by simpa using moves k (by omega)⟩
    · have later : ((k + 1 : Nat) : Int) ≠ 0 := by omega
      cases rest with
      | nil => exact later
      | cons e rest => exact Or.inl later
    · have later : ¬ ((k + 1 : Nat) : Int) = 0 := by omega
      rw [RL_MoveToPrevious, entryIndex, Option.bind_eq_bind, Option.bind_some, if_neg later]
      exact moveToPrev_behind hrel hn some_record
  | zero =>
    have twice : RL_MoveToPrevious aliased (forgetRel rel) ((p, ((0 : Nat) : Int)) :: rest) =
        (stepPrev aliased rel.nodes ((p, 0) :: rest)).bind
          (moveToPrev aliased (forgetRel rel)) := by
      rw [RL_MoveToPrevious, entryIndex, Option.bind_eq_bind, Option.bind_some, Int.natCast_zero,
        if_pos rfl, moveToPrev_front hrel hπ some_record, if_neg (by omega)]
      rfl
    rw [twice]
    rcases stepPrev_subtree hrel.repr hrel.good hπ [] (by simpa using hrel.shallow) with
      ⟨zero, -⟩ | ⟨-, ⟨behind, q, k, rest', hstep, hq⟩ | ⟨apart, later⟩⟩
    · omega
    · simp only [List.append_nil] at hstep
      obtain ⟨q', F', L', recs', i', base', rest'', heq, hn', hi', hpos, moves', -⟩ :=
        pathAt_leaf hrel.repr hrel.good hq
      simp only [List.cons.injEq, Prod.mk.injEq, Int.natCast_inj] at heq
      obtain ⟨⟨rfl, rfl⟩, rfl⟩ := heq
      refine Or.inl ⟨behind, (q, (k : Int)) :: rest', ?_, ?_⟩
      · rw [hstep, Option.bind_some, moveToPrev_behind hrel hn' some_record]
      · rw [show base + 0 - 1 = base' + k by omega]
        exact moves' k (by omega)
    · refine Or.inr ⟨apart, ?_⟩
      simp only [List.append_nil] at later
      rcases later with failed | ⟨π', pos', hstep, hπ', far⟩
      · rw [failed]
        exact Or.inl rfl
      · rw [hstep, Option.bind_some]
        refine (moveToPrev_le hrel hπ').imp_right ?_
        rintro ⟨π'', pos'', hmove, hπ'', le⟩
        exact ⟨π'', pos'', hmove, hπ'', by omega⟩

end

end DeepDB.Library
