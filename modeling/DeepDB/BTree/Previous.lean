import DeepDB.BTree.Run

/-!
Stepping backwards in `verif/btrees/relation_mem.c`. A step from the first entry of a leaf ascends
past the first pointers, takes one off the index and goes down to the end of the child there, which
it reads as `entries[entryIndex].ptr.child`; off the index `0` that is `entries[-1]`, where the
child is `ptr0`.
-/

namespace DeepDB.BTree
open SortedAssoc Multiway BTree.Tree

variable {R : Type}

/-! ### The operations -/

def isFirst (nodes : Nodes R) (cursor : Cursor) : Option Bool := do
  let n ← currNode nodes cursor
  return (← entryIndex cursor) == 0 && n.First

def firstpointer (n : BtNode R) : Int := if n.isLeaf then 0 else -1

def moveToLastIn (nodes : Nodes R) : Nat → Ptr → Cursor → Option Cursor
  | 0, _, _ => none
  | room + 1, node, up => do
    let n ← nodes[node]?
    if n.isLeaf then
      return (node, n.numKeys) :: up
    else
      moveToLastIn nodes room (← entryChild n (n.numKeys - 1)) ((node, n.numKeys - 1) :: up)

/-- `moveToLast(node, cursor, level)` with `level = up.length`. -/
def moveToLast (nodes : Nodes R) (node : Ptr) (up : Cursor) : Option Cursor :=
  moveToLastIn nodes (MAX_TREE_DEPTH - up.length) node up

/-- The loop of `moveToPrev`: while the ancestor pointer is the first pointer, ascend. -/
def ascendFirst (nodes : Nodes R) : Cursor → Option Cursor
  | [] => none
  | [e] => some [e]
  | (p, i) :: up => do
    if i = firstpointer (← nodes[p]?) then ascendFirst nodes up else return (p, i) :: up

/-- `moveToPrev` on a cursor that is not the first one. -/
def stepPrev (nodes : Nodes R) (cursor : Cursor) : Option Cursor := do
  match ← ascendFirst nodes cursor with
  | [] => none
  | (p, i) :: up =>
    let n ← nodes[p]?
    if n.isLeaf then return (p, i - 1) :: up
    else moveToLast nodes (← entryChild n (i - 1)) ((p, i - 1) :: up)

def moveToPrev (nodes : Nodes R) (cursor : Cursor) : Option Cursor := do
  if ← isFirst nodes cursor then return cursor else stepPrev nodes cursor

def RL_MoveToPrevious (nodes : Nodes R) (cursor : Cursor) : Option Cursor := do
  let cursor ← if (← entryIndex cursor) = 0 then moveToPrev nodes cursor else some cursor
  moveToPrev nodes cursor

/-- Ascending past the indices `-1` comes to an index `0`. -/
def underFirstEntry : Cursor → Bool
  | [] => false
  | (_, i) :: up => if i = -1 then underFirstEntry up else i == 0

/-- The cursor is at the first entry of a leaf, and the entry in front of it is below a `ptr0`. -/
def stepsIntoPtr0 : Cursor → Bool
  | [] => false
  | (_, i) :: up => i == 0 && underFirstEntry up

/-! ### Going down to the end -/

variable {d : Nat} {root : Bool} {r : Range Key} {nodes : Nodes R} {n : BtNode R} {p : Ptr}
  {i : Int} {up rest π : Cursor} {pos : Nat}

theorem moveToLastIn_spec {t : Tree R d} (hm : Repr nodes d t) (hg : Good d root r t)
    {room : Nat} (hroom : d < room) (up : Cursor) :
    ∃ q n rest, moveToLastIn nodes room (ptr t) up = some ((q, n.numKeys) :: rest ++ up) ∧
      nodes[q]? = some n ∧ PathAt d t ((q, n.numKeys) :: rest) (contents d t).length := by
  induction d generalizing root r room up with
  | zero =>
    obtain ⟨room, rfl⟩ : ∃ n, room = n + 1 := ⟨room - 1, by omega⟩
    obtain ⟨p, F, L, recs, rfl⟩ := exists_leaf t
    refine ⟨p, _, [], ?_, repr_ptr hm, Nat.le_refl _, ?_⟩
    · rw [moveToLastIn, repr_ptr hm]
      rfl
    · rw [numKeys_leaf]
      rfl
  | succ d ih =>
    obtain ⟨room, rfl⟩ : ∃ n, room = n + 1 := ⟨room - 1, by omega⟩
    obtain ⟨p, F, L, t, ts, rfl⟩ := exists_node t
    have filled := hg.2.2.2.1
    obtain ⟨e, he⟩ : ∃ e, ts[ts.length - 1]? = some e :=
      ⟨_, List.getElem?_eq_getElem (Nat.sub_lt filled Nat.one_pos)⟩
    obtain ⟨pre, post, hj, hlen⟩ := join_of_getElem? (t := t) he
    have total := length_join pre e.2 post
    rw [← hj] at total
    obtain rfl : post = [] := List.length_eq_zero_iff.mp (by dsimp only at total; omega)
    have index : (ts.length : Int) - 1 = (pre.length : Int) - 1 := by omega
    have child := childAt_join (p := p) (F := F) (L := L) hj
    rw [childAt, if_neg (by omega)] at child
    have deeper : d < room := by omega
    obtain ⟨q, n, rest, hdown, hq, hpath⟩ := ih (hm.2 e.2 (mem_of_join hj)) (good_focus hg hj)
      deeper ((p, (ts.length : Int) - 1) :: up)
    refine ⟨q, n, rest ++ [(p, (ts.length : Int) - 1)], ?_, hq, pre, e.2, [], _, _, hj, hpath, ?_, ?_⟩
    · rw [moveToLastIn, repr_ptr hm, Option.bind_eq_bind, Option.bind_some,
        if_neg (by simp), numKeys_node, ptr_node, index, child, Option.bind_eq_bind, Option.bind_some,
        ← index, hdown]
      simp
    · rw [index]
      rfl
    · obtain ⟨rfl, rfl⟩ := Prod.mk.inj hj
      simp [gather_join]

theorem moveToLast_spec {t : Tree R d} (hm : Repr nodes d t) (hg : Good d root r t) (up : Cursor)
    (hroom : d + up.length < MAX_TREE_DEPTH) :
    ∃ q n rest, moveToLast nodes (ptr t) up = some ((q, n.numKeys) :: rest ++ up) ∧
      nodes[q]? = some n ∧ PathAt d t ((q, n.numKeys) :: rest) (contents d t).length :=
  moveToLastIn_spec hm hg (by omega) up

/-! ### One step backward -/

theorem stepPrev_first (hup : up ≠ []) (hn : nodes[p]? = some n) (hi : i = firstpointer n) :
    stepPrev nodes ((p, i) :: up) = stepPrev nodes up := by
  obtain ⟨e, rest, rfl⟩ := List.exists_cons_of_ne_nil hup
  simp [stepPrev, ascendFirst, hn, hi]

theorem ascendFirst_here (hn : nodes[p]? = some n) (hi : i ≠ firstpointer n) :
    ascendFirst nodes ((p, i) :: up) = some ((p, i) :: up) := by
  cases up with
  | nil => rfl
  | cons e rest => simp [ascendFirst, hn, hi]

theorem stepPrev_here (hn : nodes[p]? = some n) (hi : i ≠ firstpointer n) (up : Cursor) :
    stepPrev nodes ((p, i) :: up) =
      if n.isLeaf then some ((p, i - 1) :: up)
      else (entryChild n (i - 1)).bind fun q => moveToLast nodes q ((p, i - 1) :: up) := by
  rw [stepPrev, ascendFirst_here hn hi]
  simp [hn]

/-- The step at an interior node, off the child behind `g`. -/
theorem stepPrev_node {p : Ptr} {F L : Bool} {t f g : Tree R d} {ts post : List (Key × Tree R d)}
    {pre : List (Tree R d × Key)} {k : Key} (hm : Repr nodes (d + 1) (node p F L t ts))
    (hg : Good (d + 1) root r (node p F L t ts)) (hj : (t, ts) = join (pre ++ [(g, k)]) f post)
    (up : Cursor) (hroom : d + 1 + up.length < MAX_TREE_DEPTH) :
    (pre = [] ∧ stepPrev nodes ((p, (pre.length : Int)) :: up) = none) ∨
      (pre ≠ [] ∧ ∃ q n' rest', stepPrev nodes ((p, (pre.length : Int)) :: up) =
          some ((q, n'.numKeys) :: rest' ++ up) ∧ nodes[q]? = some n' ∧
        PathAt (d + 1) (node p F L t ts) ((q, n'.numKeys) :: rest')
          ((pre ++ [(g, k)]).flatMap fun x => contents d x.1).length) := by
  have hnode : nodes[p]? = some (toNode (node p F L t ts)) := repr_ptr hm
  have notFirst : (pre.length : Int) ≠ firstpointer (toNode (node p F L t ts)) := by
    rw [firstpointer, if_neg (by simp)]
    omega
  have here := stepPrev_here hnode notFirst up
  rw [if_neg (by simp)] at here
  cases pre with
  | nil => exact Or.inl ⟨rfl, by rw [here]; simp [entryChild, entryAt]⟩
  | cons e pre =>
    have hj' := hj.trans (join_shift (e :: pre) g f k post).symm
    have child := childAt_join (p := p) (F := F) (L := L) hj'
    have longer : ¬ ((e :: pre).length : Int) - 1 = -1 := by
      rw [List.length_cons]
      omega
    rw [childAt, if_neg longer] at child
    have deeper : d + ((p, ((e :: pre).length : Int) - 1) :: up).length < MAX_TREE_DEPTH := by
      rw [List.length_cons]
      omega
    obtain ⟨q, n', rest', hlast, hq, hpath⟩ := moveToLast_spec (hm.2 g (mem_of_join hj'))
      (good_focus hg hj') _ deeper
    refine Or.inr ⟨List.cons_ne_nil _ _, q, n', rest' ++ [(p, ((e :: pre).length : Int) - 1)], ?_,
      hq, e :: pre, g, _, _, _, hj', hpath, rfl, ?_⟩
    · rw [here, child, Option.bind_some, hlast]
      simp
    · simp [Nat.add_assoc]

/-- What the step from the first entry of a leaf does in a subtree: it leaves the subtree, or it
needs the child in front of the first entry of a node, or it goes to the end of the leaf in front. -/
theorem stepPrev_subtree {t : Tree R d} (hm : Repr nodes d t) (hg : Good d root r t)
    (hπ : PathAt d t ((p, 0) :: rest) pos) (hn : nodes[p]? = some n) (up : Cursor)
    (hroom : d + up.length < MAX_TREE_DEPTH) :
    (pos = 0 ∧ underFirstEntry (rest ++ up) = underFirstEntry up ∧
        (up ≠ [] → stepPrev nodes ((p, 0) :: rest ++ up) = stepPrev nodes up)) ∨
      (0 < pos ∧ underFirstEntry (rest ++ up) = true ∧
        stepPrev nodes ((p, 0) :: rest ++ up) = none) ∨
      ∃ q n' rest', 0 < pos ∧ underFirstEntry (rest ++ up) = false ∧
        stepPrev nodes ((p, 0) :: rest ++ up) = some ((q, n'.numKeys) :: rest' ++ up) ∧
        nodes[q]? = some n' ∧ PathAt d t ((q, n'.numKeys) :: rest') pos := by
  induction d generalizing root r rest pos up with
  | zero =>
    obtain ⟨p', F, L, recs, rfl⟩ := exists_leaf t
    obtain ⟨-, hπ⟩ := hπ
    simp only [List.cons.injEq, Prod.mk.injEq] at hπ
    obtain ⟨⟨rfl, hpos⟩, rfl⟩ := hπ
    obtain rfl := Option.some.inj (hn.symm.trans (repr_ptr hm))
    exact Or.inl ⟨by omega, rfl, fun hup => stepPrev_first hup hn (by simp [firstpointer])⟩
  | succ d ih =>
    obtain ⟨p', F, L, t, ts, rfl⟩ := exists_node t
    obtain ⟨pre, f, post, π', pos', hj, hf, hrest, rfl⟩ := hπ
    obtain ⟨e', rest', rfl⟩ := List.exists_cons_of_ne_nil (pathAt_ne_nil hf)
    simp only [List.cons_append, List.cons.injEq] at hrest
    obtain ⟨rfl, rfl⟩ := hrest
    have hnode : nodes[p']? = some (toNode (node p' F L t ts)) := repr_ptr hm
    have deeper : d + ((p', (pre.length : Int) - 1) :: up).length < MAX_TREE_DEPTH := by
      rw [List.length_cons]
      omega
    have outer : (p, 0) :: (rest' ++ [(p', (pre.length : Int) - 1)]) ++ up =
        (p, 0) :: rest' ++ (p', (pre.length : Int) - 1) :: up := by simp
    have above : rest' ++ [(p', (pre.length : Int) - 1)] ++ up =
        rest' ++ (p', (pre.length : Int) - 1) :: up := by simp
    rw [outer, above]
    rcases ih (hm.2 f (mem_of_join hj)) (good_focus hg hj) hf _ deeper with
      ⟨rfl, climbs, out⟩ | ⟨later, into, hstep⟩ | ⟨q, n', rest'', later, climbs, hstep, hq, hpath⟩
    · rw [climbs, out (List.cons_ne_nil _ _)]
      rcases List.eq_nil_or_concat pre with rfl | ⟨pre, ⟨g, k⟩, rfl⟩
      · exact Or.inl ⟨rfl, by simp [underFirstEntry], fun hup =>
          stepPrev_first hup hnode (by simp [firstpointer])⟩
      · refine Or.inr ?_
        rw [List.concat_eq_append] at hj ⊢
        have index : ((pre ++ [(g, k)]).length : Int) - 1 = (pre.length : Int) := by simp
        have climbs' : underFirstEntry ((p', (pre.length : Int)) :: up) = decide (pre = []) := by
          rw [underFirstEntry, if_neg (by omega), Bool.eq_iff_iff]
          simp
        have later : 0 < ((pre ++ [(g, k)]).flatMap fun x => contents d x.1).length + 0 := by
          have front := length_front hg hj
          rw [List.length_append, List.length_singleton] at front
          omega
        rw [index, climbs']
        rcases stepPrev_node hm hg hj up hroom with ⟨none, hstep⟩ | ⟨some, q, n', rest'', hstep, hq, hpath⟩
        · exact Or.inl ⟨later, decide_eq_true none, hstep⟩
        · exact Or.inr ⟨q, n', rest'', later, decide_eq_false some, hstep, hq, hpath⟩
    · exact Or.inr (Or.inl ⟨Nat.add_pos_right _ later, into, hstep⟩)
    · refine Or.inr (Or.inr ⟨q, n', rest'' ++ [(p', (pre.length : Int) - 1)],
        Nat.add_pos_right _ later, climbs, ?_, hq,
        pre, f, post, _, pos', hj, hpath, rfl, rfl⟩)
      rw [hstep]
      simp

/-- Below a first entry the ascent ends at the index `0` of an interior node. -/
theorem ascendFirst_underFirstEntry
    (interior : ∀ e ∈ rest, ∃ n, nodes[e.1]? = some n ∧ n.isLeaf = false)
    (under : underFirstEntry rest = true) :
    ∃ q up n, ascendFirst nodes rest = some ((q, 0) :: up) ∧ nodes[q]? = some n ∧
      n.isLeaf = false := by
  induction rest with
  | nil => cases under
  | cons e rest ih =>
    obtain ⟨q, i⟩ := e
    obtain ⟨n, hn, hleaf⟩ := interior _ List.mem_cons_self
    have first : firstpointer n = -1 := by rw [firstpointer, hleaf, if_neg Bool.false_ne_true]
    rw [underFirstEntry] at under
    split at under
    · rename_i climbs
      have rest' := ih (fun e he => interior e (List.mem_cons_of_mem _ he)) under
      cases rest with
      | nil => cases under
      | cons e' rest =>
        have ascends : ascendFirst nodes ((q, i) :: e' :: rest) = ascendFirst nodes (e' :: rest) := by
          simp [ascendFirst, hn, first, climbs]
        rwa [ascends]
    · rename_i stays
      obtain rfl : i = 0 := by simpa using under
      exact ⟨q, rest, n, ascendFirst_here hn (by rw [first]; exact stays), hn, hleaf⟩

/-! ### The whole tree -/

variable {t : Tree R d}

/-- Above the leaf the cursor holds interior nodes. -/
theorem pathAt_interior {e : Ptr × Int} (hm : Repr nodes d t) (hπ : PathAt d t (e :: rest) pos) :
    ∀ e' ∈ rest, ∃ n, nodes[e'.1]? = some n ∧ n.isLeaf = false := by
  induction d generalizing rest pos with
  | zero =>
    obtain ⟨p', F, L, recs, rfl⟩ := exists_leaf t
    obtain ⟨-, hπ⟩ := hπ
    obtain ⟨-, rfl⟩ := List.cons.inj hπ
    exact fun _ no => by cases no
  | succ d ih =>
    obtain ⟨p', F, L, t, ts, rfl⟩ := exists_node t
    obtain ⟨pre, f, post, π', pos', hj, hf, hrest, -⟩ := hπ
    obtain ⟨e', rest', rfl⟩ := List.exists_cons_of_ne_nil (pathAt_ne_nil hf)
    obtain ⟨rfl, rfl⟩ := List.cons.inj hrest
    intro e'' he
    rcases List.mem_append.mp he with he | he
    · exact ih (hm.2 f (mem_of_join hj)) hf e'' he
    · obtain rfl := List.mem_singleton.mp he
      exact ⟨_, repr_ptr hm, by simp⟩

theorem ascendFirst_stepsIntoPtr0 (hm : Repr nodes d t) (hg : Good d true Range.full t)
    (hπ : PathAt d t π pos) (into : stepsIntoPtr0 π = true) :
    entryIndex π = some 0 ∧ ∃ q up n, ascendFirst nodes π = some ((q, 0) :: up) ∧
      nodes[q]? = some n ∧ n.isLeaf = false := by
  obtain ⟨p, F, L, recs, i, base, rest, rfl, hp, -⟩ := pathAt_leaf hm hg hπ
  obtain ⟨atStart, under⟩ := Bool.and_eq_true_iff.mp into
  obtain hzero : (i : Int) = 0 := by simpa using atStart
  obtain ⟨q, up, n, ascends, hq, hleaf⟩ := ascendFirst_underFirstEntry (pathAt_interior hm hπ) under
  refine ⟨congrArg some hzero, q, up, n, ?_, hq, hleaf⟩
  cases rest with
  | nil => cases under
  | cons e rest =>
    rw [← ascends, hzero]
    simp [ascendFirst, hp, firstpointer]

theorem isFirst_spec (hm : Repr nodes d t) (hg : Good d true Range.full t)
    (hπ : PathAt d t π pos) : isFirst nodes π = some (decide (pos = 0)) := by
  obtain ⟨p, F, L, recs, i, base, rest, rfl, hp, -, hpos, -⟩ := pathAt_leaf hm hg hπ
  have flag := pathAt_first hm hg hπ hp
  have value : isFirst nodes ((p, (i : Int)) :: rest) =
      some ((i : Int) == 0 && (toNode (leaf p F L recs)).First) := by
    simp only [isFirst, currNode, hp, entryIndex, Option.bind_eq_bind, Option.bind_some]
    rfl
  rw [value, Option.some.injEq, Bool.eq_iff_iff, Bool.and_eq_true, flag, beq_iff_eq,
    decide_eq_true_eq]
  constructor
  · rintro ⟨hi, same, -⟩
    omega
  · rintro rfl
    exact ⟨by omega, by omega, rfl⟩

/-- A step from an entry behind the first one of a leaf stays in the leaf. -/
theorem moveToPrev_inside (hm : Repr nodes d t) (hg : Good d true Range.full t)
    (hπ : PathAt d t ((p, i) :: rest) pos) (inside : 0 < i) :
    moveToPrev nodes ((p, i) :: rest) = some ((p, i - 1) :: rest) ∧
      PathAt d t ((p, i - 1) :: rest) (pos - 1) := by
  have first := isFirst_spec hm hg hπ
  obtain ⟨p', F, L, recs, j, base, rest', heq, hp, hj, rfl, moves, -⟩ := pathAt_leaf hm hg hπ
  simp only [List.cons.injEq, Prod.mk.injEq] at heq
  obtain ⟨⟨rfl, rfl⟩, rfl⟩ := heq
  have later : 0 < j := by omega
  have notZero : ¬ base + j = 0 := by omega
  have notFirst : (j : Int) ≠ firstpointer (toNode (leaf p F L recs)) := by
    rw [firstpointer, if_pos (by simp)]
    omega
  have path := moves (j - 1) (by omega)
  rw [show ((j - 1 : Nat) : Int) = (j : Int) - 1 by omega] at path
  refine ⟨?_, by rwa [Nat.add_sub_assoc later]⟩
  rw [moveToPrev, first, decide_eq_false notZero]
  simp only [Option.bind_eq_bind, Option.bind_some, Bool.false_eq_true, if_false]
  rw [stepPrev_here hp notFirst rest, if_pos (by simp)]

theorem moveToPrev_start (hm : Repr nodes d t) (hg : Good d true Range.full t)
    (hπ : PathAt d t π 0) : moveToPrev nodes π = some π := by
  rw [moveToPrev, isFirst_spec hm hg hπ]
  rfl

/-- `RL_MoveToPrevious` goes one position back, unless it has to go below a `ptr0`. -/
theorem RL_MoveToPrevious_spec (hm : Repr nodes d t) (hg : Good d true Range.full t)
    (hroom : d < MAX_TREE_DEPTH) (hπ : PathAt d t π pos) :
    (stepsIntoPtr0 π = true ∧ 0 < pos ∧ RL_MoveToPrevious nodes π = none) ∨
      (stepsIntoPtr0 π = false ∧
        ∃ π', RL_MoveToPrevious nodes π = some π' ∧ PathAt d t π' (pos - 1)) := by
  have first := isFirst_spec hm hg hπ
  obtain ⟨p, F, L, recs, i, base, rest, rfl, hp, hi, hpos, -⟩ := pathAt_leaf hm hg hπ
  by_cases hzero : i = 0
  · obtain rfl := hzero
    have twice : RL_MoveToPrevious nodes ((p, ((0 : Nat) : Int)) :: rest) =
        (moveToPrev nodes ((p, ((0 : Nat) : Int)) :: rest)).bind (moveToPrev nodes) := by
      simp [RL_MoveToPrevious, entryIndex]
    have climbs : stepsIntoPtr0 ((p, ((0 : Nat) : Int)) :: rest) = underFirstEntry rest := by
      simp [stepsIntoPtr0]
    have leaves := stepPrev_subtree hm hg hπ hp [] (by simpa using hroom)
    simp only [List.append_nil] at leaves
    rw [twice, climbs]
    by_cases atStart : pos = 0
    · obtain rfl := atStart
      have stays := moveToPrev_start hm hg hπ
      rcases leaves with ⟨-, below, -⟩ | ⟨later, -⟩ | ⟨-, -, -, later, -⟩
      · exact Or.inr ⟨below, _, by rw [stays, Option.bind_some, stays], hπ⟩
      all_goals omega
    · have steps : moveToPrev nodes ((p, ((0 : Nat) : Int)) :: rest) =
          stepPrev nodes ((p, ((0 : Nat) : Int)) :: rest) := by
        rw [moveToPrev, first, decide_eq_false atStart]
        rfl
      rw [steps]
      rcases leaves with ⟨hzero, -⟩ | ⟨later, into, hstep⟩ | ⟨q, n', rest', later, below, hstep, hq, hpath⟩
      · exact absurd hzero atStart
      · exact Or.inl ⟨into, later, by rw [← Int.natCast_zero] at hstep; rw [hstep, Option.bind_none]⟩
      · obtain ⟨q', F', L', recs', j, base', rest'', heq, hq', hj, hpos', -, -, filled, -⟩ :=
          pathAt_leaf hm hg hpath
        simp only [List.cons.injEq, Prod.mk.injEq] at heq
        obtain ⟨⟨rfl, hkeys⟩, rfl⟩ := heq
        obtain rfl := Option.some.inj (hq.symm.trans hq')
        have some_keys : 0 < (toNode (leaf q F' L' recs')).numKeys := by
          rw [numKeys_leaf]
          have bounded := pathAt_le hpath
          have nonempty : recs' ≠ [] := fun none => by
            rw [filled none, List.length_nil] at bounded
            omega
          exact_mod_cast List.length_pos_iff.mpr nonempty
        obtain ⟨hprev, hpath'⟩ := moveToPrev_inside hm hg hpath some_keys
        rw [← Int.natCast_zero] at hstep
        exact Or.inr ⟨below, _, by rw [hstep, Option.bind_some, hprev], hpath'⟩
  · have later : (0 : Int) < (i : Int) := by omega
    obtain ⟨hprev, hpath⟩ := moveToPrev_inside hm hg hπ later
    have here : ¬ (i : Int) = 0 := by omega
    refine Or.inr ⟨by simp [stepsIntoPtr0, hzero], _, ?_, hpath⟩
    simp only [RL_MoveToPrevious, entryIndex, Option.bind_eq_bind, Option.bind_some, if_neg here,
      hprev]

end DeepDB.BTree
