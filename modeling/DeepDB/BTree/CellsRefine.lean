import DeepDB.BTree.Cells

/-!
Arrays of cells hold the nodes of the relation library. Each operation on the arrays refines the
operation on the nodes: where that succeeds, it has the same result and stays inside the arrays.
-/

namespace DeepDB.BTree.Cells
open Traced

variable {R : Type} {c : BtNode R} {n : BTree.BtNode R} {key : Key}

/-- The cells in use are the entries of the node. -/
structure Shows (c : BtNode R) (n : BTree.BtNode R) : Prop where
  isLeaf : c.isLeaf = n.isLeaf
  First : c.First = n.First
  Last : c.Last = n.Last
  ptr0 : c.ptr0 = n.ptr0
  numKeys : c.numKeys = n.entries.length
  cells : c.entries.length = FANOUT
  entries : ∃ rest, c.entries = n.entries.map some ++ rest

theorem Shows.length_le (h : Shows c n) : n.entries.length ≤ FANOUT := by
  obtain ⟨rest, same⟩ := h.entries
  have cells := h.cells
  rw [same, List.length_append, List.length_map] at cells
  omega

theorem Shows.numKeys_int (h : Shows c n) : (c.numKeys : Int) = n.numKeys := by
  rw [h.numKeys]
  rfl

/-! ### Reading -/

theorem readEntry_returns (h : Shows c n) {i : Nat} {e : Entry R} (he : n.entries[i]? = some e) :
    Returns Access.InBounds (readEntry c i) e := by
  obtain ⟨inside, -⟩ := List.getElem?_eq_some_iff.mp he
  have bounded := h.length_le
  have cell : c.entries[i]? = some (some e) := by
    obtain ⟨rest, same⟩ := h.entries
    rw [same, List.getElem?_append_left (by simpa using inside), List.getElem?_map, he]
    rfl
  refine returns_bind (returns_emit ?_) (returns_ofOption ?_)
  · have keys := h.numKeys
    exact ⟨Int.natCast_nonneg _, by omega, by omega⟩
  · rw [if_pos (Int.natCast_nonneg _), Int.toNat_natCast, cell]
    rfl

theorem refines_readEntry (h : Shows c n) (i : Int) :
    Refines Access.InBounds Eq (readEntry c i) (entryAt n i) := by
  intro e he
  rw [entryAt] at he
  split at he
  · rename_i nonneg
    obtain ⟨j, rfl⟩ := Int.eq_ofNat_of_zero_le nonneg
    exact ⟨e, readEntry_returns h he, rfl⟩
  · cases he

theorem refines_entryChild (h : Shows c n) (i : Int) :
    Refines Access.InBounds Eq (entryChild c i) (BTree.entryChild n i) := by
  refine refines_bind (refines_readEntry h i) ?_
  rintro e _ rfl
  cases e.ptr with
  | child p => exact refines_pure rfl
  | record r => exact refines_none

theorem refines_entryRecord (h : Shows c n) (i : Int) :
    Refines Access.InBounds Eq (entryRecord c i) (BTree.entryRecord n i) := by
  refine refines_bind (refines_readEntry h i) ?_
  rintro e _ rfl
  cases e.ptr with
  | child p => exact refines_none
  | record r => exact refines_pure rfl

theorem refines_childAt (h : Shows c n) (i : Int) :
    Refines Access.InBounds Eq (childAt c i) (BTree.childAt n i) := by
  rw [childAt, BTree.childAt]
  split
  · rw [h.ptr0]
    exact refines_ofOption fun p hp => ⟨p, hp, rfl⟩
  · exact refines_entryChild h i

theorem entry_at (h : Shows c n) {A B : List (Entry R)} {e : Entry R}
    (split : n.entries = A ++ e :: B) :
    (c.numKeys : Int) - ((B.length + 1 : Nat) : Int) = (A.length : Int) ∧
      Returns Access.InBounds (readEntry c (A.length : Int)) e := by
  have total := congrArg List.length split
  rw [List.length_append, List.length_cons, ← h.numKeys] at total
  exact ⟨by omega, readEntry_returns h (by rw [split]; simp)⟩

theorem findChildIndexFrom_returns (h : Shows c n) {A B : List (Entry R)}
    (split : n.entries = A ++ B) :
    Returns Access.InBounds (findChildIndexFrom c key B.length)
      (BTree.findChildIndexFrom key B (A.length : Int)) := by
  induction B generalizing A with
  | nil =>
    rw [List.append_nil] at split
    rw [List.length_nil, findChildIndexFrom, h.numKeys, split]
    exact returns_pure _
  | cons e B ih =>
    obtain ⟨index, read⟩ := entry_at h split
    have rest := ih (A := A ++ [e]) (by rw [split]; simp)
    rw [List.length_append, List.length_singleton] at rest
    rw [List.length_cons, findChildIndexFrom, index, BTree.findChildIndexFrom]
    refine returns_bind read ?_
    split
    · exact returns_pure _
    · exact rest

theorem findRecordIndexFrom_returns (h : Shows c n) {A B : List (Entry R)}
    (split : n.entries = A ++ B) :
    Returns Access.InBounds (findRecordIndexFrom c key B.length)
      (BTree.findRecordIndexFrom key B A.length) := by
  induction B generalizing A with
  | nil =>
    rw [List.append_nil] at split
    rw [List.length_nil, findRecordIndexFrom, h.numKeys, split]
    exact returns_pure _
  | cons e B ih =>
    obtain ⟨index, read⟩ := entry_at h split
    have index' : c.numKeys - (B.length + 1) = A.length := by omega
    have rest := ih (A := A ++ [e]) (by rw [split]; simp)
    rw [List.length_append, List.length_singleton] at rest
    rw [List.length_cons, findRecordIndexFrom, index', BTree.findRecordIndexFrom]
    refine returns_bind read ?_
    split
    · exact returns_pure _
    · exact rest

theorem findRecordIndex_returns (h : Shows c n) (key : Key) :
    Returns Access.InBounds (findRecordIndex c key) (BTree.findRecordIndex n key) := by
  rw [findRecordIndex, h.numKeys]
  exact findRecordIndexFrom_returns h (List.nil_append _).symm

theorem refines_findChildIndex (h : Shows c n) (key : Key) :
    Refines Access.InBounds Eq (findChildIndex c key) (BTree.findChildIndex n key) := by
  rw [findChildIndex, BTree.findChildIndex, ← h.numKeys_int]
  split
  · rename_i nonempty
    rw [if_pos (by exact_mod_cast nonempty), h.numKeys]
    exact (findChildIndexFrom_returns h (List.nil_append _).symm).refines rfl
  · rename_i none
    rw [if_neg (by exact_mod_cast none)]
    exact refines_none

theorem refines_isNodeParent (h : Shows c n) (key : Key) :
    Refines Access.InBounds Eq (isNodeParent c key) (BTree.isNodeParent n key) := by
  have keys := h.numKeys_int
  rw [isNodeParent, BTree.isNodeParent, h.isLeaf]
  split
  · by_cases hzero : c.numKeys = 0
    · rw [if_pos hzero, if_pos (by omega)]
      exact refines_pure rfl
    · rw [if_neg hzero, if_neg (by omega), keys, h.First, h.Last]
      refine refines_bind (refines_readEntry h 0) ?_
      rintro lowest _ rfl
      refine refines_bind (refines_readEntry h _) ?_
      rintro highest _ rfl
      exact refines_pure rfl
  · rw [keys]
    refine refines_bind (refines_findChildIndex h key) ?_
    rintro idx _ rfl
    exact refines_pure rfl

/-! ### Memory and the cursor -/

def ShowsAll (mem : Nodes R) (nodes : BTree.Nodes R) : Prop := List.Forall₂ Shows mem nodes

variable {mem : Nodes R} {nodes : BTree.Nodes R}

theorem ShowsAll.length (hm : ShowsAll mem nodes) : mem.length = nodes.length :=
  List.Forall₂.length_eq hm

theorem ShowsAll.get (hm : ShowsAll mem nodes) {p : Ptr} (hn : nodes[p]? = some n) :
    ∃ c, mem[p]? = some c ∧ Shows c n := by
  induction hm generalizing p with
  | nil => simp at hn
  | cons h hm ih =>
    cases p with
    | zero =>
      obtain rfl := Option.some.inj hn
      exact ⟨_, rfl, h⟩
    | succ p => exact ih hn

theorem refines_getNode (hm : ShowsAll mem nodes) (p : Ptr) :
    Refines Access.InBounds Shows (getNode mem p) nodes[p]? :=
  refines_ofOption fun _ hn => hm.get hn

theorem refines_currNode (hm : ShowsAll mem nodes) (cursor : Cursor) :
    Refines Access.InBounds Shows (currNode mem cursor) (BTree.currNode nodes cursor) := by
  cases cursor with
  | nil => exact refines_none
  | cons e up => exact refines_getNode hm e.1

theorem refines_entryIndex (cursor : Cursor) :
    Refines Access.InBounds Eq (entryIndex cursor) (BTree.entryIndex cursor) :=
  refines_ofOption fun i hi => ⟨i, hi, rfl⟩

theorem refines_isValid (hm : ShowsAll mem nodes) (cursor : Cursor) :
    Refines Access.InBounds Eq (isValid mem cursor) (BTree.isValid nodes cursor) := by
  refine refines_bind (refines_currNode hm cursor) fun c n h => ?_
  refine refines_bind (refines_entryIndex cursor) ?_
  rintro i _ rfl
  rw [h.Last, h.numKeys_int]
  exact refines_pure rfl

theorem refines_isFirst (hm : ShowsAll mem nodes) (cursor : Cursor) :
    Refines Access.InBounds Eq (isFirst mem cursor) (BTree.isFirst nodes cursor) := by
  refine refines_bind (refines_currNode hm cursor) fun c n h => ?_
  refine refines_bind (refines_entryIndex cursor) ?_
  rintro i _ rfl
  rw [h.First]
  exact refines_pure rfl

theorem refines_moveToKeyIn (hm : ShowsAll mem nodes) (key : Key) (room : Nat) (p : Ptr)
    (up : Cursor) : Refines Access.InBounds Eq (moveToKeyIn mem key room p up)
      (BTree.moveToKeyIn nodes key room p up) := by
  induction room generalizing p up with
  | zero => exact refines_none
  | succ room ih =>
    refine refines_bind (refines_getNode hm p) fun c n h => ?_
    rw [h.isLeaf]
    split
    · exact Returns.refines (a := (p, (BTree.findRecordIndex n key : Int)) :: up)
        (returns_bind (findRecordIndex_returns h key) (returns_pure _)) rfl
    · refine refines_bind (refines_findChildIndex h key) ?_
      rintro i _ rfl
      refine refines_bind (refines_childAt h i) ?_
      rintro child _ rfl
      exact ih child _

theorem refines_moveToKey (hm : ShowsAll mem nodes) (p : Ptr) (key : Key) (up : Cursor) :
    Refines Access.InBounds Eq (moveToKey mem p key up) (BTree.moveToKey nodes p key up) :=
  refines_moveToKeyIn hm key _ p up

theorem refines_moveToFirst (hm : ShowsAll mem nodes) (p : Ptr) (up : Cursor) :
    Refines Access.InBounds Eq (moveToFirst mem p up) (BTree.moveToFirst nodes p up) := by
  rw [moveToFirst, BTree.moveToFirst]
  generalize MAX_TREE_DEPTH - up.length = room
  induction room generalizing p up with
  | zero => exact refines_none
  | succ room ih =>
    refine refines_bind (refines_getNode hm p) fun c n h => ?_
    rw [h.isLeaf, h.ptr0]
    split
    · exact refines_pure rfl
    · refine refines_bind (refines_ofOption fun child hc => ⟨child, hc, rfl⟩) ?_
      rintro child _ rfl
      exact ih child _

theorem refines_moveToLast (hm : ShowsAll mem nodes) (p : Ptr) (up : Cursor) :
    Refines Access.InBounds Eq (moveToLast mem p up) (BTree.moveToLast nodes p up) := by
  rw [moveToLast, BTree.moveToLast]
  generalize MAX_TREE_DEPTH - up.length = room
  induction room generalizing p up with
  | zero => exact refines_none
  | succ room ih =>
    refine refines_bind (refines_getNode hm p) fun c n h => ?_
    rw [h.isLeaf, h.numKeys_int]
    split
    · exact refines_pure rfl
    · refine refines_bind (refines_entryChild h _) ?_
      rintro child _ rfl
      exact ih child _

theorem refines_ascendToParent (hm : ShowsAll mem nodes) (key : Key) (cursor : Cursor) :
    Refines Access.InBounds Eq (ascendToParent mem key cursor)
      (BTree.ascendToParent nodes key cursor) := by
  induction cursor with
  | nil => exact refines_none
  | cons e up ih =>
    cases up with
    | nil => exact refines_pure rfl
    | cons e' up =>
      refine refines_bind (refines_getNode hm e.1) fun c n h => ?_
      refine refines_bind (refines_isNodeParent h key) ?_
      rintro parent _ rfl
      split
      · exact refines_pure rfl
      · exact ih

theorem refines_goToKey (hm : ShowsAll mem nodes) (cursor : Cursor) (key : Key) :
    Refines Access.InBounds Eq (goToKey mem cursor key) (BTree.goToKey nodes cursor key) := by
  refine refines_bind (refines_ascendToParent hm key cursor) ?_
  rintro path _ rfl
  cases path with
  | nil => exact refines_none
  | cons e up => exact refines_moveToKey hm e.1 key up

theorem lastpointer_eq (h : Shows c n) : lastpointer c = BTree.lastpointer n := by
  rw [lastpointer, BTree.lastpointer, h.isLeaf, h.numKeys_int]

theorem firstpointer_eq (h : Shows c n) : firstpointer c = BTree.firstpointer n := by
  rw [firstpointer, BTree.firstpointer, h.isLeaf]

theorem refines_ascendLast (hm : ShowsAll mem nodes) (cursor : Cursor) :
    Refines Access.InBounds Eq (ascendLast mem cursor) (BTree.ascendLast nodes cursor) := by
  induction cursor with
  | nil => exact refines_none
  | cons e up ih =>
    cases up with
    | nil => exact refines_pure rfl
    | cons e' up =>
      refine refines_bind (refines_getNode hm e.1) fun c n h => ?_
      rw [lastpointer_eq h]
      split
      · exact ih
      · exact refines_pure rfl

theorem refines_ascendFirst (hm : ShowsAll mem nodes) (cursor : Cursor) :
    Refines Access.InBounds Eq (ascendFirst mem cursor) (BTree.ascendFirst nodes cursor) := by
  induction cursor with
  | nil => exact refines_none
  | cons e up ih =>
    cases up with
    | nil => exact refines_pure rfl
    | cons e' up =>
      refine refines_bind (refines_getNode hm e.1) fun c n h => ?_
      rw [firstpointer_eq h]
      split
      · exact ih
      · exact refines_pure rfl

theorem refines_stepNext (hm : ShowsAll mem nodes) (cursor : Cursor) :
    Refines Access.InBounds Eq (stepNext mem cursor) (BTree.stepNext nodes cursor) := by
  refine refines_bind (refines_ascendLast hm cursor) ?_
  rintro path _ rfl
  cases path with
  | nil => exact refines_none
  | cons e up =>
    refine refines_bind (refines_getNode hm e.1) fun c n h => ?_
    rw [h.isLeaf]
    split
    · exact refines_pure rfl
    · refine refines_bind (refines_entryChild h _) ?_
      rintro child _ rfl
      exact refines_moveToFirst hm child _

theorem refines_stepPrev (hm : ShowsAll mem nodes) (cursor : Cursor) :
    Refines Access.InBounds Eq (stepPrev mem cursor) (BTree.stepPrev nodes cursor) := by
  refine refines_bind (refines_ascendFirst hm cursor) ?_
  rintro path _ rfl
  cases path with
  | nil => exact refines_none
  | cons e up =>
    refine refines_bind (refines_getNode hm e.1) fun c n h => ?_
    rw [h.isLeaf]
    split
    · exact refines_pure rfl
    · refine refines_bind (refines_entryChild h _) ?_
      rintro child _ rfl
      exact refines_moveToLast hm child _

theorem refines_moveToNext (hm : ShowsAll mem nodes) (cursor : Cursor) :
    Refines Access.InBounds Eq (moveToNext mem cursor) (BTree.moveToNext nodes cursor) := by
  refine refines_bind (refines_isValid hm cursor) ?_
  rintro valid _ rfl
  split
  · exact refines_stepNext hm cursor
  · exact refines_pure rfl

theorem refines_moveToPrev (hm : ShowsAll mem nodes) (cursor : Cursor) :
    Refines Access.InBounds Eq (moveToPrev mem cursor) (BTree.moveToPrev nodes cursor) := by
  refine refines_bind (refines_isFirst hm cursor) ?_
  rintro first _ rfl
  split
  · exact refines_pure rfl
  · exact refines_stepPrev hm cursor

theorem refines_skipLeafEnd (hm : ShowsAll mem nodes) (cursor : Cursor) :
    Refines Access.InBounds Eq (skipLeafEnd mem cursor) (BTree.skipLeafEnd nodes cursor) := by
  refine refines_bind (refines_entryIndex cursor) ?_
  rintro i _ rfl
  refine refines_bind (refines_currNode hm cursor) fun c n h => ?_
  rw [h.numKeys_int]
  split
  · exact refines_moveToNext hm cursor
  · exact refines_pure rfl

theorem refines_RL_MoveToNext (hm : ShowsAll mem nodes) (cursor : Cursor) :
    Refines Access.InBounds Eq (RL_MoveToNext mem cursor) (BTree.RL_MoveToNext nodes cursor) := by
  refine refines_bind (refines_skipLeafEnd hm cursor) ?_
  rintro cursor _ rfl
  exact refines_moveToNext hm cursor

theorem refines_RL_MoveToPrevious (hm : ShowsAll mem nodes) (cursor : Cursor) :
    Refines Access.InBounds Eq (RL_MoveToPrevious mem cursor)
      (BTree.RL_MoveToPrevious nodes cursor) := by
  refine refines_bind (refines_entryIndex cursor) ?_
  rintro i _ rfl
  dsimp only
  split
  · refine refines_bind (refines_moveToPrev hm cursor) ?_
    rintro cursor _ rfl
    exact refines_moveToPrev hm cursor
  · exact refines_moveToPrev hm cursor

/-- What `RL_GetKey` and `RL_GetRecord` have in common. -/
theorem refines_readCursor {α β : Type} (hm : ShowsAll mem nodes) (cursor : Cursor) (out : α → β)
    {read : BtNode R → Int → Traced Access α} {read' : BTree.BtNode R → Int → Option α}
    (h : ∀ c n i, Shows c n → Refines Access.InBounds Eq (read c i) (read' n i)) :
    Refines Access.InBounds Eq
      (do
        let valid ← isValid mem cursor
        ofOption (guard (valid = true))
        let cursor ← skipLeafEnd mem cursor
        let n ← currNode mem cursor
        let i ← entryIndex cursor
        let x ← read n i
        return (cursor, out x))
      (do
        guard (← BTree.isValid nodes cursor)
        let cursor ← BTree.skipLeafEnd nodes cursor
        let x ← read' (← BTree.currNode nodes cursor) (← BTree.entryIndex cursor)
        return (cursor, out x)) := by
  refine refines_bind (refines_isValid hm cursor) ?_
  rintro valid _ rfl
  refine refines_bind (R := Eq) (refines_ofOption fun x hx => ⟨x, hx, rfl⟩) fun _ _ _ => ?_
  refine refines_bind (refines_skipLeafEnd hm cursor) ?_
  rintro cursor _ rfl
  refine refines_bind (refines_currNode hm cursor) fun c n hc => ?_
  refine refines_bind (refines_entryIndex cursor) ?_
  rintro i _ rfl
  refine refines_bind (h c n i hc) ?_
  rintro x _ rfl
  exact refines_pure rfl

theorem refines_RL_GetKey (hm : ShowsAll mem nodes) (cursor : Cursor) :
    Refines Access.InBounds Eq (RL_GetKey mem cursor) (BTree.RL_GetKey nodes cursor) :=
  refines_readCursor hm cursor Entry.key fun _ _ i h => refines_readEntry h i

theorem refines_RL_GetRecord (hm : ShowsAll mem nodes) (cursor : Cursor) :
    Refines Access.InBounds Eq (RL_GetRecord mem cursor) (BTree.RL_GetRecord nodes cursor) :=
  refines_readCursor hm cursor id fun _ _ i h => refines_entryRecord h i

theorem refines_RL_MoveToKey (hm : ShowsAll mem nodes) (cursor : Cursor) (key : Key) :
    Refines Access.InBounds Eq (RL_MoveToKey mem cursor key)
      (BTree.RL_MoveToKey nodes cursor key) := by
  refine refines_bind (refines_goToKey hm cursor key) ?_
  rintro cursor _ rfl
  refine refines_bind (refines_isValid hm cursor) ?_
  rintro valid _ rfl
  cases valid with
  | false => exact refines_pure rfl
  | true =>
    refine refines_bind (refines_RL_GetKey hm cursor) ?_
    rintro x _ rfl
    exact refines_pure rfl

structure ShowsRelation (rel : Relation R) (rel' : BTree.Relation R) : Prop where
  nodes : ShowsAll rel.nodes rel'.nodes
  root : rel.root = rel'.root
  numRecords : rel.numRecords = rel'.numRecords
  depth : rel.depth = rel'.depth

theorem refines_RL_MoveToFirst {rel : Relation R} {rel' : BTree.Relation R}
    (hr : ShowsRelation rel rel') :
    Refines Access.InBounds Eq (RL_MoveToFirst rel) (BTree.RL_MoveToFirst rel') := by
  rw [RL_MoveToFirst, BTree.RL_MoveToFirst, hr.root]
  refine refines_bind (refines_moveToFirst hr.nodes _ []) ?_
  rintro cursor _ rfl
  refine refines_bind (refines_isValid hr.nodes cursor) ?_
  rintro valid _ rfl
  exact refines_pure rfl

end DeepDB.BTree.Cells
