import Mathlib.Data.List.Basic

/-!
The relation library of `verif/btrees/relation_mem.c`: B+-tree nodes in memory, a relation with
its root, and one cursor that caches the path from the root to its leaf.

A pointer to a node is an index into `nodes`, the list of the nodes allocated so far (nodes are
never freed). `entries` is the initialised prefix `entries[0 .. numKeys-1]` of a node's array, so
a read at `numKeys` or beyond has no value. The cursor is the list of the pairs
`(ancestors[l], ancestorsIdx[l])` for `l = level, ..., 0`; `level` is the length less one, and the
cells of both arrays above `level` are never read before they are written. A step with no value is
a null or wild dereference, an access outside an array or a failed assertion.
-/

namespace DeepDB.BTree

abbrev Key := Nat

abbrev Ptr := Nat

def FANOUT : Nat := 15

def MIDDLE : Nat := (FANOUT + 1) / 2

def MAX_TREE_DEPTH : Nat := 20

variable {R : Type}

/-- The union of a child pointer (interior node) and a record (leaf). -/
inductive ChildOrRecord (R : Type) where
  | child (p : Ptr)
  | record (r : R)
  deriving DecidableEq

structure Entry (R : Type) where
  key : Key
  ptr : ChildOrRecord R
  deriving DecidableEq

structure BtNode (R : Type) where
  isLeaf : Bool
  First : Bool
  Last : Bool
  ptr0 : Option Ptr
  entries : List (Entry R)
  deriving DecidableEq

def BtNode.numKeys (n : BtNode R) : Int := n.entries.length

abbrev Nodes (R : Type) := List (BtNode R)

structure Relation (R : Type) where
  nodes : Nodes R
  root : Ptr
  numRecords : Nat
  depth : Nat
  deriving DecidableEq

/-- `(ancestors[level], ancestorsIdx[level]) :: ... :: (ancestors[0], ancestorsIdx[0])`. -/
abbrev Cursor := List (Ptr × Int)

def entryIndex : Cursor → Option Int
  | [] => none
  | (_, i) :: _ => some i

def currNode (nodes : Nodes R) : Cursor → Option (BtNode R)
  | [] => none
  | (p, _) :: _ => nodes[p]?

/-- `node->entries[i]`. -/
def entryAt (n : BtNode R) (i : Int) : Option (Entry R) :=
  if 0 ≤ i then n.entries[i.toNat]? else none

/-- `node->entries[i].ptr.child`. -/
def entryChild (n : BtNode R) (i : Int) : Option Ptr := do
  match (← entryAt n i).ptr with
  | .child p => some p
  | .record _ => none

/-- The child at a cursor index; index `-1` is `ptr0`. -/
def childAt (n : BtNode R) (i : Int) : Option Ptr :=
  if i = -1 then n.ptr0 else entryChild n i

/-- `node->entries[i].ptr.record`. -/
def entryRecord (n : BtNode R) (i : Int) : Option R := do
  match (← entryAt n i).ptr with
  | .record r => some r
  | .child _ => none

def isValid (nodes : Nodes R) (cursor : Cursor) : Option Bool := do
  let n ← currNode nodes cursor
  return !((← entryIndex cursor) == n.numKeys && n.Last)

/-! ### Searching a node -/

/-- The loop of `findChildIndex`, at entry `i`. -/
def findChildIndexFrom (key : Key) : List (Entry R) → Int → Int
  | [], i => i - 1
  | e :: rest, i => if key < e.key then i - 1 else findChildIndexFrom key rest (i + 1)

/-- The last entry whose key is at most `key`; the assertion asks for a nonempty node. -/
def findChildIndex (n : BtNode R) (key : Key) : Option Int :=
  if 0 < n.numKeys then some (findChildIndexFrom key n.entries 0) else none

/-- The loop of `findRecordIndex`, at entry `i`. -/
def findRecordIndexFrom (key : Key) : List (Entry R) → Nat → Nat
  | [], i => i
  | e :: rest, i => if key ≤ e.key then i else findRecordIndexFrom key rest (i + 1)

/-- The first entry whose key is at least `key`. -/
def findRecordIndex (n : BtNode R) (key : Key) : Nat := findRecordIndexFrom key n.entries 0

/-! ### Moving the cursor

The recursions take the part `up` of the cursor below `level` and the number of levels that the
arrays of the cursor still have room for. -/

def moveToKeyIn (nodes : Nodes R) (key : Key) : Nat → Ptr → Cursor → Option Cursor
  | 0, _, _ => none
  | room + 1, node, up => do
    let n ← nodes[node]?
    if n.isLeaf then
      return (node, (findRecordIndex n key : Int)) :: up
    else
      let i ← findChildIndex n key
      moveToKeyIn nodes key room (← childAt n i) ((node, i) :: up)

/-- `moveToKey(node, key, cursor, level)` with `level = up.length`. -/
def moveToKey (nodes : Nodes R) (node : Ptr) (key : Key) (up : Cursor) : Option Cursor :=
  moveToKeyIn nodes key (MAX_TREE_DEPTH - up.length) node up

def moveToFirstIn (nodes : Nodes R) : Nat → Ptr → Cursor → Option Cursor
  | 0, _, _ => none
  | room + 1, node, up => do
    let n ← nodes[node]?
    if n.isLeaf then
      return (node, 0) :: up
    else
      moveToFirstIn nodes room (← n.ptr0) ((node, -1) :: up)

/-- `moveToFirst(node, cursor, level)` with `level = up.length`. -/
def moveToFirst (nodes : Nodes R) (node : Ptr) (up : Cursor) : Option Cursor :=
  moveToFirstIn nodes (MAX_TREE_DEPTH - up.length) node up

def isNodeParent (n : BtNode R) (key : Key) : Option Bool :=
  if n.isLeaf then
    if n.numKeys = 0 then some true
    else do
      let lowest := (← entryAt n 0).key
      let highest := (← entryAt n (n.numKeys - 1)).key
      return (lowest ≤ key || n.First) && (key ≤ highest || n.Last)
  else do
    let idx ← findChildIndex n key
    return !(idx == -1 || idx == n.numKeys - 1)

def ascendToParent (nodes : Nodes R) (key : Key) : Cursor → Option Cursor
  | [] => none
  | [e] => some [e]
  | (p, i) :: up => do
    if ← isNodeParent (← nodes[p]?) key then return (p, i) :: up
    else ascendToParent nodes key up

def goToKey (nodes : Nodes R) (cursor : Cursor) (key : Key) : Option Cursor := do
  match ← ascendToParent nodes key cursor with
  | [] => none
  | (p, _) :: up => moveToKey nodes p key up

def lastpointer (n : BtNode R) : Int := if n.isLeaf then n.numKeys else n.numKeys - 1

/-- The loop of `moveToNext`: while the ancestor pointer is the last pointer, ascend. -/
def ascendLast (nodes : Nodes R) : Cursor → Option Cursor
  | [] => none
  | [e] => some [e]
  | (p, i) :: up => do
    if i = lastpointer (← nodes[p]?) then ascendLast nodes up else return (p, i) :: up

/-- `moveToNext` on a valid cursor: ascend, increase the index, go down to the first entry. -/
def stepNext (nodes : Nodes R) (cursor : Cursor) : Option Cursor := do
  match ← ascendLast nodes cursor with
  | [] => none
  | (p, i) :: up =>
    let n ← nodes[p]?
    if n.isLeaf then return (p, i + 1) :: up
    else moveToFirst nodes (← entryChild n (i + 1)) ((p, i + 1) :: up)

def moveToNext (nodes : Nodes R) (cursor : Cursor) : Option Cursor := do
  if ← isValid nodes cursor then stepNext nodes cursor else return cursor

/-- The step from the end of a leaf to the equivalent position that `RL_GetKey`, `RL_GetRecord`
and `RL_MoveToNext` make first. -/
def skipLeafEnd (nodes : Nodes R) (cursor : Cursor) : Option Cursor := do
  if (← entryIndex cursor) = (← currNode nodes cursor).numKeys then moveToNext nodes cursor
  else return cursor

def RL_MoveToNext (nodes : Nodes R) (cursor : Cursor) : Option Cursor := do
  moveToNext nodes (← skipLeafEnd nodes cursor)

def RL_GetKey (nodes : Nodes R) (cursor : Cursor) : Option (Cursor × Key) := do
  guard (← isValid nodes cursor)
  let cursor ← skipLeafEnd nodes cursor
  let e ← entryAt (← currNode nodes cursor) (← entryIndex cursor)
  return (cursor, e.key)

def RL_GetRecord (nodes : Nodes R) (cursor : Cursor) : Option (Cursor × R) := do
  guard (← isValid nodes cursor)
  let cursor ← skipLeafEnd nodes cursor
  let r ← entryRecord (← currNode nodes cursor) (← entryIndex cursor)
  return (cursor, r)

def RL_MoveToKey (nodes : Nodes R) (cursor : Cursor) (key : Key) : Option (Cursor × Bool) := do
  let cursor ← goToKey nodes cursor key
  if !(← isValid nodes cursor) then return (cursor, false)
  let (cursor, k) ← RL_GetKey nodes cursor
  return (cursor, k == key)

def RL_MoveToFirst (rel : Relation R) : Option (Cursor × Bool) := do
  let cursor ← moveToFirst rel.nodes rel.root []
  return (cursor, ← isValid rel.nodes cursor)

/-! ### Creation -/

def createNewNode (isLeaf First Last : Bool) : BtNode R :=
  { isLeaf, First, Last, ptr0 := none, entries := [] }

def RL_NewRelation : Relation R :=
  { nodes := [createNewNode true true true], root := 0, numRecords := 0, depth := 0 }

def RL_NewCursor (rel : Relation R) : Option Cursor := moveToFirst rel.nodes rel.root []

def RL_CursorIsValid (nodes : Nodes R) (cursor : Cursor) : Option Bool := isValid nodes cursor

def RL_IsEmpty (rel : Relation R) : Option Bool := do
  return (← rel.nodes[rel.root]?).numKeys == 0

def RL_NumRecords (rel : Relation R) : Nat := rel.numRecords

/-! ### Insertion -/

/-- Insert `entry` into the full node at `node` and split it. The new memory, and the entry that
goes into the parent. The copy loops read `entries[0 .. FANOUT-1]`. -/
def splitnode (nodes : Nodes R) (node : Ptr) (entry : Entry R) (isLeaf : Bool) :
    Option (Nodes R × Entry R) := do
  let n ← nodes[node]?
  guard (n.numKeys = FANOUT)
  let tgtIdx := findRecordIndex n entry.key
  let newNode : BtNode R := createNewNode isLeaf false n.Last
  let newPtr := nodes.length
  let allEntries := n.entries.take tgtIdx ++ entry :: n.entries.drop tgtIdx
  -- only the part from tgtIdx on is copied back into the first node
  let left :=
    if tgtIdx < MIDDLE then n.entries.take tgtIdx ++ (allEntries.take MIDDLE).drop tgtIdx
    else n.entries.take MIDDLE
  let middle ← allEntries[MIDDLE]?
  if n.isLeaf then
    return (nodes.set node { n with Last := false, entries := left } ++
      [{ newNode with entries := allEntries.drop MIDDLE }], ⟨middle.key, .child newPtr⟩)
  else
    let .child ptr0 := middle.ptr | none
    return (nodes.set node { n with Last := false, entries := left } ++
      [{ newNode with entries := allEntries.drop (MIDDLE + 1), ptr0 := some ptr0 }],
      ⟨middle.key, .child newPtr⟩)

/-- Shift `entries[tgtIdx ..]` one to the right and store `entry` at `tgtIdx`. -/
def insertEntry (n : BtNode R) (tgtIdx : Int) (entry : Entry R) : Option (BtNode R) :=
  if 0 ≤ tgtIdx ∧ tgtIdx ≤ n.numKeys then
    some { n with
      entries := n.entries.take tgtIdx.toNat ++ entry :: n.entries.drop tgtIdx.toNat }
  else none

/-- The key at the cursor's entry is `key`; the index is tested before the entry is read. -/
def keyAtCursor (n : BtNode R) (i : Int) (key : Key) : Option Bool :=
  if i < n.numKeys then do return (← entryAt n i).key == key else some false

def putEntry (rel : Relation R) (newEntry : Entry R) (key : Key) :
    Cursor → Option (Relation R × Cursor)
  -- the root has been split, and newEntry is the only entry of the new root
  | [] => do
    let currNode : BtNode R :=
      { (createNewNode false true true : BtNode R) with
        ptr0 := some rel.root, entries := [newEntry] }
    let nodes := rel.nodes ++ [currNode]
    let cursor ← moveToKey nodes rel.nodes.length key []
    return ({ nodes, root := rel.nodes.length, depth := rel.depth + 1,
              numRecords := rel.numRecords + 1 }, cursor)
  | (p, i) :: up => do
    let n ← rel.nodes[p]?
    if n.isLeaf then
      if ← keyAtCursor n i newEntry.key then
        let e ← entryAt n i
        let n' := { n with entries := n.entries.set i.toNat { e with ptr := newEntry.ptr } }
        return ({ rel with nodes := rel.nodes.set p n' }, (p, i) :: up)
      else if n.numKeys < FANOUT then
        let n' ← insertEntry n i newEntry
        return ({ rel with nodes := rel.nodes.set p n', numRecords := rel.numRecords + 1 },
          (p, i) :: up)
      else
        let (nodes, newEntry) ← splitnode rel.nodes p newEntry true
        putEntry { rel with nodes } newEntry key up
    else
      if n.numKeys < FANOUT then
        let n' ← insertEntry n (i + 1) newEntry
        let nodes := rel.nodes.set p n'
        let cursor ← moveToKey nodes p key up
        return ({ rel with nodes, numRecords := rel.numRecords + 1 }, cursor)
      else
        let (nodes, newEntry) ← splitnode rel.nodes p newEntry false
        putEntry { rel with nodes } newEntry key up

def RL_PutRecord (rel : Relation R) (cursor : Cursor) (key : Key) (record : R) :
    Option (Relation R × Cursor) := do
  let cursor ← goToKey rel.nodes cursor key
  let (rel, cursor) ← putEntry rel ⟨key, .record record⟩ key cursor
  return (rel, ← RL_MoveToNext rel.nodes cursor)

end DeepDB.BTree
