import DeepDB.BTree.Relation

/-!
The relation library that is built, `src/btrees_and_tries/relation_mem.c`. Its data and what its
functions have in common with the verified copy are those of `DeepDB.BTree`; here stands what is
written differently, under the same names, and the way back. `level`, which `putEntry` is given
besides the cursor, is the level of the cursor in every call.
-/

namespace DeepDB.Library
open BTree (Key Ptr FANOUT MIDDLE MAX_TREE_DEPTH Entry BtNode Nodes Relation Cursor entryIndex
  currNode entryAt entryChild childAt entryRecord isValid findRecordIndex moveToFirst stepNext
  createNewNode insertEntry keyAtCursor)

variable {R : Type}

/-! ### Searching a node -/

/-- The loop of `findChildIndex`, at entry `i`, looks at the key of an entry and the next one. -/
def findChildIndexFrom (key : Key) : List (Entry R) → Int → Int
  | [], i => i - 1
  | [_], i => i
  | e :: e' :: rest, i =>
    if e.key ≤ key ∧ key < e'.key then i else findChildIndexFrom key (e' :: rest) (i + 1)

def findChildIndex (n : BtNode R) (key : Key) : Option Int :=
  match n.entries with
  | [] => none
  | e :: rest => if key < e.key then some (-1) else some (findChildIndexFrom key (e :: rest) 0)

/-! ### Moving the cursor -/

def moveToKeyIn (nodes : Nodes R) (key : Key) : Nat → Ptr → Cursor → Option Cursor
  | 0, _, _ => none
  | room + 1, node, up => do
    let n ← nodes[node]?
    if n.isLeaf then
      return (node, (findRecordIndex n key : Int)) :: up
    else
      let i ← findChildIndex n key
      moveToKeyIn nodes key room (← childAt n i) ((node, i) :: up)

def moveToKey (nodes : Nodes R) (node : Ptr) (key : Key) (up : Cursor) : Option Cursor :=
  moveToKeyIn nodes key (MAX_TREE_DEPTH - up.length) node up

/-- `node->entries[i].ptr.child` where `i` may be -1. C leaves this read in front of the array
undefined; with the usual layout of a node it reads `ptr0`, which stands there. -/
def entryChildFront (aliased : Bool) (n : BtNode R) (i : Int) : Option Ptr :=
  if i = -1 then if aliased then n.ptr0 else none else entryChild n i

/-- It goes on with `moveToFirst` below an interior node. -/
def moveToLast (nodes : Nodes R) (node : Ptr) (up : Cursor) : Option Cursor := do
  guard (up.length < MAX_TREE_DEPTH)
  let n ← nodes[node]?
  if n.isLeaf then
    return (node, n.numKeys) :: up
  else
    moveToFirst nodes (← entryChild n (n.numKeys - 1)) ((node, n.numKeys - 1) :: up)

/-- Called with interior nodes only. -/
def isNodeParent (n : BtNode R) (key : Key) : Option Bool := do
  let idx ← findChildIndex n key
  return !(idx == -1 || idx == n.numKeys - 1)

def ascendToParent (nodes : Nodes R) (key : Key) : Cursor → Option Cursor
  | [] => none
  | [e] => some [e]
  | (p, i) :: up => do
    let n ← nodes[p]?
    if n.isLeaf then
      let lowest := (← entryAt n 0).key
      let highest := (← entryAt n (n.numKeys - 1)).key
      if (lowest ≤ key ∧ key ≤ highest) ∨ (lowest ≤ key ∧ n.Last) ∨ (key ≤ highest ∧ n.First) then
        return (p, i) :: up
      else ascendToParent nodes key up
    else
      if ← isNodeParent n key then return (p, i) :: up
      else ascendToParent nodes key up

def goToKey (nodes : Nodes R) (cursor : Cursor) (key : Key) : Option Cursor := do
  match ← ascendToParent nodes key cursor with
  | [] => none
  | (p, _) :: up => moveToKey nodes p key up

def firstpointer (n : BtNode R) : Int := if n.isLeaf then 0 else -1

/-- The loop of `moveToPrev`: while the ancestor pointer is the first pointer, ascend. -/
def ascendFirst (nodes : Nodes R) : Cursor → Option Cursor
  | [] => none
  | [e] => some [e]
  | (p, i) :: up => do
    if i = firstpointer (← nodes[p]?) then ascendFirst nodes up else return (p, i) :: up

def isFirst (nodes : Nodes R) (cursor : Cursor) : Option Bool := do
  let n ← currNode nodes cursor
  return (← entryIndex cursor) == 0 && n.First

/-- `moveToPrev` past its tests: ascend, decrease the index, go down. -/
def stepPrev (aliased : Bool) (nodes : Nodes R) (cursor : Cursor) : Option Cursor := do
  match ← ascendFirst nodes cursor with
  | [] => none
  | (p, i) :: up =>
    let n ← nodes[p]?
    if n.isLeaf then return (p, i - 1) :: up
    else moveToLast nodes (← entryChildFront aliased n (i - 1)) ((p, i - 1) :: up)

def moveToNext (rel : Relation R) (cursor : Cursor) : Option Cursor := do
  if rel.numRecords = 0 then return cursor
  else if ← isValid rel.nodes cursor then stepNext rel.nodes cursor
  else return cursor

def moveToPrev (aliased : Bool) (rel : Relation R) (cursor : Cursor) : Option Cursor := do
  if rel.numRecords = 0 then return cursor
  else if ← isFirst rel.nodes cursor then return cursor
  else stepPrev aliased rel.nodes cursor

def skipLeafEnd (rel : Relation R) (cursor : Cursor) : Option Cursor := do
  if (← entryIndex cursor) = (← currNode rel.nodes cursor).numKeys then moveToNext rel cursor
  else return cursor

def RL_MoveToNext (rel : Relation R) (cursor : Cursor) : Option Cursor := do
  moveToNext rel (← skipLeafEnd rel cursor)

def RL_MoveToPrevious (aliased : Bool) (rel : Relation R) (cursor : Cursor) : Option Cursor := do
  let cursor ← if (← entryIndex cursor) = 0 then moveToPrev aliased rel cursor else some cursor
  moveToPrev aliased rel cursor

def RL_GetKey (rel : Relation R) (cursor : Cursor) : Option (Cursor × Key) := do
  guard (← isValid rel.nodes cursor)
  let cursor ← skipLeafEnd rel cursor
  let e ← entryAt (← currNode rel.nodes cursor) (← entryIndex cursor)
  return (cursor, e.key)

def RL_GetRecord (rel : Relation R) (cursor : Cursor) : Option (Cursor × R) := do
  guard (← isValid rel.nodes cursor)
  let cursor ← skipLeafEnd rel cursor
  let r ← entryRecord (← currNode rel.nodes cursor) (← entryIndex cursor)
  return (cursor, r)

def RL_MoveToKey (rel : Relation R) (cursor : Cursor) (key : Key) : Option (Cursor × Bool) := do
  let cursor ← goToKey rel.nodes cursor key
  if !(← isValid rel.nodes cursor) then return (cursor, false)
  let (cursor, k) ← RL_GetKey rel cursor
  return (cursor, k == key)

def RL_MoveToFirst (rel : Relation R) : Option (Cursor × Bool) := do
  let cursor ← moveToFirst rel.nodes rel.root []
  return (cursor, ← isValid rel.nodes cursor)

/-! ### Creation -/

def RL_NewRelation : Relation R :=
  { nodes := [createNewNode true true true], root := 0, numRecords := 0, depth := 0 }

def RL_NewCursor (rel : Relation R) : Option Cursor := moveToFirst rel.nodes rel.root []

def RL_CursorIsValid (rel : Relation R) (cursor : Cursor) : Option Bool :=
  isValid rel.nodes cursor

def RL_IsEmpty (rel : Relation R) : Option Bool := do
  return (← rel.nodes[rel.root]?).numKeys == 0

def RL_NumRecords (rel : Relation R) : Nat := rel.numRecords

/-! ### Insertion -/

/-- The entries of both nodes are copied by one loop; the kind of the node decides where the second
one starts. The new node takes the flag of a last leaf over. -/
def splitnode (nodes : Nodes R) (node : Ptr) (entry : Entry R) (isLeaf : Bool) :
    Option (Nodes R × Entry R) := do
  let n ← nodes[node]?
  guard (n.numKeys = FANOUT)
  let tgtIdx := findRecordIndex n entry.key
  let allEntries := n.entries.take tgtIdx ++ entry :: n.entries.drop tgtIdx
  let left :=
    if tgtIdx < MIDDLE then n.entries.take tgtIdx ++ (allEntries.take MIDDLE).drop tgtIdx
    else n.entries.take MIDDLE
  let newNode : BtNode R := createNewNode isLeaf false false
  let newPtr := nodes.length
  let newNode := if n.Last then { newNode with Last := true } else newNode
  let startIdx := if isLeaf then MIDDLE else MIDDLE + 1
  let newNode := { newNode with entries := allEntries.drop startIdx }
  let n' := { n with Last := false, entries := left }
  if isLeaf then
    let first ← allEntries[startIdx]?
    return (nodes.set node n' ++ [newNode], ⟨first.key, .child newPtr⟩)
  else
    let middle ← allEntries[startIdx - 1]?
    let .child ptr0 := middle.ptr | none
    return (nodes.set node n' ++ [{ newNode with ptr0 := some ptr0 }],
      ⟨middle.key, .child newPtr⟩)

def putEntry (rel : Relation R) (newEntry : Entry R) (key : Key) :
    Cursor → Option (Relation R × Cursor)
  | [] => do
    let currNode : BtNode R :=
      { (createNewNode false false false : BtNode R) with
        ptr0 := some rel.root, entries := [newEntry] }
    let nodes := rel.nodes ++ [currNode]
    let cursor ← moveToKey nodes rel.nodes.length key []
    return ({ nodes, root := rel.nodes.length, depth := rel.depth + 1,
              numRecords := rel.numRecords + 1 }, cursor)
  | (p, i) :: up => do
    let n ← rel.nodes[p]?
    if n.isLeaf then
      if ← keyAtCursor n i newEntry.key then
        let e ← entryAt n i
        let n' := { n with entries := n.entries.set i.toNat { e with ptr := newEntry.ptr } }
        return ({ rel with nodes := rel.nodes.set p n' }, (p, i) :: up)
      else if n.numKeys < FANOUT then
        let n' ← insertEntry n i newEntry
        return ({ rel with nodes := rel.nodes.set p n', numRecords := rel.numRecords + 1 },
          (p, i) :: up)
      else
        let (nodes, newEntry) ← splitnode rel.nodes p newEntry true
        putEntry { rel with nodes } newEntry key up
    else
      if n.numKeys < FANOUT then
        let n' ← insertEntry n (i + 1) newEntry
        let nodes := rel.nodes.set p n'
        let cursor ← moveToKey nodes p key up
        return ({ rel with nodes, numRecords := rel.numRecords + 1 }, cursor)
      else
        let (nodes, newEntry) ← splitnode rel.nodes p newEntry false
        putEntry { rel with nodes } newEntry key up

def RL_PutRecord (rel : Relation R) (cursor : Cursor) (key : Key) (record : R) :
    Option (Relation R × Cursor) := do
  let cursor ← goToKey rel.nodes cursor key
  let (rel, cursor) ← putEntry rel ⟨key, .record record⟩ key cursor
  return (rel, ← RL_MoveToNext rel cursor)

end DeepDB.Library
