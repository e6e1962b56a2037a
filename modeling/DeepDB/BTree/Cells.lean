import DeepDB.BTree.Previous
import DeepDB.Lib.Traced

/-!
The nodes of `verif/btrees/relation_mem.c` as C has them: an array of `FANOUT` entries of which
`numKeys` are in use, read and written cell by cell. Every access to `entries[]`, and to the
array `allEntries[]` of `splitnode`, is logged with its index; a read also with the number of keys
of the node at that time. A computation stops without a value at an access outside the array, at a
read of a cell that was never written, at a wild or null pointer and at a failed assertion.
-/

namespace DeepDB.BTree.Cells
open Traced

variable {R : Type}

inductive Access where
  | read (i : Int) (numKeys : Nat)
  | write (i : Int)
  | readAll (i : Nat)
  | writeAll (i : Nat)
  deriving DecidableEq

/-- The index is inside the array, and a read is of an entry in use. -/
def Access.InBounds : Access → Prop
  | .read i numKeys => 0 ≤ i ∧ i < FANOUT ∧ i < numKeys
  | .write i => 0 ≤ i ∧ i < FANOUT
  | .readAll i => i ≤ FANOUT
  | .writeAll i => i ≤ FANOUT

structure BtNode (R : Type) where
  isLeaf : Bool
  First : Bool
  Last : Bool
  numKeys : Nat
  ptr0 : Option Ptr
  entries : List (Option (Entry R))

abbrev Nodes (R : Type) := List (BtNode R)

structure Relation (R : Type) where
  nodes : Nodes R
  root : Ptr
  numRecords : Nat
  depth : Nat

/-! ### Cells -/

def getNode (nodes : Nodes R) (p : Ptr) : Traced Access (BtNode R) := ofOption nodes[p]?

/-- `node->entries[i]`. -/
def readEntry (n : BtNode R) (i : Int) : Traced Access (Entry R) := do
  emit (.read i n.numKeys)
  ofOption (if 0 ≤ i then (n.entries[i.toNat]?).join else none)

/-- `node->entries[i].key = e.key; node->entries[i].ptr = e.ptr`. -/
def writeEntry (n : BtNode R) (i : Int) (e : Entry R) : Traced Access (BtNode R) := do
  emit (.write i)
  ofOption (if 0 ≤ i ∧ i.toNat < n.entries.length then
    some { n with entries := n.entries.set i.toNat (some e) } else none)

/-- `node->entries[i].ptr = ptr`. -/
def writePtr (n : BtNode R) (i : Int) (ptr : ChildOrRecord R) : Traced Access (BtNode R) := do
  emit (.write i)
  ofOption (if 0 ≤ i ∧ i.toNat < n.entries.length then
    some { n with entries := n.entries.modify i.toNat (Option.map fun e => { e with ptr }) }
    else none)

def entryChild (n : BtNode R) (i : Int) : Traced Access Ptr := do
  match (← readEntry n i).ptr with
  | .child p => return p
  | .record _ => ofOption none

def childAt (n : BtNode R) (i : Int) : Traced Access Ptr :=
  if i = -1 then ofOption n.ptr0 else entryChild n i

def entryRecord (n : BtNode R) (i : Int) : Traced Access R := do
  match (← readEntry n i).ptr with
  | .record r => return r
  | .child _ => ofOption none

def entryIndex (cursor : Cursor) : Traced Access Int := ofOption (BTree.entryIndex cursor)

def currNode (nodes : Nodes R) : Cursor → Traced Access (BtNode R)
  | [] => ofOption none
  | (p, _) :: _ => getNode nodes p

def isValid (nodes : Nodes R) (cursor : Cursor) : Traced Access Bool := do
  let n ← currNode nodes cursor
  return !((← entryIndex cursor) == (n.numKeys : Int) && n.Last)

def isFirst (nodes : Nodes R) (cursor : Cursor) : Traced Access Bool := do
  let n ← currNode nodes cursor
  return (← entryIndex cursor) == 0 && n.First

/-! ### Searching a node -/

/-- The loop of `findChildIndex` with `left` entries to go. -/
def findChildIndexFrom (n : BtNode R) (key : Key) : (left : Nat) → Traced Access Int
  | 0 => return (n.numKeys : Int) - 1
  | left + 1 => do
    let i : Int := (n.numKeys : Int) - (left + 1 : Nat)
    let e ← readEntry n i
    if key < e.key then return i - 1 else findChildIndexFrom n key left

def findChildIndex (n : BtNode R) (key : Key) : Traced Access Int :=
  if 0 < n.numKeys then findChildIndexFrom n key n.numKeys else ofOption none

/-- The loop of `findRecordIndex` with `left` entries to go. -/
def findRecordIndexFrom (n : BtNode R) (key : Key) : (left : Nat) → Traced Access Nat
  | 0 => return n.numKeys
  | left + 1 => do
    let i : Nat := n.numKeys - (left + 1)
    let e ← readEntry n i
    if key ≤ e.key then return i else findRecordIndexFrom n key left

def findRecordIndex (n : BtNode R) (key : Key) : Traced Access Nat :=
  findRecordIndexFrom n key n.numKeys

/-! ### Moving the cursor -/

def moveToKeyIn (nodes : Nodes R) (key : Key) : Nat → Ptr → Cursor → Traced Access Cursor
  | 0, _, _ => ofOption none
  | room + 1, node, up => do
    let n ← getNode nodes node
    if n.isLeaf then
      let i ← findRecordIndex n key
      return (node, (i : Int)) :: up
    else
      let i ← findChildIndex n key
      let child ← childAt n i
      moveToKeyIn nodes key room child ((node, i) :: up)

def moveToKey (nodes : Nodes R) (node : Ptr) (key : Key) (up : Cursor) : Traced Access Cursor :=
  moveToKeyIn nodes key (MAX_TREE_DEPTH - up.length) node up

def moveToFirstIn (nodes : Nodes R) : Nat → Ptr → Cursor → Traced Access Cursor
  | 0, _, _ => ofOption none
  | room + 1, node, up => do
    let n ← getNode nodes node
    if n.isLeaf then
      return (node, 0) :: up
    else
      let child ← ofOption n.ptr0
      moveToFirstIn nodes room child ((node, -1) :: up)

def moveToFirst (nodes : Nodes R) (node : Ptr) (up : Cursor) : Traced Access Cursor :=
  moveToFirstIn nodes (MAX_TREE_DEPTH - up.length) node up

def moveToLastIn (nodes : Nodes R) : Nat → Ptr → Cursor → Traced Access Cursor
  | 0, _, _ => ofOption none
  | room + 1, node, up => do
    let n ← getNode nodes node
    if n.isLeaf then
      return (node, (n.numKeys : Int)) :: up
    else
      let child ← entryChild n ((n.numKeys : Int) - 1)
      moveToLastIn nodes room child ((node, (n.numKeys : Int) - 1) :: up)

def moveToLast (nodes : Nodes R) (node : Ptr) (up : Cursor) : Traced Access Cursor :=
  moveToLastIn nodes (MAX_TREE_DEPTH - up.length) node up

def isNodeParent (n : BtNode R) (key : Key) : Traced Access Bool :=
  if n.isLeaf then
    if n.numKeys = 0 then return true
    else do
      let lowest ← readEntry n 0
      let highest ← readEntry n ((n.numKeys : Int) - 1)
      return (lowest.key ≤ key || n.First) && (key ≤ highest.key || n.Last)
  else do
    let idx ← findChildIndex n key
    return !(idx == -1 || idx == (n.numKeys : Int) - 1)

def ascendToParent (nodes : Nodes R) (key : Key) : Cursor → Traced Access Cursor
  | [] => ofOption none
  | [e] => return [e]
  | (p, i) :: up => do
    let n ← getNode nodes p
    if ← isNodeParent n key then return (p, i) :: up
    else ascendToParent nodes key up

def goToKey (nodes : Nodes R) (cursor : Cursor) (key : Key) : Traced Access Cursor := do
  match ← ascendToParent nodes key cursor with
  | [] => ofOption none
  | (p, _) :: up => moveToKey nodes p key up

def lastpointer (n : BtNode R) : Int := if n.isLeaf then n.numKeys else n.numKeys - 1

def firstpointer (n : BtNode R) : Int := if n.isLeaf then 0 else -1

def ascendLast (nodes : Nodes R) : Cursor → Traced Access Cursor
  | [] => ofOption none
  | [e] => return [e]
  | (p, i) :: up => do
    let n ← getNode nodes p
    if i = lastpointer n then ascendLast nodes up else return (p, i) :: up

def stepNext (nodes : Nodes R) (cursor : Cursor) : Traced Access Cursor := do
  match ← ascendLast nodes cursor with
  | [] => ofOption none
  | (p, i) :: up =>
    let n ← getNode nodes p
    if n.isLeaf then return (p, i + 1) :: up
    else
      let child ← entryChild n (i + 1)
      moveToFirst nodes child ((p, i + 1) :: up)

def moveToNext (nodes : Nodes R) (cursor : Cursor) : Traced Access Cursor := do
  if ← isValid nodes cursor then stepNext nodes cursor else return cursor

def ascendFirst (nodes : Nodes R) : Cursor → Traced Access Cursor
  | [] => ofOption none
  | [e] => return [e]
  | (p, i) :: up => do
    let n ← getNode nodes p
    if i = firstpointer n then ascendFirst nodes up else return (p, i) :: up

def stepPrev (nodes : Nodes R) (cursor : Cursor) : Traced Access Cursor := do
  match ← ascendFirst nodes cursor with
  | [] => ofOption none
  | (p, i) :: up =>
    let n ← getNode nodes p
    if n.isLeaf then return (p, i - 1) :: up
    else
      let child ← entryChild n (i - 1)
      moveToLast nodes child ((p, i - 1) :: up)

def moveToPrev (nodes : Nodes R) (cursor : Cursor) : Traced Access Cursor := do
  if ← isFirst nodes cursor then return cursor else stepPrev nodes cursor

def skipLeafEnd (nodes : Nodes R) (cursor : Cursor) : Traced Access Cursor := do
  let i ← entryIndex cursor
  let n ← currNode nodes cursor
  if i = (n.numKeys : Int) then moveToNext nodes cursor else return cursor

def RL_MoveToNext (nodes : Nodes R) (cursor : Cursor) : Traced Access Cursor := do
  let cursor ← skipLeafEnd nodes cursor
  moveToNext nodes cursor

def RL_MoveToPrevious (nodes : Nodes R) (cursor : Cursor) : Traced Access Cursor := do
  let i ← entryIndex cursor
  let cursor ← if i = 0 then moveToPrev nodes cursor else pure cursor
  moveToPrev nodes cursor

def RL_GetKey (nodes : Nodes R) (cursor : Cursor) : Traced Access (Cursor × Key) := do
  let valid ← isValid nodes cursor
  ofOption (guard (valid = true))
  let cursor ← skipLeafEnd nodes cursor
  let n ← currNode nodes cursor
  let i ← entryIndex cursor
  let e ← readEntry n i
  return (cursor, e.key)

def RL_GetRecord (nodes : Nodes R) (cursor : Cursor) : Traced Access (Cursor × R) := do
  let valid ← isValid nodes cursor
  ofOption (guard (valid = true))
  let cursor ← skipLeafEnd nodes cursor
  let n ← currNode nodes cursor
  let i ← entryIndex cursor
  let r ← entryRecord n i
  return (cursor, r)

def RL_MoveToKey (nodes : Nodes R) (cursor : Cursor) (key : Key) :
    Traced Access (Cursor × Bool) := do
  let cursor ← goToKey nodes cursor key
  let valid ← isValid nodes cursor
  if !valid then return (cursor, false)
  else
    let (cursor, k) ← RL_GetKey nodes cursor
    return (cursor, k == key)

def RL_MoveToFirst (rel : Relation R) : Traced Access (Cursor × Bool) := do
  let cursor ← moveToFirst rel.nodes rel.root []
  let valid ← isValid rel.nodes cursor
  return (cursor, valid)

/-! ### Creation -/

def createNewNode (isLeaf First Last : Bool) : BtNode R :=
  { isLeaf, First, Last, numKeys := 0, ptr0 := none, entries := List.replicate FANOUT none }

def RL_NewRelation : Relation R :=
  { nodes := [createNewNode true true true], root := 0, numRecords := 0, depth := 0 }

def RL_NewCursor (rel : Relation R) : Traced Access Cursor := moveToFirst rel.nodes rel.root []

/-! ### Insertion -/

abbrev AllEntries (R : Type) := List (Option (Entry R))

def readAll (all : AllEntries R) (i : Nat) : Traced Access (Entry R) := do
  emit (.readAll i)
  ofOption (all[i]?).join

def writeAll (all : AllEntries R) (i : Nat) (e : Entry R) : Traced Access (AllEntries R) := do
  emit (.writeAll i)
  ofOption (if i < all.length then some (all.set i (some e)) else none)

/-- `allEntries[i + shift] = node->entries[i]` for `left` indices from `i` on. -/
def copyToAll (n : BtNode R) (shift : Nat) :
    Nat → (left : Nat) → AllEntries R → Traced Access (AllEntries R)
  | _, 0, all => return all
  | i, left + 1, all => do
    let e ← readEntry n i
    let all ← writeAll all (i + shift) e
    copyToAll n shift (i + 1) left all

/-- `node->entries[i - start] = allEntries[i]` for `left` indices from `i` on. -/
def copyFromAll (all : AllEntries R) (start : Nat) :
    Nat → (left : Nat) → BtNode R → Traced Access (BtNode R)
  | _, 0, n => return n
  | i, left + 1, n => do
    let e ← readAll all i
    let n ← writeEntry n ((i : Int) - start) e
    copyFromAll all start (i + 1) left n

def splitnode (nodes : Nodes R) (node : Ptr) (entry : Entry R) (isLeaf : Bool) :
    Traced Access (Nodes R × Entry R) := do
  let n ← getNode nodes node
  let tgtIdx ← findRecordIndex n entry.key
  let newNode : BtNode R := createNewNode isLeaf false n.Last
  let newPtr := nodes.length
  let n := { n with Last := false }
  -- copy all entries into allEntries
  let all ← copyToAll n 0 0 tgtIdx (List.replicate (FANOUT + 1) none)
  let all ← writeAll all tgtIdx entry
  let all ← copyToAll n 1 tgtIdx (FANOUT - tgtIdx) all
  let n := { n with numKeys := MIDDLE }
  let n ← (if tgtIdx < MIDDLE then copyFromAll all 0 tgtIdx (MIDDLE - tgtIdx) n else pure n)
  if n.isLeaf then
    let newNode ← copyFromAll all MIDDLE MIDDLE (FANOUT + 1 - MIDDLE) newNode
    let newNode := { newNode with numKeys := FANOUT + 1 - MIDDLE }
    let middle ← readAll all MIDDLE
    return (nodes.set node n ++ [newNode], ⟨middle.key, .child newPtr⟩)
  else
    -- the middle key is not copied
    let newNode ← copyFromAll all (MIDDLE + 1) (MIDDLE + 1) (FANOUT + 1 - (MIDDLE + 1)) newNode
    let middle ← readAll all MIDDLE
    match middle.ptr with
    | .record _ => ofOption none
    | .child ptr0 =>
      let newNode := { newNode with numKeys := FANOUT - MIDDLE, ptr0 := some ptr0 }
      return (nodes.set node n ++ [newNode], ⟨middle.key, .child newPtr⟩)

/-- `entries[i] = entries[i - 1]` for the `left` indices above `tgtIdx`, the last one first. -/
def shiftEntries (tgtIdx : Int) : (left : Nat) → BtNode R → Traced Access (BtNode R)
  | 0, n => return n
  | left + 1, n => do
    let i := tgtIdx + (left + 1 : Nat)
    let e ← readEntry n (i - 1)
    let n ← writeEntry n i e
    shiftEntries tgtIdx left n

def insertEntry (n : BtNode R) (tgtIdx : Int) (entry : Entry R) : Traced Access (BtNode R) := do
  let n ← shiftEntries tgtIdx ((n.numKeys : Int) - tgtIdx).toNat n
  let n ← writeEntry n tgtIdx entry
  return { n with numKeys := n.numKeys + 1 }

def keyAtCursor (n : BtNode R) (i : Int) (key : Key) : Traced Access Bool :=
  if i < n.numKeys then do
    let e ← readEntry n i
    return e.key == key
  else return false

def putEntry (rel : Relation R) (newEntry : Entry R) (key : Key) :
    Cursor → Traced Access (Relation R × Cursor)
  | [] => do
    let currNode : BtNode R := createNewNode false true true
    let currNode := { currNode with ptr0 := some rel.root, numKeys := 1 }
    let currNode ← writeEntry currNode 0 newEntry
    let nodes := rel.nodes ++ [currNode]
    let cursor ← moveToKey nodes rel.nodes.length key []
    return ({ nodes, root := rel.nodes.length, depth := rel.depth + 1,
              numRecords := rel.numRecords + 1 }, cursor)
  | (p, i) :: up => do
    let n ← getNode rel.nodes p
    if n.isLeaf then
      if ← keyAtCursor n i newEntry.key then
        let n' ← writePtr n i newEntry.ptr
        return ({ rel with nodes := rel.nodes.set p n' }, (p, i) :: up)
      else if n.numKeys < FANOUT then
        let n' ← insertEntry n i newEntry
        return ({ rel with nodes := rel.nodes.set p n', numRecords := rel.numRecords + 1 },
          (p, i) :: up)
      else
        let (nodes, newEntry) ← splitnode rel.nodes p newEntry true
        putEntry { rel with nodes } newEntry key up
    else
      if n.numKeys < FANOUT then
        let n' ← insertEntry n (i + 1) newEntry
        let nodes := rel.nodes.set p n'
        let cursor ← moveToKey nodes p key up
        return ({ rel with nodes, numRecords := rel.numRecords + 1 }, cursor)
      else
        let (nodes, newEntry) ← splitnode rel.nodes p newEntry false
        putEntry { rel with nodes } newEntry key up

def RL_PutRecord (rel : Relation R) (cursor : Cursor) (key : Key) (record : R) :
    Traced Access (Relation R × Cursor) := do
  let cursor ← goToKey rel.nodes cursor key
  let (rel, cursor) ← putEntry rel ⟨key, .record record⟩ key cursor
  let cursor ← RL_MoveToNext rel.nodes cursor
  return (rel, cursor)

end DeepDB.BTree.Cells
