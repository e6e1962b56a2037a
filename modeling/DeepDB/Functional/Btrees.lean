import Mathlib.Data.List.Basic
import Mathlib.Algebra.Order.Ring.Int

/-!
The functional model of `verif/btrees/btrees.v`, which the separation-logic specifications are
stated with. Nodes are trees, a cursor is the list of the nodes and indices from its leaf up to the
root, and a put rebuilds the nodes along the cursor.

The Coq functions that recurse on a measure take a number of calls here: `moveToKey` the depth of
the node, `putEntry` the length of the cursor.
-/

namespace DeepDB.Functional

/-- The keys are the numbers below `modulus`. -/
abbrev Key := Nat

/-- `Ptrofs.modulus`. -/
def modulus : Nat := 2 ^ 64

def MaxTreeDepth : Nat := 20

def Fanout : Nat := 15

def Middle : Nat := (Fanout + 1) / 2

variable {V X : Type}

mutual

inductive Entry (V X : Type) where
  | keyval (k : Key) (v : V) (x : X)
  | keychild (k : Key) (n : Node V X)

inductive Node (V X : Type) where
  | btnode (entryzero : Option (Node V X)) (le : List (Entry V X)) (isLeaf First Last : Bool) (x : X)

end

/-- Ancestors and indices, the current node first. -/
abbrev Cursor (V X : Type) := List (Node V X × Int)

/-- The root and its address. -/
abbrev Relation (V X : Type) := Node V X × X

namespace Node

def le : Node V X → List (Entry V X)
  | btnode _ le _ _ _ _ => le

def isLeaf : Node V X → Bool
  | btnode _ _ isLeaf _ _ _ => isLeaf

def First : Node V X → Bool
  | btnode _ _ _ First _ _ => First

def Last : Node V X → Bool
  | btnode _ _ _ _ Last _ => Last

end Node

def entryKey : Entry V X → Key
  | .keychild k _ => k
  | .keyval k _ _ => k

def entryChild : Entry V X → Option (Node V X)
  | .keychild _ c => some c
  | .keyval _ _ _ => none

/-! ### The abstract list and the depth -/

mutual

def absNode : Node V X → List (Key × V)
  | .btnode entryzero le _ _ _ _ => absPtr0 entryzero ++ absLe le

def absPtr0 : Option (Node V X) → List (Key × V)
  | none => []
  | some n => absNode n

def absLe : List (Entry V X) → List (Key × V)
  | [] => []
  | e :: le => absEntry e ++ absLe le

def absEntry : Entry V X → List (Key × V)
  | .keyval k v _ => [(k, v)]
  | .keychild _ n => absNode n

end

mutual

def nodeDepth : Node V X → Nat
  | .btnode ptr0 le _ _ _ _ => max (leDepth le) (ptr0Depth ptr0)

def ptr0Depth : Option (Node V X) → Nat
  | none => 0
  | some n => nodeDepth n + 1

def leDepth : List (Entry V X) → Nat
  | [] => 0
  | e :: le => max (entryDepth e) (leDepth le)

def entryDepth : Entry V X → Nat
  | .keyval _ _ _ => 0
  | .keychild _ n => nodeDepth n + 1

end

def correctDepth (r : Relation V X) : Prop := nodeDepth r.1 < MaxTreeDepth

/-! ### Moving a cursor -/

def entryIndex : Cursor V X → Int
  | [] => 0
  | (_, i) :: _ => i

def currNode (c : Cursor V X) (r : Relation V X) : Node V X :=
  match c with
  | [] => r.1
  | (n, _) :: _ => n

def isValid (c : Cursor V X) (r : Relation V X) : Bool :=
  if (currNode c r).Last then !(entryIndex c == (currNode c r).le.length) else true

def isFirst : Cursor V X → Bool
  | [] => false
  | (n, i) :: _ => n.First && i == 0

/-- `Znth_option`. -/
def nthOption {α : Type} (i : Int) (l : List α) : Option α :=
  if 0 ≤ i then l[i.toNat]? else none

def nthNodeLe (i : Int) (le : List (Entry V X)) : Option (Node V X) :=
  match nthOption i le with
  | some (.keychild _ child) => some child
  | _ => none

def nthNode (i : Int) : Node V X → Option (Node V X)
  | .btnode (some ptr0) le false _ _ _ => if i = -1 then some ptr0 else nthNodeLe i le
  | _ => none

def findChildIndexFrom (key : Key) : List (Entry V X) → Int → Int
  | [], i => i
  | e :: le, i => if key < entryKey e then i else findChildIndexFrom key le (i + 1)

def findChildIndex (n : Node V X) (key : Key) : Int := findChildIndexFrom key n.le (-1)

def findRecordIndexFrom (key : Key) : List (Entry V X) → Int → Int
  | [], i => i
  | e :: le, i => if key ≤ entryKey e then i else findRecordIndexFrom key le (i + 1)

def findRecordIndex (n : Node V X) (key : Key) : Int := findRecordIndexFrom key n.le 0

def moveToFirstIn : Nat → Node V X → Cursor V X → Cursor V X
  | 0, _, c => c
  | depth + 1, n, c =>
    match n with
    | .btnode ptr0 _ isLeaf _ _ _ =>
      if isLeaf then (n, 0) :: c
      else match ptr0 with
        | none => c
        | some n' => moveToFirstIn depth n' ((n, -1) :: c)

def moveToFirst (n : Node V X) (c : Cursor V X) : Cursor V X := moveToFirstIn (nodeDepth n + 1) n c

def moveToLastIn : Nat → Node V X → Cursor V X → Cursor V X
  | 0, _, c => c
  | depth + 1, n, c =>
    if n.isLeaf then (n, n.le.length) :: c
    else match nthNode ((n.le.length : Int) - 1) n with
      | none => c
      | some n' => moveToLastIn depth n' ((n, (n.le.length : Int) - 1) :: c)

def moveToLast (n : Node V X) (c : Cursor V X) : Cursor V X := moveToLastIn (nodeDepth n + 1) n c

def moveToKeyIn (key : Key) : Nat → Node V X → Cursor V X → Cursor V X
  | 0, _, c => c
  | depth + 1, n, c =>
    if n.isLeaf then (n, findRecordIndex n key) :: c
    else match nthNode (findChildIndex n key) n with
      | none => c
      | some n' => moveToKeyIn key depth n' ((n, findChildIndex n key) :: c)

def moveToKey (n : Node V X) (key : Key) (c : Cursor V X) : Cursor V X :=
  moveToKeyIn key (nodeDepth n + 1) n c

def isNodeParent (n : Node V X) (key : Key) : Bool :=
  match n with
  | .btnode _ le isLeaf First Last _ =>
    if isLeaf then
      if le.length = 0 then true
      else match le[0]?, le[le.length - 1]? with
        | some e0, some el =>
          (decide (entryKey e0 ≤ key) || First) && (decide (key ≤ entryKey el) || Last)
        | _, _ => false
    else
      let i := findChildIndex n key
      if i = -1 then false else !(i + 1 == (le.length : Int))

def ascendToParent (key : Key) : Cursor V X → Cursor V X
  | [] => []
  | [e] => [e]
  | (n, i) :: c => if isNodeParent n key then (n, i) :: c else ascendToParent key c

def goToKey (c : Cursor V X) (r : Relation V X) (key : Key) : Cursor V X :=
  match ascendToParent key c with
  | [] => moveToKey r.1 key []
  | (n, _) :: c' => moveToKey n key c'

def lastpointer (n : Node V X) : Int := if n.isLeaf then n.le.length else n.le.length - 1

def upAtLast : Cursor V X → Cursor V X
  | [] => []
  | [e] => [e]
  | (n, i) :: c => if i = lastpointer n then upAtLast c else (n, i) :: c

def nextCursor : Cursor V X → Cursor V X
  | [] => []
  | (n, i) :: c => (n, i + 1) :: c

def moveToNext (c : Cursor V X) (r : Relation V X) : Cursor V X :=
  if isValid c r then
    match nextCursor (upAtLast c) with
    | [] => moveToFirst r.1 []
    | (n, i) :: c' =>
      if n.isLeaf then (n, i) :: c'
      else match nthNode i n with
        | none => (n, i) :: c'
        | some n' => moveToFirst n' ((n, i) :: c')
  else c

def firstpointer (n : Node V X) : Int := if n.isLeaf then 0 else -1

/-- Unlike `upAtLast` this leaves a root that is at its first index. -/
def upAtFirst : Cursor V X → Cursor V X
  | [] => []
  | (n, i) :: c => if i = firstpointer n then upAtFirst c else (n, i) :: c

def prevCursor : Cursor V X → Cursor V X
  | [] => []
  | (n, i) :: c => (n, i - 1) :: c

def moveToPrev (c : Cursor V X) (r : Relation V X) : Cursor V X :=
  if isFirst c then c
  else match prevCursor (upAtFirst c) with
    | [] => moveToFirst r.1 []
    | (n, i) :: c' =>
      if n.isLeaf then (n, i) :: c'
      else match nthNode i n with
        | none => (n, i) :: c'
        | some n' => moveToLast n' ((n, i) :: c')

def normalize (c : Cursor V X) (r : Relation V X) : Cursor V X :=
  match c with
  | [] => c
  | (n, i) :: _ => if i = n.le.length then moveToNext c r else c

def RL_MoveToNext (c : Cursor V X) (r : Relation V X) : Cursor V X :=
  match c with
  | [] => c
  | (n, i) :: _ =>
    if i = n.le.length then moveToNext (moveToNext c r) r else moveToNext c r

/-- The pattern names the tail of the cursor `c` again, and the steps start from this tail. -/
def RL_MoveToPrevious (c : Cursor V X) (r : Relation V X) : Cursor V X :=
  match c with
  | [] => c
  | (_, i) :: c => if i = 0 then moveToPrev (moveToPrev c r) r else moveToPrev c r

def getCEntry : Cursor V X → Option (Entry V X)
  | [] => none
  | (n, i) :: _ => nthOption i n.le

def getCVal (c : Cursor V X) : Option X :=
  match getCEntry c with
  | some (.keyval _ _ x) => some x
  | _ => none

/-- The address of the record at the cursor, `nullval` where there is none. -/
def RL_GetRecord (nullval : X) (c : Cursor V X) (r : Relation V X) : X :=
  match getCVal (normalize c r) with
  | none => nullval
  | some x => x

/-! ### Rebuilding nodes -/

def insertLe (e : Entry V X) : List (Entry V X) → List (Entry V X)
  | [] => [e]
  | e' :: le => if entryKey e ≤ entryKey e' then e :: e' :: le else e' :: insertLe e le

def splitnodeLeft (n : Node V X) (e : Entry V X) : Node V X :=
  match n with
  | .btnode ptr0 le isLeaf First _ x =>
    .btnode ptr0 ((insertLe e le).take Middle) isLeaf First false x

def splitnodeLeafnode (le : List (Entry V X)) (e : Entry V X) (newx : X) (Last : Bool) : Node V X :=
  .btnode none ((insertLe e le).drop Middle) true false Last newx

def splitnodeInternnode (le : List (Entry V X)) (e : Entry V X) (newx : X) (Last : Bool)
    (child : Node V X) : Node V X :=
  .btnode (some child) ((insertLe e le).drop (Middle + 1)) false false Last newx

def splitnodeRight (n : Node V X) (e : Entry V X) (newx : X) : Entry V X :=
  match n with
  | .btnode _ le isLeaf _ Last _ =>
    match (insertLe e le)[Middle]? with
    | none => e
    | some e' =>
      if isLeaf then .keychild (entryKey e') (splitnodeLeafnode le e newx Last)
      else match entryChild e' with
        | none => e
        | some child => .keychild (entryKey e') (splitnodeInternnode le e newx Last child)

def fullnode (n : Node V X) : Bool := decide (Fanout ≤ n.le.length)

def keyInLe (key : Key) : List (Entry V X) → Bool
  | [] => false
  | e :: le => if entryKey e = key then true else keyInLe key le

def updateLe (e : Entry V X) : List (Entry V X) → List (Entry V X)
  | [] => []
  | e' :: le => if entryKey e = entryKey e' then e :: le else e' :: updateLe e le

/-- The entries in front of index `i` do not come back. -/
def updateLeNthChild (n : Node V X) : Int → List (Entry V X) → List (Entry V X)
  | _, [] => []
  | i, e :: le =>
    if i ≤ 0 then .keychild (entryKey e) n :: le else updateLeNthChild n (i - 1) le

def updateNodeNthChild (i : Int) (oldn n : Node V X) : Node V X :=
  match oldn with
  | .btnode ptr0 le isLeaf First Last x =>
    if i = -1 then .btnode (some n) le isLeaf First Last x
    else .btnode ptr0 (updateLeNthChild n i le) isLeaf First Last x

def updatePartialCursorRel : Cursor V X → Relation V X → Node V X → Cursor V X × Relation V X
  | [], r, n => ([], (n, r.2))
  | (oldn, i) :: c, r, n =>
    let newn := updateNodeNthChild i oldn n
    let (newc, newrel) := updatePartialCursorRel c r newn
    ((newn, i) :: newc, newrel)

def updateCurrnodeCursorRel (c : Cursor V X) (r : Relation V X) (n : Node V X) :
    Cursor V X × Relation V X :=
  match c with
  | [] => (c, r)
  | (_, i) :: c' =>
    let (newc, newrel) := updatePartialCursorRel c' r n
    ((n, i) :: newc, newrel)

/-! ### Insertion -/

def putEntryIn (oldk : Key) (d : X) : Nat → Cursor V X → Relation V X → Entry V X → List X →
    Cursor V X × Relation V X
  | 0, c, r, _, _ => (c, r)
  | _ + 1, [], (root, prel), e, newx =>
    let relation := (.btnode (some root) [e] false true true (newx.headD d), prel)
    (moveToKey relation.1 oldk [], relation)
  | length + 1, (n, i) :: c, r, e, newx =>
    match n with
    | .btnode ptr0 le isLeaf First Last x =>
      if isLeaf && keyInLe (entryKey e) le then
        updateCurrnodeCursorRel ((n, i) :: c) r (.btnode ptr0 (updateLe e le) isLeaf First Last x)
      else if fullnode n then
        let newn := splitnodeLeft n e
        let newe := splitnodeRight n e (newx.headD d)
        let (newc, newr) := updateCurrnodeCursorRel ((n, i) :: c) r newn
        putEntryIn oldk d length newc.tail newr newe newx.tail
      else
        let newn := .btnode ptr0 (insertLe e le) isLeaf First Last x
        let (newc, newr) := updateCurrnodeCursorRel ((n, i) :: c) r newn
        if isLeaf then (newc, newr) else (moveToKey newn oldk newc.tail, newr)

def putEntry (c : Cursor V X) (r : Relation V X) (e : Entry V X) (oldk : Key) (newx : List X)
    (d : X) : Cursor V X × Relation V X :=
  putEntryIn oldk d (c.length + 1) c r e newx

def RL_PutRecord (c : Cursor V X) (r : Relation V X) (key : Key) (record : V) (x : X)
    (newx : List X) (d : X) : Cursor V X × Relation V X :=
  let c' := goToKey c r key
  let e := .keyval key record x
  let (putc, putr) := putEntry c' r e key newx d
  (RL_MoveToNext putc putr, putr)

end DeepDB.Functional
