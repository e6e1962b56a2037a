import Mathlib.Logic.Function.Basic
import Mathlib.Data.Set.Lattice
import Mathlib.Order.CompletePartialOrder
import Mathlib.Algebra.Order.Ring.Int

/-!
The index interface of `db_ops/index.c` and the schemas that implement it: the integer hash table,
the string list, and the tuple schema, which keeps indices of its second component as the values of
an index of its first. A linked list is the list of its cells; a `char *` stands for the bytes before
its NUL. Following a pointer to an object of another kind has no value.
-/

namespace DeepDB.DbOps

abbrev CString := List UInt8

/-- A `void *`. -/
abbrev Value := Nat

def NULL : Value := 0

/-- A `Key` is a number, a string, or what `build_keypair` makes. -/
inductive Key where
  | int (n : Nat)
  | str (s : CString)
  | pair (a b : Key)
  deriving DecidableEq

/-- A word of a tuple. -/
inductive Entry where
  | int (n : Nat)
  | str (s : CString)
  deriving DecidableEq

abbrev Tuple := List Entry

structure Icell where
  key : Nat
  value : Value

structure Scell where
  key : CString
  value : Value

/-- The number of buckets. -/
def N : Nat := 10

/-- The `next` of an element has no value before it is set. -/
inductive Obj where
  | inthash (buckets : Nat → List Icell)
  | stringlist (root : List Scell)
  | fifo (head tail : Value)
  | elem (data : Value) (next : Option Value)
  | tuple (t : Tuple)

structure Heap where
  obj : Nat → Option Obj
  next : Nat

/-- Addresses from `next` on are free. -/
structure Heap.Ok (h : Heap) : Prop where
  pos : NULL < h.next
  free : ∀ i, h.next ≤ i → h.obj i = none

def Heap.alloc (h : Heap) (x : Obj) : Heap × Nat :=
  ({ obj := Function.update h.obj h.next (some x), next := h.next + 1 }, h.next)

def Heap.set (h : Heap) (i : Nat) (x : Obj) : Heap :=
  { h with obj := Function.update h.obj i (some x) }

/-! ### inthash -/

def inthashNew (h : Heap) : Heap × Nat := h.alloc (.inthash fun _ => [])

def inthashLookup (p : Nat → List Icell) (key : Nat) : Value :=
  match (p (key % N)).find? fun q => q.key = key with
  | some q => q.value
  | none => NULL

/-- The list and the place of the cell of `key` in it. -/
def inthashInsertList : List Icell → Nat → List Icell × Nat
  | [], key => ([⟨key, NULL⟩], 0)
  | p :: r, key =>
    if p.key = key then (p :: r, 0)
    else
      let (r, q) := inthashInsertList r key
      (p :: r, q + 1)

def inthashInsert (p : Nat → List Icell) (key : Nat) (value : Value) :
    Option ((Nat → List Icell) × Value) := do
  let (r, i) := inthashInsertList (p (key % N)) key
  let q ← r[i]?
  let old := q.value
  return (Function.update p (key % N) (r.set i { q with value }), old)

/-! ### stringlist -/

def stringlistNew (h : Heap) : Heap × Nat := h.alloc (.stringlist [])

/-- `n` is an `int`: there is no block of a negative number of bytes, and `strcpy` runs over the end of
one that is shorter than the string. -/
def copyString (s : CString) : Option CString :=
  let n := Int.bmod (s.length + 1) (2 ^ 32)
  if n < 0 then none
  else if n < s.length + 1 then none
  else some s

def newScell (key : CString) (value : Value) : Option Scell := do
  return { key := ← copyString key, value }

def stringlistInsert : List Scell → CString → Value → Option (List Scell × Value)
  | [], key, value => do return ([← newScell key value], NULL)
  | q :: r, key, value =>
    if q.key = key then some ({ q with value } :: r, q.value)
    else do
      let (r, old) ← stringlistInsert r key value
      return (q :: r, old)

def stringlistLookup (p : List Scell) (key : CString) : Value :=
  match p.find? fun q => q.key = key with
  | some q => q.value
  | none => NULL

/-! ### Schemas -/

/-- `schema_methods`, with the private data they are given. -/
structure SchemaMethods where
  new : Heap → Heap × Nat
  insert : Heap → Nat → Key → Value → Option (Heap × Value)
  lookup : Heap → Nat → Key → Option Value

def inthashMtable : SchemaMethods where
  new := inthashNew
  insert h ind key val :=
    match h.obj ind, key with
    | some (.inthash p), .int n => do
      let (p, old) ← inthashInsert p n val
      return (h.set ind (.inthash p), old)
    | _, _ => none
  lookup h ind key :=
    match h.obj ind, key with
    | some (.inthash p), .int n => some (inthashLookup p n)
    | _, _ => none

def stringlistMtable : SchemaMethods where
  new := stringlistNew
  insert h ind key val :=
    match h.obj ind, key with
    | some (.stringlist p), .str s => do
      let (p, old) ← stringlistInsert p s val
      return (h.set ind (.stringlist p), old)
    | _, _ => none
  lookup h ind key :=
    match h.obj ind, key with
    | some (.stringlist p), .str s => some (stringlistLookup p s)
    | _, _ => none

def tupleMtable (a b : SchemaMethods) : SchemaMethods where
  new := a.new
  insert h ind key val :=
    match key with
    | .pair ka kb => do
      let bindex ← a.lookup h ind ka
      if bindex = NULL then
        let (h, bindex) := b.new h
        let (h, _) ← a.insert h ind ka bindex
        b.insert h bindex kb val
      else b.insert h bindex kb val
    | _ => none
  lookup h ind key :=
    match key with
    | .pair ka kb => do
      let bindex ← a.lookup h ind ka
      if bindex = NULL then some NULL else b.lookup h bindex kb
    | _ => none

/-- `schema_t`. -/
inductive Schema where
  | inthashSchema
  | stringlistSchema
  | tupleSchema (a b : Schema)

def Schema.mtable : Schema → SchemaMethods
  | .inthashSchema => inthashMtable
  | .stringlistSchema => stringlistMtable
  | .tupleSchema a b => tupleMtable a.mtable b.mtable

def indexNew (sch : Schema) (h : Heap) : Heap × Nat := sch.mtable.new h

def indexInsert (sch : Schema) (h : Heap) (ind : Nat) (key : Key) (val : Value) :
    Option (Heap × Value) :=
  sch.mtable.insert h ind key val

def indexLookup (sch : Schema) (h : Heap) (ind : Nat) (key : Key) : Option Value :=
  sch.mtable.lookup h ind key

/-- The keys of a schema. -/
def Schema.Accepts : Schema → Key → Prop
  | .inthashSchema, .int _ => True
  | .stringlistSchema, .str _ => True
  | .tupleSchema a b, .pair ka kb => a.Accepts ka ∧ b.Accepts kb
  | _, _ => False

end DeepDB.DbOps
