import DeepDB.Trie.Heap

/-!
The string index, `src/btrees_and_tries/index_string.c`. An index of slices with the contract that
`specs.v` gives for the functions behind `I*` is a parameter. A string is a value here, with the
block that is allocated for it: `surely_malloc` takes an `unsigned int`, and a copy that runs over
the end of its block has no result. Freeing is left out.
-/

namespace DeepDB.IndexString
open Trie

/-- The integer index, with a result of every put. -/
structure IntIndex extends FlattenableTable Ptr where
  emptyTable : Table
  putAt : Int → Ptr → Cursor → Table → Cursor × Table
  Iempty_spec : Empty emptyTable
  Iput_spec : ∀ {k v c t}, AbsRel c t → Put k v c t (putAt k v c t).1 (putAt k v c t).2

/-! ### Strings -/

def mask : UInt64 := 255

/-- The loop of `UTIL_GetNextKeySlice`, with `i` rounds left. -/
def nextKeySliceLoop : Nat → Key → UInt64 → UInt64
  | 0, _, res => res
  | i + 1, [], res => nextKeySliceLoop i [] (res <<< 8)
  | i + 1, ch :: str, res => nextKeySliceLoop i str ((res <<< 8) ||| (ch.toUInt64 &&& mask))

def UTIL_GetNextKeySlice (str : Key) : UInt64 := nextKeySliceLoop keysliceLength str 0

def UTIL_StrEqual (a b : Key) : Bool :=
  if a.length ≠ b.length then false else (a.zip b).all fun (x, y) => x == y

/-- The bytes of the block. -/
def surely_malloc (n : Nat) : Nat := n % 2 ^ 32

/-- The loop that copies a string into a block with `room` bytes. -/
def copyLoop : Key → Nat → Option Key
  | [], _ => some []
  | _ :: _, 0 => none
  | ch :: str, room + 1 => (copyLoop str room).map (ch :: ·)

def new_key (str : Key) : Option Key := copyLoop str (surely_malloc str.length)

/-! ### Border nodes -/

def MAX_BN_SIZE : Nat := keysliceLength

structure BorderNode where
  prefixFlags : Nat
  prefixLinks : List Ptr
  suffixLink : Ptr
  /-- `keySuffix` with `keySuffixLength`, `NULL` as `none`. -/
  keySuffix : Option Key

def setFlag (flags index : Nat) : Nat := flags ||| 1 <<< index

def readFlag (flags index : Nat) : Bool := flags &&& 1 <<< index != 0

def BN_NewBorderNode : BorderNode := ⟨0, List.replicate (MAX_BN_SIZE + 1) NULL, NULL, none⟩

def BN_SetPrefixValue (bn : BorderNode) (i : Nat) (val : Ptr) : BorderNode :=
  { bn with prefixFlags := setFlag bn.prefixFlags i, prefixLinks := bn.prefixLinks.set i val }

/-- The result and what it writes to `*val`. -/
def BN_GetPrefixValue (bn : BorderNode) (i : Nat) : Bool × Option Ptr :=
  (readFlag bn.prefixFlags i, bn.prefixLinks[i]?)

def BN_SetSuffixValue (bn : BorderNode) (suffix : Key) (val : Ptr) : Option BorderNode := do
  let keySuffix ← copyLoop suffix (surely_malloc suffix.length)
  return { bn with keySuffix := some keySuffix, suffixLink := val }

def BN_TestSuffix (bn : BorderNode) (key : Key) : Bool :=
  match bn.keySuffix with
  | some suffix => UTIL_StrEqual (key.drop keysliceLength) suffix
  | none => false

/-- The suffix is moved out of the node. -/
def BN_ExportSuffixValue (bn : BorderNode) : Option (Key × Ptr) × BorderNode :=
  match bn.keySuffix with
  | some suffix => (some (suffix, bn.suffixLink), { bn with keySuffix := none, suffixLink := NULL })
  | none => (none, bn)

def BN_HasSuffix (bn : BorderNode) : Bool := bn.keySuffix.isSome

def BN_SetLink (bn : BorderNode) (val : Ptr) : BorderNode :=
  { bn with keySuffix := none, suffixLink := val }

/-- What it writes to `*val`, if its result is true. -/
def BN_GetLink (bn : BorderNode) : Option Ptr :=
  if bn.keySuffix.isSome ∨ bn.suffixLink = NULL then none else some bn.suffixLink

def BN_SetValue (bn : BorderNode) (key : Key) (val : Ptr) : Option BorderNode :=
  if key.length > keysliceLength then BN_SetSuffixValue bn (key.drop keysliceLength) val
  else some (BN_SetPrefixValue bn key.length val)

/-! ### Memory -/

structure Memory (N : IntIndex) where
  index : Ptr → Option N.Table
  node : Ptr → Option BorderNode
  /-- The next address that is handed out. -/
  next : Ptr

variable {N : IntIndex}

/-- A cursor knows its index. -/
abbrev ICursor (N : IntIndex) := Ptr × N.Cursor

def Memory.setNode (m : Memory N) (p : Ptr) (bn : BorderNode) : Memory N :=
  { m with node := fun q => if q = p then some bn else m.node q }

def Memory.setIndex (m : Memory N) (p : Ptr) (t : N.Table) : Memory N :=
  { m with index := fun q => if q = p then some t else m.index q }

/-- A new border node. -/
def newNode (m : Memory N) (bn : BorderNode) : Ptr × Memory N :=
  (m.next, { m.setNode m.next bn with next := m.next + 1 })

def Iempty (m : Memory N) : Ptr × Memory N :=
  (m.next, { m.setIndex m.next N.emptyTable with next := m.next + 1 })

def Ifirst_cursor (index : Ptr) (m : Memory N) : Option (ICursor N) := do
  return (index, N.firstCursor (← m.index index))

def Imake_cursor (key : UInt64) (index : Ptr) (m : Memory N) : Option (ICursor N) := do
  return (index, N.makeCursor key.toNat (← m.index index))

/-- What it writes to `*key`, if its result is true. -/
def Iget_key (cursor : ICursor N) (m : Memory N) : Option (Option Int) := do
  return N.getKey cursor.2 (← m.index cursor.1)

def Iget_value (cursor : ICursor N) (m : Memory N) : Option (Option Ptr) := do
  return (N.get cursor.2 (← m.index cursor.1)).map Prod.snd

def Iput (key : UInt64) (value : Ptr) (cursor : ICursor N) (m : Memory N) : Option (Memory N) := do
  let t ← m.index cursor.1
  return m.setIndex cursor.1 (N.putAt key.toNat value cursor.2 t).2

/-! ### Putting a key -/

def create_pair (key1 key2 : Key) (v1 v2 : Ptr) (m : Memory N) : Option (Ptr × Memory N) := do
  let keyslice1 := UTIL_GetNextKeySlice key1
  let keyslice2 := UTIL_GetNextKeySlice key2
  if keyslice1 = keyslice2 then
    if _short : key1.length ≤ keysliceLength ∨ key2.length ≤ keysliceLength then
      let bnode ← BN_SetValue BN_NewBorderNode (← new_key key1) v1
      let (bnode, m) := newNode m (← BN_SetValue bnode (← new_key key2) v2)
      let (index, m) := Iempty m
      let m ← Iput keyslice1 bnode (← Ifirst_cursor index m) m
      return (index, m)
    else
      let (link, m) ← create_pair (key1.drop keysliceLength) (key2.drop keysliceLength) v1 v2 m
      let (bnode, m) := newNode m (BN_SetLink BN_NewBorderNode link)
      let (index, m) := Iempty m
      let m ← Iput keyslice1 bnode (← Ifirst_cursor index m) m
      return (index, m)
  else
    let (bnode1, m) := newNode m (← BN_SetValue BN_NewBorderNode (← new_key key1) v1)
    let (bnode2, m) := newNode m (← BN_SetValue BN_NewBorderNode (← new_key key2) v2)
    let (index, m) := Iempty m
    let m ← Iput keyslice2 bnode2 (← Ifirst_cursor index m) m
    let m ← Iput keyslice1 bnode1 (← Ifirst_cursor index m) m
    return (index, m)
termination_by key1.length
decreasing_by exact length_getSuffix_lt (by omega)

def put (key : Key) (v : Ptr) (index : Ptr) (m : Memory N) : Option (Memory N) := do
  let keyslice := UTIL_GetNextKeySlice key
  let node_cursor ← Imake_cursor keyslice index m
  let obtained_keyslice ← Iget_key node_cursor m
  if obtained_keyslice = some (keyslice.toNat : Int) then
    let bnode ← (← Iget_value node_cursor m)
    let bn ← m.node bnode
    if _short : key.length ≤ keysliceLength then
      return m.setNode bnode (BN_SetPrefixValue bn key.length v)
    else if BN_HasSuffix bn then
      let k ← new_key key
      if BN_TestSuffix bn k then
        return m.setNode bnode (← BN_SetSuffixValue bn (key.drop keysliceLength) v)
      else
        let (exported, bn) := BN_ExportSuffixValue bn
        let (k2, v2) ← exported
        let (subindex, m) ← create_pair (key.drop keysliceLength) k2 v v2 m
        return m.setNode bnode (BN_SetLink bn subindex)
    else
      match BN_GetLink bn with
      | some subindex => put (key.drop keysliceLength) v subindex m
      | none => return m.setNode bnode (← BN_SetSuffixValue bn (key.drop keysliceLength) v)
  else
    let k ← new_key key
    let (bnode, m) := newNode m (← BN_SetValue BN_NewBorderNode k v)
    Iput keyslice bnode node_cursor m
termination_by key.length
decreasing_by exact length_getSuffix_lt (by omega)

/-- An index with nothing in it, and puts into it one after another. -/
def start : Ptr × Memory N := Iempty ⟨fun _ => none, fun _ => none, 1⟩

def putAll (index : Ptr) : List (Key × Ptr) → Memory N → Option (Memory N)
  | [], m => some m
  | (key, v) :: log, m => do putAll index log (← put key v index m)

/-- The bytes that `put` copies whole in the layer where it ends. -/
def copied (key : Key) (index : Ptr) (m : Memory N) : Option Nat := do
  match SortedAssoc.lookup (getKeyslice key) (N.flatten (← m.index index)) with
  | none => return key.length
  | some bnode =>
    let bn ← m.node bnode
    if _short : key.length ≤ keysliceLength then return 0
    else if BN_HasSuffix bn then return key.length
    else
      match BN_GetLink bn with
      | some subindex => copied (key.drop keysliceLength) subindex m
      | none => return (key.drop keysliceLength).length
termination_by key.length
decreasing_by exact length_getSuffix_lt (by omega)

end DeepDB.IndexString
