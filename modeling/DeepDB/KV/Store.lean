import DeepDB.Library.Contents
import DeepDB.Trie.Util

/-!
The key-value store, `src/btrees_and_tries/kvstore.c`, with its border nodes, `bordernode.c`. A node of
the trie keeps a relation and one cursor on it, and a border node has a place for the value of each
length. A string is a value here, with the block that is allocated for its copy: `surely_malloc` takes
an `unsigned int`, and a copy that runs over the end of its block has no result, nor has a failed
`assert`. Freeing is left out.
-/

namespace DeepDB.KV
open Trie (Key keysliceLength Ptr NULL)
open BTree (Relation Cursor)
open IndexString (copyLoop surely_malloc UTIL_StrEqual)
open Util (UTIL_GetNextKeySlice)
open Library (RL_NewRelation RL_NewCursor RL_MoveToKey RL_GetRecord RL_PutRecord)

/-! ### Keys -/

/-- A key object: `str` is what stands in the array from the pointer on. -/
structure KVKey where
  str : Key
  len : Nat
  inside : len ≤ str.length

def KVKey.bytes (key : KVKey) : Key := key.str.take key.len

/-- `key->str += KEY_SLICE_LENGTH` and `key->len -= KEY_SLICE_LENGTH`. -/
def KVKey.advance (key : KVKey) : KVKey where
  str := key.str.drop keysliceLength
  len := key.len - keysliceLength
  inside := by
    have := key.inside
    rw [List.length_drop]
    omega

def KV_MoveKey (str : Key) : KVKey := ⟨str, str.length, Nat.le_refl _⟩

/-- The slice both functions look for, `UTIL_GetNextKeySlice(str, UTIL_Min(KEY_SLICE_LENGTH, len))`. -/
def KVKey.slice (key : KVKey) : Option UInt64 :=
  UTIL_GetNextKeySlice key.str (min keysliceLength key.len)

/-! ### Border nodes -/

def MAX_BN_SIZE : Nat := keysliceLength

structure BorderNode where
  prefixLinks : List Ptr
  suffixLink : Ptr
  /-- `keySuffix` with `keySuffixLength`, `NULL` as `none`. -/
  keySuffix : Option Key

def BN_NewBorderNode : BorderNode := ⟨List.replicate MAX_BN_SIZE NULL, NULL, none⟩

def BN_SetPrefixValue (bn : BorderNode) (i : Nat) (val : Ptr) : Option BorderNode := do
  guard (i > 0)
  guard (i ≤ MAX_BN_SIZE)
  return { bn with prefixLinks := bn.prefixLinks.set (i - 1) val }

def BN_GetPrefixValue (bn : BorderNode) (i : Nat) : Option Ptr := do
  guard (i > 0)
  guard (i ≤ MAX_BN_SIZE)
  bn.prefixLinks[i - 1]?

def BN_SetSuffixValue (bn : BorderNode) (suffix : Key) (val : Ptr) : Option BorderNode := do
  let keySuffix ← copyLoop suffix (surely_malloc suffix.length)
  return { bn with keySuffix := some keySuffix, suffixLink := val }

def BN_TestSuffix (bn : BorderNode) (key : KVKey) : Bool :=
  match bn.keySuffix with
  | some suffix => UTIL_StrEqual (key.bytes.drop keysliceLength) suffix
  | none => false

def BN_GetSuffixValue (bn : BorderNode) (suf : Key) : Ptr :=
  match bn.keySuffix with
  | some suffix => if UTIL_StrEqual suf suffix then bn.suffixLink else NULL
  | none => NULL

/-- The suffix is moved out of the node: what it writes to `*key`, its result and the node. -/
def BN_ExportSuffixValue (bn : BorderNode) : Option KVKey × Ptr × BorderNode :=
  (bn.keySuffix.map KV_MoveKey, bn.suffixLink, { bn with keySuffix := none, suffixLink := NULL })

def BN_SetLink (bn : BorderNode) (val : Ptr) : BorderNode :=
  { bn with keySuffix := none, suffixLink := val }

def BN_GetLink (bn : BorderNode) : Ptr := if bn.keySuffix.isSome then NULL else bn.suffixLink

def BN_HasSuffix (bn : BorderNode) : Bool := bn.keySuffix.isSome

def BN_SetValue (bn : BorderNode) (key : KVKey) (val : Ptr) : Option BorderNode :=
  if key.len > keysliceLength then BN_SetSuffixValue bn (key.bytes.drop keysliceLength) val
  else BN_SetPrefixValue bn key.len val

/-! ### Memory -/

structure KVNode where
  tree : Relation Ptr
  cursor : Cursor

structure KVStore where
  rootNode : Ptr
  numKeys : Nat

structure Memory where
  kvNode : Ptr → Option KVNode
  borderNode : Ptr → Option BorderNode
  /-- The next address that is handed out. -/
  next : Ptr

def Memory.empty : Memory := ⟨fun _ => none, fun _ => none, 1⟩

def Memory.setKVNode (m : Memory) (p : Ptr) (node : KVNode) : Memory :=
  { m with kvNode := fun q => if q = p then some node else m.kvNode q }

def Memory.setBorderNode (m : Memory) (p : Ptr) (bn : BorderNode) : Memory :=
  { m with borderNode := fun q => if q = p then some bn else m.borderNode q }

def newBorderNode (m : Memory) (bn : BorderNode) : Ptr × Memory :=
  (m.next, { m.setBorderNode m.next bn with next := m.next + 1 })

def newKVNode (m : Memory) : Option (Ptr × Memory) := do
  let tree : Relation Ptr := RL_NewRelation
  let cursor ← RL_NewCursor tree
  return (m.next, { m.setKVNode m.next ⟨tree, cursor⟩ with next := m.next + 1 })

def KV_NewKVStore (m : Memory) : Option (KVStore × Memory) := do
  let (root, m) ← newKVNode m
  return (⟨root, 0⟩, m)

/-- `RL_MoveToKey` with the cursor of a node. -/
def moveToKey (node : Ptr) (keySlice : UInt64) (m : Memory) : Option (Bool × Memory) := do
  let n ← m.kvNode node
  let (cursor, found) ← RL_MoveToKey n.tree n.cursor keySlice.toNat
  return (found, m.setKVNode node { n with cursor })

def getRecord (node : Ptr) (m : Memory) : Option (Ptr × Memory) := do
  let n ← m.kvNode node
  let (cursor, record) ← RL_GetRecord n.tree n.cursor
  return (record, m.setKVNode node { n with cursor })

def putRecord (node : Ptr) (keySlice : UInt64) (record : Ptr) (m : Memory) : Option Memory := do
  let n ← m.kvNode node
  let (tree, cursor) ← RL_PutRecord n.tree n.cursor keySlice.toNat record
  return m.setKVNode node ⟨tree, cursor⟩

/-- A new border node with the value of the key is put under the slice. -/
def putNew (node : Ptr) (keySlice : UInt64) (key : KVKey) (value : Ptr) (m : Memory) :
    Option Memory := do
  let bn ← BN_SetValue BN_NewBorderNode key value
  let (borderNode, m) := newBorderNode m bn
  putRecord node keySlice borderNode m

/-! ### Putting a key -/

/-- The variables of the loop of `KV_Put`, `sndKey` and `sndValue` as `snd`. -/
structure Walk where
  currNode : Ptr
  key : KVKey
  snd : Option (KVKey × Ptr)
  numKeys : Nat

/-- Case 0. The result says if the put is completed; in case 0.0.0 the source sets both values with
`key`. -/
def putPair (value : Ptr) (nextKeySlice : UInt64) (sndKey : KVKey) (sndValue : Ptr) (w : Walk)
    (m : Memory) : Option (Bool × Walk × Memory) := do
  let sndKeySlice ← sndKey.slice
  if nextKeySlice = sndKeySlice then
    if w.key.len ≤ keysliceLength ∨ sndKey.len ≤ keysliceLength then
      let bn ← BN_SetValue BN_NewBorderNode w.key value
      let bn ← BN_SetValue bn w.key sndValue
      let (borderNode, m) := newBorderNode m bn
      let m ← putRecord w.currNode nextKeySlice borderNode m
      return (true, { w with numKeys := w.numKeys + 1 }, m)
    else
      let (link, m) ← newKVNode m
      let (borderNode, m) := newBorderNode m (BN_SetLink BN_NewBorderNode link)
      let m ← putRecord w.currNode nextKeySlice borderNode m
      return (false, { w with currNode := link, key := w.key.advance,
                              snd := some (sndKey.advance, sndValue) }, m)
  else
    let m ← putNew w.currNode nextKeySlice w.key value m
    let m ← putNew w.currNode sndKeySlice sndKey sndValue m
    return (true, { w with numKeys := w.numKeys + 1 }, m)

/-- Case 1.1, with the border node of the slice. -/
def putFound (value : Ptr) (borderNode : Ptr) (bn : BorderNode) (w : Walk) (m : Memory) :
    Option (Bool × Walk × Memory) := do
  if w.key.len ≤ keysliceLength then
    let old ← BN_GetPrefixValue bn w.key.len
    let bn ← BN_SetPrefixValue bn w.key.len value
    let numKeys := if old = NULL then w.numKeys + 1 else w.numKeys
    return (true, { w with numKeys }, m.setBorderNode borderNode bn)
  else if BN_HasSuffix bn then
    if BN_TestSuffix bn w.key then
      let bn ← BN_SetSuffixValue bn (w.key.bytes.drop keysliceLength) value
      return (true, w, m.setBorderNode borderNode bn)
    else
      let (sndKey, sndValue, bn) := BN_ExportSuffixValue bn
      let (link, m) ← newKVNode m
      return (false, { w with currNode := link, key := w.key.advance,
                              snd := sndKey.map fun sndKey => (sndKey, sndValue) },
        m.setBorderNode borderNode (BN_SetLink bn link))
  else if BN_GetLink bn ≠ NULL then
    return (false, { w with currNode := BN_GetLink bn, key := w.key.advance }, m)
  else
    let bn ← BN_SetSuffixValue bn (w.key.bytes.drop keysliceLength) value
    return (true, { w with numKeys := w.numKeys + 1 }, m.setBorderNode borderNode bn)

/-- Case 1. A slice that is not in the relation does not complete the put. -/
def putSearch (value : Ptr) (nextKeySlice : UInt64) (w : Walk) (m : Memory) :
    Option (Bool × Walk × Memory) := do
  let (btreeStatus, m) ← moveToKey w.currNode nextKeySlice m
  if btreeStatus then
    let (borderNode, m) ← getRecord w.currNode m
    putFound value borderNode (← m.borderNode borderNode) w m
  else
    let m ← putNew w.currNode nextKeySlice w.key value m
    return (false, { w with numKeys := w.numKeys + 1 }, m)

def putRound (value : Ptr) (w : Walk) (m : Memory) : Option (Bool × Walk × Memory) := do
  let nextKeySlice ← w.key.slice
  match w.snd with
  | some (sndKey, sndValue) => putPair value nextKeySlice sndKey sndValue w m
  | none => putSearch value nextKeySlice w m

def putLoop (value : Ptr) : Nat → Walk → Memory → Option (Walk × Memory)
  | 0, _, _ => none
  | rounds + 1, w, m => do
    let (putCompleted, w, m) ← putRound value w m
    if putCompleted then return (w, m) else putLoop value rounds w m

/-- The store, the caller's key object and the memory after the call. The loop needs a round for each
slice of the key and one more. -/
def KV_Put (kvStore : KVStore) (key : KVKey) (value : Ptr) (m : Memory) :
    Option (KVStore × KVKey × Memory) := do
  guard (value ≠ NULL)
  let (w, m) ← putLoop value (key.len + 2) ⟨kvStore.rootNode, key, none, kvStore.numKeys⟩ m
  return ({ kvStore with numKeys := w.numKeys }, w.key, m)

/-- The puts of a client, with a key object each. -/
def putAll : List (KVKey × Ptr) → KVStore → Memory → Option (KVStore × Memory)
  | [], kvStore, m => some (kvStore, m)
  | (key, value) :: log, kvStore, m => do
    let (kvStore, _, m) ← KV_Put kvStore key value m
    putAll log kvStore m

/-! ### Getting a key -/

/-- The value, or `NULL`, and the memory, in which cursors have moved. -/
def getValueOfPartialKey (node : Ptr) (partialKey : KVKey) (m : Memory) : Option (Ptr × Memory) := do
  let keySlice ← partialKey.slice
  let (btreeStatus, m) ← moveToKey node keySlice m
  if btreeStatus then
    let (borderNode, m) ← getRecord node m
    let bn ← m.borderNode borderNode
    if _short : partialKey.len ≤ keysliceLength then
      return (← BN_GetPrefixValue bn partialKey.len, m)
    else if BN_HasSuffix bn then
      return (BN_GetSuffixValue bn (partialKey.bytes.drop keysliceLength), m)
    else if BN_GetLink bn ≠ NULL then
      getValueOfPartialKey (BN_GetLink bn) partialKey.advance m
    else return (NULL, m)
  else return (NULL, m)
termination_by partialKey.len
decreasing_by
  have pos : 0 < keysliceLength := by decide
  unfold KVKey.advance
  simp only
  omega

def KV_Get (kvStore : KVStore) (key : KVKey) (m : Memory) : Option (Ptr × Memory) :=
  getValueOfPartialKey kvStore.rootNode key m

def KV_NumKeys (kvStore : KVStore) : Nat := kvStore.numKeys

end DeepDB.KV
