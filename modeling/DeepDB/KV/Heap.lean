import DeepDB.KV.Node
import DeepDB.Trie.Held
import DeepDB.Trie.Runs

/-!
The memory of the key-value store as a heap of the functional trie: the layers by their slices, and
what the border nodes show. What the functions write is written to the heap.
-/

namespace DeepDB.KV
open SortedAssoc
open Trie (Key Ptr NULL keysliceLength Heap TrieOf sortedListTable HeldIn KeptIn getKeyslice Correct
  addrOfTrie Bordernode)
open Trie.BorderNode (empty map putValue putLink)
open IndexString (UTIL_GetNextKeySlice)

/-- Tries over the sorted list of a layer. -/
abbrev KVTrie := Trie.Trienode (List (Int × Ptr)) Ptr Ptr

variable {m m' : Memory} {node a addr : Ptr} {key : KVKey} {value : Ptr} {bn : BorderNode} {n n' : Nat}
  {entries : List (Nat × Ptr)} {tableform : List (Int × Ptr)}
  {listform : List (Int × (Ptr × Bordernode Ptr KVTrie))} {bnode : Bordernode Ptr KVTrie}

/-! ### Layers -/

def widen (entries : List (Nat × Ptr)) : List (Int × Ptr) := entries.map fun e => ((e.1 : Int), e.2)

theorem lookup_widen (k : Key) (entries : List (Nat × Ptr)) :
    lookup (getKeyslice k) (widen entries) = lookup (UTIL_GetNextKeySlice k).toNat entries := by
  rw [← IndexString.getNextKeySlice_eq]
  exact lookup_mapKeys Int.natCast_strictMono _ _

theorem put_widen (k : Key) (p : Ptr) (entries : List (Nat × Ptr)) :
    widen (put (UTIL_GetNextKeySlice k).toNat p entries) = put (getKeyslice k) p (widen entries) := by
  rw [← IndexString.getNextKeySlice_eq]
  exact put_mapKeys Int.natCast_strictMono _ _ _

def Memory.heap (m : Memory) : Heap (List (Int × Ptr)) :=
  ⟨fun p => (m.layer p).map widen, fun p => (m.borderNode p).map BorderNode.view⟩

theorem heap_index (layer : m.layer node = some entries) : m.heap.index node = some (widen entries) := by
  unfold Memory.heap
  simp only [layer, Option.map_some]

theorem heap_node (border : m.borderNode a = some bn) : m.heap.node a = some bn.view := by
  unfold Memory.heap
  simp only [border, Option.map_some]

theorem Moved.heap (moved : Moved m m') : m'.heap = m.heap := by
  unfold Memory.heap
  rw [moved.layer, moved.borderNode]

/-- What is written when one layer and one border node are. -/
theorem keptIn_of {old : Ptr → Prop} (next : n ≤ n')
    (layers : ∀ q, q < n → ¬old q → m'.layer q = m.layer q)
    (borders : ∀ q, q < n → ¬old q → m'.borderNode q = m.borderNode q) :
    KeptIn m.heap m'.heap n n' old where
  next := next
  frame := fun q below apart => by
    unfold Memory.heap
    simp only [layers q below apart, borders q below apart, and_self]

/-! ### The trie of the memory -/

/-- What holds between two puts, with at most `n` slices in a layer. -/
structure Memory.Good (m : Memory) (n : Nat) : Prop where
  valid : m.Valid
  nodes : ∀ p bn, m.borderNode p = some bn → bn.Valid
  next : NULL < m.next
  small : ∀ p entries, m.layer p = some entries → entries.length ≤ n

theorem Memory.Good.mono (good : m.Good n) (le : n ≤ n') : m.Good n' :=
  ⟨good.valid, good.nodes, good.next, fun p entries layer => (good.small p entries layer).trans le⟩

theorem Memory.Good.moved (good : m.Good n) (moved : Moved m m') : m'.Good n where
  valid := moved.valid
  nodes := by
    rw [moved.borderNode]
    exact good.nodes
  next := by
    rw [moved.next]
    exact good.next
  small := by
    rw [moved.layer]
    exact good.small

theorem Memory.Good.setBorderNode (good : m.Good n) (valid : bn.Valid) :
    (m.setBorderNode a bn).Good n where
  valid := good.valid
  nodes := fun p bn' here => by
    unfold Memory.setBorderNode at here
    simp only at here
    split at here
    · cases here
      exact valid
    · exact good.nodes p bn' here
  next := good.next
  small := good.small

/-- A memory in which one layer is written and one border node. -/
theorem Memory.Good.written (good : m.Good n) (le : n ≤ n') (valid' : m'.Valid)
    (layers : m'.layer = Function.update m.layer node (some entries)) (few : entries.length ≤ n')
    (borders : m'.borderNode = Function.update m.borderNode a (some bn)) (valid : bn.Valid)
    (next : m.next ≤ m'.next) : m'.Good n' where
  valid := valid'
  nodes := fun p bn' here => by
    rw [borders, Function.update_apply] at here
    split at here
    · cases here
      exact valid
    · exact good.nodes p bn' here
  next := Nat.lt_of_lt_of_le good.next next
  small := fun p entries' layer => by
    rw [layers, Function.update_apply] at layer
    split at layer
    · cases layer
      exact few
    · exact (good.small p entries' layer).trans le

/-- The layer of a trie's root. -/
theorem held_layer {inside : Ptr → Prop} {least below : Nat}
    (held : HeldIn m.heap (.of addr tableform listform : KVTrie) inside)
    (correct : Correct (sortedListTable Ptr) least below (.of addr tableform listform)) :
    ∃ entries, m.layer addr = some entries ∧ widen entries = tableform ∧
      ∀ k : Key, lookup (UTIL_GetNextKeySlice k).toNat entries
        = (lookup (getKeyslice k) listform).map Prod.fst := by
  obtain ⟨entries, layer, wide⟩ := Option.map_eq_some_iff.mp held.index
  refine ⟨entries, layer, wide, fun k => ?_⟩
  have same : tableform = listform.map fun e => (e.1, e.2.1) := correct.entries
  rw [← lookup_widen, wide, same]
  exact lookup_map (fun x : Ptr × Bordernode Ptr KVTrie => x.1) _ _

theorem held_border {inside : Ptr → Prop} {s : Int}
    (held : HeldIn m.heap (.of addr tableform listform : KVTrie) inside)
    (found : lookup s listform = some (a, bnode)) :
    ∃ bn, m.borderNode a = some bn ∧ bn.view = map addrOfTrie bnode :=
  Option.map_eq_some_iff.mp (held.node found)

/-- A new border node with the value of a key. -/
theorem putNew_good (good : m.Good n) (le : n ≤ n') (layer : m.layer node = some entries)
    (hk : key.bytes ≠ []) (fits : (key.bytes.drop keysliceLength).length < 2 ^ 32) (hv : value ≠ NULL)
    (room : entries.length + 1 ≤ n') (few : entries.length + 1 < 2 ^ 61) :
    ∃ m' bn, putNew node (UTIL_GetNextKeySlice key.bytes) key value m = some m' ∧ m'.Good n' ∧
      m'.layer = Function.update m.layer node
        (some (put (UTIL_GetNextKeySlice key.bytes).toNat m.next entries)) ∧
      m'.borderNode = Function.update m.borderNode m.next (some bn) ∧ m'.next = m.next + 1 ∧
      bn.view = map addrOfTrie (putValue key.bytes value (empty : Bordernode Ptr KVTrie)) ∧
      BN_SetValue BN_NewBorderNode key value = some bn := by
  obtain ⟨bn, set, valid, view⟩ := view_setValue valid_new hk fits hv
  rw [view_new, ← Trie.BorderNode.map_empty addrOfTrie, ← Trie.BorderNode.map_putValue] at view
  have length := length_put_le (UTIL_GetNextKeySlice key.bytes).toNat m.next entries
  rcases putNew_spec (UTIL_GetNextKeySlice key.bytes) good.valid layer set with
    ⟨m', run, valid', layers, borders, next⟩ | ⟨-, many⟩
  · refine ⟨m', bn, run, ?_, layers, borders, next, view, set⟩
    exact good.written le valid' layers (length.trans room) borders valid (next ▸ Nat.le_succ _)
  · omega

/-- The border node of a value has no layer under it. -/
theorem putValue_noLink {b : Bordernode Ptr KVTrie} {k : Key} {t : KVTrie}
    (link : (putValue k value b).suffix = some (.inr t)) : b.suffix = some (.inr t) := by
  unfold putValue at link
  split at link
  · rwa [Trie.BorderNode.putPrefix_suffix] at link
  · cases link

end DeepDB.KV
