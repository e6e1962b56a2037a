import DeepDB.KV.Put

/-!
Runs of puts into a new store. While no put meets case 0.0.0, no key is empty and every copy has its
block, the store is the map of the puts, and it counts their keys.
-/

namespace DeepDB.KV
open SortedAssoc
open Trie (Key Ptr NULL keysliceLength Heap TrieOf sortedListTable HeldIn KeptIn heldIn_nil getKeyslice
  getSuffix addrOfTrie Bordernode Occurs Correct find findNode Runs lastValue runs_correct runs_ne_nil)
open Trie.BorderNode (map getPrefix)
open IndexString (UTIL_GetNextKeySlice)

variable {m m' : Memory} {key : KVKey} {value : Ptr} {n : Nat} {least below : Nat} {t : KVTrie}
  {inside : Ptr → Prop}

/-! ### Getting a key -/

theorem get_spec (correct : Correct (sortedListTable Ptr) least below t) (held : HeldIn m.heap t inside)
    (good : m.Good n) (hk : key.bytes ≠ []) : ∃ m',
      getValueOfPartialKey (addrOfTrie t) key m = some ((find key.bytes t).getD NULL, m') := by
  induction hn : key.len using Nat.strongRecOn generalizing key t m least with
  | ind l ih =>
    obtain ⟨addr, tableform, listform⟩ := t
    obtain ⟨entries, layer, -, looked⟩ := held_layer held correct
    obtain ⟨m1, moved, run⟩ := getValueOfPartialKey_layer good.valid layer key
    rw [addrOfTrie, run, looked, Trie.find_of]
    cases found : lookup (getKeyslice key.bytes) listform with
    | none => exact ⟨m1, rfl⟩
    | some e =>
      obtain ⟨a, bnode⟩ := e
      obtain ⟨bn, border, view⟩ := held_border held found
      have valid := good.nodes a bn border
      have suffix_eq : bn.view.suffix = bnode.suffix.map (Sum.map id addrOfTrie) := by
        rw [view]
        rfl
      simp only [Option.map_some, Option.bind_some, border]
      by_cases short : key.len ≤ keysliceLength
      · have pos : 0 < key.len := by
          rw [← length_bytes]
          exact List.length_pos_iff.mpr hk
        have short' : key.bytes.length ≤ keysliceLength := (length_bytes key).le.trans short
        refine ⟨m1, ?_⟩
        rw [if_pos short, getPrefixValue_eq valid pos short, Trie.findNode_short short', view,
          Trie.BorderNode.getPrefix_map, length_bytes]
        rfl
      have long := Nat.lt_of_not_le short
      have long' : keysliceLength < key.bytes.length := (length_bytes key).symm ▸ long
      rw [if_neg short, Trie.findNode_long long']
      unfold BN_HasSuffix BN_GetSuffixValue BN_GetLink
      cases hs : bnode.suffix with
      | none =>
        rw [hs, Option.map_none] at suffix_eq
        obtain ⟨noSuffix, null⟩ := suffix_none suffix_eq
        simp [noSuffix, null]
      | some rest =>
        cases rest with
        | inl pair =>
          obtain ⟨k, v⟩ := pair
          rw [hs, Option.map_some] at suffix_eq
          obtain ⟨suffix, link⟩ := suffix_pair suffix_eq
          refine ⟨m1, ?_⟩
          simp only [suffix, link, Option.isSome_some, if_true, IndexString.strEqual_eq, beq_iff_eq]
          by_cases same : key.bytes.drop keysliceLength = k
          · have same' : getSuffix key.bytes = k := same
            rw [if_pos same, if_pos same']
            rfl
          · have other : ¬getSuffix key.bytes = k := same
            rw [if_neg same, if_neg other]
            rfl
        | inr t =>
          rw [hs, Option.map_some] at suffix_eq
          obtain ⟨noSuffix, link, used⟩ := suffix_link suffix_eq
          have shorter : key.advance.len < l := hn ▸ Nat.sub_lt (Nat.zero_lt_of_lt long) (by decide)
          have sub : HeldIn m1.heap t inside := by
            rw [moved.heap]
            exact held.link found hs
          have rest : key.advance.bytes ≠ [] := by
            rw [advance_bytes]
            exact Trie.getSuffix_ne_nil long'
          obtain ⟨m', deeper⟩ := ih _ shorter ((correct.node found).link hs) sub (good.moved moved) rest rfl
          rw [advance_bytes] at deeper
          refine ⟨m', ?_⟩
          simp only [noSuffix, link, used, Option.isSome_none, Bool.false_eq_true, if_false, ne_eq,
            not_false_eq_true, if_true]
          exact deeper

/-- The empty key is refused by an assertion where the slice of zeros has a border node. -/
theorem get_empty (correct : Correct (sortedListTable Ptr) least below t)
    (held : HeldIn m.heap t inside) (good : m.Good n) (hk : key.bytes = []) :
    (∃ m', getValueOfPartialKey (addrOfTrie t) key m = some (NULL, m')) ↔
      m.border key.bytes (addrOfTrie t) = none := by
  obtain ⟨addr, tableform, listform⟩ := t
  obtain ⟨entries, layer, -, looked⟩ := held_layer held correct
  obtain ⟨m1, moved, run⟩ := getValueOfPartialKey_layer good.valid layer key
  have len : key.len = 0 := by rw [← length_bytes, hk, List.length_nil]
  rw [addrOfTrie, run, border_eq layer, looked]
  cases found : lookup (getKeyslice key.bytes) listform with
  | none => exact ⟨fun _ => rfl, fun _ => ⟨m1, rfl⟩⟩
  | some e =>
    obtain ⟨a, bnode⟩ := e
    obtain ⟨bn, border, -⟩ := held_border held found
    have refused : BN_GetPrefixValue bn key.len = none := by
      rw [len]
      rfl
    have short : key.len ≤ keysliceLength := by
      rw [len]
      exact Nat.zero_le _
    simp only [Option.map_some, Option.bind_some, border, if_pos short, refused, Option.map_none]
    constructor
    · rintro ⟨_, here⟩
      cases here
    · intro here
      cases here

/-! ### Runs -/

/-- The puts with the bytes that their keys had. -/
def bytesOf (log : List (KVKey × Ptr)) : List (Key × Ptr) := log.map fun e => (e.1.bytes, e.2)

/-- Put by put, the key is not empty and what has to fit does. -/
def AllFit : List (KVKey × Ptr) → KVStore → Memory → Prop
  | [], _, _ => True
  | (key, value) :: log, kvStore, m =>
    key.bytes ≠ [] ∧ PutFits m kvStore.rootNode key.bytes ∧
      ∀ kvStore' key' m', KV_Put kvStore key value m = some (kvStore', key', m') →
        AllFit log kvStore' m'

/-- What holds of the store after the puts of a log. -/
structure Inv (m : Memory) (kvStore : KVStore) (log : List (Key × Ptr)) (t : KVTrie) : Prop where
  good : m.Good kvStore.numKeys
  held : HeldIn m.heap t (fun p => p < m.next)
  addr : addrOfTrie t = kvStore.rootNode
  runs : Runs (sortedListTable Ptr) log t
  count : kvStore.numKeys = (log.map Prod.fst).toFinset.card

theorem lastValue_eq_none {k : Key} {log : List (Key × Ptr)} :
    lastValue k log = none ↔ k ∉ log.map Prod.fst := by
  constructor
  · intro nothing mem
    obtain ⟨v, last⟩ := Trie.lastValue_isSome mem
    rw [nothing] at last
    cases last
  · intro absent
    cases last : lastValue k log with
    | none => rfl
    | some v => exact absurd (Trie.lastValue_mem last) absent

theorem inv_new : ∃ kvStore m, KV_NewKVStore .empty = some (kvStore, m) ∧
    Inv m kvStore [] (.of kvStore.rootNode [] []) := by
  obtain ⟨m, made, valid, layers, borders, next⟩ := newKVStore_spec Reachable.start.valid
  have layer : m.layer Memory.empty.next = some [] := by
    rw [layers, Function.update_self]
  refine ⟨⟨Memory.empty.next, 0⟩, m, made, ⟨valid, ?_, ?_, ?_⟩, ?_, rfl, .empty ⟨rfl, rfl⟩, rfl⟩
  · intro p bn here
    rw [borders] at here
    cases here
  · rw [next]
    exact Nat.succ_pos _
  · intro p entries here
    rw [layers, Function.update_apply] at here
    split at here
    · cases here
      exact Nat.le_refl _
    · cases here
  · refine (heldIn_nil (heap_index layer)).mono fun p here => ?_
    rw [here, next]
    exact Nat.lt_succ_self _

theorem inv_put {kvStore : KVStore} {log : List (Key × Ptr)} (inv : Inv m kvStore log t)
    (hk : key.bytes ≠ []) (hv : value ≠ NULL) (fits : PutFits m kvStore.rootNode key.bytes)
    (few : ((log ++ [(key.bytes, value)]).map Prod.fst).toFinset.card < 2 ^ 61) :
    ∃ kvStore' key' m' t', KV_Put kvStore key value m = some (kvStore', key', m') ∧
      Inv m' kvStore' (log ++ [(key.bytes, value)]) t' := by
  obtain ⟨correct, holds⟩ := runs_correct inv.runs
  have new_iff : find key.bytes t = none ↔ key.bytes ∉ (log.map Prod.fst).toFinset := by
    rw [List.mem_toFinset, ← lastValue_eq_none]
    exact Iff.of_eq (congrArg (· = none) (holds key.bytes))
  have card : ((log ++ [(key.bytes, value)]).map Prod.fst).toFinset.card
      = if find key.bytes t = none then kvStore.numKeys + 1 else kvStore.numKeys := by
    rw [List.map_append, List.toFinset_append, List.map_singleton, List.toFinset_cons,
      List.toFinset_nil, insert_empty_eq, Finset.union_singleton, inv.count]
    by_cases new : find key.bytes t = none
    · rw [if_pos new, Finset.card_insert_of_notMem (new_iff.mp new)]
    · rw [if_neg new, Finset.insert_eq_of_mem (not_not.mp fun other => new (new_iff.mpr other))]
  obtain ⟨w, m', c', t', loop, putRel, addr, num, good, kept, held⟩ := put_spec correct inv.held inv.good
    hk hv (inv.addr ▸ fits) (fun new => by rwa [card, if_pos new] at few) _ (Nat.le_refl _)
  refine ⟨{ kvStore with numKeys := w.numKeys }, w.key, m', t', ?_, good, held.mono ?_,
    addr.trans inv.addr, inv.runs.put hk putRel, num.trans card.symm⟩
  · unfold KV_Put
    rw [← inv.addr, loop]
    simp [hv]
  · rintro p (old | new)
    · exact Nat.lt_of_lt_of_le (inv.held.occurs p old) kept.next
    · exact new.2

/-- A run of puts that fit ends in the invariant. -/
theorem putAll_inv {kvStore : KVStore} {log : List (KVKey × Ptr)} {done : List (Key × Ptr)}
    (inv : Inv m kvStore done t) (values : ∀ e ∈ log, e.2 ≠ NULL) (fit : AllFit log kvStore m)
    (few : ((done ++ bytesOf log).map Prod.fst).toFinset.card < 2 ^ 61) :
    ∃ kvStore' m' t', putAll log kvStore m = some (kvStore', m') ∧
      Inv m' kvStore' (done ++ bytesOf log) t' := by
  induction log generalizing kvStore m done t with
  | nil => exact ⟨kvStore, m, t, rfl, by rwa [bytesOf, List.map_nil, List.append_nil]⟩
  | cons e log ih =>
    obtain ⟨key, value⟩ := e
    obtain ⟨hk, fits, later⟩ := fit
    have split : done ++ bytesOf ((key, value) :: log)
        = (done ++ [(key.bytes, value)]) ++ bytesOf log := by
      rw [List.append_assoc]
      rfl
    rw [split] at few ⊢
    have fewer : ((done ++ [(key.bytes, value)]).map Prod.fst).toFinset.card < 2 ^ 61 := by
      refine Nat.lt_of_le_of_lt (Finset.card_le_card ?_) few
      intro k mem
      rw [List.mem_toFinset] at mem ⊢
      rw [List.map_append]
      exact List.mem_append_left _ mem
    obtain ⟨kvStore1, key1, m1, t1, run, inv1⟩ := inv_put inv hk (values _ List.mem_cons_self) fits fewer
    obtain ⟨kvStore', m', t', runs, inv'⟩ := ih inv1 (fun e mem => values e (List.mem_cons_of_mem _ mem))
      (later _ _ _ run) few
    refine ⟨kvStore', m', t', ?_, inv'⟩
    rw [putAll, run]
    exact runs

/-- `KV_Get` returns the value of the last put of a key with the same bytes, or `NULL`. -/
def Gets (kvStore : KVStore) (m : Memory) (log : List (KVKey × Ptr)) (k : KVKey) : Prop :=
  ∃ m', KV_Get kvStore k m = some ((lastValue k.bytes (bytesOf log)).getD NULL, m')

/-- Every run of puts that fit leaves the map of the puts, which every key reads unless it is empty
and the slice of zeros is in use. -/
theorem store_map (log : List (KVKey × Ptr)) (values : ∀ e ∈ log, e.2 ≠ NULL)
    (few : ((bytesOf log).map Prod.fst).toFinset.card < 2 ^ 61) {kvStore0 : KVStore} {m0 : Memory}
    (made : KV_NewKVStore .empty = some (kvStore0, m0)) (fit : AllFit log kvStore0 m0) :
    ∃ kvStore m, putAll log kvStore0 m0 = some (kvStore, m) ∧
      KV_NumKeys kvStore = ((bytesOf log).map Prod.fst).toFinset.card ∧
      ∀ k, Gets kvStore m log k ↔ k.len ≠ 0 ∨ m.border k.bytes kvStore.rootNode = none := by
  obtain ⟨kvStore1, m1, made1, inv⟩ := inv_new
  rw [made] at made1
  cases made1
  obtain ⟨kvStore, m, t, run, inv⟩ := putAll_inv inv values fit few
  rw [List.nil_append] at inv
  refine ⟨kvStore, m, run, inv.count, fun k => ?_⟩
  obtain ⟨correct, holds⟩ := runs_correct inv.runs
  have value : lastValue k.bytes (bytesOf log) = find k.bytes t := (holds k.bytes).symm
  unfold Gets KV_Get
  rw [← inv.addr]
  by_cases hk : k.bytes = []
  · have len : k.len = 0 := by rw [← length_bytes, hk, List.length_nil]
    have nothing : lastValue k.bytes (bytesOf log) = none := by
      rw [hk, lastValue_eq_none]
      exact runs_ne_nil inv.runs
    rw [nothing, Option.getD_none, get_empty correct inv.held inv.good hk]
    exact ⟨.inr, fun h => h.resolve_left (not_not.mpr len)⟩
  · have len : k.len ≠ 0 := by
      rw [← length_bytes]
      exact fun zero => hk (List.length_eq_zero_iff.mp zero)
    obtain ⟨m', get⟩ := get_spec correct inv.held inv.good hk
    rw [value]
    exact ⟨fun _ => .inl len, fun _ => ⟨m', get⟩⟩

/-- Two keys with the same first eight bytes, put with the values 5 and 6. -/
def apartLog : List (KVKey × Ptr) :=
  [(KV_MoveKey (List.replicate 17 7), 5), (KV_MoveKey (List.replicate 8 7 ++ [8]), 6)]

theorem store_map_two : ∃ kvStore m, (KV_NewKVStore .empty >>= fun s => putAll apartLog s.1 s.2)
    = some (kvStore, m) ∧ KV_NumKeys kvStore = ((bytesOf apartLog).map Prod.fst).toFinset.card ∧
      ∀ k, Gets kvStore m apartLog k ↔ k.len ≠ 0 ∨ m.border k.bytes kvStore.rootNode = none := by
  obtain ⟨kvStore0, m0, made, inv⟩ := inv_new
  rw [made]
  have new : (KV_NewKVStore .empty).map (fun s => (s.2.border (List.replicate 17 7) s.1.rootNode).isNone)
      = some true := by decide +kernel
  rw [made, Option.map_some, Option.some_inj, Option.isNone_iff_eq_none] at new
  have second : ((KV_NewKVStore .empty).bind fun s =>
      (KV_Put s.1 (KV_MoveKey (List.replicate 17 7)) 5 s.2).map fun s =>
        (s.2.2.border (List.replicate 8 7 ++ [8]) s.1.rootNode).map (·.keySuffix))
      = some (some (some (List.replicate 9 7))) := by decide +kernel
  rw [made, Option.bind_some] at second
  refine store_map apartLog (by decide) (by decide) made ⟨by decide, ?_, ?_⟩
  · change PutFits m0 kvStore0.rootNode (List.replicate 17 7)
    rw [PutFits, new]
    exact (by decide : (List.drop keysliceLength (List.replicate 17 7)).length < 2 ^ 32)
  intro kvStore1 key1 m1 run
  refine ⟨by decide, ?_, fun _ _ _ _ => trivial⟩
  rw [run, Option.map_some, Option.some_inj, Option.map_eq_some_iff] at second
  obtain ⟨bn, border, suffix⟩ := second
  change PutFits m1 kvStore1.rootNode (List.replicate 8 7 ++ [8])
  rw [putFits_found border (by decide), suffix]
  refine .inr ?_
  rw [PairFits, if_neg (by decide)]
  decide

/-- The value of a key after the puts of `log` into a new store. -/
def valueAfter (log : List (KVKey × Ptr)) (key : KVKey) : Option Ptr := do
  let (kvStore, m) ← KV_NewKVStore .empty
  let (kvStore, m) ← putAll log kvStore m
  let (value, _) ← KV_Get kvStore key m
  return value

/-- A key of 17 bytes is lost when its first 16 bytes are put as a key, whose value is lost. -/
theorem put_loses_key : ¬∀ (log : List (KVKey × Ptr)) (kvStore0 kvStore : KVStore) (m0 m : Memory),
    (∀ e ∈ log, e.2 ≠ NULL) → KV_NewKVStore .empty = some (kvStore0, m0) →
      putAll log kvStore0 m0 = some (kvStore, m) →
        KV_NumKeys kvStore = ((bytesOf log).map Prod.fst).toFinset.card ∧
          ∀ k, Gets kvStore m log k := by
  intro all
  have read : valueAfter [(KV_MoveKey (List.replicate 17 7), 5), (KV_MoveKey (List.replicate 16 7), 6)]
      (KV_MoveKey (List.replicate 17 7)) = some NULL := by decide +kernel
  unfold valueAfter at read
  obtain ⟨⟨kvStore0, m0⟩, made, read⟩ := Option.bind_eq_some_iff.mp read
  obtain ⟨⟨kvStore, m⟩, runs, read⟩ := Option.bind_eq_some_iff.mp read
  obtain ⟨⟨value, m'⟩, get, read⟩ := Option.bind_eq_some_iff.mp read
  cases read
  obtain ⟨-, gets⟩ := all _ kvStore0 kvStore m0 m (by decide) made runs
  obtain ⟨m'', other⟩ := gets (KV_MoveKey (List.replicate 17 7))
  rw [get] at other
  have last : lastValue (KV_MoveKey (List.replicate 17 7)).bytes
      (bytesOf [(KV_MoveKey (List.replicate 17 7), 5), (KV_MoveKey (List.replicate 16 7), 6)])
      = some 5 := by decide +kernel
  rw [last] at other
  cases other

end DeepDB.KV
