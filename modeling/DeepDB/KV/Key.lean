import DeepDB.KV.Memory

/-!
What `KV_Put` does to its caller's key. Every way down into another layer moves the pointer of the key
object and shortens its length, and nothing moves them back; so the key is what it was exactly when
the put is completed in the root layer.
-/

namespace DeepDB.KV
open SortedAssoc
open Trie (Key keysliceLength Ptr NULL)

variable {m m' : Memory} {w w' : Walk} {key : KVKey} {value p : Ptr} {bn : BorderNode} {done : Bool}

/-! ### Slices of key objects -/

theorem takeLoop_take {str : Key} {n len : Nat} (inside : n ≤ len) (res : UInt64) :
    Util.takeLoop n (str.take len) res = Util.takeLoop n str res := by
  induction n generalizing str len res with
  | zero => rfl
  | succ n ih =>
    obtain ⟨len, rfl⟩ : ∃ l, len = l + 1 := ⟨len - 1, by omega⟩
    cases str with
    | nil => rfl
    | cons ch str =>
      rw [List.take_succ_cons, Util.takeLoop, Util.takeLoop]
      exact ih (by omega) _

@[simp] theorem length_bytes (key : KVKey) : key.bytes.length = key.len := by
  unfold KVKey.bytes
  rw [List.length_take, Nat.min_eq_left key.inside]

@[simp] theorem advance_bytes (key : KVKey) : key.advance.bytes = key.bytes.drop keysliceLength := by
  unfold KVKey.advance KVKey.bytes
  simp only
  rw [List.drop_take]

theorem slice_eq (key : KVKey) : key.slice = some (IndexString.UTIL_GetNextKeySlice key.bytes) := by
  rw [← Util.getNextKeySlice_eq, length_bytes]
  unfold KVKey.slice Util.UTIL_GetNextKeySlice KVKey.bytes
  rw [takeLoop_take (Nat.min_le_right _ _)]

/-- The border node of a key's next slice. -/
def Memory.border (m : Memory) (key : Key) (node : Ptr) : Option BorderNode := do
  let entries ← m.layer node
  m.borderNode (← lookup (IndexString.UTIL_GetNextKeySlice key).toNat entries)

/-! ### Rounds -/

/-- The border node sends the key on into another layer. -/
def GoesDown (bn : BorderNode) (key : KVKey) : Prop :=
  keysliceLength < key.len ∧
    (BN_HasSuffix bn = true ∧ BN_TestSuffix bn key = false ∨ BN_GetLink bn ≠ NULL)

instance (bn : BorderNode) (key : KVKey) : Decidable (GoesDown bn key) :=
  inferInstanceAs (Decidable (_ ∧ _))

theorem putFound_key (h : putFound value p bn w m = some (done, w', m')) :
    done = true ∧ w'.key = w.key ∧ ¬GoesDown bn w.key ∨
      done = false ∧ w'.key = w.key.advance ∧ GoesDown bn w.key := by
  unfold putFound at h
  by_cases short : w.key.len ≤ keysliceLength
  · rw [if_pos short] at h
    obtain ⟨old, -, h⟩ := Option.bind_eq_some_iff.mp h
    obtain ⟨bn', -, h⟩ := Option.bind_eq_some_iff.mp h
    cases h
    exact .inl ⟨rfl, rfl, fun down => Nat.not_lt.mpr short down.1⟩
  rw [if_neg short] at h
  have long := Nat.lt_of_not_le short
  by_cases has : BN_HasSuffix bn = true
  · rw [if_pos has] at h
    have noLink : BN_GetLink bn = NULL := if_pos has
    by_cases test : BN_TestSuffix bn w.key = true
    · rw [if_pos test] at h
      obtain ⟨bn', -, h⟩ := Option.bind_eq_some_iff.mp h
      cases h
      refine .inl ⟨rfl, rfl, ?_⟩
      rintro ⟨-, ⟨-, other⟩ | link⟩
      · rw [test] at other
        cases other
      · exact link noLink
    · rw [if_neg test] at h
      obtain ⟨⟨link, m1⟩, -, h⟩ := Option.bind_eq_some_iff.mp h
      cases h
      exact .inr ⟨rfl, rfl, long, .inl ⟨has, by simpa using test⟩⟩
  rw [if_neg has] at h
  by_cases link : BN_GetLink bn ≠ NULL
  · rw [if_pos link] at h
    cases h
    exact .inr ⟨rfl, rfl, long, .inr link⟩
  · rw [if_neg link] at h
    obtain ⟨bn', -, h⟩ := Option.bind_eq_some_iff.mp h
    cases h
    refine .inl ⟨rfl, rfl, ?_⟩
    rintro ⟨-, ⟨suffix, -⟩ | linked⟩
    · exact has suffix
    · exact link linked

/-- A round of case 1 in a layer. -/
theorem putRound_search (value : Ptr) (valid : m.Valid) {entries : List (Nat × Ptr)}
    (layer : m.layer w.currNode = some entries) (one : w.snd = none) :
    ∃ m1, Moved m m1 ∧ putRound value w m =
      match lookup (IndexString.UTIL_GetNextKeySlice w.key.bytes).toNat entries with
      | some borderNode => (m.borderNode borderNode).bind fun bn => putFound value borderNode bn w m1
      | none => (putNew w.currNode (IndexString.UTIL_GetNextKeySlice w.key.bytes) w.key value m1).map
          fun m => (false, { w with numKeys := w.numKeys + 1 }, m) := by
  obtain ⟨currNode, key, snd, numKeys⟩ := w
  obtain rfl : snd = none := one
  obtain ⟨m1, moved, run⟩ := search_spec valid layer (IndexString.UTIL_GetNextKeySlice key.bytes)
    (fun borderNode m => (m.borderNode borderNode).bind fun bn => putFound value borderNode bn
      ⟨currNode, key, none, numKeys⟩ m)
    (fun m => (putNew currNode (IndexString.UTIL_GetNextKeySlice key.bytes) key value m).map
      fun m => (false, ⟨currNode, key, none, numKeys + 1⟩, m))
  rw [moved.borderNode] at run
  refine ⟨m1, moved, Eq.trans ?_ run⟩
  unfold putRound
  rw [slice_eq, Option.bind_eq_bind, Option.bind_some]
  unfold putSearch
  simp only [Option.map_eq_bind]
  rfl

theorem putRound_noLayer (valid : m.Valid) (no : m.layer w.currNode = none) (one : w.snd = none) :
    putRound value w m = none := by
  unfold putRound
  rw [slice_eq, Option.bind_eq_bind, Option.bind_some, one]
  unfold putSearch
  rw [moveToKey_none no valid]
  rfl

/-- A round leaves the key or goes down with it. -/
theorem putRound_key (h : putRound value w m = some (done, w', m')) :
    w'.key = w.key ∨ w'.key = w.key.advance := by
  obtain ⟨slice, -, h⟩ := Option.bind_eq_some_iff.mp h
  cases snd : w.snd with
  | none =>
    rw [snd] at h
    obtain ⟨⟨status, m1⟩, -, h⟩ := Option.bind_eq_some_iff.mp h
    cases status with
    | true =>
      obtain ⟨⟨borderNode, m2⟩, -, h⟩ := Option.bind_eq_some_iff.mp h
      obtain ⟨bn, -, h⟩ := Option.bind_eq_some_iff.mp h
      rcases putFound_key h with ⟨-, same, -⟩ | ⟨-, down, -⟩
      · exact .inl same
      · exact .inr down
    | false =>
      obtain ⟨m2, -, h⟩ := Option.bind_eq_some_iff.mp h
      cases h
      exact .inl rfl
  | some pair =>
    rw [snd] at h
    obtain ⟨sndSlice, -, h⟩ := Option.bind_eq_some_iff.mp h
    split at h
    · split at h
      · obtain ⟨bn, -, h⟩ := Option.bind_eq_some_iff.mp h
        obtain ⟨bn, -, h⟩ := Option.bind_eq_some_iff.mp h
        obtain ⟨m1, -, h⟩ := Option.bind_eq_some_iff.mp h
        cases h
        exact .inl rfl
      · obtain ⟨⟨link, m1⟩, -, h⟩ := Option.bind_eq_some_iff.mp h
        obtain ⟨m2, -, h⟩ := Option.bind_eq_some_iff.mp h
        cases h
        exact .inr rfl
    · obtain ⟨m1, -, h⟩ := Option.bind_eq_some_iff.mp h
      obtain ⟨m2, -, h⟩ := Option.bind_eq_some_iff.mp h
      cases h
      exact .inl rfl

theorem putLoop_len {n : Nat} (h : putLoop value n w m = some (w', m')) :
    w'.key.len ≤ w.key.len := by
  induction n generalizing w m with
  | zero => cases h
  | succ n ih =>
    obtain ⟨⟨done, w1, m1⟩, round, h⟩ := Option.bind_eq_some_iff.mp h
    have step : w1.key.len ≤ w.key.len := by
      rcases putRound_key round with same | down
      · rw [same]
      · rw [down]
        exact Nat.sub_le _ _
    cases done with
    | true =>
      cases h
      exact step
    | false => exact (ih h).trans step

/-! ### Reachable memory -/

theorem putFound_valid (valid : m.Valid) (h : putFound value p bn w m = some (done, w', m')) :
    m'.Valid := by
  unfold putFound at h
  split at h
  · obtain ⟨old, -, h⟩ := Option.bind_eq_some_iff.mp h
    obtain ⟨bn', -, h⟩ := Option.bind_eq_some_iff.mp h
    cases h
    exact valid
  · split at h
    · split at h
      · obtain ⟨bn', -, h⟩ := Option.bind_eq_some_iff.mp h
        cases h
        exact valid
      · obtain ⟨⟨link, m1⟩, made, h⟩ := Option.bind_eq_some_iff.mp h
        cases h
        have valid1 : m1.Valid := newKVNode_valid valid made
        exact valid1
    · split at h
      · cases h
        exact valid
      · obtain ⟨bn', -, h⟩ := Option.bind_eq_some_iff.mp h
        cases h
        exact valid

theorem putPair_valid {nextKeySlice : UInt64} {sndKey : KVKey} {sndValue : Ptr} (valid : m.Valid)
    (h : putPair value nextKeySlice sndKey sndValue w m = some (done, w', m')) : m'.Valid := by
  obtain ⟨sndSlice, -, h⟩ := Option.bind_eq_some_iff.mp h
  split at h
  · split at h
    · obtain ⟨bn, -, h⟩ := Option.bind_eq_some_iff.mp h
      obtain ⟨bn', -, h⟩ := Option.bind_eq_some_iff.mp h
      obtain ⟨m1, run, h⟩ := Option.bind_eq_some_iff.mp h
      cases h
      exact putRecord_valid (newBorderNode_valid valid bn') run
    · obtain ⟨⟨link, m1⟩, made, h⟩ := Option.bind_eq_some_iff.mp h
      obtain ⟨m2, run, h⟩ := Option.bind_eq_some_iff.mp h
      cases h
      exact putRecord_valid (newBorderNode_valid (newKVNode_valid valid made) _) run
  · obtain ⟨m1, first, h⟩ := Option.bind_eq_some_iff.mp h
    obtain ⟨m2, second, h⟩ := Option.bind_eq_some_iff.mp h
    cases h
    exact putNew_valid (putNew_valid valid first) second

theorem putRound_valid (valid : m.Valid) (h : putRound value w m = some (done, w', m')) :
    m'.Valid := by
  cases snd : w.snd with
  | some pair =>
    obtain ⟨slice, -, h⟩ := Option.bind_eq_some_iff.mp h
    rw [snd] at h
    exact putPair_valid valid h
  | none =>
    cases layer : m.layer w.currNode with
    | none =>
      rw [putRound_noLayer valid layer snd] at h
      cases h
    | some entries =>
      obtain ⟨m1, moved, run⟩ := putRound_search value valid layer snd
      rw [run] at h
      split at h
      · obtain ⟨bn, -, h⟩ := Option.bind_eq_some_iff.mp h
        exact putFound_valid moved.valid h
      · obtain ⟨m2, new, h⟩ := Option.map_eq_some_iff.mp h
        cases h
        exact putNew_valid moved.valid new

theorem putLoop_valid {n : Nat} (valid : m.Valid) (h : putLoop value n w m = some (w', m')) :
    m'.Valid := by
  induction n generalizing w m with
  | zero => cases h
  | succ n ih =>
    obtain ⟨⟨done, w1, m1⟩, round, h⟩ := Option.bind_eq_some_iff.mp h
    have valid1 := putRound_valid valid round
    cases done with
    | true =>
      cases h
      exact valid1
    | false => exact ih valid1 h

/-- A step of the search for a value in a layer. -/
theorem getValueOfPartialKey_layer {node : Ptr} {entries : List (Nat × Ptr)} (valid : m.Valid)
    (layer : m.layer node = some entries) (key : KVKey) :
    ∃ m1, Moved m m1 ∧ getValueOfPartialKey node key m =
      match lookup (IndexString.UTIL_GetNextKeySlice key.bytes).toNat entries with
      | some borderNode => (m.borderNode borderNode).bind fun bn =>
        if key.len ≤ keysliceLength then (BN_GetPrefixValue bn key.len).map fun v => (v, m1)
        else if BN_HasSuffix bn then
          some (BN_GetSuffixValue bn (key.bytes.drop keysliceLength), m1)
        else if BN_GetLink bn ≠ NULL then getValueOfPartialKey (BN_GetLink bn) key.advance m1
        else some (NULL, m1)
      | none => some (NULL, m1) := by
  obtain ⟨m1, moved, run⟩ := search_spec valid layer (IndexString.UTIL_GetNextKeySlice key.bytes)
    (fun borderNode m => (m.borderNode borderNode).bind fun bn =>
      if key.len ≤ keysliceLength then (BN_GetPrefixValue bn key.len).map fun v => (v, m)
      else if BN_HasSuffix bn then some (BN_GetSuffixValue bn (key.bytes.drop keysliceLength), m)
      else if BN_GetLink bn ≠ NULL then getValueOfPartialKey (BN_GetLink bn) key.advance m
      else some (NULL, m))
    (fun m => some (NULL, m))
  rw [moved.borderNode] at run
  refine ⟨m1, moved, Eq.trans ?_ run⟩
  rw [getValueOfPartialKey, slice_eq, Option.bind_eq_bind, Option.bind_some]
  simp only [Option.map_eq_bind]
  rfl

theorem getValueOfPartialKey_moved {node : Ptr} (valid : m.Valid) {v : Ptr}
    (h : getValueOfPartialKey node key m = some (v, m')) : Moved m m' := by
  induction hn : key.len using Nat.strongRecOn generalizing node key m with
  | ind n ih =>
    cases layer : m.layer node with
    | none =>
      rw [getValueOfPartialKey, slice_eq, Option.bind_eq_bind, Option.bind_some,
        moveToKey_none layer valid] at h
      cases h
    | some entries =>
      obtain ⟨m1, moved, run⟩ := getValueOfPartialKey_layer valid layer key
      rw [run] at h
      split at h
      · obtain ⟨bn, -, h⟩ := Option.bind_eq_some_iff.mp h
        split at h
        · obtain ⟨v', -, h⟩ := Option.map_eq_some_iff.mp h
          cases h
          exact moved
        · split at h
          · cases h
            exact moved
          · split at h
            · have shorter : key.advance.len < n := by
                have pos : 0 < keysliceLength := by decide
                rw [← hn]
                unfold KVKey.advance
                simp only
                omega
              exact moved.trans (ih _ shorter moved.valid h rfl)
            · cases h
              exact moved
      · cases h
        exact moved

/-- The memory after any calls on any stores. -/
inductive Reachable : Memory → Prop
  | start : Reachable .empty
  | newKVStore {m m' : Memory} {kvStore : KVStore} (before : Reachable m)
      (h : KV_NewKVStore m = some (kvStore, m')) : Reachable m'
  | put {m m' : Memory} {kvStore kvStore' : KVStore} {key key' : KVKey} {value : Ptr}
      (before : Reachable m) (h : KV_Put kvStore key value m = some (kvStore', key', m')) :
      Reachable m'
  | get {m m' : Memory} {kvStore : KVStore} {key : KVKey} {v : Ptr} (before : Reachable m)
      (h : KV_Get kvStore key m = some (v, m')) : Reachable m'

theorem Reachable.valid (reachable : Reachable m) : m.Valid := by
  induction reachable with
  | start =>
    intro p n no
    cases no
  | newKVStore before h ih =>
    unfold KV_NewKVStore at h
    obtain ⟨⟨root, m1⟩, made, h⟩ := Option.bind_eq_some_iff.mp h
    cases h
    exact newKVNode_valid ih made
  | put before h ih =>
    obtain ⟨-, -, h⟩ := Option.bind_eq_some_iff.mp h
    obtain ⟨⟨w, m1⟩, loop, h⟩ := Option.bind_eq_some_iff.mp h
    cases h
    exact putLoop_valid ih loop
  | get before h ih => exact (getValueOfPartialKey_moved ih h).valid

/-! ### The caller's key -/

theorem keySuffix_setSuffixValue {suffix : Key} (h : BN_SetSuffixValue bn suffix value = some bn') :
    bn'.keySuffix = some suffix := by
  unfold BN_SetSuffixValue at h
  rw [IndexString.copy_eq] at h
  split at h
  · cases h
    rfl
  · cases h

/-- The border node of a key alone does not send the key on. -/
theorem not_goesDown_setValue (h : BN_SetValue BN_NewBorderNode key value = some bn) :
    ¬GoesDown bn key := by
  rintro ⟨long, down⟩
  unfold BN_SetValue at h
  rw [if_pos long] at h
  have suffix := keySuffix_setSuffixValue h
  rcases down with ⟨-, other⟩ | link
  · unfold BN_TestSuffix at other
    rw [suffix] at other
    simp only [IndexString.strEqual_eq, beq_self_eq_true] at other
    cases other
  · unfold BN_GetLink at link
    rw [suffix] at link
    exact link rfl

theorem border_eq {node : Ptr} {entries : List (Nat × Ptr)} (layer : m.layer node = some entries)
    (k : Key) : m.border k node =
      (lookup (IndexString.UTIL_GetNextKeySlice k).toNat entries).bind m.borderNode := by
  unfold Memory.border
  rw [layer]
  rfl

/-- The round after a new slice completes the put. -/
theorem putRound_again {entries : List (Nat × Ptr)} (valid : m.Valid)
    (layer : m.layer w.currNode = some entries) (one : w.snd = none)
    (here : lookup (IndexString.UTIL_GetNextKeySlice w.key.bytes).toNat entries = some p)
    (border : m.borderNode p = some bn) (stays : ¬GoesDown bn w.key)
    (h : putRound value w m = some (done, w', m')) : done = true ∧ w'.key = w.key := by
  obtain ⟨m1, -, run⟩ := putRound_search value valid layer one
  rw [run, here] at h
  simp only [border, Option.bind_some] at h
  rcases putFound_key h with ⟨rfl, same, -⟩ | ⟨-, -, down⟩
  · exact ⟨rfl, same⟩
  · exact absurd down stays

/-- `KV_Put` gives its caller's key back unchanged exactly when the border node of the key's first
slice, if there is one in the root layer, does not send it on. -/
theorem put_key_iff (reachable : Reachable m) {kvStore kvStore' : KVStore} {key key' : KVKey}
    (h : KV_Put kvStore key value m = some (kvStore', key', m')) :
    key'.bytes = key.bytes ∧ key'.len = key.len ↔
      ∀ bn, m.border key.bytes kvStore.rootNode = some bn → ¬GoesDown bn key := by
  have valid := reachable.valid
  obtain ⟨-, -, h⟩ := Option.bind_eq_some_iff.mp h
  obtain ⟨⟨w, m1⟩, loop, h⟩ := Option.bind_eq_some_iff.mp h
  cases h
  obtain ⟨⟨done, w1, m1⟩, round, loop⟩ := Option.bind_eq_some_iff.mp loop
  cases layer : m.layer kvStore.rootNode with
  | none =>
    rw [putRound_noLayer valid layer rfl] at round
    cases round
  | some entries =>
    obtain ⟨m2, moved, run⟩ := putRound_search value
      (w := ⟨kvStore.rootNode, key, none, kvStore.numKeys⟩) valid layer rfl
    rw [run] at round
    rw [border_eq layer]
    cases here : lookup (IndexString.UTIL_GetNextKeySlice key.bytes).toNat entries with
    | some p =>
      simp only [here] at round
      obtain ⟨bn, border, round⟩ := Option.bind_eq_some_iff.mp round
      simp only [Option.bind_some, border, Option.some.injEq, forall_eq']
      rcases putFound_key round with ⟨rfl, same, stays⟩ | ⟨rfl, down, goes⟩
      · cases loop
        simp only at same
        rw [same]
        exact ⟨fun _ => stays, fun _ => ⟨rfl, rfl⟩⟩
      · constructor
        · rintro ⟨-, len⟩
          have shorter := putLoop_len loop
          rw [down, len] at shorter
          have pos : 0 < keysliceLength := by decide
          have long : keysliceLength < key.len := goes.1
          unfold KVKey.advance at shorter
          simp only at shorter
          omega
        · intro stays
          exact absurd goes stays
    | none =>
      simp only [here] at round
      obtain ⟨m3, new, same⟩ := Option.map_eq_some_iff.mp round
      cases same
      obtain ⟨bn, set, -⟩ := Option.bind_eq_some_iff.mp new
      have layer2 : m2.layer kvStore.rootNode = some entries := by
        rw [moved.layer, layer]
      rcases putNew_spec (IndexString.UTIL_GetNextKeySlice key.bytes) moved.valid layer2 set
        with ⟨m4, put_eq, valid4, layers, borders, -⟩ | ⟨failed, -⟩
      · rw [new] at put_eq
        cases put_eq
        obtain ⟨⟨done, w5, m5⟩, again, loop⟩ := Option.bind_eq_some_iff.mp loop
        have stays := not_goesDown_setValue set
        obtain ⟨rfl, same⟩ := putRound_again valid4 (by rw [layers, Function.update_self]) rfl
          (lookup_put_self _ _ _) (by rw [borders, Function.update_self]) stays again
        cases loop
        simp only at same
        rw [same]
        exact ⟨fun _ bn no => (by cases no), fun _ => ⟨rfl, rfl⟩⟩
      · rw [failed] at new
        cases new

/-- A new store after the puts of `log`. -/
def storeAfter (log : List (KVKey × Ptr)) : Option (KVStore × Memory) := do
  let (kvStore, m) ← KV_NewKVStore .empty
  putAll log kvStore m

/-- The caller's key after one more put. -/
def keyAfter (log : List (KVKey × Ptr)) (key : KVKey) (value : Ptr) : Option KVKey := do
  let (kvStore, m) ← storeAfter log
  let (_, key, _) ← KV_Put kvStore key value m
  return key

theorem reachable_putAll {log : List (KVKey × Ptr)} {kvStore kvStore' : KVStore}
    (before : Reachable m) (h : putAll log kvStore m = some (kvStore', m')) : Reachable m' := by
  induction log generalizing kvStore m with
  | nil =>
    cases h
    exact before
  | cons e log ih =>
    obtain ⟨⟨kvStore1, key1, m1⟩, run, h⟩ := Option.bind_eq_some_iff.mp h
    exact ih (before.put run) h

theorem reachable_storeAfter {log : List (KVKey × Ptr)} {kvStore : KVStore}
    (h : storeAfter log = some (kvStore, m)) : Reachable m := by
  unfold storeAfter at h
  obtain ⟨⟨kvStore0, m0⟩, made, runs⟩ := Option.bind_eq_some_iff.mp h
  exact reachable_putAll (.newKVStore .start made) runs

theorem keyAfter_spec {log : List (KVKey × Ptr)} {key key' : KVKey}
    (h : keyAfter log key value = some key') : ∃ kvStore kvStore' m m', Reachable m ∧
      KV_Put kvStore key value m = some (kvStore', key', m') := by
  unfold keyAfter at h
  obtain ⟨⟨kvStore, m⟩, runs, h⟩ := Option.bind_eq_some_iff.mp h
  obtain ⟨⟨kvStore', key1, m'⟩, run, h⟩ := Option.bind_eq_some_iff.mp h
  cases h
  exact ⟨kvStore, kvStore', m, m', reachable_storeAfter runs, run⟩

/-- A key of nine bytes is put again: the border node of its slice has the ninth byte as its suffix. -/
theorem put_key_iff_again : ∃ kvStore m bn kvStore' key' m',
    storeAfter [(KV_MoveKey (List.replicate 9 7), 5)] = some (kvStore, m) ∧
      m.border (KV_MoveKey (List.replicate 9 7)).bytes kvStore.rootNode = some bn ∧
      KV_Put kvStore (KV_MoveKey (List.replicate 9 7)) 6 m = some (kvStore', key', m') ∧
      (key'.bytes = (KV_MoveKey (List.replicate 9 7)).bytes ∧
        key'.len = (KV_MoveKey (List.replicate 9 7)).len) := by
  have facts : ((storeAfter [(KV_MoveKey (List.replicate 9 7), 5)]).bind fun s =>
      (s.2.border (KV_MoveKey (List.replicate 9 7)).bytes s.1.rootNode).bind fun bn =>
        (KV_Put s.1 (KV_MoveKey (List.replicate 9 7)) 6 s.2).map fun _ =>
          decide (¬GoesDown bn (KV_MoveKey (List.replicate 9 7)))) = some true := by
    decide +kernel
  obtain ⟨⟨kvStore, m⟩, store, facts⟩ := Option.bind_eq_some_iff.mp facts
  obtain ⟨bn, border, facts⟩ := Option.bind_eq_some_iff.mp facts
  obtain ⟨⟨kvStore', key', m'⟩, run, stays⟩ := Option.map_eq_some_iff.mp facts
  refine ⟨kvStore, m, bn, kvStore', key', m', store, border, run,
    (put_key_iff (reachable_storeAfter store) run).mpr fun bn' border' => ?_⟩
  obtain rfl := Option.some.inj (border.symm.trans border')
  exact of_decide_eq_true stays

/-- A second key with the same first eight bytes comes back without them. -/
theorem put_shortens_key : ¬∀ (m m' : Memory) (kvStore kvStore' : KVStore) (key key' : KVKey)
    (value : Ptr), Reachable m → KV_Put kvStore key value m = some (kvStore', key', m') →
      key'.bytes = key.bytes ∧ key'.len = key.len := by
  intro all
  have len : (keyAfter [(KV_MoveKey (List.replicate 9 7), 5)] (KV_MoveKey (List.replicate 10 7))
      6).map KVKey.len = some 2 := by decide +kernel
  obtain ⟨key', after, two⟩ := Option.map_eq_some_iff.mp len
  obtain ⟨kvStore, kvStore', m, m', reachable, run⟩ := keyAfter_spec after
  obtain ⟨-, same⟩ := all m m' kvStore kvStore' _ key' 6 reachable run
  rw [two] at same
  cases same

end DeepDB.KV
