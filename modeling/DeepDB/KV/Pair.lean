import DeepDB.KV.Heap

/-!
The rounds of `KV_Put` with two keys, from the new layer of a suffix conflict on. A layer with a link
is made for each slice that the keys share, and the layer in which they part gets both; this is the
trie of the pair, unless one of the keys ends in a slice that they share.
-/

namespace DeepDB.KV
open SortedAssoc
open Trie (Key Ptr NULL keysliceLength Heap TrieOf sortedListTable HeldIn KeptIn heldIn_nil getKeyslice
  CreatePair addrOfTrie Bordernode NodeOccurs)
open Trie.BorderNode (empty map putValue putLink)
open IndexString (UTIL_GetNextKeySlice)

variable {m m' : Memory} {p : Ptr} {key : KVKey} {value : Ptr} {bn : BorderNode} {n n' : Nat}
  {entries : List (Nat × Ptr)} {tableform : List (Int × Ptr)}
  {listform : List (Int × (Ptr × Bordernode Ptr KVTrie))} {bnode : Bordernode Ptr KVTrie}

/-- Two rests part before one of them ends, and what is copied of the first one has its block. -/
def PairFits (k1 k2 : Key) : Prop :=
  if UTIL_GetNextKeySlice k1 = UTIL_GetNextKeySlice k2 then
    if _long : keysliceLength < k1.length ∧ keysliceLength < k2.length then
      PairFits (k1.drop keysliceLength) (k2.drop keysliceLength)
    else False
  else (k1.drop keysliceLength).length < 2 ^ 32
termination_by k1.length
decreasing_by exact Trie.length_getSuffix_lt _long.1

/-- A layer gets a new border node for the value of a key. -/
theorem putNew_held (good : m.Good n) (le : n ≤ n') (layer : m.layer p = some entries)
    (hk : key.bytes ≠ []) (fits : (key.bytes.drop keysliceLength).length < 2 ^ 32) (hv : value ≠ NULL)
    (room : entries.length + 1 ≤ n') (few : entries.length + 1 < 2 ^ 61) (sorted : Sorted listform)
    (held : HeldIn m.heap (.of p (widen entries) listform : KVTrie) (fun q => q < m.next)) :
    ∃ m' bn, putNew p (UTIL_GetNextKeySlice key.bytes) key value m = some m' ∧ m'.Good n' ∧
      m'.layer p = some (put (UTIL_GetNextKeySlice key.bytes).toNat m.next entries) ∧
      m'.borderNode m.next = some bn ∧ BN_SetValue BN_NewBorderNode key value = some bn ∧
      m'.next = m.next + 1 ∧ KeptIn m.heap m'.heap m.next m'.next (fun q => q = p) ∧
      HeldIn m'.heap (.of p (put (getKeyslice key.bytes) m.next (widen entries))
          (put (getKeyslice key.bytes) (m.next, putValue key.bytes value empty) listform) : KVTrie)
        (fun q => Trie.Occurs q (.of p (widen entries) listform : KVTrie) ∨
          m.next ≤ q ∧ q < m'.next) := by
  obtain ⟨m', bn, run, good', layers, borders, next, view, set⟩ :=
    putNew_good good le layer hk fits hv room few
  have here : m'.layer p = some (put (UTIL_GetNextKeySlice key.bytes).toNat m.next entries) := by
    rw [layers, Function.update_self]
  have border : m'.borderNode m.next = some bn := by
    rw [borders, Function.update_self]
  have kept : KeptIn m.heap m'.heap m.next m'.next (fun q => q = p) := by
    refine keptIn_of (next ▸ Nat.le_succ _) (fun q _ other => ?_) (fun q below _ => ?_)
    · rw [layers, Function.update_of_ne other]
    · rw [borders, Function.update_of_ne (Nat.ne_of_lt below)]
  refine ⟨m', bn, run, good', here, border, set, next, kept, ?_⟩
  refine held.write sorted (kept.mono fun q _ same => .inl same) ?_ ?_ ?_ ?_
  · rw [heap_index here, put_widen]
  · exact (heap_node border).trans (congrArg some view)
  · rintro q (rfl | ⟨t, link, -⟩)
    · exact .inr ⟨Nat.le_refl _, next ▸ Nat.lt_succ_self _⟩
    · cases putValue_noLink link
  · intro t link
    cases putValue_noLink link

/-- The memory after a round that makes one more layer. -/
theorem putLink_good (good : m.Good n) (one : 1 ≤ n) (layer : m.layer p = some []) (below : p < m.next)
    (slice : UInt64) : ∃ m1 m2, newKVNode m = some (m.next, m1) ∧ m1.next = m.next + 1 ∧
      putRecord p slice m1.next (newBorderNode m1 (BN_SetLink BN_NewBorderNode m.next)).2 = some m2 ∧
      m2.Good n ∧ m2.layer = Function.update (Function.update m.layer m.next (some [])) p
        (some [(slice.toNat, m1.next)]) ∧
      m2.borderNode = Function.update m.borderNode m1.next
        (some (BN_SetLink BN_NewBorderNode m.next)) ∧ m2.next = m.next + 2 := by
  obtain ⟨m1, made, valid1, layers1, borders1, next1⟩ := newKVNode_spec good.valid
  have apart : p ≠ m.next := Nat.ne_of_lt below
  have layer1 : (newBorderNode m1 (BN_SetLink BN_NewBorderNode m.next)).2.layer p = some [] := by
    have same : m1.layer p = some [] := by rw [layers1, Function.update_of_ne apart, layer]
    exact same
  rcases putRecord_spec (newBorderNode_valid valid1 _) layer1 slice m1.next with
    ⟨m2, run, valid2, layers2, borders2, next2⟩ | ⟨-, many⟩
  · have borders : m2.borderNode = Function.update m.borderNode m1.next
        (some (BN_SetLink BN_NewBorderNode m.next)) := by
      rw [borders2, ← borders1]
      funext q
      rw [Function.update_apply]
      rfl
    have next : m2.next = m.next + 2 := by
      rw [next2]
      exact congrArg (· + 1) next1
    have layers : m2.layer = Function.update (Function.update m.layer m.next (some [])) p
        (some [(slice.toNat, m1.next)]) := by
      rw [layers2, ← layers1]
      rfl
    have empty_layer : ∀ q entries, Function.update m.layer m.next (some []) q = some entries →
        entries.length ≤ n := by
      intro q entries here
      rw [Function.update_apply] at here
      split at here
      · cases here
        exact Nat.zero_le n
      · exact good.small q entries here
    refine ⟨m1, m2, made, next1, run, ⟨valid2, ?_, ?_, ?_⟩, layers, borders, next⟩
    · intro q bn here
      rw [borders, Function.update_apply] at here
      split at here
      · cases here
        exact valid_setLink valid_new
      · exact good.nodes q bn here
    · rw [next]
      exact Nat.lt_of_lt_of_le good.next (Nat.le_add_right _ _)
    · intro q entries here
      rw [layers, Function.update_apply] at here
      split at here
      · cases here
        exact one
      · exact empty_layer q entries here
  · have one_entry : (put slice.toNat m1.next []).length = 1 := rfl
    rw [one_entry] at many
    exact absurd many (by decide)

variable {k1 k2 : KVKey} {v1 v2 : Ptr} {numKeys rounds : Nat}

theorem putRound_pair : putRound v1 ⟨p, k1, some (k2, v2), numKeys⟩ m
    = putPair v1 (UTIL_GetNextKeySlice k1.bytes) k2 v2 ⟨p, k1, some (k2, v2), numKeys⟩ m := by
  unfold putRound
  rw [slice_eq]
  rfl

/-- A round that goes on in a new layer. -/
theorem putRound_shared (v1 v2 : Ptr) (numKeys : Nat) (good : m.Good n) (one : 1 ≤ n)
    (layer : m.layer p = some []) (below : p < m.next)
    (same : UTIL_GetNextKeySlice k1.bytes = UTIL_GetNextKeySlice k2.bytes)
    (long1 : keysliceLength < k1.len) (long2 : keysliceLength < k2.len) :
    ∃ m2, putRound v1 ⟨p, k1, some (k2, v2), numKeys⟩ m
        = some (false, ⟨m.next, k1.advance, some (k2.advance, v2), numKeys⟩, m2) ∧ m2.Good n ∧
      m2.layer = Function.update (Function.update m.layer m.next (some [])) p
        (some [((UTIL_GetNextKeySlice k1.bytes).toNat, m.next + 1)]) ∧
      m2.borderNode = Function.update m.borderNode (m.next + 1)
        (some (BN_SetLink BN_NewBorderNode m.next)) ∧ m2.next = m.next + 2 := by
  obtain ⟨m1, m2, made, next1, run, good2, layers, borders, next2⟩ :=
    putLink_good good one layer below (UTIL_GetNextKeySlice k1.bytes)
  rw [next1] at layers borders
  refine ⟨m2, ?_, good2, layers, borders, next2⟩
  have both : ¬(k1.len ≤ keysliceLength ∨ k2.len ≤ keysliceLength) := by omega
  have run' : putRecord p (UTIL_GetNextKeySlice k1.bytes)
      (newBorderNode m1 (BN_SetLink BN_NewBorderNode m.next)).1
      (newBorderNode m1 (BN_SetLink BN_NewBorderNode m.next)).2 = some m2 := run
  rw [putRound_pair]
  unfold putPair
  simp only [slice_eq, Option.bind_eq_bind, Option.bind_some, if_pos same, if_neg both, made]
  rw [run']
  rfl

/-- The trie of a pair is in the layer, and nothing else has changed. -/
def PairHeld (k1 k2 : KVKey) (v1 v2 p : Ptr) (n : Nat) (m m' : Memory) : Prop :=
  ∃ c, ∃ t : KVTrie, CreatePair (sortedListTable Ptr) k1.bytes k2.bytes v1 v2 c t ∧ addrOfTrie t = p ∧ m'.Good n ∧
    KeptIn m.heap m'.heap m.next m'.next (fun q => q = p) ∧
    HeldIn m'.heap t (fun q => q = p ∨ m.next ≤ q ∧ q < m'.next)

/-- The round in which the keys part. -/
theorem putRound_apart (numKeys : Nat) (good : m.Good n) (two : 2 ≤ n) (layer : m.layer p = some [])
    (below : p < m.next)
    (hk1 : k1.bytes ≠ []) (hk2 : k2.bytes ≠ [])
    (apart : UTIL_GetNextKeySlice k1.bytes ≠ UTIL_GetNextKeySlice k2.bytes)
    (fits1 : (k1.bytes.drop keysliceLength).length < 2 ^ 32)
    (fits2 : (k2.bytes.drop keysliceLength).length < 2 ^ 32) (hv1 : v1 ≠ NULL) (hv2 : v2 ≠ NULL) :
    ∃ m', putRound v1 ⟨p, k1, some (k2, v2), numKeys⟩ m
        = some (true, ⟨p, k1, some (k2, v2), numKeys + 1⟩, m') ∧ PairHeld k1 k2 v1 v2 p n m m' := by
  have slices : getKeyslice k1.bytes ≠ getKeyslice k2.bytes := fun same =>
    apart (IndexString.getNextKeySlice_inj.mpr same)
  have held : HeldIn m.heap (.of p (widen []) [] : KVTrie) (fun q => q < m.next) :=
    (heldIn_nil (heap_index layer)).mono fun q here => here ▸ below
  obtain ⟨m1, bn1, run1, good1, layer1, -, -, next1, kept1, held1⟩ := putNew_held good (Nat.le_refl n)
    layer hk1 fits1 hv1 (by simp; omega) (by simp) sorted_nil held
  have wide1 : widen (put (UTIL_GetNextKeySlice k1.bytes).toNat m.next [])
      = put (getKeyslice k1.bytes) m.next (widen []) := put_widen _ _ _
  rw [← wide1] at held1
  have inside1 : ∀ q, Trie.Occurs q (.of p (widen []) [] : KVTrie) ∨ m.next ≤ q ∧ q < m1.next →
      q < m1.next := by
    rintro q (old | new)
    · exact Nat.lt_of_lt_of_le (held.occurs q old) kept1.next
    · exact new.2
  obtain ⟨m2, bn2, run2, good2, layer2, -, -, next2, kept2, held2⟩ := putNew_held good1 (Nat.le_refl n)
    layer1 hk2 fits2 hv2 (by simp [put]; omega) (by simp [put]) (sorted_put sorted_nil)
    (held1.mono inside1)
  have none : Sorted (widen []) := sorted_nil
  rw [wide1, put_comm _ _ sorted_nil slices.symm, put_comm _ _ none slices.symm] at held2
  have pair : ∃ c, CreatePair (sortedListTable Ptr) k1.bytes k2.bytes v1 v2 c
      (.of p (put (getKeyslice k1.bytes) m.next (put (getKeyslice k2.bytes) m1.next []))
        (put (getKeyslice k1.bytes) (m.next, putValue k1.bytes v1 empty)
          (put (getKeyslice k2.bytes) (m1.next, putValue k2.bytes v2 empty) []))) :=
    ⟨_, .case3 slices rfl rfl rfl ⟨rfl, rfl⟩ ⟨rfl, rfl⟩ rfl ⟨rfl, rfl⟩ ⟨rfl, rfl⟩⟩
  obtain ⟨c, pair⟩ := pair
  have kept := kept1.trans (kept2.mono fun q _ same => same)
  refine ⟨m2, ?_, c, _, pair, rfl, good2, kept, held2.mono ?_⟩
  · rw [putRound_pair]
    unfold putPair
    simp only [slice_eq, Option.bind_eq_bind, Option.bind_some, if_neg apart, run1, run2]
    rfl
  · rintro q (old | new)
    · rw [← wide1] at old
      rcases held1.occurs q old with old | new
      · rcases Trie.occurs_of.mp old with here | ⟨e, no, -⟩
        · exact .inl here
        · cases no
      · exact .inr ⟨new.1, Nat.lt_of_lt_of_le new.2 kept2.next⟩
    · exact .inr ⟨kept1.next.trans new.1, new.2⟩

/-- A layer over the trie of the rests. -/
theorem pairHeld_shared {m2 : Memory} (good : m.Good n) (layer : m.layer p = some [])
    (below : p < m.next) (same : getKeyslice k1.bytes = getKeyslice k2.bytes)
    (long1 : keysliceLength < k1.len) (long2 : keysliceLength < k2.len)
    (layers : m2.layer = Function.update (Function.update m.layer m.next (some [])) p
      (some [((UTIL_GetNextKeySlice k1.bytes).toNat, m.next + 1)]))
    (borders : m2.borderNode = Function.update m.borderNode (m.next + 1)
      (some (BN_SetLink BN_NewBorderNode m.next))) (next : m2.next = m.next + 2)
    (deeper : PairHeld k1.advance k2.advance v1 v2 m.next n m2 m') :
    PairHeld k1 k2 v1 v2 p n m m' := by
  obtain ⟨c, t, pair, addr, good', kept', held'⟩ := deeper
  rw [advance_bytes, advance_bytes] at pair
  have apart : p ≠ m.next := Nat.ne_of_lt below
  have kept : KeptIn m.heap m2.heap m.next m2.next (fun q => q = p) := by
    refine keptIn_of (next ▸ Nat.le_add_right _ _) (fun q here other => ?_) (fun q here _ => ?_)
    · rw [layers, Function.update_of_ne other, Function.update_of_ne (Nat.ne_of_lt here)]
    · rw [borders, Function.update_of_ne (Nat.ne_of_lt (Nat.lt_succ_of_lt here))]
  have whole : KeptIn m.heap m'.heap m.next m'.next (fun q => q = p) := by
    refine ⟨kept.next.trans kept'.next, fun q here other => ?_⟩
    obtain ⟨index, node⟩ := kept.frame q here other
    obtain ⟨index', node'⟩ := kept'.frame q (Nat.lt_of_lt_of_le here kept.next) (Nat.ne_of_lt here)
    exact ⟨index'.trans index, node'.trans node⟩
  have index2 : m2.heap.index p = some [(getKeyslice k1.bytes, m.next + 1)] := by
    have layer2 : m2.layer p = some [((UTIL_GetNextKeySlice k1.bytes).toNat, m.next + 1)] := by
      rw [layers, Function.update_self]
    rw [heap_index layer2, ← IndexString.getNextKeySlice_eq]
    rfl
  have node2 : m2.heap.node (m.next + 1) = some (putLink m.next empty) := by
    have border2 : m2.borderNode (m.next + 1) = some (BN_SetLink BN_NewBorderNode m.next) := by
      rw [borders, Function.update_self]
    rw [heap_node border2, view_setLink (Nat.ne_of_gt good.next), view_new]
  have grown : m.next + 2 ≤ m'.next := next ▸ kept'.next
  have inside : ∀ q, Trie.Occurs q t → m.next ≤ q ∧ q < m'.next ∧ q ≠ m.next + 1 := by
    intro q occurs
    rcases held'.occurs q occurs with rfl | ⟨low, high⟩
    · exact ⟨Nat.le_refl _, Nat.lt_of_succ_lt grown, (Nat.succ_ne_self _).symm⟩
    · rw [next] at low
      exact ⟨Nat.le_of_add_right_le low, high, Nat.ne_of_gt low⟩
  have held : HeldIn m.heap (.of p (widen []) [] : KVTrie) (fun q => q < m.next) :=
    (heldIn_nil (heap_index layer)).mono fun q here => here ▸ below
  have first : p < m2.next := Nat.lt_of_lt_of_le below kept.next
  have second : m.next + 1 < m2.next := next ▸ Nat.lt_succ_self _
  refine ⟨_, .of p [(getKeyslice k1.bytes, m.next + 1)]
    [(getKeyslice k1.bytes, (m.next + 1, putLink t empty))],
    .case2 same ⟨by simpa using long1, by simpa using long2⟩ pair rfl rfl ⟨rfl, rfl⟩ rfl ⟨rfl, rfl⟩,
    rfl, good', whole, (held.write sorted_nil (whole.mono fun q _ here => .inl here) ?_ ?_ ?_ ?_).mono ?_⟩
  · rw [(kept'.frame p first apart).1, index2]
  · rw [(kept'.frame (m.next + 1) second (Nat.succ_ne_self _)).2, node2, ← addr]
    rfl
  · rintro q (rfl | ⟨t', link, occurs⟩)
    · exact .inr ⟨Nat.le_succ _, grown⟩
    · cases link
      obtain ⟨low, high, -⟩ := inside q occurs
      exact .inr ⟨low, high⟩
  · intro t' link
    cases link
    exact ⟨held'.rep, held'.separate, fun occurs => (inside _ occurs).2.2 rfl⟩
  · rintro q (old | new)
    · rcases Trie.occurs_of.mp old with here | ⟨e, no, -⟩
      · exact .inl here
      · cases no
    · exact .inr new

theorem pair_spec (numKeys : Nat) (good : m.Good n) (two : 2 ≤ n) (layer : m.layer p = some [])
    (below : p < m.next)
    (hk1 : k1.bytes ≠ []) (hk2 : k2.bytes ≠ []) (fits : PairFits k1.bytes k2.bytes)
    (fits2 : k2.len < 2 ^ 32) (hv1 : v1 ≠ NULL) (hv2 : v2 ≠ NULL) (enough : k1.len < rounds) :
    ∃ w' m', putLoop v1 rounds ⟨p, k1, some (k2, v2), numKeys⟩ m = some (w', m') ∧
      w'.numKeys = numKeys + 1 ∧ PairHeld k1 k2 v1 v2 p n m m' := by
  induction hn : k1.len using Nat.strongRecOn generalizing k1 k2 p m rounds with
  | ind l ih =>
    obtain ⟨rounds, rfl⟩ : ∃ r, rounds = r + 1 := ⟨rounds - 1, by omega⟩
    rw [PairFits] at fits
    by_cases same : UTIL_GetNextKeySlice k1.bytes = UTIL_GetNextKeySlice k2.bytes
    · rw [if_pos same] at fits
      by_cases long : keysliceLength < k1.bytes.length ∧ keysliceLength < k2.bytes.length
      · rw [dif_pos long, ← advance_bytes, ← advance_bytes] at fits
        rw [length_bytes, length_bytes] at long
        obtain ⟨m2, run, good2, layers, borders, next⟩ := putRound_shared v1 v2 numKeys good
          (Nat.le_of_succ_le two) layer below same long.1 long.2
        have shorter : k1.advance.len < k1.len := Nat.sub_lt (Nat.zero_lt_of_lt long.1) (by decide)
        have enough' : k1.advance.len < rounds := by omega
        have advance (k : KVKey) : k.advance.len = k.len - keysliceLength := rfl
        have rest (k : KVKey) (longer : keysliceLength < k.len) : k.advance.bytes ≠ [] := by
          rw [← List.length_pos_iff, length_bytes, advance]
          omega
        have layer2 : m2.layer m.next = some [] := by
          rw [layers, Function.update_of_ne (Nat.ne_of_gt below), Function.update_self]
        obtain ⟨w', m', loop, num, deeper⟩ := ih k1.advance.len (hn ▸ shorter) good2 layer2
          (next ▸ Nat.lt_add_of_pos_right (by decide)) (rest k1 long.1) (rest k2 long.2) fits
          (Nat.lt_of_le_of_lt (Nat.sub_le _ _) fits2) enough' rfl
        refine ⟨w', m', ?_, num, ?_⟩
        · rw [putLoop, run]
          exact loop
        · exact pairHeld_shared good layer below (IndexString.getNextKeySlice_inj.mp same) long.1 long.2
            layers borders next deeper
      · rw [dif_neg long] at fits
        exact fits.elim
    · rw [if_neg same] at fits
      have drop2 : (k2.bytes.drop keysliceLength).length < 2 ^ 32 := by
        rw [List.length_drop, length_bytes]
        omega
      obtain ⟨m', run, held⟩ := putRound_apart numKeys good two layer below hk1 hk2 same
        fits drop2 hv1 hv2
      refine ⟨⟨p, k1, some (k2, v2), numKeys + 1⟩, m', ?_, rfl, held⟩
      rw [putLoop, run]
      rfl

end DeepDB.KV
