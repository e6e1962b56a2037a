import DeepDB.KV.Pair

/-!
`KV_Put` in memory does what the relation of the functional trie allows, while no put meets case 0.0.0
and every copy has its block; and it counts a key that is new.
-/

namespace DeepDB.KV
open SortedAssoc
open Trie (Key Ptr NULL keysliceLength Heap TrieOf sortedListTable HeldIn KeptIn heldIn_nil getKeyslice
  getSuffix addrOfTrie Bordernode NodeOccurs Occurs Correct find findNode Flattened.getExact_eq)
open Trie.BorderNode (empty map putValue putLink putPrefix putSuffix getPrefix getLink getSuffixPair
  testSuffix)
open IndexString (UTIL_GetNextKeySlice)

variable {m m' : Memory} {a addr : Ptr} {key : KVKey} {value : Ptr} {bn : BorderNode} {n numKeys : Nat}
  {least below : Nat} {s : Int} {tableform : List (Int × Ptr)}
  {listform : List (Int × (Ptr × Bordernode Ptr KVTrie))} {bnode bnode' : Bordernode Ptr KVTrie}
  {t : KVTrie}

/-- What a put copies into a border node has its block, and no suffix that it meets has to share a
slice in which it or the rest of the key ends. -/
def PutFits (m : Memory) (node : Ptr) (k : Key) : Prop :=
  match m.border k node with
  | none => (k.drop keysliceLength).length < 2 ^ 32
  | some bn =>
    if _short : k.length ≤ keysliceLength then True
    else
      match bn.keySuffix with
      | some suffix => k.drop keysliceLength = suffix ∨ PairFits (k.drop keysliceLength) suffix
      | none =>
        if bn.suffixLink = NULL then (k.drop keysliceLength).length < 2 ^ 32
        else PutFits m bn.suffixLink (k.drop keysliceLength)
termination_by k.length
decreasing_by exact Trie.length_getSuffix_lt (by omega)

/-- What the loop of a put does to a trie in memory. -/
def PutsTo (key : KVKey) (value : Ptr) (m : Memory) (t : KVTrie) (numKeys : Nat) : Prop :=
  ∀ rounds, key.len + 2 ≤ rounds → ∃ w' m' c', ∃ t' : KVTrie,
    putLoop value rounds ⟨addrOfTrie t, key, none, numKeys⟩ m = some (w', m') ∧
    Trie.Put (sortedListTable Ptr) key.bytes value [] t c' t' ∧ addrOfTrie t' = addrOfTrie t ∧
    w'.numKeys = (if find key.bytes t = none then numKeys + 1 else numKeys) ∧ m'.Good w'.numKeys ∧
    KeptIn m.heap m'.heap m.next m'.next (fun p => Occurs p t) ∧
    HeldIn m'.heap t' (fun p => Occurs p t ∨ m.next ≤ p ∧ p < m'.next)

/-! ### Case 1.1 -/

section Found

variable {w : Walk} {k : Key} {v p : Ptr}

theorem getPrefix_view_ne {i : Nat} {v : Ptr} (h : getPrefix i bn.view = some v) : v ≠ NULL := by
  cases i with
  | zero => cases h
  | succ i =>
    unfold getPrefix BorderNode.view at h
    simp only [List.getD_eq_getElem?_getD, List.getElem?_map] at h
    cases here : bn.prefixLinks[i]? with
    | none =>
      rw [here] at h
      cases h
    | some p =>
      rw [here, Option.map_some, Option.getD_some] at h
      unfold value? at h
      rw [Option.ite_none_left_eq_some] at h
      obtain ⟨used, same⟩ := h
      exact Option.some.inj same ▸ used

theorem getPrefix_eq_none (i : Nat) :
    (getPrefix i bn.view).getD NULL = NULL ↔ getPrefix i bn.view = none := by
  cases value : getPrefix i bn.view with
  | none => simp
  | some v => simpa using getPrefix_view_ne value

theorem putFound_short (valid : bn.Valid) (hv : value ≠ NULL) (pos : 0 < w.key.len)
    (short : w.key.len ≤ keysliceLength) : ∃ bn', putFound value a bn w m
      = some (true, { w with numKeys := if getPrefix w.key.len bn.view = none then w.numKeys + 1
          else w.numKeys }, m.setBorderNode a bn') ∧
      bn'.Valid ∧ bn'.view = putPrefix w.key.len value bn.view := by
  obtain ⟨bn', set, valid', view⟩ := view_setPrefixValue (v := value) valid pos short hv
  refine ⟨bn', ?_, valid', view⟩
  unfold putFound
  simp only [if_pos short, getPrefixValue_eq valid pos short, set, Option.bind_eq_bind, Option.bind_some,
    getPrefix_eq_none]
  rfl

theorem putFound_free (valid : bn.Valid) (hv : value ≠ NULL) (long : keysliceLength < w.key.len)
    (nothing : bn.view.suffix = none) (fits : (w.key.bytes.drop keysliceLength).length < 2 ^ 32) :
    ∃ bn', putFound value a bn w m
      = some (true, { w with numKeys := w.numKeys + 1 }, m.setBorderNode a bn') ∧
      bn'.Valid ∧ bn'.view = putSuffix (w.key.bytes.drop keysliceLength) value bn.view := by
  obtain ⟨noSuffix, null⟩ := suffix_none nothing
  obtain ⟨bn', set, valid', view⟩ := view_setSuffixValue (v := value) valid fits hv
  refine ⟨bn', ?_, valid', view⟩
  unfold putFound BN_HasSuffix BN_GetLink
  simp [noSuffix, null, set, Nat.not_le.mpr long]

theorem putFound_same (valid : bn.Valid) (hv : value ≠ NULL) (long : keysliceLength < w.key.len)
    (pair : bn.view.suffix = some (.inl (k, v))) (same : w.key.bytes.drop keysliceLength = k) :
    ∃ bn', putFound value a bn w m = some (true, w, m.setBorderNode a bn') ∧
      bn'.Valid ∧ bn'.view = putSuffix (w.key.bytes.drop keysliceLength) value bn.view := by
  obtain ⟨suffix, -⟩ := suffix_pair pair
  obtain ⟨bn', set, valid', view⟩ := view_setSuffixValue (v := value) valid
    (same ▸ (valid.suffix k suffix).1) hv
  refine ⟨bn', ?_, valid', view⟩
  have test : BN_TestSuffix bn w.key = true := by
    unfold BN_TestSuffix
    rw [suffix]
    simp only [IndexString.strEqual_eq, same, beq_self_eq_true]
  unfold putFound BN_HasSuffix
  simp [suffix, test, set, Nat.not_le.mpr long]

theorem putFound_conflict (value : Ptr) (long : keysliceLength < w.key.len)
    (pair : bn.view.suffix = some (.inl (k, v))) (differ : w.key.bytes.drop keysliceLength ≠ k)
    (made : newKVNode m = some (p, m')) : putFound value a bn w m
      = some (false, { w with currNode := p, key := w.key.advance, snd := some (KV_MoveKey k, v) },
        m'.setBorderNode a (BN_SetLink bn p)) := by
  obtain ⟨suffix, link⟩ := suffix_pair pair
  have test : BN_TestSuffix bn w.key = false := by
    unfold BN_TestSuffix
    rw [suffix]
    simp only [IndexString.strEqual_eq]
    exact beq_false_of_ne differ
  unfold putFound BN_HasSuffix BN_ExportSuffixValue
  simp [suffix, test, made, link, Nat.not_le.mpr long]
  rfl

theorem putFound_link (value : Ptr) (long : keysliceLength < w.key.len) (link : bn.view.suffix = some (.inr p)) :
    putFound value a bn w m = some (false, { w with currNode := p, key := w.key.advance }, m) := by
  obtain ⟨noSuffix, rfl, used⟩ := suffix_link link
  unfold putFound BN_HasSuffix BN_GetLink
  simp [noSuffix, used, Nat.not_le.mpr long]

theorem putPrefix_putPrefix {E T : Type} (i : Nat) (v : E) (b : Bordernode E T) :
    putPrefix i v (putPrefix i v b) = putPrefix i v b := by
  cases i with
  | zero => rfl
  | succ i =>
    unfold putPrefix
    simp only [List.set_set]

/-- A new border node is written again with the value that it has. -/
theorem putFound_again (hk : w.key.bytes ≠ []) (hv : value ≠ NULL)
    (fits : (w.key.bytes.drop keysliceLength).length < 2 ^ 32)
    (set : BN_SetValue BN_NewBorderNode w.key value = some bn) :
    ∃ bn', putFound value a bn w m = some (true, w, m.setBorderNode a bn') ∧ bn'.Valid ∧
      bn'.view = bn.view := by
  obtain ⟨bn1, set1, valid, view⟩ := view_setValue (v := value) valid_new hk fits hv
  rw [set] at set1
  cases set1
  rw [view_new] at view
  unfold putValue at view
  rw [length_bytes] at view
  by_cases short : w.key.len ≤ keysliceLength
  · rw [if_pos short] at view
    have pos : 0 < w.key.len := by
      rw [← length_bytes]
      exact List.length_pos_iff.mpr hk
    obtain ⟨bn', run, valid', view'⟩ := putFound_short (a := a) (m := m) valid hv pos short
    have used : getPrefix w.key.len bn.view = some value := by
      rw [view]
      exact Trie.BorderNode.get_put_prefix_same Trie.BorderNode.empty_invariant (Nat.ne_of_gt pos) short
    refine ⟨bn', ?_, valid', ?_⟩
    · rw [run, used]
      rfl
    · rw [view', view, putPrefix_putPrefix]
  · rw [if_neg short] at view
    have pair : bn.view.suffix = some (.inl (w.key.bytes.drop keysliceLength, value)) := by
      rw [view]
      rfl
    obtain ⟨bn', run, valid', view'⟩ := putFound_same (a := a) (m := m) valid hv (Nat.lt_of_not_le short)
      pair rfl
    refine ⟨bn', run, valid', ?_⟩
    rw [view', view]
    rfl

end Found

/-! ### A slice with a border node -/


/-- The border node of a slice is written, with the link it had or none. -/
theorem setBorderNode_held (held : HeldIn m.heap (.of addr tableform listform : KVTrie) (fun p => p < m.next))
    (sorted : Sorted listform) (found : lookup s listform = some (a, bnode))
    (view : bn.view = map addrOfTrie bnode')
    (link : ∀ t, bnode'.suffix = some (.inr t) → bnode.suffix = some (.inr t)) :
    KeptIn m.heap (m.setBorderNode a bn).heap m.next m.next
        (fun p => Occurs p (.of addr tableform listform : KVTrie)) ∧
      HeldIn (m.setBorderNode a bn).heap (.of addr tableform (put s (a, bnode') listform) : KVTrie)
        (fun p => Occurs p (.of addr tableform listform : KVTrie) ∨ m.next ≤ p ∧ p < m.next) := by
  have own : Trie.Own s listform a := Trie.own_of_lookup found (.inl rfl)
  have kept : KeptIn m.heap (m.setBorderNode a bn).heap m.next m.next (fun p => p = a) :=
    keptIn_of (Nat.le_refl _) (fun _ _ _ => rfl) (fun p _ other => if_neg other)
  refine ⟨kept.mono fun p _ same => same ▸ Trie.own_occurs own, ?_⟩
  refine held.write sorted (kept.mono fun p _ same => .inr (same ▸ own)) held.index ?_ ?_ ?_
  · have here : (m.setBorderNode a bn).borderNode a = some bn := if_pos rfl
    exact (heap_node here).trans (congrArg some view)
  · rintro p (rfl | ⟨t, linked, occurs⟩)
    · exact .inl own
    · exact .inl (Trie.own_of_lookup found (.inr ⟨t, link t linked, occurs⟩))
  · intro t linked
    have sub := held.link found (link t linked)
    have apart := held.own found (link t linked)
    refine ⟨sub.rep.kept kept fun p occurs => ⟨sub.occurs p occurs, ?_⟩, sub.separate, apart⟩
    rintro rfl
    exact apart occurs

/-- A round in a layer that has a border node for the slice. -/
theorem putRound_found (value : Ptr) (numKeys : Nat)
    (correct : Correct (sortedListTable Ptr) least below (.of addr tableform listform : KVTrie))
    (held : HeldIn m.heap (.of addr tableform listform : KVTrie) (fun p => p < m.next)) (good : m.Good n)
    (found : lookup (getKeyslice key.bytes) listform = some (a, bnode)) :
    ∃ m1 bn, Moved m m1 ∧ m.borderNode a = some bn ∧ bn.Valid ∧ bn.view = map addrOfTrie bnode ∧
      m.border key.bytes addr = some bn ∧ putRound value ⟨addr, key, none, numKeys⟩ m
        = putFound value a bn ⟨addr, key, none, numKeys⟩ m1 := by
  obtain ⟨entries, layer, -, looked⟩ := held_layer held correct
  obtain ⟨bn, border, view⟩ := held_border held found
  have here := looked key.bytes
  rw [found, Option.map_some] at here
  obtain ⟨m1, moved, run⟩ := putRound_search value (w := ⟨addr, key, none, numKeys⟩)
    good.valid layer rfl
  refine ⟨m1, bn, moved, border, good.nodes a bn border, view, ?_, ?_⟩
  · rw [border_eq layer, here, Option.bind_some, border]
  · rw [run]
    simp only [here, border, Option.bind_some]

/-- A put that is completed by writing the border node of the slice. -/
theorem putsTo_written {c' : Trie.Cursor (sortedListTable Ptr) Ptr} {bn' : BorderNode} {num : Nat}
    {m1 : Memory}
    (held : HeldIn m.heap (.of addr tableform listform : KVTrie) (fun p => p < m.next))
    (sorted : Sorted listform) (good : m.Good numKeys) (moved : Moved m m1)
    (found : lookup s listform = some (a, bnode))
    (run : putRound value ⟨addr, key, none, numKeys⟩ m
      = some (true, ⟨addr, key, none, num⟩, m1.setBorderNode a bn'))
    (valid : bn'.Valid) (view : bn'.view = map addrOfTrie bnode')
    (link : ∀ t, bnode'.suffix = some (.inr t) → bnode.suffix = some (.inr t))
    (putRel : Trie.Put (sortedListTable Ptr) key.bytes value [] (.of addr tableform listform) c'
      (.of addr tableform (put s (a, bnode') listform)))
    (count : num = if find key.bytes (.of addr tableform listform : KVTrie) = none then numKeys + 1
      else numKeys) :
    PutsTo key value m (.of addr tableform listform) numKeys := by
  intro rounds enough
  obtain ⟨rounds, rfl⟩ : ∃ r, rounds = r + 1 := ⟨rounds - 1, by omega⟩
  rw [← moved.heap, ← moved.next] at held
  obtain ⟨kept, held'⟩ := setBorderNode_held held sorted found view link
  rw [moved.heap, moved.next] at kept
  rw [moved.next] at held'
  have le : numKeys ≤ num := by
    rw [count]
    split
    · exact Nat.le_succ _
    · exact Nat.le_refl _
  refine ⟨⟨addr, key, none, num⟩, m1.setBorderNode a bn', c', _, ?_, putRel, rfl, count, ((good.moved moved).setBorderNode valid).mono le, ?_, ?_⟩
  · rw [putLoop, addrOfTrie, run]
    rfl
  · have next : (m1.setBorderNode a bn').next = m.next := moved.next
    rw [next]
    exact kept
  · have next : (m1.setBorderNode a bn').next = m.next := moved.next
    rw [next]
    exact held'


/-- A suffix conflict makes the trie of the pair under the slice. -/
theorem put_pair {k : Key} {v : Ptr} {m1 : Memory}
    (correct : Correct (sortedListTable Ptr) least below (.of addr tableform listform : KVTrie))
    (held : HeldIn m.heap (.of addr tableform listform : KVTrie) (fun p => p < m.next))
    (good : m.Good numKeys) (moved : Moved m m1) (long : keysliceLength < key.len) (hv : value ≠ NULL)
    (found : lookup (getKeyslice key.bytes) listform = some (a, bnode)) (valid : bn.Valid)
    (view : bn.view = map addrOfTrie bnode) (pair : bnode.suffix = some (.inl (k, v)))
    (differ : getSuffix key.bytes ≠ k) (fits : PairFits (getSuffix key.bytes) k)
    (run : putRound value ⟨addr, key, none, numKeys⟩ m = putFound value a bn ⟨addr, key, none, numKeys⟩ m1) :
    PutsTo key value m (.of addr tableform listform) numKeys := by
  intro rounds enough
  obtain ⟨rounds, rfl⟩ : ∃ r, rounds = r + 1 := ⟨rounds - 1, by omega⟩
  have long' : keysliceLength < key.bytes.length := (length_bytes key).symm ▸ long
  have pair' : bn.view.suffix = some (.inl (k, v)) := by
    rw [view]
    unfold map
    rw [pair]
    rfl
  obtain ⟨suffix, suffixLink⟩ := suffix_pair pair'
  obtain ⟨fits2, hv2⟩ := valid.suffix k suffix
  rw [suffixLink] at hv2
  have good1 := good.moved moved
  obtain ⟨m2, made, valid2, layers, borders, next⟩ := newKVNode_spec good1.valid
  rw [moved.next] at made layers next
  have written := putFound_conflict value (a := a) (w := ⟨addr, key, none, numKeys⟩) long pair'
    differ made
  have borders3 : (m2.setBorderNode a (BN_SetLink bn m.next)).borderNode
      = Function.update m1.borderNode a (some (BN_SetLink bn m.next)) := by
    rw [← borders]
    funext q
    rw [Function.update_apply]
    rfl
  obtain ⟨entries, layer, -, looked⟩ := held_layer held correct
  have some_entry : 1 ≤ entries.length := by
    have here := looked key.bytes
    rw [found, Option.map_some] at here
    exact List.length_pos_of_mem (mem_of_lookup here)
  have one : 1 ≤ numKeys := some_entry.trans (good.small addr entries layer)
  have good3 : (m2.setBorderNode a (BN_SetLink bn m.next)).Good (numKeys + 1) :=
    good1.written (Nat.le_succ _) valid2 layers (Nat.zero_le _) borders3 (valid_setLink valid)
      (by rw [moved.next]; exact next ▸ Nat.le_succ _)
  have layer3 : (m2.setBorderNode a (BN_SetLink bn m.next)).layer m.next = some [] := by
    have same : m2.layer m.next = some [] := by rw [layers, Function.update_self]
    exact same
  have rest : key.advance.bytes ≠ [] := by
    rw [advance_bytes]
    exact Trie.getSuffix_ne_nil long'
  have fits' : PairFits key.advance.bytes (KV_MoveKey k).bytes := by
    rw [advance_bytes, bytes_moveKey]
    exact fits
  have hk : k ≠ [] := (correct.node found).pair pair
  have enough' : key.advance.len < rounds := by
    have shorter : key.advance.len ≤ key.len := Nat.sub_le _ _
    omega
  obtain ⟨w', m', loop, num, c, t, pairs, addr_eq, good', kept', held'⟩ := pair_spec numKeys
    good3 (Nat.succ_le_succ one) layer3 (next ▸ Nat.lt_succ_self _) rest ((bytes_moveKey k).symm ▸ hk)
    fits' fits2 hv hv2 enough'
  rw [advance_bytes, bytes_moveKey] at pairs
  have own : Trie.Own (getKeyslice key.bytes) listform a := Trie.own_of_lookup found (.inl rfl)
  have below_a : a < m.next := held.occurs a (Trie.own_occurs own)
  have apart : addr ≠ a := by
    rintro rfl
    exact held.layer (mem_of_lookup found) (.inl rfl)
  have kept3 : KeptIn m.heap (m2.setBorderNode a (BN_SetLink bn m.next)).heap m.next m2.next
      (fun p => p = a) := by
    rw [← moved.heap]
    refine keptIn_of (next ▸ Nat.le_succ _) (fun q here _ => ?_) (fun q _ other => ?_)
    · have same : m2.layer q = m1.layer q := by rw [layers, Function.update_of_ne (Nat.ne_of_lt here)]
      exact same
    · rw [borders3, Function.update_of_ne other]
  have whole : KeptIn m.heap m'.heap m.next m'.next (fun p => p = a) := by
    refine ⟨kept3.next.trans kept'.next, fun q here other => ?_⟩
    obtain ⟨index, node⟩ := kept3.frame q here other
    obtain ⟨index', node'⟩ := kept'.frame q (Nat.lt_of_lt_of_le here kept3.next) (Nat.ne_of_lt here)
    exact ⟨index'.trans index, node'.trans node⟩
  have node3 : (m2.setBorderNode a (BN_SetLink bn m.next)).heap.node a
      = some (map addrOfTrie (putLink t bnode)) := by
    have border3 : (m2.setBorderNode a (BN_SetLink bn m.next)).borderNode a
        = some (BN_SetLink bn m.next) := if_pos rfl
    rw [heap_node border3, view_setLink (Nat.ne_of_gt good.next), view, ← addr_eq]
    rfl
  have inside : ∀ q, Occurs q t → m.next ≤ q ∧ q < m'.next := by
    intro q occurs
    rcases held'.occurs q occurs with rfl | ⟨low, high⟩
    · exact ⟨Nat.le_refl _, Nat.lt_of_lt_of_le (next ▸ Nat.lt_succ_self _) kept'.next⟩
    · exact ⟨kept3.next.trans low, high⟩
  refine ⟨w', m', _, .of addr tableform (put (getKeyslice key.bytes) (a, putLink t bnode) listform), ?_,
    .case5 ((Trie.Flattened.getExact_eq correct.sorted).trans found) long'
      (by unfold getSuffixPair; rw [pair]) differ pairs rfl ⟨correct.sorted, Nat.zero_le _⟩
      ⟨rfl, rfl⟩, rfl, ?_, num ▸ good', whole.mono fun q _ same => same ▸ Trie.own_occurs own,
    held.write correct.sorted (whole.mono fun q _ same => .inr (same ▸ own)) ?_ ?_ ?_ ?_⟩
  · rw [putLoop, addrOfTrie, run, written]
    exact loop
  · rw [num, Trie.find_of, found, Option.bind_some, Trie.findNode_long long', pair]
    simp only [if_neg differ, if_pos]
  · rw [(whole.frame addr (held.occurs addr .layer) apart).1, held.index]
  · rw [(kept'.frame a (Nat.lt_of_lt_of_le below_a kept3.next) (Nat.ne_of_lt below_a)).2]
    exact node3
  · rintro q (rfl | ⟨t', link, occurs⟩)
    · exact .inl own
    · cases link
      exact .inr (inside q occurs)
  · intro t' link
    cases link
    exact ⟨held'.rep, held'.separate, fun occurs => Nat.not_le.mpr below_a (inside a occurs).1⟩

/-- The layer under a slice is changed by the rest of the put. -/
theorem put_link {m1 : Memory}
    (correct : Correct (sortedListTable Ptr) least below (.of addr tableform listform : KVTrie))
    (held : HeldIn m.heap (.of addr tableform listform : KVTrie) (fun p => p < m.next))
    (moved : Moved m m1) (long : keysliceLength < key.len)
    (found : lookup (getKeyslice key.bytes) listform = some (a, bnode))
    (view : bn.view = map addrOfTrie bnode) (link : bnode.suffix = some (.inr t))
    (run : putRound value ⟨addr, key, none, numKeys⟩ m = putFound value a bn ⟨addr, key, none, numKeys⟩ m1)
    (deeper : PutsTo key.advance value m1 t numKeys) :
    PutsTo key value m (.of addr tableform listform) numKeys := by
  intro rounds enough
  obtain ⟨rounds, rfl⟩ : ∃ r, rounds = r + 1 := ⟨rounds - 1, by omega⟩
  have long' : keysliceLength < key.bytes.length := (length_bytes key).symm ▸ long
  have linked : bn.view.suffix = some (.inr (addrOfTrie t)) := by
    rw [view]
    unfold map
    rw [link]
    rfl
  have written := putFound_link value (a := a) (m := m1) (w := ⟨addr, key, none, numKeys⟩)
    long linked
  have shorter : key.advance.len + 2 ≤ rounds := by
    have less : key.advance.len < key.len := Nat.sub_lt (Nat.zero_lt_of_lt long) (by decide)
    omega
  obtain ⟨w', m', c', t', loop, sub, addr_eq, num, good', kept', held'⟩ := deeper rounds shorter
  rw [advance_bytes] at sub num
  rw [moved.heap, moved.next] at kept'
  rw [moved.next] at held'
  have member := mem_of_lookup found
  have own : Trie.Own (getKeyslice key.bytes) listform a := Trie.own_of_lookup found (.inl rfl)
  have under (q : Ptr) (occurs : Occurs q t) : Trie.Own (getKeyslice key.bytes) listform q :=
    Trie.own_of_lookup found (.inr ⟨t, link, occurs⟩)
  have below_addr : addr < m.next := held.occurs addr .layer
  have below_a : a < m.next := held.occurs a (Trie.own_occurs own)
  have apart : ¬Occurs addr t := fun occurs => held.layer member (.inr ⟨t, link, occurs⟩)
  have apart_a := held.own found link
  have relinked : map addrOfTrie (putLink t' bnode) = map addrOfTrie bnode := by
    unfold map putLink
    rw [link, Option.map_some, Option.map_some, Sum.map_inr, Sum.map_inr, addr_eq]
  refine ⟨w', m', _, .of addr tableform (put (getKeyslice key.bytes) (a, putLink t' bnode) listform), ?_,
    .case2 ((Trie.Flattened.getExact_eq correct.sorted).trans found) long'
      (Trie.BorderNode.getLink_eq_some.mpr link) sub rfl ⟨correct.sorted, Nat.zero_le _⟩ ⟨rfl, rfl⟩, rfl,
    ?_, good', kept'.mono fun q _ occurs => Trie.own_occurs (under q occurs),
    held.write correct.sorted (kept'.mono fun q _ occurs => .inr (under q occurs)) ?_ ?_ ?_ ?_⟩
  · rw [putLoop, addrOfTrie, run, written]
    exact loop
  · rw [num, Trie.find_of, found, Option.bind_some, Trie.findNode_long long', link]
    rfl
  · rw [(kept'.frame addr below_addr apart).1, held.index]
  · rw [(kept'.frame a below_a apart_a).2, held.node found, relinked]
  · rintro q (rfl | ⟨t1, linked1, occurs⟩)
    · exact .inl own
    · cases linked1
      exact (held'.occurs q occurs).imp_left (under q)
  · intro t1 linked1
    cases linked1
    refine ⟨held'.rep, held'.separate, fun occurs => ?_⟩
    rcases held'.occurs a occurs with old | new
    · exact apart_a old
    · exact Nat.not_le.mpr below_a new.1

theorem heap_setBorderNode_same {bn' : BorderNode} (here : m.borderNode a = some bn)
    (view : bn'.view = bn.view) : (m.setBorderNode a bn').heap = m.heap := by
  unfold Memory.heap
  congr 1
  funext q
  unfold Memory.setBorderNode
  simp only
  by_cases same : q = a
  · rw [if_pos same, same, here, Option.map_some, Option.map_some, view]
  · rw [if_neg same]

/-- A slice gets its first border node, and the next round finds it. -/
theorem put_new (correct : Correct (sortedListTable Ptr) least below (.of addr tableform listform : KVTrie))
    (held : HeldIn m.heap (.of addr tableform listform : KVTrie) (fun p => p < m.next))
    (good : m.Good numKeys) (hk : key.bytes ≠ []) (hv : value ≠ NULL)
    (absent : lookup (getKeyslice key.bytes) listform = none)
    (fits : (key.bytes.drop keysliceLength).length < 2 ^ 32) (few : numKeys + 1 < 2 ^ 61) :
    PutsTo key value m (.of addr tableform listform) numKeys := by
  intro rounds enough
  obtain ⟨rounds, rfl⟩ : ∃ r, rounds = r + 2 := ⟨rounds - 2, by omega⟩
  obtain ⟨entries, layer, wide, looked⟩ := held_layer held correct
  have here := looked key.bytes
  rw [absent, Option.map_none] at here
  obtain ⟨m1, moved, run⟩ := putRound_search value (w := ⟨addr, key, none, numKeys⟩)
    good.valid layer rfl
  have room := good.small addr entries layer
  have layer1 : m1.layer addr = some entries := by rw [moved.layer, layer]
  have held1 : HeldIn m1.heap (.of addr (widen entries) listform : KVTrie) (fun p => p < m1.next) := by
    rw [moved.heap, moved.next, wide]
    exact held
  obtain ⟨m2, bn, new, good2, layer2, border, set, next, kept, held2⟩ := putNew_held (good.moved moved)
    (Nat.le_succ _) layer1 hk fits hv (Nat.succ_le_succ room) (by omega) correct.sorted held1
  obtain ⟨m3, moved3, run3⟩ := putRound_search value (w := ⟨addr, key, none, numKeys + 1⟩)
    good2.valid layer2 rfl
  obtain ⟨bn', again, valid', view'⟩ := putFound_again (a := m1.next) (m := m3)
    (w := ⟨addr, key, none, numKeys + 1⟩) hk hv fits set
  have border3 : m3.borderNode m1.next = some bn := by rw [moved3.borderNode, border]
  have heap4 : (m3.setBorderNode m1.next bn').heap = m2.heap := by
    rw [heap_setBorderNode_same border3 view', moved3.heap]
  have next4 : (m3.setBorderNode m1.next bn').next = m2.next := moved3.next
  have first : putRound value ⟨addr, key, none, numKeys⟩ m
      = some (false, ⟨addr, key, none, numKeys + 1⟩, m2) := by
    rw [run]
    simp only [here, new, Option.map_some]
  have second : putRound value ⟨addr, key, none, numKeys + 1⟩ m2
      = some (true, ⟨addr, key, none, numKeys + 1⟩, m3.setBorderNode m1.next bn') := by
    rw [run3]
    simp only [lookup_put_self, border, Option.bind_some, again]
  rw [moved.heap, moved.next] at kept
  rw [wide, moved.next] at held2
  refine ⟨⟨addr, key, none, numKeys + 1⟩, m3.setBorderNode m1.next bn', _,
    .of addr (put (getKeyslice key.bytes) m.next tableform)
      (put (getKeyslice key.bytes) (m.next, putValue key.bytes value empty) listform), ?_,
    .case6 ((Trie.Flattened.getExact_eq correct.sorted).trans absent) rfl ⟨correct.sorted, Nat.zero_le _⟩
      ⟨rfl, rfl⟩ ((sortedListTable Ptr).first_cursor_abs correct.table) ⟨rfl, rfl⟩, rfl, ?_,
    (good2.moved moved3).setBorderNode valid', ?_, ?_⟩
  · rw [putLoop, addrOfTrie, first]
    change putLoop value (rounds + 1) ⟨addr, key, none, numKeys + 1⟩ m2 = _
    rw [putLoop, second]
    rfl
  · rw [Trie.find_of, absent]
    rfl
  · rw [heap4, next4]
    exact kept.mono fun q _ same => same ▸ .layer
  · rw [heap4, next4]
    exact held2

theorem putFits_found {k : Key} {p : Ptr} (here : m.border k p = some bn)
    (long : keysliceLength < k.length) : PutFits m p k ↔
      match bn.keySuffix with
      | some suffix => k.drop keysliceLength = suffix ∨ PairFits (k.drop keysliceLength) suffix
      | none =>
        if bn.suffixLink = NULL then (k.drop keysliceLength).length < 2 ^ 32
        else PutFits m bn.suffixLink (k.drop keysliceLength) := by
  rw [PutFits, here]
  simp only [dif_neg (Nat.not_le.mpr long)]

/-- The cursors have no part in it. -/
theorem Moved.putFits (moved : Moved m m') {p : Ptr} {k : Key} (fits : PutFits m p k) :
    PutFits m' p k := by
  induction hn : k.length using Nat.strongRecOn generalizing p k with
  | ind l ih =>
    have same : m'.border k p = m.border k p := by
      unfold Memory.border
      rw [moved.layer, moved.borderNode]
    rw [PutFits] at fits ⊢
    rw [same]
    cases here : m.border k p with
    | none =>
      rw [here] at fits
      exact fits
    | some bn =>
      rw [here] at fits
      by_cases short : k.length ≤ keysliceLength
      · simp only [dif_pos short]
      simp only [dif_neg short] at fits ⊢
      cases suffix : bn.keySuffix with
      | some k' =>
        rw [suffix] at fits
        exact fits
      | none =>
        rw [suffix] at fits
        by_cases null : bn.suffixLink = NULL
        · simp only [if_pos null] at fits ⊢
          exact fits
        · simp only [if_neg null] at fits ⊢
          exact ih _ (hn ▸ Trie.length_getSuffix_lt (Nat.lt_of_not_le short)) fits rfl

/-- A put into a trie in memory. -/
theorem put_spec (correct : Correct (sortedListTable Ptr) least below t)
    (held : HeldIn m.heap t (fun p => p < m.next)) (good : m.Good numKeys) (hk : key.bytes ≠ [])
    (hv : value ≠ NULL) (fits : PutFits m (addrOfTrie t) key.bytes)
    (few : find key.bytes t = none → numKeys + 1 < 2 ^ 61) : PutsTo key value m t numKeys := by
  induction hn : key.len using Nat.strongRecOn generalizing key t m least with
  | ind l ih =>
    obtain ⟨addr, tableform, listform⟩ := t
    cases found : lookup (getKeyslice key.bytes) listform with
    | none =>
      obtain ⟨entries, layer, -, looked⟩ := held_layer held correct
      have absent : m.border key.bytes addr = none := by
        rw [border_eq layer, looked, found]
        rfl
      rw [addrOfTrie, PutFits, absent] at fits
      refine put_new correct held good hk hv found fits (few ?_)
      rw [Trie.find_of, found]
      rfl
    | some e =>
      obtain ⟨a, bnode⟩ := e
      obtain ⟨m1, bn, moved, -, valid, view, border, run⟩ :=
        putRound_found value numKeys correct held good found
      have exact := (Trie.Flattened.getExact_eq correct.sorted).trans found
      have list : Trie.Flattened.AbsRel (Trie.Flattened.firstCursor listform) listform :=
        ⟨correct.sorted, Nat.zero_le _⟩
      have holds : find key.bytes (.of addr tableform listform : KVTrie) = findNode key.bytes bnode := by
        rw [Trie.find_of, found, Option.bind_some]
      have suffix_eq : bn.view.suffix = bnode.suffix.map (Sum.map id addrOfTrie) := by
        rw [view]
        rfl
      by_cases short : key.len ≤ keysliceLength
      · have pos : 0 < key.len := by
          rw [← length_bytes]
          exact List.length_pos_iff.mpr hk
        have short' : key.bytes.length ≤ keysliceLength := (length_bytes key).le.trans short
        obtain ⟨bn', written, valid', view'⟩ := putFound_short (a := a) (m := m1)
          (w := ⟨addr, key, none, numKeys⟩) valid hv pos short
        rw [view, ← Trie.BorderNode.map_putPrefix] at view'
        refine putsTo_written held correct.sorted good moved found (run.trans written) valid' view' ?_
          (.case1 exact short' (length_bytes key ▸ rfl) list ⟨rfl, rfl⟩) ?_
        · intro t link
          rwa [Trie.BorderNode.putPrefix_suffix] at link
        · rw [holds, Trie.findNode_short short', length_bytes, view, Trie.BorderNode.getPrefix_map]
      have long := Nat.lt_of_not_le short
      have long' : keysliceLength < key.bytes.length := (length_bytes key).symm ▸ long
      have holds := holds.trans (Trie.findNode_long long')
      rw [addrOfTrie, putFits_found border long'] at fits
      cases hs : bnode.suffix with
      | none =>
        rw [hs, Option.map_none] at suffix_eq
        obtain ⟨noSuffix, null⟩ := suffix_none suffix_eq
        rw [noSuffix] at fits
        simp only [if_pos null] at fits
        obtain ⟨bn', written, valid', view'⟩ := putFound_free (a := a) (m := m1)
          (w := ⟨addr, key, none, numKeys⟩) valid hv long suffix_eq fits
        rw [view, ← Trie.BorderNode.map_putSuffix] at view'
        refine putsTo_written held correct.sorted good moved found (run.trans written) valid' view'
          (fun t link => by cases link) (.case3 exact long' hs rfl list ⟨rfl, rfl⟩) ?_
        rw [holds, hs]
        rfl
      | some rest =>
        cases rest with
        | inl pair =>
          obtain ⟨k, v⟩ := pair
          rw [hs, Option.map_some] at suffix_eq
          obtain ⟨suffix, -⟩ := suffix_pair suffix_eq
          rw [suffix] at fits
          by_cases same : getSuffix key.bytes = k
          · obtain ⟨bn', written, valid', view'⟩ := putFound_same (a := a) (m := m1)
              (w := ⟨addr, key, none, numKeys⟩) valid hv long suffix_eq same
            rw [view, ← Trie.BorderNode.map_putSuffix] at view'
            have equal : testSuffix (getSuffix key.bytes) bnode = true := by
              unfold testSuffix
              rw [hs, same]
              exact beq_self_eq_true k
            refine putsTo_written held correct.sorted good moved found (run.trans written) valid' view'
              (fun t link => by cases link) (.case4 exact long' equal rfl list ⟨rfl, rfl⟩) ?_
            rw [holds, hs]
            simp only [if_pos same]
            rfl
          · exact put_pair correct held good moved long hv found valid view hs same
              (fits.resolve_left same) run
        | inr t =>
          rw [hs, Option.map_some] at suffix_eq
          obtain ⟨noSuffix, link, used⟩ := suffix_link suffix_eq
          rw [noSuffix] at fits
          simp only [link, if_neg used] at fits
          have shorter : key.advance.len < l := hn ▸ Nat.sub_lt (Nat.zero_lt_of_lt long) (by decide)
          have sub : HeldIn m1.heap t (fun p => p < m1.next) := by
            rw [moved.heap, moved.next]
            exact held.link found hs
          have rest : key.advance.bytes ≠ [] := by
            rw [advance_bytes]
            exact Trie.getSuffix_ne_nil long'
          refine put_link correct held moved long found view hs run (ih _ shorter
            ((correct.node found).link hs) sub (good.moved moved) rest ?_ ?_ rfl)
          · rw [advance_bytes]
            exact moved.putFits fits
          · rw [advance_bytes]
            intro new
            apply few
            rw [holds, hs]
            exact new

end DeepDB.KV
