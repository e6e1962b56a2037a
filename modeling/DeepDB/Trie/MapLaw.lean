import DeepDB.Trie.Lookup

/-!
The map law of the functional trie. A put always has a result, the invariant survives it except that
two keys sharing their next slice make a layer of one entry, and the cursor of a key the trie holds
reads the key's value.
-/

namespace DeepDB.Trie

open SortedAssoc

variable {Val V : Type} {N : FlattenableTable Val}

/-! ### The invariant -/

theorem keyInrange_getKeyslice (k : Key) : KeyInrange (getKeyslice k) := getKeyslice_range k

/-- A layer of one slice. -/
theorem correct_single {below : Nat} (addr : Val) {bnodeAddr : Val} {emptytable tableform : N.Table}
    {c : N.Cursor} {k : Key} {bnode : Bordernode V (TrieOf N V)} (notable : N.Empty emptytable)
    (table : N.Put (getKeyslice k) bnodeAddr (N.firstCursor emptytable) emptytable c tableform)
    (node : NodeCorrect N below bnode) :
    Correct N 0 below (.of addr tableform (put (getKeyslice k) (bnodeAddr, bnode) [])) :=
  correct_insert (correct_empty notable) (keyInrange_getKeyslice k)
    (N.first_cursor_abs (N.empty_correct notable)) table node

/-- How many entries the first layer of a pair has. -/
def pairSize (k1 k2 : Key) : Nat := if getKeyslice k1 = getKeyslice k2 then 1 else 2

/-- The trie of a pair is correct as far as its layers are large enough. -/
theorem correct_createPair {least : Nat} {k1 k2 : Key} {v1 v2 : V} {c : Cursor N V} {t : TrieOf N V}
    (h : CreatePair N k1 k2 v1 v2 c t) (hk1 : k1 ≠ []) (hk2 : k2 ≠ []) :
    Correct N least least t ↔ least ≤ pairSize k1 k2 := by
  induction h with
  | @case1 k1 k2 v1 v2 _ _ _ _ _ _ _ _ _ same short hbnode nolist list notable table =>
    obtain ⟨rfl, -⟩ := list
    subst nolist hbnode
    have first : NodeCorrect N least (BorderNode.putValue k1 v1 BorderNode.empty) :=
      nodeCorrect_putValue BorderNode.empty_invariant v1 hk1 (Or.inl rfl)
    have node := nodeCorrect_putValue first.invariant v2 hk2 (Or.inr first)
    rw [correct_size, pairSize, if_pos same]
    exact ⟨fun h => h.2, fun size => ⟨correct_single _ notable table node, size⟩⟩
  | case2 same long sub hbnode nolist list notable table ih =>
    obtain ⟨rfl, -⟩ := list
    subst nolist hbnode
    have below := ih (getSuffix_ne_nil long.1) (getSuffix_ne_nil long.2)
    rw [correct_size, pairSize, if_pos same]
    refine ⟨fun h => h.2, fun size => ⟨correct_single _ notable table ?_, size⟩⟩
    rw [nodeCorrect_putLink BorderNode.empty_invariant, below, pairSize]
    have one : least ≤ 1 := size
    split <;> omega
  | @case3 k1 k2 v1 v2 _ _ _ _ _ _ _ _ _ _ _ _ addr _ _ apart hbnode1 hbnode2 nolist list2 list1
      notable table2 table1 =>
    obtain ⟨rfl, -⟩ := list2
    obtain ⟨rfl, -⟩ := list1
    subst nolist hbnode1 hbnode2
    have node1 : NodeCorrect N least (BorderNode.putValue k1 v1 BorderNode.empty) :=
      nodeCorrect_putValue BorderNode.empty_invariant v1 hk1 (Or.inl rfl)
    have node2 : NodeCorrect N least (BorderNode.putValue k2 v2 BorderNode.empty) :=
      nodeCorrect_putValue BorderNode.empty_invariant v2 hk2 (Or.inl rfl)
    have single := correct_single addr notable table2 node2
    have absent : ∀ x : Val × Bordernode V (TrieOf N V),
        getKeyslice k1 ∉ (put (getKeyslice k2) x []).map Prod.fst := fun x => by
      simpa [put] using apart
    rw [correct_size, pairSize, if_neg apart, length_put_of_not_mem (absent _)]
    refine ⟨fun h => h.2, fun size => ⟨?_, size⟩⟩
    exact correct_insert single (keyInrange_getKeyslice _) (N.first_cursor_abs single.table) table1
      node1

/-- The two keys a put of `k` would make a pair of. -/
def conflict {Table : Type} (k : Key) : Trienode Table Val V → Option (Key × Key)
  | .of _ _ listform =>
    match lookup (getKeyslice k) listform with
    | none => none
    | some (_, bnode) =>
      if _short : k.length ≤ keysliceLength then none
      else
        match bnode.suffix with
        | none => none
        | some (.inl (k', _)) => if getSuffix k = k' then none else some (getSuffix k, k')
        | some (.inr t') => conflict (getSuffix k) t'
termination_by k.length
decreasing_by exact length_getSuffix_lt (by omega)

section Conflict

variable {Table : Type} {k : Key} {s : Int} {addr bnodeAddr : Val} {tableform : Table}
  {listform : List (Int × (Val × Bordernode V (Trienode Table Val V)))}
  {bnode : Bordernode V (Trienode Table Val V)}

theorem conflict_absent (absent : lookup (getKeyslice k) listform = none) :
    conflict k (.of addr tableform listform) = none := by
  rw [conflict, absent]

theorem conflict_short (short : k.length ≤ keysliceLength) :
    conflict k (.of addr tableform listform) = none := by
  rw [conflict]
  cases lookup (getKeyslice k) listform with
  | none => rfl
  | some e => simp [short]

theorem conflict_long (found : lookup (getKeyslice k) listform = some (bnodeAddr, bnode))
    (long : keysliceLength < k.length) :
    conflict k (.of addr tableform listform) = match bnode.suffix with
      | none => none
      | some (.inl (k', _)) => if getSuffix k = k' then none else some (getSuffix k, k')
      | some (.inr t') => conflict (getSuffix k) t' := by
  rw [conflict, found]
  simp only [show ¬k.length ≤ keysliceLength by omega, dite_false]

end Conflict

/-- A put keeps a correct trie correct, as far as the pair it makes has large enough layers. -/
theorem correct_put {root below : Nat} {k : Key} {v : V} {c c' : Cursor N V} {t t' : TrieOf N V}
    (h : Put N k v c t c' t') (correct : Correct N root below t) (hk : k ≠ []) :
    Correct N root below t' ↔ ∀ s s', conflict k t = some (s, s') → below ≤ pairSize s s' := by
  induction h generalizing root with
  | case1 found short hbnode abs list =>
    obtain ⟨rfl, -⟩ := list
    subst hbnode
    rw [Flattened.getExact_eq correct.sorted] at found
    have node := correct.node found
    rw [correct_update correct found, conflict_short short]
    have zero : List.length _ ≠ 0 := fun empty => hk (List.length_eq_zero_iff.mp empty)
    exact ⟨fun _ _ _ no => (by cases no),
      fun _ => nodeCorrect_putPrefix node.invariant _ zero short (Or.inr node)⟩
  | case2 found long link sub hbnode abs list ih =>
    obtain ⟨rfl, -⟩ := list
    subst hbnode
    rw [Flattened.getExact_eq correct.sorted] at found
    have node := correct.node found
    have hlink := getLink_eq link
    rw [correct_update correct found, nodeCorrect_putLink node.invariant, conflict_long found long,
      hlink]
    exact ih (node.link hlink) (getSuffix_ne_nil long)
  | case3 found long nothing hbnode abs list =>
    obtain ⟨rfl, -⟩ := list
    subst hbnode
    rw [Flattened.getExact_eq correct.sorted] at found
    have node := correct.node found
    rw [correct_update correct found, conflict_long found long, nothing]
    exact ⟨fun _ _ _ no => (by cases no),
      fun _ => nodeCorrect_putSuffix node.invariant _ (getSuffix_ne_nil long)⟩
  | case4 found long equal hbnode abs list =>
    obtain ⟨rfl, -⟩ := list
    subst hbnode
    rw [Flattened.getExact_eq correct.sorted] at found
    have node := correct.node found
    obtain ⟨w, hs⟩ := testSuffix_eq equal
    rw [correct_update correct found, conflict_long found long, hs]
    simp only [if_true]
    exact ⟨fun _ _ _ no => (by cases no),
      fun _ => nodeCorrect_putSuffix node.invariant _ (getSuffix_ne_nil long)⟩
  | case5 found long pair differ create hbnode abs list =>
    obtain ⟨rfl, -⟩ := list
    subst hbnode
    rw [Flattened.getExact_eq correct.sorted] at found
    have node := correct.node found
    have hs := getSuffixPair_eq pair
    rw [correct_update correct found, nodeCorrect_putLink node.invariant, conflict_long found long,
      hs, correct_createPair create (getSuffix_ne_nil long) (node.pair hs)]
    simp only [if_neg differ, Option.some.injEq, Prod.mk.injEq]
    exact ⟨fun size s s' ⟨hs, hs'⟩ => by rw [← hs, ← hs']; exact size,
      fun all => all _ _ ⟨rfl, rfl⟩⟩
  | @case6 k v _ _ _ _ _ _ _ _ _ _ _ _ absent hbnode abs list tableAbs table =>
    obtain ⟨rfl, -⟩ := list
    subst hbnode
    rw [Flattened.getExact_eq correct.sorted] at absent
    rw [conflict_absent absent]
    have node : NodeCorrect N below (BorderNode.putValue k v BorderNode.empty) :=
      nodeCorrect_putValue BorderNode.empty_invariant v hk (Or.inl rfl)
    exact ⟨fun _ _ _ no => (by cases no),
      fun _ => correct_insert correct (keyInrange_getKeyslice _) tableAbs table node⟩

/-! ### Results -/

theorem createPair_exists [Nonempty Val] (k1 k2 : Key) (v1 v2 : V) :
    ∃ c t, CreatePair N k1 k2 v1 v2 c t := by
  obtain ⟨a⟩ := ‹Nonempty Val›
  obtain ⟨e, he⟩ := N.empty_exists
  have room := N.first_cursor_abs (N.empty_correct he)
  induction hn : k1.length using Nat.strongRecOn generalizing k1 k2 with
  | ind n ih =>
    by_cases same : getKeyslice k1 = getKeyslice k2
    · obtain ⟨tc, tableform, table⟩ := N.put_exists room (getKeyslice k1) a
      by_cases short : k1.length ≤ keysliceLength ∨ k2.length ≤ keysliceLength
      · exact ⟨_, .of a tableform _, .case1 same short rfl rfl ⟨rfl, rfl⟩ he table⟩
      · have long : keysliceLength < k1.length ∧ keysliceLength < k2.length := by omega
        obtain ⟨c', t', sub⟩ := ih _ (hn ▸ length_getSuffix_lt long.1) (getSuffix k1) (getSuffix k2)
          rfl
        exact ⟨_, .of a tableform _, .case2 same long sub rfl rfl ⟨rfl, rfl⟩ he table⟩
    · obtain ⟨tc2, tableform2, table2⟩ := N.put_exists room (getKeyslice k2) a
      have room2 := N.first_cursor_abs (N.put_correct room table2)
      obtain ⟨tc1, tableform1, table1⟩ := N.put_exists room2 (getKeyslice k1) a
      exact ⟨_, .of a tableform1 _,
        .case3 same rfl rfl rfl ⟨rfl, rfl⟩ ⟨rfl, rfl⟩ he table2 table1⟩

theorem put_exists [Nonempty Val] {root below : Nat} (k : Key) (v : V) (c : Cursor N V)
    {t : TrieOf N V} (correct : Correct N root below t) : ∃ c' t', Put N k v c t c' t' := by
  obtain ⟨a⟩ := ‹Nonempty Val›
  induction hn : k.length using Nat.strongRecOn generalizing k t root c with
  | ind n ih =>
    obtain ⟨addr, tableform, listform⟩ := t
    have list : Flattened.AbsRel (Flattened.firstCursor listform) listform :=
      ⟨correct.sorted, Nat.zero_le _⟩
    cases hf : Flattened.getExact (getKeyslice k) listform with
    | none =>
      have tableAbs := N.first_cursor_abs correct.table
      obtain ⟨tc', tableform', table⟩ := N.put_exists tableAbs (getKeyslice k) a
      exact ⟨_, _, .case6 hf rfl list ⟨rfl, rfl⟩ tableAbs table⟩
    | some e =>
      obtain ⟨bnodeAddr, bnode⟩ := e
      have found := hf
      rw [Flattened.getExact_eq correct.sorted] at found
      by_cases short : k.length ≤ keysliceLength
      · exact ⟨_, _, .case1 hf short rfl list ⟨rfl, rfl⟩⟩
      · have long := Nat.lt_of_not_le short
        cases hs : bnode.suffix with
        | none => exact ⟨_, _, .case3 hf long hs rfl list ⟨rfl, rfl⟩⟩
        | some w =>
          cases w with
          | inl pair =>
            obtain ⟨k', v'⟩ := pair
            by_cases equal : getSuffix k = k'
            · have test : BorderNode.testSuffix (getSuffix k) bnode = true := by
                unfold BorderNode.testSuffix
                rw [hs]
                exact beq_iff_eq.mpr equal
              exact ⟨_, _, .case4 hf long test rfl list ⟨rfl, rfl⟩⟩
            · have pair : BorderNode.getSuffixPair bnode = some (k', v') := by
                unfold BorderNode.getSuffixPair
                rw [hs]
              have : Nonempty Val := ⟨a⟩
              obtain ⟨cp, tp, create⟩ := createPair_exists (N := N) (getSuffix k) k' v v'
              exact ⟨_, _, .case5 hf long pair equal create rfl list ⟨rfl, rfl⟩⟩
          | inr t' =>
            have link : BorderNode.getLink bnode = some t' := by
              unfold BorderNode.getLink
              rw [hs]
            obtain ⟨c'', t'', sub⟩ := ih _ (hn ▸ length_getSuffix_lt long) (getSuffix k) []
              ((correct.node found).link hs) rfl
            exact ⟨_, _, .case2 hf long link sub rfl list ⟨rfl, rfl⟩⟩

/-! ### Reading a key -/

variable (K : TrieKey)

/-- The cursor of a key the trie holds is already at its entry, and reads its value. -/
theorem normalize_makeCursor {root below : Nat} {k : Key} {v : V} {t : TrieOf N V}
    (correct : Correct N root below t) (held : find k t = some v) :
    ∃ c key, normalizeCursor N (makeCursor K N k t) = some c ∧ getRaw N c = some (key, v) := by
  induction hn : k.length using Nat.strongRecOn generalizing k t root with
  | ind n ih =>
    obtain ⟨addr, tableform, listform⟩ := t
    cases found : lookup (getKeyslice k) listform with
    | none =>
      rw [find_absent found] at held
      cases held
    | some e =>
      obtain ⟨bnodeAddr, bnode⟩ := e
      rw [find_found found rfl] at held
      have member : getKeyslice k ∈ (N.flatten tableform).map Prod.fst := by
        rw [correct.entries, List.map_map]
        exact List.mem_map_of_mem (f := fun e => e.1) (mem_of_lookup found)
      have key := FlattenableTable.getKey_makeCursor correct.table member
      have exact := (Flattened.getExact_eq correct.sorted).trans found
      unfold makeCursor
      simp only [exact]
      by_cases short : k.length ≤ keysliceLength
      · rw [findNode_short short] at held
        have used : (BorderNode.getPrefix k.length bnode).isSome := by simp [held]
        have here := BorderNode.nextCursor_prefix used
        simp only [short, dite_true]
        refine ⟨[(.of addr tableform listform, N.makeCursor (getKeyslice k) tableform, bnode,
          .beforePrefix k.length)], reconstructKeyslice (getKeyslice k) k.length, ?_, ?_⟩
        · simp only [normalizeCursor, here]
        · simp only [getRaw, key, held]
      · have long := Nat.lt_of_not_le short
        rw [findNode_long long] at held
        simp only [short, dite_false]
        cases hs : bnode.suffix with
        | none =>
          rw [hs] at held
          cases held
        | some w =>
          have here := BorderNode.nextCursor_suffix (t := bnode) (by rw [hs]; rfl)
          cases w with
          | inl pair =>
            obtain ⟨k', v'⟩ := pair
            rw [hs] at held
            simp only [Option.ite_none_right_eq_some, Option.some.injEq] at held
            obtain ⟨rfl, rfl⟩ := held
            have notLess : ¬K.lt (getSuffix k) (getSuffix k) := fun lt => K.lt_not_eq lt rfl
            simp only [if_neg notLess]
            refine ⟨[(.of addr tableform listform, N.makeCursor (getKeyslice k) tableform, bnode,
              .beforeSuffix)], reconstructKeyslice (getKeyslice k) keysliceLength ++ getSuffix k,
              ?_, ?_⟩
            · simp only [normalizeCursor, here, hs]
            · simp only [getRaw, key, hs]
          | inr t' =>
            rw [hs] at held
            obtain ⟨c, rest, normal, raw⟩ := ih _ (hn ▸ length_getSuffix_lt long)
              ((correct.node found).link hs) held rfl
            refine ⟨(.of addr tableform listform, N.makeCursor (getKeyslice k) tableform, bnode,
              .beforeSuffix) :: c, reconstructKeyslice (getKeyslice k) keysliceLength ++ rest,
              ?_, ?_⟩
            · simp only [normalizeCursor, normal]
            · simp only [getRaw, key, hs, raw]

theorem getValue_makeCursor {root below : Nat} {k : Key} {v : V} {t : TrieOf N V}
    (correct : Correct N root below t) (held : find k t = some v) :
    getValue N (makeCursor K N k t) t = some v := by
  obtain ⟨c, key, normal, raw⟩ := normalize_makeCursor K correct held
  unfold getValue get
  simp only [normal, raw]

end DeepDB.Trie
