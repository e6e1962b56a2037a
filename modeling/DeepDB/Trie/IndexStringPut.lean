import DeepDB.Trie.IndexStringMemory

/-!
`create_pair` and `put` of the string index in memory do what the relations of the functional trie
allow. Every copy has its block when the bytes that `put` copies whole are no more than an
`unsigned int` can say.
-/

namespace DeepDB.IndexString
open Trie SortedAssoc
open Trie.BorderNode (map getLink getSuffixPair testSuffix)

variable {N : IntIndex} {m m' : Memory N} {p a addr : Ptr} {bn : BorderNode} {key : Key} {v : Ptr}

theorem putValue_link {E T : Type} {b : Bordernode E T} {k : Key} {v : E} {t : T}
    (link : (BorderNode.putValue k v b).suffix = some (.inr t)) : b.suffix = some (.inr t) := by
  unfold BorderNode.putValue at link
  split at link
  · rwa [BorderNode.putPrefix_suffix] at link
  · cases link

/-! ### Pairs -/

/-- The new layer that `Iempty` gives. -/
theorem Iempty_held (m : Memory N) :
    Held (Iempty m).2 (.of m.next N.emptyTable []) (fun p => p = m.next) where
  rep := .of (if_pos rfl) (fun _ no => (by cases no)) (fun _ no => (by cases no))
  separate := .of (fun _ no => (by cases no)) (fun _ no => (by cases no))
    (fun _ no => (by cases no)) (fun _ no => (by cases no))
  occurs := fun p occurs => by
    rcases occurs_of.mp occurs with here | ⟨e, no, -⟩
    · exact here
    · cases no

theorem Ifirst_cursor_eq {t : N.Table} (index : m.index addr = some t) :
    Ifirst_cursor addr m = some (addr, N.firstCursor t) := by
  unfold Ifirst_cursor
  rw [index]
  rfl

theorem Kept.trans {m'' : Memory N} {old : Ptr → Prop} (first : Kept m m' old)
    (second : Kept m' m'' old) : Kept m m'' old where
  valid := second.valid
  next := first.next.trans second.next
  frame := fun p below apart => by
    obtain ⟨index, node⟩ := first.frame p below apart
    obtain ⟨index', node'⟩ := second.frame p (Nat.lt_of_lt_of_le below first.next) apart
    exact ⟨index'.trans index, node'.trans node⟩

theorem kept_newNode (valid : m.Valid) (node : bn.Valid) : Kept m (newNode m bn).2 (fun _ => False) where
  valid := valid.newNode node
  next := Nat.le_succ _
  frame := fun _ below _ => ⟨rfl, setNode_of_ne (Nat.ne_of_lt below)⟩

theorem kept_Iempty (valid : m.Valid) : Kept m (Iempty m).2 (fun _ => False) where
  valid := valid.Iempty
  next := Nat.le_succ _
  frame := fun _ below _ => ⟨setIndex_of_ne (Nat.ne_of_lt below), rfl⟩

/-- The index of a layer that is not of the older memory is written. -/
theorem Kept.setIndex {old : Ptr → Prop} {t : N.Table} (kept : Kept m m' old)
    (new : addr < m.next → old addr) : Kept m (m'.setIndex addr t) old where
  valid := ⟨kept.valid.nodes, kept.valid.next⟩
  next := kept.next
  frame := fun p below apart => by
    obtain ⟨index, node⟩ := kept.frame p below apart
    refine ⟨(setIndex_of_ne ?_).trans index, node⟩
    rintro rfl
    exact apart (new below)

/-- A border node in a layer of its own. -/
theorem newLayer_spec (key : Key) {lo : Ptr} {bnode : Bordernode Ptr (TrieOf N.toFlattenableTable Ptr)}
    (valid : m.Valid) (node : bn.Valid) (view : bn.view = map addrOfTrie bnode) (low : lo ≤ m.next)
    (sub : ∀ t, bnode.suffix = some (.inr t) → Held m t (fun p => lo ≤ p ∧ p < m.next)) :
    ∃ c' tableform m', (do
        let cursor ← Ifirst_cursor (Iempty (newNode m bn).2).1 (Iempty (newNode m bn).2).2
        Iput (UTIL_GetNextKeySlice key) (newNode m bn).1 cursor (Iempty (newNode m bn).2).2)
          = some m' ∧
      N.Put (getKeyslice key) m.next (N.firstCursor N.emptyTable) N.emptyTable c' tableform ∧
      Kept m m' (fun _ => False) ∧
      Held m' (.of (m.next + 1) tableform (Flattened.putAux (getKeyslice key) (m.next, bnode) []))
        (fun p => lo ≤ p ∧ p < m'.next) := by
  have empty := N.empty_correct N.Iempty_spec
  have kept : Kept m (Iempty (newNode m bn).2).2 (fun _ => False) :=
    (kept_newNode valid node).trans (kept_Iempty (valid.newNode node))
  have next : (Iempty (newNode m bn).2).2.next = m.next + 2 := rfl
  have node_eq : (Iempty (newNode m bn).2).2.node m.next = some bn := if_pos rfl
  have below : ∀ t, bnode.suffix = some (.inr t) → ∀ p, Occurs p t → lo ≤ p ∧ p < m.next :=
    fun t link => (sub t link).occurs
  have rest : ∀ t, bnode.suffix = some (.inr t) →
      Rep (Iempty (newNode m bn).2).2.heap t ∧ Separate t ∧ ¬Occurs m.next t := by
    intro t link
    refine ⟨rep_kept (sub t link).rep kept fun p occurs => ⟨(below t link p occurs).2, not_false⟩,
      (sub t link).separate, fun occurs => ?_⟩
    exact Nat.lt_irrefl _ (below t link _ occurs).2
  have fresh : ∀ p, NodeOccurs p (m.next, bnode) → (lo ≤ p ∧ p < m.next + 2) ∧
      ¬Occurs p (.of (m.next + 1) N.emptyTable [] : TrieOf N.toFlattenableTable Ptr) := by
    intro p occurs
    have inside : lo ≤ p ∧ p < m.next + 1 := by
      rcases occurs with rfl | ⟨t, link, occurs⟩
      · exact ⟨low, Nat.lt_succ_self _⟩
      · exact ⟨(below t link p occurs).1, Nat.lt_succ_of_lt (below t link p occurs).2⟩
    refine ⟨⟨inside.1, Nat.lt_succ_of_lt inside.2⟩, fun other => ?_⟩
    rcases occurs_of.mp other with rfl | ⟨e, no, -⟩
    · exact Nat.lt_irrefl _ inside.2
    · cases no
  obtain ⟨c', tableform, run, table, held⟩ := Iput_held key
    (fun p => lo ≤ p ∧ p < m.next + 2) (Iempty_held (newNode m bn).2) sorted_nil
    (N.first_cursor_abs empty) node_eq view rest fresh fun p here => by
      rw [here]
      exact ⟨low.trans (Nat.le_succ _), Nat.lt_succ_self _⟩
  refine ⟨c', tableform, _, ?_, table, kept.setIndex fun below => ?_, held⟩
  · rw [Ifirst_cursor_eq (t := N.emptyTable) (if_pos rfl)]
    exact run
  · exact absurd below (Nat.not_lt.mpr (Nat.le_succ _))

/-- Two border nodes without links in a layer of their own. -/
theorem newLayer_two {bn1 bn2 : BorderNode} {k1 k2 : Key} {v1 v2 : Ptr} (valid : m.Valid)
    (valid1 : bn1.Valid) (valid2 : bn2.Valid)
    (view1 : bn1.view = map addrOfTrie (BorderNode.putValue k1 v1
      (BorderNode.empty : Bordernode Ptr (TrieOf N.toFlattenableTable Ptr))))
    (view2 : bn2.view = map addrOfTrie (BorderNode.putValue k2 v2
      (BorderNode.empty : Bordernode Ptr (TrieOf N.toFlattenableTable Ptr)))) :
    ∃ c2 tableform2 c1 tableform1 m1 m2,
      Iput (UTIL_GetNextKeySlice k2) (m.next + 1) (m.next + 2, N.firstCursor N.emptyTable)
        (Iempty (newNode (newNode m bn1).2 bn2).2).2 = some m1 ∧
      Ifirst_cursor (m.next + 2) m1 = some (m.next + 2, N.firstCursor tableform2) ∧
      Iput (UTIL_GetNextKeySlice k1) m.next (m.next + 2, N.firstCursor tableform2) m1 = some m2 ∧
      N.Put (getKeyslice k2) (m.next + 1) (N.firstCursor N.emptyTable) N.emptyTable c2 tableform2 ∧
      N.Put (getKeyslice k1) m.next (N.firstCursor tableform2) tableform2 c1 tableform1 ∧
      Kept m m2 (fun _ => False) ∧
      Held m2 (.of (m.next + 2) tableform1 (Flattened.putAux (getKeyslice k1)
        (m.next, BorderNode.putValue k1 v1 BorderNode.empty) (Flattened.putAux (getKeyslice k2)
          (m.next + 1, BorderNode.putValue k2 v2 BorderNode.empty) [])))
        (fun p => m.next ≤ p ∧ p < m2.next) := by
  have empty := N.empty_correct N.Iempty_spec
  have kept : Kept m (Iempty (newNode (newNode m bn1).2 bn2).2).2 (fun _ => False) :=
    ((kept_newNode valid valid1).trans (kept_newNode (valid.newNode valid1) valid2)).trans
      (kept_Iempty ((valid.newNode valid1).newNode valid2))
  have node2 : (Iempty (newNode (newNode m bn1).2 bn2).2).2.node (m.next + 1) = some bn2 := if_pos rfl
  have node1 : (Iempty (newNode (newNode m bn1).2 bn2).2).2.node m.next = some bn1 :=
    (setNode_of_ne (m := (newNode m bn1).2) (Nat.ne_of_lt (Nat.lt_succ_self m.next))).trans (if_pos rfl)
  have noLink (k : Key) (v : Ptr) (t : TrieOf N.toFlattenableTable Ptr) :
      (BorderNode.putValue k v BorderNode.empty).suffix ≠ some (.inr t) := fun link => by
    cases putValue_link link
  have only (k : Key) (v p q : Ptr) (occurs : NodeOccurs p (q, BorderNode.putValue k v
      (BorderNode.empty : Bordernode Ptr (TrieOf N.toFlattenableTable Ptr)))) : p = q := by
    rcases occurs with here | ⟨t, link, -⟩
    · exact here
    · exact absurd link (noLink k v t)
  obtain ⟨c2, tableform2, run2, table2, held2⟩ := Iput_held k2
    (fun p => p = m.next + 1 ∨ p = m.next + 2) (Iempty_held (newNode (newNode m bn1).2 bn2).2)
    sorted_nil (N.first_cursor_abs empty) node2 view2 (fun t link => absurd link (noLink k2 v2 t))
    (fun p occurs => by
      obtain rfl := only k2 v2 p _ occurs
      refine ⟨.inl rfl, fun other => ?_⟩
      rcases occurs_of.mp other with same | ⟨e, no, -⟩
      · exact Nat.succ_ne_self _ same.symm
      · cases no)
    (fun p here => .inr here)
  obtain ⟨c1, tableform1, run1, table1, held1⟩ := Iput_held k1
    (fun p => m.next ≤ p ∧ p < m.next + 3) held2 (sorted_put sorted_nil)
    (N.first_cursor_abs (N.put_correct (N.first_cursor_abs empty) table2)) node1 view1
    (fun t link => absurd link (noLink k1 v1 t))
    (fun p occurs => by
      obtain rfl := only k1 v1 p _ occurs
      refine ⟨⟨Nat.le_refl _, Nat.lt_add_of_pos_right (by decide)⟩, fun other => ?_⟩
      rcases held2.occurs _ other with same | same
      · exact Nat.succ_ne_self _ same.symm
      · exact Nat.ne_of_lt (Nat.lt_add_of_pos_right (by decide)) same)
    (fun p here => by
      rcases here with rfl | rfl
      · exact ⟨Nat.le_add_right _ _, Nat.add_lt_add_left (by decide) _⟩
      · exact ⟨Nat.le_add_right _ _, Nat.add_lt_add_left (by decide) _⟩)
  refine ⟨c2, tableform2, c1, tableform1, _, _, run2, Ifirst_cursor_eq held2.index, run1, table2,
    table1, (kept.setIndex fun below => ?_).setIndex fun below => ?_, held1⟩
  · exact absurd below (Nat.not_lt.mpr (Nat.le_add_right m.next 2))
  · exact absurd below (Nat.not_lt.mpr (Nat.le_add_right m.next 2))

theorem create_pair_spec (valid : m.Valid) {k1 k2 : Key} (hk1 : k1 ≠ []) (hk2 : k2 ≠ [])
    (fits1 : k1.length < 2 ^ 32) (fits2 : k2.length < 2 ^ 32) (v1 v2 : Ptr) :
    ∃ c t m', create_pair k1 k2 v1 v2 m = some (addrOfTrie t, m') ∧
      CreatePair N.toFlattenableTable k1 k2 v1 v2 c t ∧ Kept m m' (fun _ => False) ∧
      Held m' t (fun p => m.next ≤ p ∧ p < m'.next) := by
  have empty := N.empty_correct N.Iempty_spec
  induction hn : k1.length using Nat.strongRecOn generalizing k1 k2 m with
  | ind n ih =>
    have drop1 : (k1.drop keysliceLength).length < 2 ^ 32 :=
      Nat.lt_of_le_of_lt (by rw [List.length_drop]; omega) fits1
    have drop2 : (k2.drop keysliceLength).length < 2 ^ 32 :=
      Nat.lt_of_le_of_lt (by rw [List.length_drop]; omega) fits2
    by_cases same : getKeyslice k1 = getKeyslice k2
    · have slices := getNextKeySlice_inj.mpr same
      by_cases short : k1.length ≤ keysliceLength ∨ k2.length ≤ keysliceLength
      · obtain ⟨bn1, set1, valid1, view1⟩ := view_setValue (v := v1) valid_new hk1 drop1
        obtain ⟨bn2, set2, valid2, view2⟩ := view_setValue (v := v2) valid1 hk2 drop2
        have view : bn2.view = map addrOfTrie (BorderNode.putValue k2 v2
            (BorderNode.putValue k1 v1
              (BorderNode.empty : Bordernode Ptr (TrieOf N.toFlattenableTable Ptr)))) := by
          rw [view2, view1, view_new]
          simp only [BorderNode.map_putValue, BorderNode.map_empty]
        obtain ⟨c', tab, m', run, table, kept, held⟩ := newLayer_spec k1 valid valid2 view
          (Nat.le_refl _) (fun t link => by cases putValue_link (putValue_link link))
        refine ⟨_, _, m', ?_, .case1 same short rfl rfl ⟨rfl, rfl⟩ N.Iempty_spec table, kept, held⟩
        rw [create_pair]
        simp only [if_pos slices, dif_pos short, new_key_eq, if_pos fits1, if_pos fits2, set1, set2,
          Option.bind_eq_bind, Option.bind_some]
        rw [← Option.bind_assoc]
        rw [Option.bind_eq_bind] at run
        rw [run]
        rfl
      · have long : keysliceLength < k1.length ∧ keysliceLength < k2.length := by omega
        obtain ⟨c, t, m1, pair, create, kept1, held1⟩ := ih _ (hn ▸ length_getSuffix_lt long.1) valid
          (getSuffix_ne_nil long.1) (getSuffix_ne_nil long.2) drop1 drop2 rfl
        have addr := held1.occurs _ occurs_addr
        have view : (BN_SetLink BN_NewBorderNode (addrOfTrie t)).view
            = map addrOfTrie (BorderNode.putLink t BorderNode.empty) := by
          have : addrOfTrie t ≠ NULL :=
            Nat.ne_of_gt (Nat.lt_of_lt_of_le valid.next addr.1)
          rw [view_setLink this, view_new]
          rfl
        obtain ⟨c', tab, m', run, table, kept, held⟩ := newLayer_spec k1 kept1.valid
          (valid_setLink valid_new) view kept1.next (fun t' link => by
            cases link
            exact held1)
        refine ⟨_, _, m', ?_, .case2 same long create rfl rfl ⟨rfl, rfl⟩ N.Iempty_spec table,
          kept1.trans kept, held⟩
        have pair' : create_pair (k1.drop keysliceLength) (k2.drop keysliceLength) v1 v2 m
            = some (addrOfTrie t, m1) := pair
        rw [create_pair]
        simp only [if_pos slices, dif_neg short, pair', Option.bind_eq_bind, Option.bind_some]
        rw [← Option.bind_assoc]
        rw [Option.bind_eq_bind] at run
        rw [run]
        rfl
    · have slices : UTIL_GetNextKeySlice k1 ≠ UTIL_GetNextKeySlice k2 := fun same' =>
        same (getNextKeySlice_inj.mp same')
      obtain ⟨bn1, set1, valid1, view1⟩ := view_setValue (v := v1) valid_new hk1 drop1
      obtain ⟨bn2, set2, valid2, view2⟩ := view_setValue (v := v2) valid_new hk2 drop2
      rw [view_new, ← BorderNode.map_empty addrOfTrie, ← BorderNode.map_putValue] at view1 view2
      obtain ⟨c2, tab2, c1, tab1, m1, m', run2, first, run1, table2, table1, kept, held⟩ :=
        newLayer_two valid valid1 valid2 view1 view2
      refine ⟨_, _, m', ?_, .case3 same rfl rfl rfl ⟨rfl, rfl⟩ ⟨rfl, rfl⟩ N.Iempty_spec table2 table1,
        kept, held⟩
      rw [create_pair]
      simp only [if_neg slices, new_key_eq, if_pos fits1, if_pos fits2, set1, set2,
        Option.bind_eq_bind, Option.bind_some]
      have first2 : Ifirst_cursor (m.next + 2) (Iempty (newNode (newNode m bn1).2 bn2).2).2
          = some (m.next + 2, N.firstCursor N.emptyTable) := Ifirst_cursor_eq (if_pos rfl)
      change ((Ifirst_cursor (m.next + 2) (Iempty (newNode (newNode m bn1).2 bn2).2).2).bind fun c =>
        (Iput (UTIL_GetNextKeySlice k2) (m.next + 1) c (Iempty (newNode (newNode m bn1).2 bn2).2).2).bind
          fun m1 => (Ifirst_cursor (m.next + 2) m1).bind fun c =>
            (Iput (UTIL_GetNextKeySlice k1) m.next c m1).bind fun m2 => some (m.next + 2, m2))
          = some (m.next + 2, m')
      rw [first2, Option.bind_some, run2, Option.bind_some, first, Option.bind_some, run1,
        Option.bind_some]

/-! ### Puts -/

section Put

variable {tableform : N.Table} {inside : Ptr → Prop} {root below : Nat}
  {listform : List (Int × (Ptr × Bordernode Ptr (TrieOf N.toFlattenableTable Ptr)))}
  {bnode bnode' : Bordernode Ptr (TrieOf N.toFlattenableTable Ptr)}

theorem Imake_cursor_eq (index : m.index addr = some tableform) :
    Imake_cursor (UTIL_GetNextKeySlice key) addr m
      = some (addr, N.makeCursor (getKeyslice key) tableform) := by
  unfold Imake_cursor
  rw [index, getNextKeySlice_eq]
  rfl

/-- The first lines of `put`, when the layer has a border node for the slice. -/
theorem put_found (index : m.index addr = some tableform) (table : N.TableCorrect tableform)
    (entry : (getKeyslice key, a) ∈ N.flatten tableform) (node : m.node a = some bn) :
    put key v addr m =
      if key.length ≤ keysliceLength then some (m.setNode a (BN_SetPrefixValue bn key.length v))
      else if BN_HasSuffix bn then
        (new_key key).bind fun k =>
          if BN_TestSuffix bn k then
            (BN_SetSuffixValue bn (key.drop keysliceLength) v).bind fun bn => some (m.setNode a bn)
          else
            (BN_ExportSuffixValue bn).1.bind fun e =>
              (create_pair (key.drop keysliceLength) e.1 v e.2 m).bind fun r =>
                some (r.2.setNode a (BN_SetLink (BN_ExportSuffixValue bn).2 r.1))
      else
        match BN_GetLink bn with
        | some subindex => put (key.drop keysliceLength) v subindex m
        | none =>
          (BN_SetSuffixValue bn (key.drop keysliceLength) v).bind fun bn => some (m.setNode a bn) := by
  have found : Iget_key (addr, N.makeCursor (getKeyslice key) tableform) m
      = some (some (getKeyslice key)) := by
    unfold Iget_key
    rw [index]
    exact congrArg some (FlattenableTable.getKey_makeCursor table
      (List.mem_map_of_mem (f := fun e => e.1) entry))
  have value : Iget_value (addr, N.makeCursor (getKeyslice key) tableform) m = some (some a) := by
    unfold Iget_value
    simp only [index, Option.bind_eq_bind, Option.bind_some,
      FlattenableTable.get_makeCursor_of_mem table entry]
    rfl
  rw [put]
  simp only [Imake_cursor_eq index, found, value, node, getNextKeySlice_eq, Option.bind_eq_bind,
    Option.bind_some, if_true]
  rfl

theorem put_absent (index : m.index addr = some tableform) (table : N.TableCorrect tableform)
    (absent : getKeyslice key ∉ (N.flatten tableform).map Prod.fst) :
    put key v addr m = (new_key key).bind fun k =>
      (BN_SetValue BN_NewBorderNode k v).bind fun bn =>
        Iput (UTIL_GetNextKeySlice key) m.next (addr, N.makeCursor (getKeyslice key) tableform)
          (newNode m bn).2 := by
  have other : N.getKey (N.makeCursor (getKeyslice key) tableform) tableform
      ≠ some (getKeyslice key) := fun same =>
    absent (FlattenableTable.mem_of_getKey_makeCursor table same)
  have missed : Iget_key (addr, N.makeCursor (getKeyslice key) tableform) m
      = some (N.getKey (N.makeCursor (getKeyslice key) tableform) tableform) := by
    unfold Iget_key
    rw [index]
    rfl
  rw [put]
  simp only [Imake_cursor_eq index, missed, getNextKeySlice_eq, Option.bind_eq_bind,
    Option.bind_some, if_neg other]
  rfl

theorem lookup_flatten (correct : Correct N.toFlattenableTable root below
      (.of addr tableform listform)) (s : Int) :
    lookup s (N.flatten tableform) = (lookup s listform).map Prod.fst := by
  rw [correct.entries]
  exact lookup_map (fun x : Ptr × Bordernode Ptr _ => x.1) s listform

theorem copied_absent (index : m.index addr = some tableform)
    (absent : lookup (getKeyslice key) (N.flatten tableform) = none) :
    copied key addr m = some key.length := by
  rw [copied]
  simp only [index, absent, Option.bind_eq_bind, Option.bind_some]
  rfl

theorem copied_found (index : m.index addr = some tableform)
    (found : lookup (getKeyslice key) (N.flatten tableform) = some a) (node : m.node a = some bn) :
    copied key addr m =
      if key.length ≤ keysliceLength then some 0
      else if BN_HasSuffix bn then some key.length
      else
        match BN_GetLink bn with
        | some subindex => copied (key.drop keysliceLength) subindex m
        | none => some (key.drop keysliceLength).length := by
  rw [copied]
  simp only [index, found, node, Option.bind_eq_bind, Option.bind_some]
  rfl

theorem Kept.refl (valid : m.Valid) (old : Ptr → Prop) : Kept m m old :=
  ⟨valid, Nat.le_refl _, fun _ _ _ => ⟨rfl, rfl⟩⟩

theorem Kept.mono {old old' : Ptr → Prop} (kept : Kept m m' old) (more : ∀ p, old p → old' p) :
    Kept m m' old' :=
  ⟨kept.valid, kept.next, fun p below apart => kept.frame p below fun here => apart (more p here)⟩

theorem Kept.setNode {old : Ptr → Prop} (kept : Kept m m' old) (node : bn.Valid)
    (mine : a < m.next → old a) : Kept m (m'.setNode a bn) old where
  valid := kept.valid.setNode node
  next := kept.next
  frame := fun p below apart => by
    obtain ⟨index, same⟩ := kept.frame p below apart
    refine ⟨index, (setNode_of_ne ?_).trans same⟩
    rintro rfl
    exact apart (mine below)

/-- Memory that has only grown. -/
theorem Held.grown {t : TrieOf N.toFlattenableTable Ptr} (held : Held m t (fun p => p < m.next))
    (kept : Kept m m' (fun _ => False)) : Held m' t (fun p => Occurs p t) :=
  ⟨rep_kept held.rep kept fun p occurs => ⟨held.occurs p occurs, not_false⟩, held.separate,
    fun _ occurs => occurs⟩

theorem getSuffixPair_eq_some {E T : Type} {b : Bordernode E T} {k : Key} {v : E} :
    getSuffixPair b = some (k, v) ↔ b.suffix = some (.inl (k, v)) := by
  unfold getSuffixPair
  rcases b.suffix with _ | ⟨k', v'⟩ | t <;> simp

/-- What a put does to a trie in memory. -/
def PutsTo (key : Key) (v : Ptr) (m : Memory N) (t : TrieOf N.toFlattenableTable Ptr) : Prop :=
  ∀ c, ∃ c' t' m', put key v (addrOfTrie t) m = some m' ∧
    Trie.Put N.toFlattenableTable key v c t c' t' ∧ addrOfTrie t' = addrOfTrie t ∧
    Kept m m' (fun p => Occurs p t) ∧ Held m' t' (fun p => Occurs p t ∨ m.next ≤ p ∧ p < m'.next)

/-- A slice gets its first border node. -/
theorem put_new (correct : Correct N.toFlattenableTable root below (.of addr tableform listform))
    (held : Held m (.of addr tableform listform) (fun p => p < m.next)) (valid : m.Valid)
    (hk : key ≠ []) (fits : key.length < 2 ^ 32)
    (absent : lookup (getKeyslice key) listform = none) :
    PutsTo key v m (.of addr tableform listform) := by
  intro c
  have drop : (key.drop keysliceLength).length < 2 ^ 32 :=
    Nat.lt_of_le_of_lt (by rw [List.length_drop]; omega) fits
  obtain ⟨bn, set, node, view⟩ := view_setValue (v := v) valid_new hk drop
  rw [view_new, ← BorderNode.map_empty addrOfTrie, ← BorderNode.map_putValue] at view
  have kept := kept_newNode valid node
  have only (p : Ptr) (occurs : NodeOccurs p (m.next, BorderNode.putValue key v
      (BorderNode.empty : Bordernode Ptr (TrieOf N.toFlattenableTable Ptr)))) : p = m.next := by
    rcases occurs with here | ⟨t, link, -⟩
    · exact here
    · cases putValue_link link
  have missing : getKeyslice key ∉ (N.flatten tableform).map Prod.fst := by
    rw [correct.entries, List.map_map]
    exact lookup_eq_none.mp absent
  have tableAbs := N.make_cursor_abs (k := getKeyslice key) correct.table
  obtain ⟨c', tableform', run, table, held'⟩ := Iput_held key
    (fun p => Occurs p (.of addr tableform listform) ∨ m.next ≤ p ∧ p < m.next + 1)
    (held.grown kept) correct.sorted tableAbs (if_pos rfl) view
    (fun t link => by cases putValue_link link)
    (fun p occurs => by
      obtain rfl := only p occurs
      exact ⟨.inr ⟨Nat.le_refl _, Nat.lt_succ_self _⟩, fun here =>
        Nat.lt_irrefl _ (held.occurs _ here)⟩)
    (fun p occurs => .inl occurs)
  refine ⟨_, _, _, ?_, .case6 ?_ rfl ⟨correct.sorted, Nat.zero_le _⟩ ⟨rfl, rfl⟩ tableAbs table, rfl,
    ?_, held'⟩
  · rw [addrOfTrie, put_absent held.index correct.table missing, new_key_eq, if_pos fits,
      Option.bind_some, set, Option.bind_some, run]
  · rw [Flattened.getExact_eq correct.sorted, absent]
  · exact (kept.mono fun _ no => no.elim).setIndex fun _ => .layer

/-- The border node of a slice is written, perhaps with a link to a layer that is new. -/
theorem slice_written {s : Int}
    (held : Held m (.of addr tableform listform) (fun p => p < m.next)) (sorted : Sorted listform)
    (kept : Kept m m' (fun _ => False)) (found : lookup s listform = some (a, bnode))
    (node : bn.Valid) (view : bn.view = map addrOfTrie bnode')
    (sub : ∀ t, bnode'.suffix = some (.inr t) →
      Held m' t (fun p => NodeOccurs p (a, bnode) ∨ m.next ≤ p ∧ p < m'.next) ∧ ¬Occurs a t) :
    Kept m (m'.setNode a bn) (fun p => Occurs p (.of addr tableform listform)) ∧
      Held (m'.setNode a bn) (.of addr tableform (Flattened.putAux s (a, bnode') listform))
        (fun p => Occurs p (.of addr tableform listform) ∨ m.next ≤ p ∧ p < m'.next) := by
  have mine (p : Ptr) (occurs : NodeOccurs p (a, bnode)) : Occurs p (.of addr tableform listform) :=
    occurs_of.mpr (.inr ⟨_, mem_of_lookup found, occurs⟩)
  constructor
  · exact (kept.mono fun _ no => no.elim).setNode node fun _ => mine a (.inl rfl)
  · refine setNode_held (held.grown kept) sorted found view ?_ fun p occurs => .inl occurs
    intro t link
    obtain ⟨sub, own⟩ := sub t link
    refine ⟨sub.rep, sub.separate, own, fun p occurs => ?_⟩
    rcases sub.occurs p occurs with old | new
    · exact ⟨.inl (mine p old), fun _ => old⟩
    · refine ⟨.inr new, fun here => ?_⟩
      exact absurd (held.occurs p here) (Nat.not_lt.mpr new.1)

/-- The layer under a slice is changed by a put of its own. -/
theorem slice_deeper {s : Int} {t t' : TrieOf N.toFlattenableTable Ptr}
    (held : Held m (.of addr tableform listform) (fun p => p < m.next)) (sorted : Sorted listform)
    (found : lookup s listform = some (a, bnode)) (link : bnode.suffix = some (.inr t))
    (kept : Kept m m' (fun p => Occurs p t))
    (held' : Held m' t' (fun p => Occurs p t ∨ m.next ≤ p ∧ p < m'.next))
    (node : m'.heap.node a = some (map addrOfTrie (BorderNode.putLink t' bnode))) :
    Kept m m' (fun p => Occurs p (.of addr tableform listform)) ∧
      Held m' (.of addr tableform
          (Flattened.putAux s (a, BorderNode.putLink t' bnode) listform))
        (fun p => Occurs p (.of addr tableform listform) ∨ m.next ≤ p ∧ p < m'.next) := by
  have mem := mem_of_lookup found
  have slice (p : Ptr) (occurs : Occurs p t) : NodeOccurs p (a, bnode) := .inr ⟨t, link, occurs⟩
  have apart : ¬Occurs addr t := fun occurs => (held.slice found (slice addr occurs)).1 rfl
  have below : addr < m.next := held.occurs addr .layer
  refine ⟨kept.mono fun p occurs => .link mem link occurs, held.self.put sorted ?_ node ?_ ?_ ?_
    fun p occurs => .inl occurs⟩
  · rw [(kept.frame addr below apart).1, held.index]
  · intro e he other p occurs
    refine kept.frame p (held.occurs p (occurs_of.mpr (.inr ⟨e, he, occurs⟩))) fun here => ?_
    exact (held.slice found (slice p here)).2 e he other occurs
  · intro t1 link1
    cases link1
    refine ⟨held'.rep, held'.separate, fun occurs => ?_⟩
    rcases held'.occurs a occurs with old | new
    · exact held.own found link old
    · exact absurd (held.occurs a (.node mem rfl)) (Nat.not_lt.mpr new.1)
  · rintro p (rfl | ⟨t1, link1, occurs⟩)
    · exact ⟨.inl (.node mem rfl), held.slice found (.inl rfl)⟩
    · cases link1
      rcases held'.occurs p occurs with old | new
      · exact ⟨.inl (.link mem link old), held.slice found (slice p old)⟩
      · refine ⟨.inr new, ?_, fun e he other here => ?_⟩
        · rintro rfl
          exact absurd below (Nat.not_lt.mpr new.1)
        · have inside := held.occurs p (occurs_of.mpr (.inr ⟨e, he, here⟩))
          exact absurd inside (Nat.not_lt.mpr new.1)

/-- A put into a slice that has a border node. -/
theorem put_old (correct : Correct N.toFlattenableTable root below (.of addr tableform listform))
    (held : Held m (.of addr tableform listform) (fun p => p < m.next)) (valid : m.Valid)
    (hk : key ≠ []) (found : lookup (getKeyslice key) listform = some (a, bnode))
    {n : Nat} (fits : copied key addr m = some n) (small : n < 2 ^ 32)
    (deeper : ∀ t, bnode.suffix = some (.inr t) → keysliceLength < key.length →
      copied (key.drop keysliceLength) (addrOfTrie t) m = some n →
      PutsTo (key.drop keysliceLength) v m t) :
    PutsTo key v m (.of addr tableform listform) := by
  intro c
  obtain ⟨bn, node, view⟩ := held.node found
  have entry : (getKeyslice key, a) ∈ N.flatten tableform := by
    rw [correct.entries]
    exact List.mem_map_of_mem (f := fun e => (e.1, e.2.1)) (mem_of_lookup found)
  have looked : lookup (getKeyslice key) (N.flatten tableform) = some a := by
    rw [lookup_flatten correct, found, Option.map_some]
  have nodeValid := valid.nodes a bn node
  have exact := (Flattened.getExact_eq correct.sorted).trans found
  have list : Flattened.AbsRel (Flattened.firstCursor listform) listform :=
    ⟨correct.sorted, Nat.zero_le _⟩
  have run := put_found (v := v) held.index correct.table entry node
  rw [copied_found held.index looked node] at fits
  have refl := Kept.refl valid (fun _ => False)
  by_cases short : key.length ≤ keysliceLength
  · have pos : 0 < key.length := List.length_pos_iff.mpr hk
    have view' : (BN_SetPrefixValue bn key.length v).view
        = map addrOfTrie (BorderNode.putPrefix key.length v bnode) := by
      rw [view_setPrefixValue nodeValid pos short, view, BorderNode.map_putPrefix]
    obtain ⟨kept, held'⟩ := slice_written held correct.sorted refl found
      (valid_setPrefixValue nodeValid pos short) view' fun t link => by
        rw [BorderNode.putPrefix_suffix] at link
        have sub := held.link found link
        exact ⟨⟨sub.rep, sub.separate, fun p occurs => .inl (.inr ⟨t, link, occurs⟩)⟩,
          held.own found link⟩
    exact ⟨_, _, _, run.trans (if_pos short), .case1 exact short rfl list ⟨rfl, rfl⟩, rfl, kept, held'⟩
  have long := Nat.lt_of_not_le short
  have rest := getSuffix_ne_nil long
  rw [if_neg short] at run fits
  cases hs : bnode.suffix with
  | none =>
    have noPair : BN_HasSuffix bn = false := by
      rw [hasSuffix_eq, view, BorderNode.getSuffixPair_map, getSuffixPair, hs]
      rfl
    have noLink : BN_GetLink bn = none := by
      rw [getLink_view, view, BorderNode.getLink_map, getLink, hs]
      rfl
    simp only [noPair, noLink, Bool.false_eq_true, if_false] at run fits
    obtain rfl := Option.some.inj fits
    obtain ⟨bn', set, node', view'⟩ := view_setSuffixValue (v := v) nodeValid small
    rw [view, ← BorderNode.map_putSuffix] at view'
    obtain ⟨kept, held'⟩ := slice_written held correct.sorted refl found node' view' fun t link => by
      cases link
    rw [set, Option.bind_some] at run
    exact ⟨_, _, _, run, .case3 exact long hs rfl list ⟨rfl, rfl⟩, rfl, kept, held'⟩
  | some w =>
    cases w with
    | inl pair =>
      obtain ⟨k', v'⟩ := pair
      have pair : getSuffixPair bnode = some (k', v') := getSuffixPair_eq_some.mpr hs
      have shown : getSuffixPair bn.view = some (k', v') := by
        rw [view, BorderNode.getSuffixPair_map, pair]
      have has : BN_HasSuffix bn = true := by
        rw [hasSuffix_eq, shown]
        rfl
      simp only [has, if_true] at run fits
      obtain rfl := Option.some.inj fits
      have drop : (key.drop keysliceLength).length < 2 ^ 32 :=
        Nat.lt_of_le_of_lt (by rw [List.length_drop]; omega) small
      have test : BN_TestSuffix bn key = testSuffix (getSuffix key) bnode := by
        rw [testSuffix_view, view, BorderNode.testSuffix_map]
      rw [new_key_eq, if_pos small, Option.bind_some, test] at run
      by_cases equal : testSuffix (getSuffix key) bnode = true
      · rw [if_pos equal] at run
        obtain ⟨bn', set, node', view'⟩ := view_setSuffixValue (v := v) nodeValid drop
        rw [view, ← BorderNode.map_putSuffix] at view'
        obtain ⟨kept, held'⟩ := slice_written held correct.sorted refl found node' view'
          fun t link => by cases link
        rw [set, Option.bind_some] at run
        exact ⟨_, _, _, run, .case4 exact long equal rfl list ⟨rfl, rfl⟩, rfl, kept, held'⟩
      · rw [if_neg equal] at run
        have differ : getSuffix key ≠ k' := by
          rintro rfl
          unfold testSuffix at equal
          rw [hs] at equal
          exact equal (beq_self_eq_true _)
        obtain ⟨exported, same⟩ := exportSuffixValue_view shown
        obtain ⟨cp, tp, m1, create, pairs, kept1, held1⟩ := create_pair_spec valid rest
          ((correct.node found).pair hs) drop (suffixPair_fits nodeValid shown) v v'
        have fresh := held1.occurs _ occurs_addr
        have view' : (BN_SetLink bn (addrOfTrie tp)).view
            = map addrOfTrie (BorderNode.putLink tp bnode) := by
          rw [view_setLink (Nat.ne_of_gt (Nat.lt_of_lt_of_le valid.next fresh.1)), view]
          rfl
        obtain ⟨kept, held'⟩ := slice_written held correct.sorted kept1 found
          (valid_setLink nodeValid) view' fun t link => by
            cases link
            refine ⟨held1.mono fun p inside => .inr inside, fun occurs => ?_⟩
            have below := held.occurs a (.node (mem_of_lookup found) rfl)
            exact absurd below (Nat.not_lt.mpr (held1.occurs a occurs).1)
        have create' : create_pair (key.drop keysliceLength) k' v v' m = some (addrOfTrie tp, m1) :=
          create
        rw [exported, Option.bind_some, create', Option.bind_some, same] at run
        exact ⟨_, _, _, run, .case5 exact long pair differ pairs rfl list ⟨rfl, rfl⟩, rfl, kept, held'⟩
    | inr t =>
      have noPair : BN_HasSuffix bn = false := by
        rw [hasSuffix_eq, view, BorderNode.getSuffixPair_map, getSuffixPair, hs]
        rfl
      have link : getLink bnode = some t := BorderNode.getLink_eq_some.mpr hs
      have linked : BN_GetLink bn = some (addrOfTrie t) := by
        rw [getLink_view, view, BorderNode.getLink_map, link]
        rfl
      simp only [noPair, linked, Bool.false_eq_true, if_false] at run fits
      obtain ⟨c'', t'', m', put', sub, addr_eq, kept', held'⟩ := deeper t hs long fits []
      have relinked : map addrOfTrie (BorderNode.putLink t'' bnode) = map addrOfTrie bnode := by
        unfold map BorderNode.putLink
        rw [hs, Option.map_some, Option.map_some, Sum.map_inr, Sum.map_inr, addr_eq]
      have node'' : m'.heap.node a = some (map addrOfTrie (BorderNode.putLink t'' bnode)) := by
        have below := held.occurs a (.node (mem_of_lookup found) rfl)
        rw [relinked, ← view]
        exact heap_node (((kept'.frame a below (held.own found hs)).2).trans node)
      obtain ⟨kept, whole⟩ := slice_deeper held correct.sorted found hs kept' held' node''
      exact ⟨_, _, m', run.trans put', .case2 exact long link sub rfl list ⟨rfl, rfl⟩, rfl, kept, whole⟩

/-- A put of a non-empty key does what the relation of the functional trie allows. -/
theorem put_spec {t : TrieOf N.toFlattenableTable Ptr}
    (correct : Correct N.toFlattenableTable root below t) (held : Held m t (fun p => p < m.next))
    (valid : m.Valid) (hk : key ≠ []) {n : Nat} (fits : copied key (addrOfTrie t) m = some n)
    (small : n < 2 ^ 32) : PutsTo key v m t := by
  induction hn : key.length using Nat.strongRecOn generalizing key t root with
  | ind l ih =>
    obtain ⟨addr, tableform, listform⟩ := t
    cases found : lookup (getKeyslice key) listform with
    | none =>
      have absent : lookup (getKeyslice key) (N.flatten tableform) = none := by
        rw [lookup_flatten correct, found, Option.map_none]
      rw [addrOfTrie, copied_absent held.index absent] at fits
      exact put_new correct held valid hk (Option.some.inj fits ▸ small) found
    | some e =>
      obtain ⟨a, bnode⟩ := e
      refine put_old correct held valid hk found fits small fun t link long fits' => ?_
      exact ih _ (hn ▸ length_getSuffix_lt long) ((correct.node found).link link)
        (held.link found link) (getSuffix_ne_nil long) fits' rfl

/-- Without the block for a copy there is no result. -/
theorem put_fails {t : TrieOf N.toFlattenableTable Ptr}
    (correct : Correct N.toFlattenableTable root below t) (held : Held m t inside) {n : Nat}
    (fits : copied key (addrOfTrie t) m = some n) (big : 2 ^ 32 ≤ n) :
    put key v (addrOfTrie t) m = none := by
  have noCopy (k : Key) (long : 2 ^ 32 ≤ k.length) : ¬k.length < 2 ^ 32 := Nat.not_lt.mpr long
  induction hn : key.length using Nat.strongRecOn generalizing key t root with
  | ind l ih =>
    obtain ⟨addr, tableform, listform⟩ := t
    cases found : lookup (getKeyslice key) listform with
    | none =>
      have absent : lookup (getKeyslice key) (N.flatten tableform) = none := by
        rw [lookup_flatten correct, found, Option.map_none]
      rw [addrOfTrie, copied_absent held.index absent] at fits
      have long : 2 ^ 32 ≤ key.length := Option.some.inj fits ▸ big
      rw [addrOfTrie, put_absent held.index correct.table (lookup_eq_none.mp absent), new_key_eq,
        if_neg (noCopy key long), Option.bind_none]
    | some e =>
      obtain ⟨a, bnode⟩ := e
      obtain ⟨bn, node, view⟩ := held.node found
      have looked : lookup (getKeyslice key) (N.flatten tableform) = some a := by
        rw [lookup_flatten correct, found, Option.map_some]
      rw [addrOfTrie, copied_found held.index looked node] at fits
      have run := put_found (v := v) held.index correct.table (mem_of_lookup looked) node
      rw [addrOfTrie, run]
      by_cases short : key.length ≤ keysliceLength
      · rw [if_pos short] at fits
        cases fits
        exact absurd big (by decide)
      rw [if_neg short] at fits ⊢
      by_cases has : BN_HasSuffix bn = true
      · rw [if_pos has] at fits ⊢
        have long : 2 ^ 32 ≤ key.length := Option.some.inj fits ▸ big
        rw [new_key_eq, if_neg (noCopy key long), Option.bind_none]
      · rw [if_neg has] at fits ⊢
        have linked : BN_GetLink bn = (getLink bnode).map addrOfTrie := by
          rw [getLink_view, view, BorderNode.getLink_map]
        rw [linked] at fits ⊢
        cases link : getLink bnode with
        | none =>
          rw [link] at fits
          have long : 2 ^ 32 ≤ (key.drop keysliceLength).length := Option.some.inj fits ▸ big
          simp only [Option.map_none, setSuffixValue_eq, if_neg (noCopy _ long), Option.bind_none]
        | some t =>
          rw [link] at fits
          have hs := BorderNode.getLink_eq_some.mp link
          exact ih _ (hn ▸ length_getSuffix_lt (Nat.lt_of_not_le short))
            ((correct.node found).link hs) (held.link found hs) fits rfl

/-- What `put` copies whole is a part of the key. -/
theorem copied_le (key : Key) {t : TrieOf N.toFlattenableTable Ptr}
    (correct : Correct N.toFlattenableTable root below t) (held : Held m t inside) :
    ∃ n, copied key (addrOfTrie t) m = some n ∧ n ≤ key.length := by
  induction hn : key.length using Nat.strongRecOn generalizing key t root with
  | ind l ih =>
    obtain ⟨addr, tableform, listform⟩ := t
    have drop : (key.drop keysliceLength).length ≤ l := by
      rw [List.length_drop, hn]
      exact Nat.sub_le _ _
    cases found : lookup (getKeyslice key) listform with
    | none =>
      have absent : lookup (getKeyslice key) (N.flatten tableform) = none := by
        rw [lookup_flatten correct, found, Option.map_none]
      exact ⟨_, copied_absent held.index absent, hn.le⟩
    | some e =>
      obtain ⟨a, bnode⟩ := e
      obtain ⟨bn, node, view⟩ := held.node found
      have looked : lookup (getKeyslice key) (N.flatten tableform) = some a := by
        rw [lookup_flatten correct, found, Option.map_some]
      rw [addrOfTrie, copied_found held.index looked node]
      by_cases short : key.length ≤ keysliceLength
      · rw [if_pos short]
        exact ⟨0, rfl, Nat.zero_le _⟩
      rw [if_neg short]
      by_cases has : BN_HasSuffix bn = true
      · rw [if_pos has]
        exact ⟨_, rfl, hn.le⟩
      · rw [if_neg has, getLink_view, view, BorderNode.getLink_map]
        cases link : getLink bnode with
        | none => exact ⟨_, rfl, drop⟩
        | some t =>
          have hs := BorderNode.getLink_eq_some.mp link
          obtain ⟨n, here, le⟩ := ih _ (hn ▸ length_getSuffix_lt (Nat.lt_of_not_le short)) _
            ((correct.node found).link hs) (held.link found hs) rfl
          exact ⟨n, here, le.trans drop⟩

end Put

end DeepDB.IndexString
