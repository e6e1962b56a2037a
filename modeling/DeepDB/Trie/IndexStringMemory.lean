import DeepDB.Trie.IndexStringNode

/-!
A trie in the memory of the string index, and what the writes of `put` and `create_pair` do to it: a
new slice is put into a layer's index, or the border node of a slice is written. The memory that the
trie does not take stays as it was.
-/

namespace DeepDB.IndexString
open Trie SortedAssoc
open Trie.BorderNode (map getLink getSuffixPair testSuffix)

variable {N : IntIndex}

/-! ### Memory -/

def Memory.heap (m : Memory N) : Heap N.Table := ⟨m.index, fun p => (m.node p).map BorderNode.view⟩

structure Memory.Valid (m : Memory N) : Prop where
  nodes : ∀ p bn, m.node p = some bn → bn.Valid
  next : NULL < m.next

variable {m m' : Memory N} {p a addr : Ptr} {bn : BorderNode} {key : Key} {v : Ptr}

theorem heap_node {bn : BorderNode} (node : m.node p = some bn) : m.heap.node p = some bn.view :=
  Option.map_eq_some_iff.mpr ⟨bn, node, rfl⟩

theorem node_of_heap {b : Bordernode Ptr Ptr} (node : m.heap.node p = some b) :
    ∃ bn, m.node p = some bn ∧ bn.view = b := Option.map_eq_some_iff.mp node

theorem Memory.Valid.setNode (valid : m.Valid) (node : bn.Valid) : (m.setNode p bn).Valid where
  nodes := fun q bn' h => by
    unfold Memory.setNode at h
    simp only at h
    split at h
    · cases h
      exact node
    · exact valid.nodes q bn' h
  next := valid.next

theorem Memory.Valid.newNode (valid : m.Valid) (node : bn.Valid) : (newNode m bn).2.Valid where
  nodes := (valid.setNode node).nodes
  next := Nat.lt_succ_of_lt valid.next

theorem Memory.Valid.Iempty (valid : m.Valid) : (Iempty m).2.Valid where
  nodes := valid.nodes
  next := Nat.lt_succ_of_lt valid.next

@[simp] theorem setNode_index : (m.setNode p bn).index = m.index := rfl

@[simp] theorem setNode_next : (m.setNode p bn).next = m.next := rfl

@[simp] theorem setIndex_node {t : N.Table} : (m.setIndex p t).node = m.node := rfl

@[simp] theorem setIndex_next {t : N.Table} : (m.setIndex p t).next = m.next := rfl

theorem setNode_self : (m.setNode p bn).node p = some bn := if_pos rfl

theorem setNode_of_ne {q : Ptr} (other : q ≠ p) : (m.setNode p bn).node q = m.node q := if_neg other

theorem setIndex_self {t : N.Table} : (m.setIndex p t).index p = some t := if_pos rfl

theorem setIndex_of_ne {t : N.Table} {q : Ptr} (other : q ≠ p) :
    (m.setIndex p t).index q = m.index q := if_neg other

/-- What stays of a memory that has grown, beside the addresses `old`. -/
structure Kept (m m' : Memory N) (old : Ptr → Prop) : Prop where
  valid : m'.Valid
  next : m.next ≤ m'.next
  frame : ∀ p, p < m.next → ¬old p → m'.index p = m.index p ∧ m'.node p = m.node p

/-- The memory holds the trie, at addresses with `at`. -/
structure Held (m : Memory N) (t : TrieOf N.toFlattenableTable Ptr) (inside : Ptr → Prop) : Prop where
  rep : Rep m.heap t
  separate : Separate t
  occurs : ∀ p, Occurs p t → inside p

theorem rep_kept {old : Ptr → Prop} {t : TrieOf N.toFlattenableTable Ptr} (rep : Rep m.heap t)
    (kept : Kept m m' old) (apart : ∀ p, Occurs p t → p < m.next ∧ ¬old p) : Rep m'.heap t := by
  refine rep.frame fun p occurs => ?_
  obtain ⟨below, new⟩ := apart p occurs
  obtain ⟨index, node⟩ := kept.frame p below new
  exact ⟨index, congrArg (Option.map BorderNode.view) node⟩

/-! ### A slice of a layer -/

section Layer

variable {tableform tableform' : N.Table} {s : Int} {inside inside' old : Ptr → Prop}
  {listform : List (Int × (Ptr × Bordernode Ptr (TrieOf N.toFlattenableTable Ptr)))}
  {bnode bnode' : Bordernode Ptr (TrieOf N.toFlattenableTable Ptr)}
  {t : TrieOf N.toFlattenableTable Ptr}

theorem Held.mono (held : Held m t inside) (more : ∀ p, inside p → inside' p) : Held m t inside' :=
  ⟨held.rep, held.separate, fun p occurs => more p (held.occurs p occurs)⟩

theorem Held.self (held : Held m t inside) : Held m t (fun p => Occurs p t) :=
  ⟨held.rep, held.separate, fun _ occurs => occurs⟩

theorem Held.index (held : Held m (.of addr tableform listform) inside) :
    m.index addr = some tableform := by
  cases held.rep with
  | of index nodes links => exact index

theorem Held.node (held : Held m (.of addr tableform listform) inside)
    (found : lookup s listform = some (a, bnode)) :
    ∃ bn, m.node a = some bn ∧ bn.view = map addrOfTrie bnode := by
  cases held.rep with
  | of index nodes links => exact node_of_heap (nodes _ (mem_of_lookup found))

theorem Held.link (held : Held m (.of addr tableform listform) inside)
    (found : lookup s listform = some (a, bnode)) (link : bnode.suffix = some (.inr t)) :
    Held m t inside := by
  have mem := mem_of_lookup found
  refine ⟨?_, ?_, fun p occurs => held.occurs p (.link mem link occurs)⟩
  · cases held.rep with
    | of index nodes links => exact links _ mem t link
  · cases held.separate with
    | of layer slices nodes links => exact links _ mem t link

/-- The addresses of a slice are neither the layer's own nor those of other slices. -/
theorem Held.slice (held : Held m (.of addr tableform listform) inside)
    (found : lookup s listform = some (a, bnode)) (occurs : NodeOccurs p (a, bnode)) :
    p ≠ addr ∧ ∀ e ∈ listform, e.1 ≠ s → ¬NodeOccurs p e.2 := by
  have mem := mem_of_lookup found
  cases held.separate with
  | of layer slices nodes links =>
    constructor
    · rintro rfl
      exact layer _ mem occurs
    · intro e he apart
      exact slices _ mem e he (Ne.symm apart) p occurs

theorem Held.own (held : Held m (.of addr tableform listform) inside)
    (found : lookup s listform = some (a, bnode)) (link : bnode.suffix = some (.inr t)) :
    ¬Occurs a t := by
  cases held.separate with
  | of layer slices nodes links => exact nodes _ (mem_of_lookup found) t link

/-- The layer is held again after one slice has been written. -/
theorem Held.put (held : Held m (.of addr tableform listform) inside) (sorted : Sorted listform)
    (index : m'.index addr = some tableform') (node : m'.heap.node a = some (map addrOfTrie bnode))
    (others : ∀ e ∈ listform, e.1 ≠ s → ∀ p, NodeOccurs p e.2 →
      m'.index p = m.index p ∧ m'.node p = m.node p)
    (sub : ∀ t, bnode.suffix = some (.inr t) → Rep m'.heap t ∧ Separate t ∧ ¬Occurs a t)
    (fresh : ∀ p, NodeOccurs p (a, bnode) → inside' p ∧ p ≠ addr ∧
      ∀ e ∈ listform, e.1 ≠ s → ¬NodeOccurs p e.2) (more : ∀ p, inside p → inside' p) :
    Held m' (.of addr tableform' (Flattened.putAux s (a, bnode) listform)) inside' := by
  refine ⟨held.rep.put sorted index node ?_ fun t link => (sub t link).1,
    held.separate.put sorted (fun p occurs => (fresh p occurs).2) fun t link => (sub t link).2.symm,
    ?_⟩
  · intro e mem apart p occurs
    obtain ⟨index, node⟩ := others e mem apart p occurs
    exact ⟨index, congrArg (Option.map BorderNode.view) node⟩
  · intro p occurs
    rcases occurs.put sorted with here | before
    · exact (fresh p here).1
    · exact more p (held.occurs p before)

/-- A new slice is put into the layer's index. -/
theorem Iput_held (key : Key) (inside' : Ptr → Prop) {c : N.Cursor}
    (held : Held m (.of addr tableform listform) inside)
    (sorted : Sorted listform) (abs : N.AbsRel c tableform)
    (node : m.node a = some bn) (view : bn.view = map addrOfTrie bnode)
    (sub : ∀ t, bnode.suffix = some (.inr t) → Rep m.heap t ∧ Separate t ∧ ¬Occurs a t)
    (fresh : ∀ p, NodeOccurs p (a, bnode) → inside' p ∧ ¬Occurs p (.of addr tableform listform))
    (more : ∀ p, inside p → inside' p) :
    ∃ c' tableform', Iput (UTIL_GetNextKeySlice key) a (addr, c) m
        = some (m.setIndex addr tableform') ∧
      N.Put (getKeyslice key) a c tableform c' tableform' ∧
      Held (m.setIndex addr tableform')
        (.of addr tableform' (Flattened.putAux (getKeyslice key) (a, bnode) listform)) inside' := by
  have here : ∀ p, NodeOccurs p (a, bnode) → p ≠ addr := fun p occurs same =>
    (fresh p occurs).2 (same ▸ .layer)
  refine ⟨(N.putAt (getKeyslice key) a c tableform).1, (N.putAt (getKeyslice key) a c tableform).2,
    ?_, N.Iput_spec abs, held.put sorted setIndex_self ?_ ?_ ?_ ?_ more⟩
  · unfold Iput
    simp only [held.index, getNextKeySlice_eq, Option.bind_eq_bind, Option.bind_some]
    rfl
  · rw [← view]
    exact heap_node (m := m.setIndex addr _) node
  · intro e mem _ p occurs
    refine ⟨setIndex_of_ne ?_, rfl⟩
    rintro rfl
    cases held.separate with
    | of layer slices nodes links => exact layer e mem occurs
  · intro t link
    obtain ⟨rep, rest⟩ := sub t link
    refine ⟨rep.frame fun p occurs => ⟨?_, rfl⟩, rest⟩
    exact setIndex_of_ne (here p (.inr ⟨t, link, occurs⟩))
  · intro p occurs
    refine ⟨(fresh p occurs).1, here p occurs, fun e mem _ other => ?_⟩
    exact (fresh p occurs).2 (occurs_of.mpr (.inr ⟨e, mem, other⟩))

/-- The border node of a slice is written. -/
theorem setNode_held (held : Held m (.of addr tableform listform) inside) (sorted : Sorted listform)
    (found : lookup s listform = some (a, bnode)) (view : bn.view = map addrOfTrie bnode')
    (sub : ∀ t, bnode'.suffix = some (.inr t) → Rep m.heap t ∧ Separate t ∧ ¬Occurs a t ∧
      ∀ p, Occurs p t → inside' p ∧
        (Occurs p (.of addr tableform listform) → NodeOccurs p (a, bnode)))
    (more : ∀ p, inside p → inside' p) :
    Held (m.setNode a bn)
      (.of addr tableform (Flattened.putAux s (a, bnode') listform)) inside' := by
  refine held.put sorted held.index ?_ ?_ ?_ ?_ more
  · rw [← view]
    exact heap_node setNode_self
  · intro e mem apart p occurs
    refine ⟨rfl, setNode_of_ne ?_⟩
    rintro rfl
    exact (held.slice found (.inl rfl)).2 e mem apart occurs
  · intro t link
    obtain ⟨rep, separate, own, -⟩ := sub t link
    refine ⟨rep.frame fun p occurs => ⟨rfl, congrArg (Option.map BorderNode.view) ?_⟩, separate, own⟩
    refine setNode_of_ne ?_
    rintro rfl
    exact own occurs
  · rintro p (rfl | ⟨t, link, occurs⟩)
    · exact ⟨more _ (held.occurs _ (.node (mem_of_lookup found) rfl)), held.slice found (.inl rfl)⟩
    · obtain ⟨-, -, -, apart⟩ := sub t link
      refine ⟨(apart p occurs).1, ?_, ?_⟩
      · rintro rfl
        exact (held.slice found ((apart _ occurs).2 .layer)).1 rfl
      · intro e mem other here
        have mine := (apart p occurs).2 (occurs_of.mpr (.inr ⟨e, mem, here⟩))
        exact (held.slice found mine).2 e mem other here

end Layer

end DeepDB.IndexString
