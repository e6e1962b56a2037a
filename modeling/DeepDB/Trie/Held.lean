import DeepDB.Trie.Heap

/-!
A trie that a heap holds, while the heap is written. A write under one slice touches the layer's own
index, the addresses that the slice has and addresses that are new; the layer is held again, with the
new slice in it.
-/

namespace DeepDB.Trie
open SortedAssoc

variable {Table : Type} {h h' : Heap Table} {n n' : Ptr}

/-- The heap holds the trie, at addresses that are `inside`. -/
structure HeldIn (h : Heap Table) (t : Trienode Table Ptr Ptr) (inside : Ptr → Prop) : Prop where
  rep : Rep h t
  separate : Separate t
  occurs : ∀ p, Occurs p t → inside p

/-- What stays of a heap that grows from `n` to `n'` addresses, beside the addresses `old`. -/
structure KeptIn (h h' : Heap Table) (n n' : Ptr) (old : Ptr → Prop) : Prop where
  next : n ≤ n'
  frame : ∀ p, p < n → ¬old p → h'.index p = h.index p ∧ h'.node p = h.node p

theorem KeptIn.refl (h : Heap Table) (n : Ptr) (old : Ptr → Prop) : KeptIn h h n n old :=
  ⟨Nat.le_refl n, fun _ _ _ => ⟨rfl, rfl⟩⟩

theorem KeptIn.mono {old old' : Ptr → Prop} (kept : KeptIn h h' n n' old)
    (more : ∀ p, p < n → old p → old' p) : KeptIn h h' n n' old' :=
  ⟨kept.next, fun p below apart => kept.frame p below fun here => apart (more p below here)⟩

theorem KeptIn.trans {h'' : Heap Table} {n'' : Ptr} {old : Ptr → Prop} (first : KeptIn h h' n n' old)
    (second : KeptIn h' h'' n' n'' old) : KeptIn h h'' n n'' old where
  next := first.next.trans second.next
  frame := fun p below apart => by
    obtain ⟨index, node⟩ := first.frame p below apart
    obtain ⟨index', node'⟩ := second.frame p (Nat.lt_of_lt_of_le below first.next) apart
    exact ⟨index'.trans index, node'.trans node⟩

/-- A trie apart from what is written stays. -/
theorem Rep.kept {old : Ptr → Prop} {t : Trienode Table Ptr Ptr} (rep : Rep h t)
    (kept : KeptIn h h' n n' old) (apart : ∀ p, Occurs p t → p < n ∧ ¬old p) : Rep h' t :=
  rep.frame fun p occurs => kept.frame p (apart p occurs).1 (apart p occurs).2

section Layer

variable {addr a p : Ptr} {tableform tableform' : Table} {s : Int} {inside inside' : Ptr → Prop}
  {listform : List (Int × (Ptr × Bordernode Ptr (Trienode Table Ptr Ptr)))}
  {bnode bnode' : Bordernode Ptr (Trienode Table Ptr Ptr)} {t : Trienode Table Ptr Ptr}

theorem HeldIn.mono (held : HeldIn h t inside) (more : ∀ p, inside p → inside' p) :
    HeldIn h t inside' :=
  ⟨held.rep, held.separate, fun p occurs => more p (held.occurs p occurs)⟩

theorem heldIn_nil (index : h.index addr = some tableform) :
    HeldIn h (.of addr tableform []) (fun p => p = addr) where
  rep := .of index (fun _ no => (by cases no)) (fun _ no => (by cases no))
  separate := .of (fun _ no => (by cases no)) (fun _ no => (by cases no))
    (fun _ no => (by cases no)) (fun _ no => (by cases no))
  occurs := fun p occurs => by
    rcases occurs_of.mp occurs with here | ⟨e, no, -⟩
    · exact here
    · cases no

theorem HeldIn.index (held : HeldIn h (.of addr tableform listform) inside) :
    h.index addr = some tableform := by
  cases held.rep with
  | of index nodes links => exact index

theorem HeldIn.node (held : HeldIn h (.of addr tableform listform) inside)
    (found : lookup s listform = some (a, bnode)) :
    h.node a = some (BorderNode.map addrOfTrie bnode) := by
  cases held.rep with
  | of index nodes links => exact nodes _ (mem_of_lookup found)

theorem HeldIn.link (held : HeldIn h (.of addr tableform listform) inside)
    (found : lookup s listform = some (a, bnode)) (link : bnode.suffix = some (.inr t)) :
    HeldIn h t inside := by
  have mem := mem_of_lookup found
  refine ⟨?_, ?_, fun p occurs => held.occurs p (.link mem link occurs)⟩
  · cases held.rep with
    | of index nodes links => exact links _ mem t link
  · cases held.separate with
    | of layer slices nodes links => exact links _ mem t link

theorem HeldIn.own (held : HeldIn h (.of addr tableform listform) inside)
    (found : lookup s listform = some (a, bnode)) (link : bnode.suffix = some (.inr t)) :
    ¬Occurs a t := by
  cases held.separate with
  | of layer slices nodes links => exact nodes _ (mem_of_lookup found) t link

/-- The layer's address is not one of its slices'. -/
theorem HeldIn.layer (held : HeldIn h (.of addr tableform listform) inside)
    {e : Int × (Ptr × Bordernode Ptr (Trienode Table Ptr Ptr))} (mem : e ∈ listform) :
    ¬NodeOccurs addr e.2 := by
  cases held.separate with
  | of layer slices nodes links => exact layer e mem

/-- The addresses under a slice. -/
def Own (s : Int) (listform : List (Int × (Ptr × Bordernode Ptr (Trienode Table Ptr Ptr))))
    (p : Ptr) : Prop :=
  ∃ e ∈ listform, e.1 = s ∧ NodeOccurs p e.2

theorem own_of_lookup (found : lookup s listform = some (a, bnode)) (occurs : NodeOccurs p (a, bnode)) :
    Own s listform p := ⟨_, mem_of_lookup found, rfl, occurs⟩

theorem own_occurs (own : Own s listform p) : Occurs p (.of addr tableform listform) := by
  obtain ⟨e, mem, -, occurs⟩ := own
  exact occurs_of.mpr (.inr ⟨e, mem, occurs⟩)

/-- A layer is held again after a write under one of its slices. -/
theorem HeldIn.write (held : HeldIn h (.of addr tableform listform) (fun p => p < n))
    (sorted : Sorted listform) (kept : KeptIn h h' n n' (fun p => p = addr ∨ Own s listform p))
    (index : h'.index addr = some tableform')
    (node : h'.node a = some (BorderNode.map addrOfTrie bnode'))
    (fresh : ∀ p, NodeOccurs p (a, bnode') → Own s listform p ∨ n ≤ p ∧ p < n')
    (sub : ∀ t, bnode'.suffix = some (.inr t) → Rep h' t ∧ Separate t ∧ ¬Occurs a t) :
    HeldIn h' (.of addr tableform' (put s (a, bnode') listform))
      (fun p => Occurs p (.of addr tableform listform) ∨ n ≤ p ∧ p < n') := by
  have below : addr < n := held.occurs addr .layer
  have others : ∀ e ∈ listform, e.1 ≠ s → ∀ p, NodeOccurs p e.2 → p < n ∧ ¬(p = addr ∨ Own s listform p) := by
    intro e mem apart p occurs
    refine ⟨held.occurs p (occurs_of.mpr (.inr ⟨e, mem, occurs⟩)), ?_⟩
    rintro (rfl | ⟨e', mem', rfl, occurs'⟩)
    · exact held.layer mem occurs
    · cases held.separate with
      | of layer slices nodes links => exact slices e mem e' mem' apart p occurs occurs'
  have new : ∀ p, NodeOccurs p (a, bnode') → p ≠ addr ∧ ∀ e ∈ listform, e.1 ≠ s → ¬NodeOccurs p e.2 := by
    intro p occurs
    rcases fresh p occurs with own | ⟨above, -⟩
    · constructor
      · rintro rfl
        obtain ⟨e, mem, -, here⟩ := own
        exact held.layer mem here
      · intro e mem apart here
        exact (others e mem apart p here).2 (.inr own)
    · constructor
      · rintro rfl
        exact Nat.not_le.mpr below above
      · intro e mem apart here
        exact Nat.not_le.mpr (others e mem apart p here).1 above
  refine ⟨held.rep.put sorted index node ?_ fun t link => (sub t link).1,
    held.separate.put sorted new fun t link => (sub t link).2.symm, ?_⟩
  · intro e mem apart p occurs
    obtain ⟨below, free⟩ := others e mem apart p occurs
    exact kept.frame p below free
  · intro p occurs
    rcases occurs.put sorted with here | before
    · exact (fresh p here).imp_left own_occurs
    · exact .inl before

end Layer

end DeepDB.Trie
