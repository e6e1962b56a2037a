import DeepDB.Trie.Places

/-!
Tries in memory. A layer's index and a border node stand at addresses of their own, and a border
node that has a link has the address of the layer under it. A put works at one slice of a layer:
what it writes leaves the other slices' part of the memory as it was.
-/

namespace DeepDB.Trie

open SortedAssoc

/-- The addresses of clients' values, border nodes and indices. -/
abbrev Ptr := Nat

def NULL : Ptr := 0

structure Heap (Table : Type) where
  index : Ptr → Option Table
  node : Ptr → Option (Bordernode Ptr Ptr)

variable {Table : Type}

def addrOfTrie : Trienode Table Ptr Ptr → Ptr
  | .of addr _ _ => addr

namespace BorderNode

variable {E T T' : Type} (f : T → T')

def map (t : Bordernode E T) : Bordernode E T' := ⟨t.prefixes, t.suffix.map (Sum.map id f)⟩

@[simp] theorem map_empty : map f (empty : Bordernode E T) = empty := rfl

@[simp] theorem map_putPrefix (k : Nat) (v : E) (t : Bordernode E T) :
    map f (putPrefix k v t) = putPrefix k v (map f t) := by
  cases k <;> rfl

@[simp] theorem map_putSuffix (k : Key) (v : E) (t : Bordernode E T) :
    map f (putSuffix k v t) = putSuffix k v (map f t) := rfl

@[simp] theorem map_putLink (v : T) (t : Bordernode E T) :
    map f (putLink v t) = putLink (f v) (map f t) := rfl

@[simp] theorem map_putValue (k : Key) (v : E) (t : Bordernode E T) :
    map f (putValue k v t) = putValue k v (map f t) := by
  unfold putValue
  split
  · exact map_putPrefix f _ _ _
  · exact map_putSuffix f _ _ _

@[simp] theorem getPrefix_map (k : Nat) (t : Bordernode E T) :
    getPrefix k (map f t) = getPrefix k t := by
  cases k <;> rfl

@[simp] theorem getSuffixValue_map (k : Key) (t : Bordernode E T) :
    getSuffixValue k (map f t) = getSuffixValue k t := by
  obtain ⟨prefixes, suffix⟩ := t
  unfold getSuffixValue map
  rcases suffix with _ | pair | link <;> rfl

@[simp] theorem getLink_map (t : Bordernode E T) : getLink (map f t) = (getLink t).map f := by
  obtain ⟨prefixes, suffix⟩ := t
  unfold getLink map
  rcases suffix with _ | pair | link <;> rfl

@[simp] theorem getSuffixPair_map (t : Bordernode E T) :
    getSuffixPair (map f t) = getSuffixPair t := by
  obtain ⟨prefixes, suffix⟩ := t
  unfold getSuffixPair map
  rcases suffix with _ | pair | link <;> rfl

@[simp] theorem testSuffix_map (k : Key) (t : Bordernode E T) :
    testSuffix k (map f t) = testSuffix k t := by
  obtain ⟨prefixes, suffix⟩ := t
  unfold testSuffix map
  rcases suffix with _ | pair | link <;> rfl

end BorderNode

/-- The memory holds the trie. -/
inductive Rep (h : Heap Table) : Trienode Table Ptr Ptr → Prop
  | of {addr : Ptr} {tableform : Table}
      {listform : List (Int × (Ptr × Bordernode Ptr (Trienode Table Ptr Ptr)))}
      (index : h.index addr = some tableform)
      (nodes : ∀ e ∈ listform, h.node e.2.1 = some (BorderNode.map addrOfTrie e.2.2))
      (links : ∀ e ∈ listform, ∀ t, e.2.2.suffix = some (.inr t) → Rep h t) :
      Rep h (.of addr tableform listform)

/-! ### Addresses -/

/-- The addresses that a trie takes. -/
inductive Occurs (p : Ptr) : Trienode Table Ptr Ptr → Prop
  | layer {tableform : Table} {listform} : Occurs p (.of p tableform listform)
  | node {addr : Ptr} {tableform : Table}
      {listform : List (Int × (Ptr × Bordernode Ptr (Trienode Table Ptr Ptr)))} {e}
      (mem : e ∈ listform) (here : p = e.2.1) : Occurs p (.of addr tableform listform)
  | link {addr : Ptr} {tableform : Table}
      {listform : List (Int × (Ptr × Bordernode Ptr (Trienode Table Ptr Ptr)))} {e} {t}
      (mem : e ∈ listform) (link : e.2.2.suffix = some (.inr t)) (sub : Occurs p t) :
      Occurs p (.of addr tableform listform)

/-- Those of one slice. -/
def NodeOccurs (p : Ptr) (e : Ptr × Bordernode Ptr (Trienode Table Ptr Ptr)) : Prop :=
  p = e.1 ∨ ∃ t, e.2.suffix = some (.inr t) ∧ Occurs p t

/-- No address is taken twice. -/
inductive Separate : Trienode Table Ptr Ptr → Prop
  | of {addr : Ptr} {tableform : Table}
      {listform : List (Int × (Ptr × Bordernode Ptr (Trienode Table Ptr Ptr)))}
      (layer : ∀ e ∈ listform, ¬NodeOccurs addr e.2)
      (slices : ∀ e ∈ listform, ∀ e' ∈ listform, e.1 ≠ e'.1 →
        ∀ p, NodeOccurs p e.2 → ¬NodeOccurs p e'.2)
      (nodes : ∀ e ∈ listform, ∀ t, e.2.2.suffix = some (.inr t) → ¬Occurs e.2.1 t)
      (links : ∀ e ∈ listform, ∀ t, e.2.2.suffix = some (.inr t) → Separate t) :
      Separate (.of addr tableform listform)

section Layer

variable {h h' : Heap Table} {addr a p : Ptr} {tableform tableform' : Table} {s : Int}
  {listform : List (Int × (Ptr × Bordernode Ptr (Trienode Table Ptr Ptr)))}
  {bnode bnode' : Bordernode Ptr (Trienode Table Ptr Ptr)} {t : Trienode Table Ptr Ptr}

theorem occurs_of : Occurs p (.of addr tableform listform)
    ↔ p = addr ∨ ∃ e ∈ listform, NodeOccurs p e.2 := by
  constructor
  · intro occurs
    cases occurs with
    | layer => exact .inl rfl
    | node mem here => exact .inr ⟨_, mem, .inl here⟩
    | link mem link sub => exact .inr ⟨_, mem, .inr ⟨_, link, sub⟩⟩
  · rintro (rfl | ⟨e, mem, here | ⟨t, link, sub⟩⟩)
    · exact .layer
    · exact .node mem here
    · exact .link mem link sub

theorem occurs_addr : Occurs (addrOfTrie t) t := by
  obtain ⟨addr, tableform, listform⟩ := t
  exact .layer

/-- A trie stays where memory that it does not take is changed. -/
theorem Rep.frame (rep : Rep h t) (same : ∀ p, Occurs p t → h'.index p = h.index p ∧
    h'.node p = h.node p) : Rep h' t := by
  induction rep with
  | of index nodes links ih =>
    constructor
    · rw [(same _ .layer).1, index]
    · intro e mem
      rw [(same _ (.node mem rfl)).2, nodes e mem]
    · intro e mem t link
      exact ih e mem t link fun p occurs => same p (.link mem link occurs)

/-! ### A slice is put -/

theorem mem_put_iff {e : Int × (Ptr × Bordernode Ptr (Trienode Table Ptr Ptr))}
    (sorted : Sorted listform) (mem : e ∈ put s (a, bnode) listform) :
    e = (s, a, bnode) ∨ e ∈ listform ∧ e.1 ≠ s := by
  rcases mem_put mem with rfl | old
  · exact .inl rfl
  · by_cases same : e.1 = s
    · refine .inl ?_
      have here := lookup_of_mem (sorted_put sorted) mem
      rw [same, lookup_put_self] at here
      rw [Option.some.inj here, ← same]
    · exact .inr ⟨old, same⟩

/-- The memory holds the layer again when the slice's part is there and the other parts are kept. -/
theorem Rep.put (rep : Rep h (.of addr tableform listform)) (sorted : Sorted listform)
    (index : h'.index addr = some tableform') (node : h'.node a = some (BorderNode.map addrOfTrie bnode))
    (others : ∀ e ∈ listform, e.1 ≠ s → ∀ p, NodeOccurs p e.2 →
      h'.index p = h.index p ∧ h'.node p = h.node p)
    (sub : ∀ t, bnode.suffix = some (.inr t) → Rep h' t) :
    Rep h' (.of addr tableform' (put s (a, bnode) listform)) := by
  cases rep with
  | of _ nodes links =>
    refine .of index ?_ ?_
    · intro e mem
      rcases mem_put_iff sorted mem with rfl | ⟨old, apart⟩
      · exact node
      · rw [(others e old apart e.2.1 (.inl rfl)).2]
        exact nodes e old
    · intro e mem t link
      rcases mem_put_iff sorted mem with rfl | ⟨old, apart⟩
      · exact sub t link
      · exact (links e old t link).frame fun p occurs => others e old apart p (.inr ⟨t, link, occurs⟩)

theorem Separate.put (separate : Separate (.of addr tableform listform)) (sorted : Sorted listform)
    (fresh : ∀ p, NodeOccurs p (a, bnode) →
      p ≠ addr ∧ ∀ e ∈ listform, e.1 ≠ s → ¬NodeOccurs p e.2)
    (own : ∀ t, bnode.suffix = some (.inr t) → ¬Occurs a t ∧ Separate t) :
    Separate (.of addr tableform' (put s (a, bnode) listform)) := by
  cases separate with
  | of layer slices nodes links =>
    refine .of ?_ ?_ ?_ ?_
    · intro e mem
      rcases mem_put_iff sorted mem with rfl | ⟨old, apart⟩
      · exact fun occurs => (fresh addr occurs).1 rfl
      · exact layer e old
    · intro e mem e' mem' differ p occurs occurs'
      rcases mem_put_iff sorted mem with rfl | ⟨old, apart⟩
      · rcases mem_put_iff sorted mem' with rfl | ⟨old', apart'⟩
        · exact differ rfl
        · exact (fresh p occurs).2 e' old' apart' occurs'
      · rcases mem_put_iff sorted mem' with rfl | ⟨old', apart'⟩
        · exact (fresh p occurs').2 e old apart occurs
        · exact slices e old e' old' differ p occurs occurs'
    · intro e mem t link
      rcases mem_put_iff sorted mem with rfl | ⟨old, apart⟩
      · exact (own t link).1
      · exact nodes e old t link
    · intro e mem t link
      rcases mem_put_iff sorted mem with rfl | ⟨old, apart⟩
      · exact (own t link).2
      · exact links e old t link

theorem Occurs.put (sorted : Sorted listform)
    (occurs : Occurs p (.of addr tableform' (put s (a, bnode) listform))) :
    NodeOccurs p (a, bnode) ∨ Occurs p (.of addr tableform listform) := by
  rw [occurs_of] at occurs ⊢
  rcases occurs with rfl | ⟨e, mem, here⟩
  · exact .inr (.inl rfl)
  · rcases mem_put_iff sorted mem with rfl | ⟨old, apart⟩
    · exact .inl here
    · exact .inr (.inr ⟨e, old, here⟩)

end Layer

end DeepDB.Trie
