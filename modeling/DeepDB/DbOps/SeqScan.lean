import DeepDB.DbOps.Projection
import DeepDB.Library.Contents

/-!
The iterators of `db_ops/db_operations_light.c`, and the sequential scan: an iterator on the tuples that
the primary key index of a relation points to. Its environment is a pointer to the cursor, which dangles
once the iterator is closed; an iterator has no more tuples when it returns NULL.
-/

namespace DeepDB.DbOps
open SortedAssoc
open BTree (Cursor MAX_TREE_DEPTH leafEntries)
open BTree.Tree (good_sorted)
open Library hiding State Result step run

/-- `relation_t`; a record is the address of a tuple. -/
structure Relation where
  attrs : AttributeList
  pkAttrs : AttributeList
  pkIndex : BTree.Relation Value

variable {h : Heap} {rel : Relation} {c : Cursor} {pos : Nat} {entries : List (BTree.Key × Value)}

/-! ### The functions -/

/-- The methods of an iterator whose environments are in `E`. -/
structure Iterator (E : Type) where
  init : Heap → E → Option (Heap × E)
  next : Heap → E → Option (Heap × E × Value)
  close : Heap → E → Option (Heap × E)

/-- `btree_cursor`; it is NULL before the scan is initialised. -/
inductive BtreeCursor where
  | null
  | live (c : Cursor)
  | freed

def RL_FreeCursor : BtreeCursor → Option BtreeCursor
  | .null => some .null
  | .live _ => some .freed
  | .freed => none

def seqScanInit (rel : Relation) : Option Cursor := do
  let _ ← RL_NewCursor rel.pkIndex
  let (c, _) ← RL_MoveToFirst rel.pkIndex
  return c

def seqScanNext (rel : Relation) (c : Cursor) : Option (Cursor × Value) := do
  if ← RL_IsEmpty rel.pkIndex then return (c, NULL)
  if !(← RL_CursorIsValid rel.pkIndex c) then return (c, NULL)
  let (c, res) ← RL_GetRecord rel.pkIndex c
  let c ← RL_MoveToNext rel.pkIndex c
  return (c, res)

def seqScan (rel : Relation) : Iterator BtreeCursor where
  init h _ := do return (h, .live (← seqScanInit rel))
  next h e :=
    match e with
    | .live c => do
      let (c, t) ← seqScanNext rel c
      return (h, .live c, t)
    | _ => none
  close h e := do return (h, ← RL_FreeCursor e)

/-! ### Stored relations -/

/-- Calls of the library have built the primary key index, and its entries are tuples of the schema,
each under the value of its primary key. -/
structure Stored (h : Heap) (rel : Relation) (entries : List (BTree.Key × Value)) : Prop where
  ok : h.Ok
  built : ∃ calls s, Library.run calls = some s ∧ s.rel = rel.pkIndex
  leaves : leafEntries rel.pkIndex.nodes MAX_TREE_DEPTH rel.pkIndex.root = some entries
  tuples : ∀ e ∈ entries, ∃ words, TupleAt h rel.attrs e.2 words ∧
    projection rel.attrs words rel.pkAttrs = some (.int e.1)

theorem seqScanInit_at (built : ∃ calls s, Library.run calls = some s ∧ s.rel = rel.pkIndex)
    (leaves : leafEntries rel.pkIndex.nodes MAX_TREE_DEPTH rel.pkIndex.root = some entries) :
    Sorted entries ∧ ∃ c, seqScanInit rel = some c ∧ At rel.pkIndex c 0 := by
  obtain ⟨calls, s, run, same⟩ := built
  obtain ⟨pos, at_⟩ := Library.run_at run
  rw [same] at at_
  obtain ⟨_, _, _, -, hrel, rfl, -⟩ := at_tree leaves at_
  obtain ⟨c, made, moved, first⟩ := RL_MoveToFirst_at leaves at_
  refine ⟨good_sorted hrel.good, c, ?_, first⟩
  rw [seqScanInit, made, moved]
  rfl

theorem seqScanNext_at
    (leaves : leafEntries rel.pkIndex.nodes MAX_TREE_DEPTH rel.pkIndex.root = some entries)
    (at_ : At rel.pkIndex c pos) {e : BTree.Key × Value} (he : entries[pos]? = some e) :
    ∃ c', seqScanNext rel c = some (c', e.2) ∧ At rel.pkIndex c' (pos + 1) := by
  obtain ⟨inside, -⟩ := List.getElem?_eq_some_iff.mp he
  have some : entries.isEmpty = false := by
    rw [List.isEmpty_eq_false_iff, ← List.length_pos_iff]
    omega
  obtain ⟨c₁, get, at₁⟩ := RL_GetRecord_at leaves at_ he
  obtain ⟨c₂, next, at₂⟩ := RL_MoveToNext_at leaves at₁ inside
  refine ⟨c₂, ?_, at₂⟩
  rw [seqScanNext, RL_IsEmpty_at leaves at_, some, RL_CursorIsValid_at leaves at_]
  simp [inside, get, next]

theorem seqScanNext_end
    (leaves : leafEntries rel.pkIndex.nodes MAX_TREE_DEPTH rel.pkIndex.root = some entries)
    (at_ : At rel.pkIndex c entries.length) : seqScanNext rel c = some (c, NULL) := by
  rw [seqScanNext, RL_IsEmpty_at leaves at_, RL_CursorIsValid_at leaves at_]
  cases entries.isEmpty <;> simp

theorem seqScan_next {c' : Cursor} {a : Value} (next : seqScanNext rel c = some (c', a)) :
    (seqScan rel).next h (.live c) = some (h, .live c', a) := by
  show (seqScanNext rel c).bind _ = _
  rw [next]
  rfl

/-! ### What an iterator delivers -/

/-- The tuples are what they were. -/
def SameTuples (h h' : Heap) : Prop := ∀ t words, h.obj t = some (.tuple words) →
  h'.obj t = some (.tuple words)

theorem sameTuples_trans {h₁ h₂ : Heap} (first : SameTuples h h₁) (second : SameTuples h₁ h₂) :
    SameTuples h h₂ := fun t words tuple => second t words (first t words tuple)

/-- The objects that change are not tuples. -/
theorem sameTuples_grows {h' : Heap} {F F' : Set Nat} (ok : h.Ok) (hg : Grows h h' F F')
    (other : ∀ x ∈ F, ∀ words, h.obj x ≠ some (.tuple words)) : SameTuples h h' := by
  intro t words tuple
  have old : t < h.next := by
    by_contra late
    rw [ok.free t (Nat.le_of_not_lt late)] at tuple
    cases tuple
  rw [hg.same t (fun hF => other t hF words tuple) old, tuple]

theorem tupleAt_same {h' : Heap} {attrs : AttributeList} {t : Value} {words : Tuple}
    (tuple : TupleAt h attrs t words) (same : SameTuples h h') : TupleAt h' attrs t words :=
  ⟨tuple.live, same t words tuple.obj, tuple.domains⟩

/-- After each `init` the iterator delivers tuples with the values `ts` and then NULL, until it is closed.
An environment has objects of its own, the only ones that a call changes; `Ready` says which tuples are
still to come. -/
structure Delivery {E : Type} (it : Iterator E) (attrs : AttributeList) (ts : List Tuple) where
  Own : Heap → E → Set Nat → Prop
  Ready : Heap → E → List Tuple → Set Nat → Prop
  own : ∀ {h e us G}, Ready h e us G → Own h e G
  old : ∀ {h e G}, h.Ok → Own h e G → ∀ x ∈ G, x < h.next
  ownFrame : ∀ {h h' e G F F'}, h.Ok → Own h e G → Grows h h' F F' → Disjoint F G →
    SameTuples h h' → Own h' e G
  readyFrame : ∀ {h h' e us G F F'}, h.Ok → Ready h e us G → Grows h h' F F' → Disjoint F G →
    SameTuples h h' → Ready h' e us G
  init : ∀ {h e G}, h.Ok → Own h e G → ∃ h' e' G', it.init h e = some (h', e') ∧
    Ready h' e' ts G' ∧ Grows h h' G G' ∧ SameTuples h h'
  next : ∀ {h e w us G}, h.Ok → Ready h e (w :: us) G → ∃ h' e' t G',
    it.next h e = some (h', e', t) ∧ TupleAt h' attrs t w ∧ Ready h' e' us G' ∧ Grows h h' G G' ∧
      SameTuples h h'
  last : ∀ {h e G}, h.Ok → Ready h e [] G → ∃ h' e' G', it.next h e = some (h', e', NULL) ∧
    Ready h' e' [] G' ∧ Grows h h' G G' ∧ SameTuples h h'
  close : ∀ {h e us G}, h.Ok → Ready h e us G → ∃ h' e' G', it.close h e = some (h', e') ∧
    Own h' e' G' ∧ Grows h h' G G' ∧ SameTuples h h'

/-- The values of the tuple at `t`. -/
def wordsAt (h : Heap) (t : Value) : Tuple :=
  match h.obj t with
  | some (.tuple words) => words
  | _ => []

theorem wordsAt_tuple {attrs : AttributeList} {t : Value} {words : Tuple}
    (tuple : TupleAt h attrs t words) : wordsAt h t = words := by
  rw [wordsAt, tuple.obj]

theorem grows_refl (ok : h.Ok) (F : Set Nat) : Grows h h F F :=
  ⟨ok, Nat.le_refl _, fun _ _ _ => rfl, Set.Subset.rfl, fun _ hx => Or.inl hx⟩

/-- The sequential scan delivers the tuples of the relation. -/
def seqScanDelivery (stored : Stored h rel entries) :
    Delivery (seqScan rel) rel.attrs (entries.map fun e => wordsAt h e.2) where
  Own h' _ G := G = ∅ ∧ SameTuples h h'
  Ready h' e us G := (G = ∅ ∧ SameTuples h h') ∧
    ∃ c pos, e = .live c ∧ At rel.pkIndex c pos ∧
      us = (entries.drop pos).map fun e => wordsAt h e.2
  own := fun ready => ready.1
  old := by
    rintro _ _ _ _ ⟨rfl, -⟩ x hx
    exact hx.elim
  ownFrame := fun _ own _ _ same => ⟨own.1, sameTuples_trans own.2 same⟩
  readyFrame := fun _ ready _ _ same => ⟨⟨ready.1.1, sameTuples_trans ready.1.2 same⟩, ready.2⟩
  init := by
    intro h' e G ok own
    obtain ⟨-, c, init, at_⟩ := seqScanInit_at stored.built stored.leaves
    refine ⟨h', .live c, G, ?_, ⟨own, c, 0, rfl, at_, rfl⟩, grows_refl ok G, fun _ _ tuple => tuple⟩
    rw [seqScan, init]
    rfl
  next := by
    rintro h' _ w us G ok ⟨⟨rfl, same⟩, c, pos, rfl, at_, rest⟩
    cases ahead : entries.drop pos with
    | nil =>
      rw [ahead] at rest
      cases rest
    | cons e later =>
      rw [ahead] at rest
      obtain ⟨rfl, rfl⟩ := List.cons.inj rest
      obtain ⟨here, -, behind⟩ := Library.drop_step ahead
      obtain ⟨c', next, at'⟩ := seqScanNext_at stored.leaves at_ here
      obtain ⟨words, tuple, -⟩ := stored.tuples e (List.mem_of_getElem? here)
      rw [← wordsAt_tuple tuple] at tuple
      refine ⟨h', .live c', e.2, ∅, seqScan_next next, tupleAt_same tuple same,
        ⟨⟨rfl, same⟩, c', pos + 1, rfl, at', ?_⟩, grows_refl ok ∅, fun _ _ tuple => tuple⟩
      rw [behind]
  last := by
    rintro h' _ G ok ⟨⟨rfl, same⟩, c, pos, rfl, at_, rest⟩
    have none : entries.drop pos = [] := List.map_eq_nil_iff.mp rest.symm
    obtain rfl : pos = entries.length :=
      Nat.le_antisymm (at_le stored.leaves at_) (List.drop_eq_nil_iff.mp none)
    have last := seqScanNext_end stored.leaves at_
    exact ⟨h', .live c, ∅, seqScan_next last, ⟨⟨rfl, same⟩, c, entries.length, rfl, at_, rest⟩,
      grows_refl ok ∅, fun _ _ tuple => tuple⟩
  close := by
    rintro h' _ us G ok ⟨own, c, pos, rfl, -, -⟩
    exact ⟨h', .freed, G, rfl, own, grows_refl ok G, fun _ _ tuple => tuple⟩

end DeepDB.DbOps
