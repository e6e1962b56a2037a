import DeepDB.Library.Backward
import DeepDB.Library.RangeQuery

/-!
The integer index adapter, `src/btrees_and_tries/index_int.c`, over the relation library that is
built, and the part of `put` of `index_string.c` that uses it. A value is an address and `NULL` is
0. A cursor may be `NULL` too; the relation of a cursor is passed beside it. `malloc` does not fail.
-/

namespace DeepDB.IndexInt
open SortedAssoc Multiway Library
open BTree (Key Relation Cursor Holds leafEntries MAX_TREE_DEPTH)
open BTree.Tree (PathAt contents)

abbrev IKey := Key

abbrev IValue := Nat

def NULL : IValue := 0

abbrev ICursor := Option Cursor

def Iempty : Relation IValue := RL_NewRelation

def Imove_cursor (rel : Relation IValue) (key : IKey) : ICursor → Option ICursor
  | none => some none
  | some cursor => do
    let (cursor, found) ← RL_MoveToKey rel cursor key
    return if found then some cursor else none

def Imake_cursor (key : IKey) : Option (Relation IValue) → Option ICursor
  | none => some none
  | some index => do Imove_cursor index key (some (← RL_NewCursor index))

/-- It takes a cursor. `index_string.c` hands it an index, whose block is not a cursor's. -/
def Ifirst_cursor (rel : Relation IValue) : ICursor → Option ICursor
  | none => some none
  | some _ => do
    let (cursor, found) ← RL_MoveToFirst rel
    return if found then some cursor else none

/-- The loop of `Ilast_cursor`. -/
def lastLoop (rel : Relation IValue) : Nat → Cursor → Option Cursor
  | 0, _ => none
  | fuel + 1, cursor => do
    let (cursor, valid) ← RL_MoveToNextValid rel cursor
    if valid then lastLoop rel fuel cursor else return cursor

def Ilast_cursor (aliased : Bool) (rel : Relation IValue) (fuel : Nat) : ICursor → Option ICursor
  | none => some none
  | some cursor => do
    let cursor ← lastLoop rel fuel cursor
    return some (← RL_MoveToPrevious aliased rel cursor)

/-- The result, the cursor after the read and what has been written to `*key`. -/
def Iget_key (rel : Relation IValue) : ICursor → Option (Bool × ICursor × Option IKey)
  | none => some (false, none, none)
  | some cursor => do
    let (cursor, key) ← RL_GetKey rel cursor
    return (key != 0, some cursor, some key)

def Iget_value (rel : Relation IValue) : ICursor → Option (Bool × ICursor × Option IValue)
  | none => some (false, none, none)
  | some cursor => do
    let (cursor, value) ← RL_GetRecord rel cursor
    return (value != NULL, some cursor, some value)

/-- `RL_PutRecord` asserts that the cursor is not `NULL`. -/
def Iput (rel : Relation IValue) (key : IKey) (value : IValue) :
    ICursor → Option (Relation IValue × ICursor)
  | none => none
  | some cursor => do
    let (rel, cursor) ← RL_PutRecord rel cursor key value
    return (rel, some cursor)

/-- How `put` of the trie gets the border node of a slice: the one that the layer's index holds, or
the new one `bnode`, which it puts into the index. -/
def putLayer (index : Relation IValue) (keyslice : IKey) (bnode : IValue) :
    Option (Relation IValue × IValue) := do
  let node_cursor ← Imake_cursor keyslice (some index)
  let (success, node_cursor, obtained_keyslice) ← Iget_key index node_cursor
  if success && obtained_keyslice == some keyslice then
    let (_, _, ret_value) ← Iget_value index node_cursor
    return (index, ← ret_value)
  else
    let (index, _) ← Iput index keyslice bnode node_cursor
    return (index, bnode)

/-! ### The contract -/

/-- A relation that puts have built, through any cursors on it, and the map that it should be. -/
inductive Reached : Relation IValue → List (IKey × IValue) → Prop where
  | empty : Reached Iempty []
  | put {rel rel' : Relation IValue} {entries : List (IKey × IValue)} {cursor : Cursor} {pos : Nat}
      {cursor' : ICursor} {key : IKey} {value : IValue} :
      Reached rel entries → At rel cursor pos → value ≠ NULL →
      Iput rel key value (some cursor) = some (rel', cursor') →
      Reached rel' (put key value entries)

/-- `Imake_cursor` makes a cursor at the least key that is not below `key`, behind all others if
there is none. -/
def MakesCursor (rel : Relation IValue) (entries : List (IKey × IValue)) (key : IKey) : Prop :=
  ∃ cursor, Imake_cursor key (some rel) = some (some cursor) ∧ At rel cursor (rank key entries)

/-- Both reads succeed and return the entry. -/
def ReadsEntry (rel : Relation IValue) (cursor : Cursor) (x : IKey × IValue) : Prop :=
  (∃ cursor', Iget_key rel (some cursor) = some (true, cursor', some x.1)) ∧
    ∃ cursor', Iget_value rel (some cursor) = some (true, cursor', some x.2)

/-- Both reads return without success. -/
def FailsPastEnd (rel : Relation IValue) (cursor : Cursor) : Prop :=
  (∃ cursor' key, Iget_key rel (some cursor) = some (false, cursor', key)) ∧
    ∃ cursor' value, Iget_value rel (some cursor) = some (false, cursor', value)

/-- `Iput` through a cursor made for the key puts the value and leaves the other entries. -/
def PutsThrough (rel : Relation IValue) (entries : List (IKey × IValue)) (key : IKey)
    (value : IValue) : Prop :=
  ∃ cursor rel' cursor', Imake_cursor key (some rel) = some cursor ∧
    Iput rel key value cursor = some (rel', cursor') ∧
    leafEntries rel'.nodes MAX_TREE_DEPTH rel'.root = some (put key value entries)

/-- The trie goes on with the stored border node, or with the new one where there is none, and the
other border nodes of the layer are still there. -/
def KeepsLayer (rel : Relation IValue) (entries : List (IKey × IValue)) (key : IKey)
    (bnode : IValue) : Prop :=
  ∃ rel' b, putLayer rel key bnode = some (rel', b) ∧
    leafEntries rel'.nodes MAX_TREE_DEPTH rel'.root = some (put key b entries) ∧
    (∀ old, (key, old) ∈ entries → b = old) ∧ (key ∉ entries.map Prod.fst → b = bnode)

/-! ### Reachable relations -/

section
variable {rel : Relation IValue} {entries : List (IKey × IValue)} {cursor : Cursor} {pos : Nat}
  {key : IKey} {value : IValue}

/-- The tree in memory holds the entries. -/
def Stores (rel : Relation IValue) (entries : List (IKey × IValue)) : Prop :=
  ∃ (rel' : Relation IValue) (d : Nat) (t : BTree.Tree IValue d),
    rel = forgetRel rel' ∧ Holds rel' d t ∧ contents d t = entries

theorem at_stores (h : Stores rel entries) (hcursor : At rel cursor pos) :
    ∃ (rel' : Relation IValue) (d : Nat) (t : BTree.Tree IValue d),
      rel = forgetRel rel' ∧ Holds rel' d t ∧ contents d t = entries ∧ PathAt d t cursor pos := by
  obtain ⟨rel₁, d₁, t₁, same₁, hrel₁, rfl⟩ := h
  obtain ⟨rel₂, d₂, t₂, same₂, hrel₂, hcursor⟩ := hcursor
  have read := leafEntries_holds hrel₁
  rw [← same₁, same₂, leafEntries_holds hrel₂] at read
  exact ⟨rel₂, d₂, t₂, same₂, hrel₂, Option.some.inj read, hcursor⟩

theorem put_stores (key : IKey) (value : IValue) (h : Stores rel entries)
    (hcursor : At rel cursor pos) :
    (∃ rel' cursor', Iput rel key value (some cursor) = some (rel', cursor') ∧
      Stores rel' (put key value entries)) ∨
    (Iput rel key value (some cursor) = none ∧ key ∉ entries.map Prod.fst) := by
  obtain ⟨rel₁, d, t, rfl, hrel, rfl, hπ⟩ := at_stores h hcursor
  simp only [Iput, RL_PutRecord_forget hrel hπ]
  rcases BTree.RL_PutRecord_spec key value hrel hπ with
    ⟨rel', d', t', π', hput, hrel', hcontents, -⟩ | ⟨hput, absent, -⟩
  · rw [hput]
    exact Or.inl ⟨_, _, rfl, rel', d', t', rfl, hrel', hcontents⟩
  · rw [hput]
    exact Or.inr ⟨rfl, absent⟩

theorem reached_stores (h : Reached rel entries) : Stores rel entries := by
  induction h with
  | empty => exact ⟨BTree.RL_NewRelation, 0, _, rfl, BTree.holds_new IValue, rfl⟩
  | put _ hcursor _ hput ih =>
    rcases put_stores _ _ ih hcursor with ⟨rel', cursor', hput', stores⟩ | ⟨failed, -⟩
    · rw [hput'] at hput
      obtain ⟨rfl, -⟩ := Prod.mk.inj (Option.some.inj hput)
      exact stores
    · rw [failed] at hput
      cases hput

theorem reached_value (h : Reached rel entries) : ∀ x ∈ entries, x.2 ≠ NULL := by
  induction h with
  | empty =>
    intro x hx
    cases hx
  | put _ _ hvalue _ ih =>
    intro x hx
    rcases mem_put hx with rfl | hx
    · exact hvalue
    · exact ih x hx

theorem stores_sorted (h : Stores rel entries) : Sorted entries := by
  obtain ⟨rel', d, t, -, hrel, rfl⟩ := h
  exact BTree.Tree.good_sorted hrel.good

theorem stores_leaves (h : Stores rel entries) :
    leafEntries rel.nodes MAX_TREE_DEPTH rel.root = some entries := by
  obtain ⟨rel', d, t, rfl, hrel, rfl⟩ := h
  exact leafEntries_holds hrel

/-! ### Each function -/

/-- It is `NULL` unless the key is stored. -/
theorem Imake_cursor_spec (h : Stores rel entries) (key : IKey) :
    ∃ cursor, At rel cursor (rank key entries) ∧ Imake_cursor key (some rel) =
      some (if key ∈ entries.map Prod.fst then some cursor else none) := by
  obtain ⟨rel₁, d, t, rfl, hrel, rfl⟩ := h
  obtain ⟨π₀, hfirst, hπ₀⟩ := BTree.moveToFirst_spec hrel.repr [] (by simpa using hrel.shallow)
  rw [List.append_nil, ← hrel.root] at hfirst
  obtain ⟨π, hmove, hπ⟩ :=
    BTree.RL_MoveToKey_spec hrel.repr hrel.good hrel.shallow hπ₀ key
  have made : RL_NewCursor (forgetRel rel₁) = some π₀ := (RL_NewCursor_forget rel₁).trans hfirst
  refine ⟨π, ⟨rel₁, d, t, rfl, hrel, hπ⟩, ?_⟩
  simp only [Imake_cursor, Imove_cursor, made, RL_MoveToKey_forget hrel hπ₀, hmove,
    Option.bind_eq_bind, Option.bind_some, decide_eq_true_eq]
  rfl

/-- It is `NULL` on the empty relation. -/
theorem Ifirst_cursor_spec (h : Stores rel entries) (hcursor : At rel cursor pos) :
    ∃ first, At rel first 0 ∧
      Ifirst_cursor rel (some cursor) = some (if 0 < entries.length then some first else none) := by
  obtain ⟨first, -, moved, hfirst⟩ := RL_MoveToFirst_at (stores_leaves h) hcursor
  refine ⟨first, hfirst, ?_⟩
  simp [Ifirst_cursor, moved]

/-- One round stops behind the last entry. -/
theorem RL_MoveToNextValid_spec (h : Stores rel entries) (hcursor : At rel cursor pos) :
    ∃ next, RL_MoveToNextValid rel cursor = some (next, decide (pos + 1 < entries.length)) ∧
      At rel next (min (pos + 1) entries.length) := by
  have le := at_le (stores_leaves h) hcursor
  obtain ⟨rel₁, d, t, rfl, hrel, rfl, hπ⟩ := at_stores h hcursor
  obtain ⟨π, next, hπ'⟩ := BTree.RL_MoveToNext_spec hrel.repr hrel.good hrel.shallow hπ
  have moved := (RL_MoveToNext_forget hrel hπ).trans next
  have there : At (forgetRel rel₁) π (min (pos + 1) (contents d t).length) :=
    ⟨rel₁, d, t, rfl, hrel, hπ'⟩
  refine ⟨π, ?_, there⟩
  rw [RL_MoveToNextValid, moved, Option.bind_eq_bind, Option.bind_some,
    RL_CursorIsValid_at (leafEntries_holds hrel) there]
  have same : min (pos + 1) (contents d t).length < (contents d t).length ↔
      pos + 1 < (contents d t).length := by omega
  simp [same]

theorem lastLoop_spec (h : Stores rel entries) (hcursor : At rel cursor pos) {fuel : Nat}
    (enough : entries.length < pos + fuel) :
    ∃ last, lastLoop rel fuel cursor = some last ∧ At rel last entries.length := by
  induction fuel generalizing cursor pos with
  | zero =>
    have le := at_le (stores_leaves h) hcursor
    omega
  | succ fuel ih =>
    obtain ⟨next, moved, hnext⟩ := RL_MoveToNextValid_spec h hcursor
    unfold lastLoop
    rw [moved, Option.bind_eq_bind, Option.bind_some]
    by_cases more : pos + 1 < entries.length
    · rw [Nat.min_eq_left (by omega)] at hnext
      simp only [more, decide_true, if_pos]
      apply ih hnext
      omega
    · rw [Nat.min_eq_right (by omega)] at hnext
      simp only [more, decide_false]
      exact ⟨next, rfl, hnext⟩

/-- Behind the last entry the cursor is in the last leaf, so the step back from there is right. -/
theorem leafBehind_end {rel' : Relation IValue} {d : Nat} {t : BTree.Tree IValue d}
    (aliased : Bool) (hrel : Holds rel' d t) (some_entry : contents d t ≠ [])
    (hπ : PathAt d t cursor (contents d t).length) : LeafBehind aliased cursor := by
  obtain ⟨p, F, L, recs, i, base, rest, rfl, -, hi, atEnd, moves, -, empty, -⟩ :=
    BTree.pathAt_leaf hrel.repr hrel.good hπ
  have filled : recs ≠ [] := fun none => some_entry (empty none)
  have le := BTree.Tree.pathAt_le (moves recs.length (Nat.le_refl _))
  have long := List.length_pos_iff.mpr filled
  have later : (i : Int) ≠ 0 := by omega
  cases rest with
  | nil => exact later
  | cons e rest => exact Or.inl later

/-- With enough rounds it stops at the last entry, from any position. -/
theorem Ilast_cursor_spec (aliased : Bool) (h : Stores rel entries) (hcursor : At rel cursor pos)
    (some_entry : entries ≠ []) {fuel : Nat} (enough : entries.length < pos + fuel) :
    ∃ last, Ilast_cursor aliased rel fuel (some cursor) = some (some last) ∧
      At rel last (entries.length - 1) := by
  obtain ⟨π, looped, hπ⟩ := lastLoop_spec h hcursor enough
  obtain ⟨rel₁, d, t, rfl, hrel, rfl, hπ⟩ := at_stores h hπ
  have inside := List.length_pos_iff.mpr some_entry
  have behind := leafBehind_end aliased hrel some_entry hπ
  rcases RL_MoveToPrevious_spec aliased hrel hπ inside with ⟨-, last, back, hlast⟩ | ⟨apart, -⟩
  · refine ⟨last, ?_, rel₁, d, t, rfl, hrel, hlast⟩
    simp [Ilast_cursor, looped, back]
  · exact absurd behind apart

theorem Iget_spec (h : Stores rel entries) (hcursor : At rel cursor pos) {x : IKey × IValue}
    (hx : entries[pos]? = some x) :
    (∃ cursor₁, Iget_key rel (some cursor) = some (x.1 != 0, some cursor₁, some x.1) ∧
        At rel cursor₁ pos) ∧
      ∃ cursor₂, Iget_value rel (some cursor) = some (x.2 != NULL, some cursor₂, some x.2) := by
  obtain ⟨rel₁, d, t, rfl, hrel, rfl, hπ⟩ := at_stores h hcursor
  obtain ⟨π₁, hkey, hπ₁⟩ := BTree.RL_GetKey_spec hrel.repr hrel.good hrel.shallow hπ hx
  obtain ⟨π₂, hrecord, -⟩ := BTree.RL_GetRecord_spec hrel.repr hrel.good hrel.shallow hπ hx
  refine ⟨⟨π₁, ?_, rel₁, d, t, rfl, hrel, hπ₁⟩, π₂, ?_⟩
  · simp [Iget_key, RL_GetKey_forget hrel hπ, hkey]
  · simp [Iget_value, RL_GetRecord_forget hrel hπ, hrecord]

/-- Past the end the assertion of `RL_GetKey` fails. -/
theorem Iget_key_end (h : Stores rel entries) (hcursor : At rel cursor entries.length) :
    Iget_key rel (some cursor) = none := by
  obtain ⟨rel₁, d, t, rfl, hrel, rfl, hπ⟩ := at_stores h hcursor
  have invalid := BTree.isValid_spec hrel.repr hrel.good hπ
  have failed : BTree.RL_GetKey rel₁.nodes cursor = none := by
    simp [BTree.RL_GetKey, invalid]
  simp [Iget_key, RL_GetKey_forget hrel hπ, failed]

/-! ### The contract -/

theorem makesCursor_iff (h : Stores rel entries) (key : IKey) :
    MakesCursor rel entries key ↔ key ∈ entries.map Prod.fst := by
  obtain ⟨cursor, hcursor, made⟩ := Imake_cursor_spec h key
  constructor
  · intro ⟨cursor', made', _⟩
    by_contra absent
    rw [made, if_neg absent] at made'
    cases made'
  · intro stored
    rw [if_pos stored] at made
    exact ⟨cursor, made, hcursor⟩

theorem readsEntry_iff (h : Stores rel entries) (hcursor : At rel cursor pos) {x : IKey × IValue}
    (hx : entries[pos]? = some x) (hvalue : x.2 ≠ NULL) :
    ReadsEntry rel cursor x ↔ x.1 ≠ 0 := by
  obtain ⟨⟨cursor₁, hkey, -⟩, cursor₂, hread⟩ := Iget_spec h hcursor hx
  unfold ReadsEntry
  rw [hkey, hread]
  simp [hvalue]

theorem not_failsPastEnd (h : Stores rel entries) (hcursor : At rel cursor entries.length) :
    ¬ FailsPastEnd rel cursor := by
  intro ⟨⟨cursor', key, fails⟩, _⟩
  rw [Iget_key_end h hcursor] at fails
  cases fails

theorem putsThrough_iff (h : Stores rel entries) (key : IKey) (value : IValue) :
    PutsThrough rel entries key value ↔ key ∈ entries.map Prod.fst := by
  obtain ⟨cursor, hcursor, made⟩ := Imake_cursor_spec h key
  constructor
  · intro ⟨cursor', rel', cursor'', made', hput, _⟩
    by_contra absent
    rw [made, if_neg absent] at made'
    obtain rfl := Option.some.inj made'
    cases hput
  · intro stored
    rw [if_pos stored] at made
    rcases put_stores _ value h hcursor with ⟨rel', cursor', hput, stores⟩ | ⟨-, absent⟩
    · exact ⟨some cursor, rel', cursor', made, hput, stores_leaves stores⟩
    · exact absurd stored absent

/-- In a layer that holds the slice `put` goes on with the stored node, unless the slice is 0. -/
theorem keepsLayer_iff (h : Stores rel entries) (key : IKey) {bnode : IValue}
    (fresh : ∀ x ∈ entries, x.2 ≠ bnode) :
    KeepsLayer rel entries key bnode ↔ key ∈ entries.map Prod.fst ∧ key ≠ 0 := by
  obtain ⟨cursor, hcursor, made⟩ := Imake_cursor_spec h key
  by_cases stored : key ∈ entries.map Prod.fst
  · obtain ⟨⟨key, old⟩, hold, rfl⟩ := List.mem_map.mp stored
    have hx := getElem?_rank_of_mem (stores_sorted h) hold
    obtain ⟨⟨cursor₁, hkey, hcursor₁⟩, -⟩ := Iget_spec h hcursor hx
    obtain ⟨-, cursor₂, hread⟩ := Iget_spec h hcursor₁ hx
    rw [if_pos stored] at made
    by_cases zero : key = 0
    · subst zero
      rcases put_stores 0 bnode h hcursor₁ with
        ⟨rel', cursor', hput, -⟩ | ⟨-, absent⟩
      · have layer : putLayer rel 0 bnode = some (rel', bnode) := by
          simp [putLayer, made, hkey, hput]
        constructor
        · intro ⟨rel'', b, layer', _, keeps, _⟩
          obtain ⟨-, rfl⟩ := Prod.mk.inj (Option.some.inj (layer.symm.trans layer'))
          exact absurd (keeps old hold).symm (fresh _ hold)
        · intro ⟨_, nonzero⟩
          exact absurd rfl nonzero
      · exact absurd stored absent
    · have layer : putLayer rel key bnode = some (rel, old) := by
        simp [putLayer, made, hkey, zero, hread]
      have same := put_of_mem (stores_sorted h) hold
      refine ⟨fun _ => ⟨stored, zero⟩, fun _ => ⟨rel, old, layer, ?_, ?_, ?_⟩⟩
      · rw [same]
        exact stores_leaves h
      · intro old' hold'
        have left := lookup_of_mem (stores_sorted h) hold
        exact Option.some.inj (left.symm.trans (lookup_of_mem (stores_sorted h) hold'))
      · intro absent
        exact absurd stored absent
  · rw [if_neg stored] at made
    have layer : putLayer rel key bnode = none := by
      simp [putLayer, made, Iget_key, Iput]
    constructor
    · intro ⟨rel', b, layer', _⟩
      rw [layer] at layer'
      cases layer'
    · intro ⟨present, _⟩
      exact absurd present stored

/-- The adapter on a reachable relation: a cursor is made, and a value put through it, exactly for
the stored keys; the reads at an entry succeed exactly for the keys other than 0; a read past the
end never returns; and the trie keeps the border nodes of a layer exactly for the stored slices
other than 0. -/
theorem index_int_iff (h : Reached rel entries) :
    (leafEntries rel.nodes MAX_TREE_DEPTH rel.root = some entries ∧ Sorted entries) ∧
      (∀ key, MakesCursor rel entries key ↔ key ∈ entries.map Prod.fst) ∧
      (∀ cursor pos x, At rel cursor pos → entries[pos]? = some x →
        (ReadsEntry rel cursor x ↔ x.1 ≠ 0)) ∧
      (∀ cursor, At rel cursor entries.length → ¬ FailsPastEnd rel cursor) ∧
      (∀ key value, value ≠ NULL →
        (PutsThrough rel entries key value ↔ key ∈ entries.map Prod.fst)) ∧
      ∀ key bnode, bnode ≠ NULL → (∀ x ∈ entries, x.2 ≠ bnode) →
        (KeepsLayer rel entries key bnode ↔ key ∈ entries.map Prod.fst ∧ key ≠ 0) := by
  have stores := reached_stores h
  refine ⟨⟨stores_leaves stores, stores_sorted stores⟩, makesCursor_iff stores, ?_, ?_, ?_, ?_⟩
  · intro cursor pos x hcursor hx
    exact readsEntry_iff stores hcursor hx (reached_value h x (List.mem_of_getElem? hx))
  · intro cursor hcursor
    exact not_failsPastEnd stores hcursor
  · intro key value _
    exact putsThrough_iff stores key value
  · intro key bnode _ fresh
    exact keepsLayer_iff stores key fresh

end

/-- The relation with the keys 0 and 5. -/
theorem reached_two : ∃ rel, Reached rel [(0, 1), (5, 2)] ∧ At rel [(0, 0)] 0 := by
  have start := at_leaf ([] : List (Key × IValue)) sorted_nil (by decide) 0 (by decide)
  have first : Reached _ (put 5 2 []) := Reached.put Reached.empty start (by decide) rfl
  have later := at_leaf [((5 : Key), (2 : IValue))] (by simp [Sorted]) (by decide) 0 (by decide)
  have second : Reached _ (put 0 1 (put 5 2 [])) := Reached.put first later (by decide) rfl
  exact ⟨_, second, at_leaf [(0, 1), (5, 2)] (by simp [Sorted]) (by decide) 0 (by decide)⟩

theorem index_int_two : ∃ rel, Reached rel [(0, 1), (5, 2)] ∧
    MakesCursor rel [(0, 1), (5, 2)] 5 ∧ PutsThrough rel [(0, 1), (5, 2)] 5 9 ∧
    KeepsLayer rel [(0, 1), (5, 2)] 5 9 := by
  obtain ⟨rel, reached, -⟩ := reached_two
  obtain ⟨-, makes, -, -, puts, keeps⟩ := index_int_iff reached
  exact ⟨rel, reached, (makes 5).mpr (by decide), (puts 5 9 (by decide)).mpr (by decide),
    (keeps 5 9 (by decide) (by decide)).mpr (by decide)⟩

/-- On the relation with the keys 0 and 5 no cursor is made for 3, the key of the first entry is
not read, and a layer put of slice 0 loses the border node. -/
theorem index_int_fails : ∃ rel, Reached rel [(0, 1), (5, 2)] ∧
    ¬ MakesCursor rel [(0, 1), (5, 2)] 3 ∧ ¬ PutsThrough rel [(0, 1), (5, 2)] 3 9 ∧
    (At rel [(0, 0)] 0 ∧ ¬ ReadsEntry rel [(0, 0)] (0, 1)) ∧
    ¬ KeepsLayer rel [(0, 1), (5, 2)] 0 9 := by
  obtain ⟨rel, reached, first⟩ := reached_two
  have stores := reached_stores reached
  refine ⟨rel, reached, ?_, ?_, ⟨first, ?_⟩, ?_⟩
  · rw [makesCursor_iff stores]
    decide
  · rw [putsThrough_iff stores]
    decide
  · rw [readsEntry_iff stores first rfl (by decide)]
    decide
  · rw [keepsLayer_iff stores 0 (by decide)]
    decide

end DeepDB.IndexInt
