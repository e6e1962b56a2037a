import DeepDB.Trie.Order
import DeepDB.Trie.Places
import DeepDB.Trie.Runs
import Mathlib.Data.List.Induction

/-!
The contents of a trie as a list from keys to values, each key spelled by the slices on its way. In
a trie made by puts the list is sorted by the bytes of the keys and is the sorted map of the puts.
-/

namespace DeepDB.Trie

open SortedAssoc

variable {Val V Table : Type}

/-! ### Listing a trie -/

/-- The keys that end in a slice, from length `len` on. -/
def prefixContents (s : Int) : List (Option V) → Nat → List (Key × V)
  | [], _ => []
  | some v :: prefixes, len => (spell s len, v) :: prefixContents s prefixes (len + 1)
  | none :: prefixes, len => prefixContents s prefixes (len + 1)

def prepend (front : Key) (l : List (Key × V)) : List (Key × V) :=
  l.map fun e => (front ++ e.1, e.2)

mutual

def contents : Trienode Table Val V → List (Key × V)
  | .of _ _ listform => layerContents listform

def layerContents : List (Int × (Val × Bordernode V (Trienode Table Val V))) → List (Key × V)
  | [] => []
  | (s, _, ⟨prefixes, none⟩) :: listform => prefixContents s prefixes 1 ++ layerContents listform
  | (s, _, ⟨prefixes, some (.inl (k, v))⟩) :: listform =>
    prefixContents s prefixes 1 ++ [(spell s keysliceLength ++ k, v)] ++ layerContents listform
  | (s, _, ⟨prefixes, some (.inr t')⟩) :: listform =>
    prefixContents s prefixes 1 ++ prepend (spell s keysliceLength) (contents t') ++
      layerContents listform

end

/-- The keys that go on after a slice. -/
def suffixContents (s : Int) (bnode : Bordernode V (Trienode Table Val V)) : List (Key × V) :=
  match bnode.suffix with
  | none => []
  | some (.inl (k, v)) => [(spell s keysliceLength ++ k, v)]
  | some (.inr t') => prepend (spell s keysliceLength) (contents t')

def nodeContents (s : Int) (bnode : Bordernode V (Trienode Table Val V)) : List (Key × V) :=
  prefixContents s bnode.prefixes 1 ++ suffixContents s bnode

section

variable {addr : Val} {tableform : Table} {s : Int} {k : Key} {v : V}
  {listform : List (Int × (Val × Bordernode V (Trienode Table Val V)))}
  {bnode : Bordernode V (Trienode Table Val V)} {t t' : Trienode Table Val V}

theorem contents_of :
    contents (.of addr tableform listform) = listform.flatMap fun e => nodeContents e.1 e.2.2 := by
  rw [contents]
  induction listform with
  | nil => rfl
  | cons e listform ih =>
    obtain ⟨s, a, prefixes, suffix⟩ := e
    rw [List.flatMap_cons, ← ih, nodeContents, suffixContents]
    rcases suffix with _ | ⟨k, v⟩ | t'
    · rw [layerContents, List.append_nil]
    · rw [layerContents]
    · rw [layerContents]

/-- Induction on a trie, with the subtries of its border nodes. -/
theorem Trienode.subtries {P : Trienode Table Val V → Prop}
    (of : ∀ addr tableform listform, (∀ e ∈ listform, ∀ t', e.2.2.suffix = some (.inr t') → P t') →
      P (.of addr tableform listform)) (t : Trienode Table Val V) : P t := by
  induction hn : sizeOf t using Nat.strongRecOn generalizing t with
  | ind n ih =>
    obtain ⟨addr, tableform, listform⟩ := t
    refine of addr tableform listform fun e he t' hs => ih _ ?_ t' rfl
    have entry := List.sizeOf_lt_of_mem he
    obtain ⟨s, a, prefixes, suffix⟩ := e
    simp only at hs
    subst hs hn
    simp only [Trienode.of.sizeOf_spec, Prod.mk.sizeOf_spec, Bordernode.mk.sizeOf_spec,
      Option.some.sizeOf_spec, Sum.inr.sizeOf_spec] at entry ⊢
    omega

/-! ### Places -/

theorem spells_slice {p : Place} (spells : Spells p k) : p.slice = getKeyslice k := by
  cases spells <;> rfl

/-- A place spells one key. -/
theorem spells_unique {p : Place} {k' : Key} (spells : Spells p k) (spells' : Spells p k') :
    k = k' := by
  induction p generalizing k k' with
  | pre s len =>
    generalize hp : Place.pre s len = p at spells'
    cases spells with
    | pre short =>
      cases spells' with
      | pre short' =>
        injection hp with slices lengths
        exact getKeyslice_short slices lengths short
      | suf long => cases hp
      | link long sub => cases hp
  | suf s r =>
    generalize hp : Place.suf s r = p at spells'
    cases spells with
    | suf long =>
      cases spells' with
      | pre short' => cases hp
      | suf long' =>
        injection hp with slices rest
        exact getKeyslice_long slices long long' rest
      | link long sub => cases hp
  | link s p ih =>
    generalize hp : Place.link s p = q at spells'
    cases spells with
    | link long sub =>
      cases spells' with
      | pre short' => cases hp
      | suf long' => cases hp
      | link long' sub' =>
        injection hp with slices place
        subst place
        exact getKeyslice_long slices long long' (ih sub sub')

theorem mem_prefixContents {prefixes : List (Option V)} {len : Nat} :
    (k, v) ∈ prefixContents s prefixes len ↔
      ∃ i, prefixes[i]? = some (some v) ∧ k = spell s (len + i) := by
  induction prefixes generalizing len with
  | nil =>
    refine ⟨fun no => (by cases no), fun ⟨i, no, _⟩ => (by simp at no)⟩
  | cons w prefixes ih =>
    have later : (k, v) ∈ prefixContents s prefixes (len + 1) ↔
        ∃ i, (w :: prefixes)[i + 1]? = some (some v) ∧ k = spell s (len + (i + 1)) := by
      rw [ih]
      simp only [List.getElem?_cons_succ, Nat.add_assoc, Nat.add_comm 1]
    cases w with
    | none =>
      rw [prefixContents, later]
      constructor
      · intro ⟨i, here, same⟩
        exact ⟨i + 1, here, same⟩
      · intro ⟨i, here, same⟩
        cases i with
        | zero => simp at here
        | succ i => exact ⟨i, here, same⟩
    | some w =>
      rw [prefixContents, List.mem_cons, later]
      constructor
      · rintro (first | ⟨i, here, same⟩)
        · cases first
          exact ⟨0, rfl, rfl⟩
        · exact ⟨i + 1, here, same⟩
      · intro ⟨i, here, same⟩
        cases i with
        | zero =>
          rw [List.getElem?_cons_zero, Option.some.injEq, Option.some.injEq] at here
          subst here same
          exact Or.inl rfl
        | succ i => exact Or.inr ⟨i, here, same⟩

theorem mem_prefixContents_one : (k, v) ∈ prefixContents s bnode.prefixes 1 ↔
    ∃ len, BorderNode.getPrefix len bnode = some v ∧ k = spell s len := by
  rw [mem_prefixContents]
  constructor
  · rintro ⟨i, here, same⟩
    refine ⟨i + 1, ?_, by rw [same, Nat.add_comm]⟩
    rw [BorderNode.getPrefix, List.getD_eq_getElem?_getD, here, Option.getD_some]
  · rintro ⟨len, here, same⟩
    cases len with
    | zero => cases here
    | succ i =>
      rw [BorderNode.getPrefix, List.getD_eq_getElem?_getD] at here
      cases hp : bnode.prefixes[i]? with
      | none =>
        rw [hp] at here
        cases here
      | some w =>
        rw [hp, Option.getD_some] at here
        exact ⟨i, by rw [hp, here], by rw [same, Nat.add_comm]⟩

theorem mem_prepend {front : Key} {l : List (Key × V)} :
    (k, v) ∈ prepend front l ↔ ∃ r, (r, v) ∈ l ∧ k = front ++ r := by
  unfold prepend
  rw [List.mem_map]
  constructor
  · intro ⟨e, he, same⟩
    cases same
    exact ⟨e.1, he, rfl⟩
  · intro ⟨r, hr, same⟩
    exact ⟨(r, v), hr, by rw [same]⟩

/-- The keys of a border node are those that spell its places. -/
theorem mem_nodeContents (spelled : NodeSpelled s bnode)
    (below : ∀ t', bnode.suffix = some (.inr t') →
      ∀ k v, (k, v) ∈ contents t' ↔ ∃ p, Spells p k ∧ valueAt p t' = some v) :
    (k, v) ∈ nodeContents s bnode ↔ ∃ p, p.slice = s ∧ Spells p k ∧ nodeAt bnode p = some v := by
  rw [nodeContents, List.mem_append, mem_prefixContents_one]
  constructor
  · rintro (⟨len, here, same⟩ | rest)
    · obtain ⟨key, spells⟩ := spelled (.pre s len) v rfl here
      obtain ⟨short, rfl, rfl⟩ : key.length ≤ keysliceLength ∧ s = getKeyslice key ∧
          len = key.length := by
        cases spells with
        | pre short => exact ⟨short, rfl, rfl⟩
      rw [spell_getKeyslice short (Nat.le_refl _), List.take_of_length_le (Nat.le_refl _)] at same
      subst same
      exact ⟨.pre (getKeyslice k) k.length, rfl, .pre short, here⟩
    · unfold suffixContents at rest
      split at rest
      · cases rest
      · rename_i r w hs
        obtain ⟨same, rfl⟩ := Prod.mk.inj (List.mem_singleton.mp rest)
        have here : nodeAt bnode (.suf s r) = some v := BorderNode.getSuffixValue_eq_some.mpr hs
        obtain ⟨key, spells⟩ := spelled (.suf s r) v rfl here
        obtain ⟨long, rfl, rfl⟩ : keysliceLength < key.length ∧ s = getKeyslice key ∧
            r = getSuffix key := by
          cases spells with
          | suf long => exact ⟨long, rfl, rfl⟩
        rw [spell_append_getSuffix long] at same
        subst same
        exact ⟨_, rfl, spells, here⟩
      · rename_i t' hs
        obtain ⟨r, member, same⟩ := mem_prepend.mp rest
        obtain ⟨p, sub, value⟩ := (below t' hs r v).mp member
        have here : nodeAt bnode (.link s p) = some v :=
          Option.bind_eq_some_iff.mpr ⟨t', BorderNode.getLink_eq_some.mpr hs, value⟩
        obtain ⟨key, spells⟩ := spelled (.link s p) v rfl here
        obtain ⟨long, rfl, sub'⟩ : keysliceLength < key.length ∧ s = getKeyslice key ∧
            Spells p (getSuffix key) := by
          cases spells with
          | link long sub => exact ⟨long, rfl, sub⟩
        rw [spells_unique sub sub', spell_append_getSuffix long] at same
        subst same
        exact ⟨_, rfl, spells, here⟩
  · rintro ⟨p, rfl, spells, here⟩
    cases spells with
    | pre short =>
      refine Or.inl ⟨k.length, here, ?_⟩
      rw [Place.slice, spell_getKeyslice short (Nat.le_refl _),
        List.take_of_length_le (Nat.le_refl _)]
    | suf long =>
      have hs : bnode.suffix = some (.inl (getSuffix k, v)) :=
        BorderNode.getSuffixValue_eq_some.mp here
      refine Or.inr ?_
      rw [suffixContents, hs]
      show (k, v) ∈ [(spell (getKeyslice k) keysliceLength ++ getSuffix k, v)]
      rw [spell_append_getSuffix long]
      exact List.mem_singleton_self _
    | link long sub =>
      obtain ⟨t', link, value⟩ := Option.bind_eq_some_iff.mp here
      have hs := BorderNode.getLink_eq_some.mp link
      refine Or.inr ?_
      rw [suffixContents, hs]
      exact mem_prepend.mpr ⟨_, (below t' hs _ v).mpr ⟨_, sub, value⟩,
        (spell_append_getSuffix long).symm⟩

end

/-! ### The sorted map -/

variable {N : FlattenableTable Val} {root below : Nat} {addr : Val} {tableform : N.Table}
  {listform : List (Int × (Val × Bordernode V (TrieOf N V)))} {t : TrieOf N V} {k : Key} {v : V}

theorem Correct.lookup_of_mem (h : Correct N root below (.of addr tableform listform))
    {e : Int × (Val × Bordernode V (TrieOf N V))} (he : e ∈ listform) :
    lookup e.1 listform = some (e.2.1, e.2.2) :=
  SortedAssoc.lookup_of_mem h.sorted he

theorem Correct.range (h : Correct N root below (.of addr tableform listform))
    {e : Int × (Val × Bordernode V (TrieOf N V))} (he : e ∈ listform) : KeyInrange e.1 := by
  cases h with
  | of table list keys addrs nodes inrange size => exact inrange e he

/-- The list has the keys of the places in use. -/
theorem mem_contents (correct : Correct N root below t) (spelled : Spelled t) :
    (k, v) ∈ contents t ↔ ∃ p, Spells p k ∧ valueAt p t = some v := by
  induction t using Trienode.subtries generalizing root k v with
  | of addr tableform listform ih =>
    have node : ∀ e ∈ listform, ∀ k v, (k, v) ∈ nodeContents e.1 e.2.2 ↔
        ∃ p, p.slice = e.1 ∧ Spells p k ∧ nodeAt e.2.2 p = some v := by
      intro e he k v
      have found := correct.lookup_of_mem he
      refine mem_nodeContents (spelled.node found) fun t' hs k v => ?_
      exact ih e he t' hs ((correct.node found).link hs) ((spelled.node found).link hs)
    rw [contents_of, List.mem_flatMap]
    constructor
    · intro ⟨e, he, member⟩
      obtain ⟨p, slice, spells, here⟩ := (node e he k v).mp member
      refine ⟨p, spells, ?_⟩
      rw [valueAt_of, slice, correct.lookup_of_mem he]
      exact here
    · intro ⟨p, spells, here⟩
      rw [valueAt_of] at here
      obtain ⟨⟨a, bnode⟩, found, value⟩ := Option.bind_eq_some_iff.mp here
      have he := mem_of_lookup found
      exact ⟨_, he, (node _ he k v).mpr ⟨p, rfl, spells, value⟩⟩

theorem mem_contents_iff_find (correct : Correct N root below t) (spelled : Spelled t) :
    (k, v) ∈ contents t ↔ find k t = some v := by
  rw [mem_contents correct spelled]
  constructor
  · intro ⟨p, spells, here⟩
    exact find_of_valueAt spells here
  · exact valueAt_of_find

theorem node_contents (correct : Correct N root below (.of addr tableform listform))
    (spelled : Spelled (.of addr tableform listform)) {e : Int × (Val × Bordernode V (TrieOf N V))}
    (he : e ∈ listform) :
    (k, v) ∈ nodeContents e.1 e.2.2 ↔ ∃ p, p.slice = e.1 ∧ Spells p k ∧ nodeAt e.2.2 p = some v := by
  have found := correct.lookup_of_mem he
  refine mem_nodeContents (spelled.node found) fun t' hs k v => ?_
  exact mem_contents ((correct.node found).link hs) ((spelled.node found).link hs)

theorem node_slice (correct : Correct N root below (.of addr tableform listform))
    (spelled : Spelled (.of addr tableform listform)) {e : Int × (Val × Bordernode V (TrieOf N V))}
    (he : e ∈ listform) (hk : (k, v) ∈ nodeContents e.1 e.2.2) : getKeyslice k = e.1 := by
  obtain ⟨p, slice, spells, -⟩ := (node_contents correct spelled he).mp hk
  rw [← slice, spells_slice spells]

/-! ### The order -/

theorem prefixContents_sorted (s : Int) (prefixes : List (Option V)) (len : Nat)
    (inside : len + prefixes.length ≤ keysliceLength + 1) :
    Sorted (prefixContents s prefixes len) := by
  induction prefixes generalizing len with
  | nil => exact sorted_nil
  | cons w prefixes ih =>
    rw [List.length_cons] at inside
    have rest := ih (len + 1) (by omega)
    cases w with
    | none => exact rest
    | some w =>
      refine sorted_cons.mpr ⟨fun x hx => ?_, rest⟩
      obtain ⟨k, v⟩ := x
      obtain ⟨i, here, same⟩ := mem_prefixContents.mp hx
      have room := (List.getElem?_eq_some_iff.mp here).1
      rw [same]
      exact spell_lt s (by omega) (by omega)

theorem prepend_sorted (front : Key) {l : List (Key × V)} (h : Sorted l) :
    Sorted (prepend front l) := by
  unfold Sorted prepend
  rw [List.map_map]
  have pairs := List.pairwise_map.mp h
  rw [List.pairwise_map]
  exact pairs.imp fun less => List.Lex.append_left _ less front

theorem suffixContents_longer {below : Nat} {bnode : Bordernode V (TrieOf N V)} {s : Int}
    (correct : NodeCorrect N below bnode) (spelled : NodeSpelled s bnode)
    (hk : (k, v) ∈ suffixContents s bnode) : ∃ r, r ≠ [] ∧ k = spell s keysliceLength ++ r := by
  unfold suffixContents at hk
  split at hk
  · cases hk
  · rename_i r w hs
    obtain ⟨same, -⟩ := Prod.mk.inj (List.mem_singleton.mp hk)
    exact ⟨r, correct.pair hs, same⟩
  · rename_i t' hs
    obtain ⟨r, member, same⟩ := mem_prepend.mp hk
    obtain ⟨p, spells, here⟩ := (mem_contents (correct.link hs) (spelled.link hs)).mp member
    exact ⟨r, spells.ne_nil here, same⟩

theorem nodeContents_sorted {below : Nat} {bnode : Bordernode V (TrieOf N V)} {s : Int}
    (correct : NodeCorrect N below bnode) (spelled : NodeSpelled s bnode)
    (sub : ∀ t', bnode.suffix = some (.inr t') → Sorted (contents t')) :
    Sorted (nodeContents s bnode) := by
  have inv := correct.invariant
  unfold BorderNode.Invariant at inv
  refine sorted_append.mpr ⟨prefixContents_sorted s _ 1 (by omega), ?_, ?_⟩
  · unfold suffixContents
    split
    · exact sorted_nil
    · exact sorted_cons.mpr ⟨fun _ no => (by cases no), sorted_nil⟩
    · rename_i t' hs
      exact prepend_sorted _ (sub t' hs)
  · rintro ⟨k, v⟩ hx ⟨k', v'⟩ hy
    obtain ⟨i, here, rfl⟩ := mem_prefixContents.mp hx
    have room := (List.getElem?_eq_some_iff.mp here).1
    obtain ⟨r, hr, rfl⟩ := suffixContents_longer correct spelled hy
    have longer := lt_append (spell s keysliceLength) hr
    rcases Nat.lt_or_ge (1 + i) keysliceLength with less | full
    · exact (spell_lt s less (Nat.le_refl _)).trans longer
    · rwa [show 1 + i = keysliceLength by omega]

theorem contents_sorted (correct : Correct N root below t) (spelled : Spelled t) :
    Sorted (contents t) := by
  induction t using Trienode.subtries generalizing root with
  | of addr tableform listform ih =>
    rw [contents_of]
    unfold Sorted
    rw [List.map_flatMap, List.pairwise_flatMap]
    constructor
    · intro e he
      have found := correct.lookup_of_mem he
      refine nodeContents_sorted (correct.node found) (spelled.node found) fun t' hs => ?_
      exact ih e he t' hs ((correct.node found).link hs) ((spelled.node found).link hs)
    · have slices := List.pairwise_map.mp correct.sorted
      refine slices.imp_of_mem fun {e e'} he he' less x hx y hy => ?_
      obtain ⟨⟨k, v⟩, hk, rfl⟩ := List.mem_map.mp hx
      obtain ⟨⟨k', v'⟩, hk', rfl⟩ := List.mem_map.mp hy
      refine lt_of_getKeyslice ?_
      rw [node_slice correct spelled he hk, node_slice correct spelled he' hk']
      exact less

theorem nodeContents_ne_nil {bnode : Bordernode V (TrieOf N V)} (s : Int) (correct : NodeCorrect N 1 bnode)
    (sub : ∀ t', bnode.suffix = some (.inr t') → contents t' ≠ []) : nodeContents s bnode ≠ [] := by
  unfold nodeContents
  cases correct with
  | @nil _ prefixes length used =>
    obtain ⟨w, member, some_value⟩ := used
    obtain ⟨v, rfl⟩ := Option.ne_none_iff_exists'.mp some_value
    obtain ⟨i, here⟩ := List.mem_iff_getElem?.mp member
    have listed : (spell s (1 + i), v) ∈ prefixContents s prefixes 1 :=
      mem_prefixContents.mpr ⟨i, here, rfl⟩
    exact List.append_ne_nil_of_left_ne_nil (List.ne_nil_of_mem listed) _
  | ext length more => exact List.append_ne_nil_of_right_ne_nil _ (List.cons_ne_nil _ _)
  | int length correct =>
    exact List.append_ne_nil_of_right_ne_nil _ (List.map_eq_nil_iff.not.mpr (sub _ rfl))

theorem contents_ne_nil (correct : Correct N 1 1 t) : contents t ≠ [] := by
  induction t using Trienode.subtries with
  | of addr tableform listform ih =>
    have size : 1 ≤ listform.length := (correct_size.mp correct).2
    obtain ⟨e, rest, rfl⟩ := List.exists_cons_of_length_pos size
    have node := correct.node (correct.lookup_of_mem List.mem_cons_self)
    rw [contents_of, List.flatMap_cons]
    refine List.append_ne_nil_of_left_ne_nil (nodeContents_ne_nil _ node fun t' hs => ?_) _
    exact ih e List.mem_cons_self t' hs (node.link hs)

theorem lookup_contents (correct : Correct N root below t) (spelled : Spelled t) (k : Key) :
    lookup k (contents t) = find k t := by
  have sorted := contents_sorted correct spelled
  cases held : find k t with
  | some v => exact lookup_of_mem sorted ((mem_contents_iff_find correct spelled).mpr held)
  | none =>
    cases listed : lookup k (contents t) with
    | none => rfl
    | some v =>
      have found := (mem_contents_iff_find correct spelled).mp (mem_of_lookup listed)
      rw [held] at found
      cases found

/-! ### Runs -/

theorem runs_spelled {log : List (Key × V)} (runs : Runs N log t) : Spelled t := by
  induction runs with
  | @empty t h =>
    obtain ⟨addr, tableform, listform⟩ := t
    obtain ⟨-, rfl⟩ := h
    exact spelled_nil
  | put before hk h ih => exact spelled_put h (runs_correct before).1 ih

/-- The sorted map of a log of puts. -/
def sortedMap (log : List (Key × V)) : List (Key × V) :=
  log.foldl (fun m e => Flattened.putAux e.1 e.2 m) []

theorem sortedMap_snoc (log : List (Key × V)) (k : Key) (v : V) :
    sortedMap (log ++ [(k, v)]) = Flattened.putAux k v (sortedMap log) := by
  rw [sortedMap, List.foldl_append]
  rfl

theorem sortedMap_spec (log : List (Key × V)) :
    Sorted (sortedMap log) ∧ ∀ k, lookup k (sortedMap log) = lastValue k log := by
  induction log using List.reverseRecOn with
  | nil => exact ⟨sorted_nil, fun _ => rfl⟩
  | append_singleton log e ih =>
    obtain ⟨k, v⟩ := e
    rw [sortedMap_snoc]
    refine ⟨sorted_put ih.1, fun k' => ?_⟩
    rw [lastValue_snoc]
    split
    · rename_i same
      rw [same]
      exact lookup_put_self k v _
    · rename_i other
      rw [← ih.2 k']
      exact lookup_put_of_ne v _ other

/-- The contents of a trie made by puts are the sorted map of the puts. -/
theorem contents_runs {log : List (Key × V)} (runs : Runs N log t) : contents t = sortedMap log := by
  obtain ⟨correct, holds⟩ := runs_correct runs
  have spelled := runs_spelled runs
  obtain ⟨sorted, last⟩ := sortedMap_spec log
  refine sorted_ext (contents_sorted correct spelled) sorted fun k => ?_
  rw [lookup_contents correct spelled, holds, last]

end DeepDB.Trie
