import DeepDB.Trie.IndexStringPut
import DeepDB.Trie.Runs

/-!
Runs of puts of the string index from an empty one. While every copy has its block, what the memory
holds is the map of the puts: each key that was put is at one place, nothing else is anywhere, and
the border nodes say by their flags, suffixes and links what is there.
-/

namespace DeepDB.IndexString
open Trie SortedAssoc
open Trie.BorderNode (map getLink getPrefix)

variable {N : IntIndex} {m m' : Memory N} {root : Ptr} {log done : List (Key × Ptr)}

/-! ### Reading the memory -/

/-- The border node of a slice. -/
def Memory.border (m : Memory N) (s : Int) (index : Ptr) : Option BorderNode := do
  m.node (← lookup s (N.flatten (← m.index index)))

/-- The layer at the end of some links. -/
def Memory.layer (m : Memory N) : List Int → Ptr → Option Ptr
  | [], index => some index
  | s :: path, index => do m.layer path (← BN_GetLink (← m.border s index))

def Memory.valueAt (m : Memory N) : Place → Ptr → Option Ptr
  | .pre s len, index => do
    let (set, val) := BN_GetPrefixValue (← m.border s index) len
    if set then val else none
  | .suf s k, index => do
    let bn ← m.border s index
    if bn.keySuffix = some k then some bn.suffixLink else none
  | .link s p, index => do m.valueAt p (← BN_GetLink (← m.border s index))

/-- The memory is the map of the puts. -/
structure Denotes (m : Memory N) (root : Ptr) (log : List (Key × Ptr)) : Prop where
  holds : ∀ k v, lastValue k log = some v ↔ ∃ p, Spells p k ∧ m.valueAt p root = some v
  once : ∀ k p p' v v', Spells p k → Spells p' k → m.valueAt p root = some v →
    m.valueAt p' root = some v' → p = p'
  only : ∀ p v, m.valueAt p root = some v → ∃ k, Spells p k ∧ lastValue k log = some v

/-- A border node at the end of some links. -/
structure NodeShaped (m : Memory N) (log : List (Key × Ptr)) (path : List Int) (s : Int)
    (bn : BorderNode) : Prop where
  never_both : ¬(BN_HasSuffix bn = true ∧ ∃ link, BN_GetLink bn = some link)
  suffix : ∀ r, bn.keySuffix = some r → ∃ k, Spells (.under path (.suf s r)) k ∧
    lastValue k log = some bn.suffixLink
  link : ∀ index, BN_GetLink bn = some index → ∃ p v, m.valueAt p index = some v
  flags : ∀ len, readFlag bn.prefixFlags len = true ↔
    ∃ k ∈ log.map Prod.fst, Spells (.under path (.pre s len)) k

def Shaped (m : Memory N) (root : Ptr) (log : List (Key × Ptr)) : Prop :=
  ∀ path index, m.layer path root = some index → ∃ tableform, m.index index = some tableform ∧
    ∀ s a, (s, a) ∈ N.flatten tableform → ∃ bn, m.node a = some bn ∧ NodeShaped m log path s bn

/-- The block for every copy, put by put: fewer bytes than an `unsigned int` counts. -/
def AllFit (root : Ptr) : List (Key × Ptr) → Memory N → Prop
  | [], _ => True
  | (key, v) :: log, m =>
    (∃ n, copied key root m = some n ∧ n < 2 ^ 32) ∧
      ∀ m', put key v root m = some m' → AllFit root log m'

/-! ### The memory of a trie -/

section Held

variable {t : TrieOf N.toFlattenableTable Ptr} {inside : Ptr → Prop} {rootSize below : Nat}
  {addr a : Ptr} {tableform : N.Table} {bn : BorderNode} {s : Int}
  {listform : List (Int × (Ptr × Bordernode Ptr (TrieOf N.toFlattenableTable Ptr)))}
  {bnode : Bordernode Ptr (TrieOf N.toFlattenableTable Ptr)}

theorem border_found (held : Held m (.of addr tableform listform) inside)
    (correct : Correct N.toFlattenableTable rootSize below (.of addr tableform listform))
    (found : lookup s listform = some (a, bnode)) :
    ∃ bn, m.border s addr = some bn ∧ m.node a = some bn ∧ bn.view = map addrOfTrie bnode := by
  obtain ⟨bn, node, view⟩ := held.node found
  refine ⟨bn, ?_, node, view⟩
  unfold Memory.border
  simp only [held.index, lookup_flatten correct, found, Option.map_some, Option.bind_eq_bind,
    Option.bind_some, node]

theorem border_absent (held : Held m (.of addr tableform listform) inside)
    (correct : Correct N.toFlattenableTable rootSize below (.of addr tableform listform))
    (absent : lookup s listform = none) : m.border s addr = none := by
  unfold Memory.border
  simp only [held.index, lookup_flatten correct, absent, Option.map_none, Option.bind_eq_bind,
    Option.bind_some, Option.bind_none]

theorem suffixValue_view (k : Key) :
    (if bn.keySuffix = some k then some bn.suffixLink else none)
      = Trie.BorderNode.getSuffixValue k bn.view := by
  unfold Trie.BorderNode.getSuffixValue BorderNode.view
  cases bn.keySuffix with
  | some k' =>
    simp only [Option.some.injEq]
    by_cases same : k = k'
    · rw [if_pos same, if_pos same.symm]
    · rw [if_neg same, if_neg (Ne.symm same)]
  | none =>
    by_cases empty : bn.suffixLink = NULL
    · simp [empty]
    · simp [empty]

/-- The memory reads as the trie it holds. -/
theorem valueAt_eq (held : Held m t inside) (correct : Correct N.toFlattenableTable rootSize below t)
    (valid : m.Valid) (p : Place) : m.valueAt p (addrOfTrie t) = Trie.valueAt p t := by
  induction p generalizing t rootSize with
  | pre s len =>
    obtain ⟨addr, tableform, listform⟩ := t
    unfold Memory.valueAt Trie.valueAt addrOfTrie BN_GetPrefixValue
    cases found : lookup s listform with
    | none => rw [border_absent held correct found]; rfl
    | some e =>
      obtain ⟨bn, here, node, view⟩ := border_found held correct found
      have shown := getPrefix_view (valid.nodes _ bn node) (i := len)
      rw [here, Option.bind_some, ← BorderNode.getPrefix_map addrOfTrie, ← view, shown]
      rfl
  | suf s k =>
    obtain ⟨addr, tableform, listform⟩ := t
    unfold Memory.valueAt Trie.valueAt addrOfTrie
    cases found : lookup s listform with
    | none => rw [border_absent held correct found]; rfl
    | some e =>
      obtain ⟨bn, here, node, view⟩ := border_found held correct found
      rw [here, Option.bind_some, ← BorderNode.getSuffixValue_map addrOfTrie, ← view]
      exact suffixValue_view k
  | link s p ih =>
    obtain ⟨addr, tableform, listform⟩ := t
    unfold Memory.valueAt Trie.valueAt addrOfTrie
    cases found : lookup s listform with
    | none => rw [border_absent held correct found]; rfl
    | some e =>
      obtain ⟨bn, here, node, view⟩ := border_found held correct found
      simp only [here, Option.bind_eq_bind, Option.bind_some, getLink_view, view,
        BorderNode.getLink_map]
      cases link : getLink e.2 with
      | none => rfl
      | some t' =>
        have hs := BorderNode.getLink_eq_some.mp link
        exact ih (held.link found hs) ((correct.node found).link hs)

/-- The layers of the memory are those of the trie. -/
theorem layer_eq (held : Held m t inside) (correct : Correct N.toFlattenableTable rootSize below t)
    {path : List Int} {index : Ptr} (layer : m.layer path (addrOfTrie t) = some index) :
    ∃ t' least, trieAt path t = some t' ∧ addrOfTrie t' = index ∧ Held m t' inside ∧
      Correct N.toFlattenableTable least below t' := by
  induction path generalizing t rootSize with
  | nil => exact ⟨t, rootSize, rfl, Option.some.inj layer, held, correct⟩
  | cons s path ih =>
    obtain ⟨addr, tableform, listform⟩ := t
    obtain ⟨bn, here, linked⟩ := Option.bind_eq_some_iff.mp layer
    obtain ⟨index', link, deeper⟩ := Option.bind_eq_some_iff.mp linked
    cases found : lookup s listform with
    | none =>
      rw [addrOfTrie, border_absent held correct found] at here
      cases here
    | some e =>
      obtain ⟨bn', here', node, view⟩ := border_found held correct found
      rw [addrOfTrie, here'] at here
      cases here
      rw [getLink_view, view, BorderNode.getLink_map, Option.map_eq_some_iff] at link
      obtain ⟨t1, link, rfl⟩ := link
      have hs := BorderNode.getLink_eq_some.mp link
      obtain ⟨t', least, rest⟩ := ih (held.link found hs) ((correct.node found).link hs) deeper
      refine ⟨t', least, ?_, rest.2⟩
      rw [trieAt, found, Option.bind_some, link, Option.bind_some, rest.1]

/-- A layer that is not the root has a value somewhere. -/
theorem value_exists (held : Held m t inside) (correct : Correct N.toFlattenableTable 1 1 t) :
    ∃ p v, Trie.valueAt p t = some v := by
  have rep := held.rep
  clear held
  induction rep with
  | @of addr tableform listform index nodes links ih =>
    cases correct with
    | of table list keys addrs correctNodes inrange size =>
      obtain ⟨⟨s, a, bnode⟩, mem⟩ := List.exists_mem_of_length_pos size
      have found := lookup_of_mem list mem
      cases correctNodes _ mem with
      | nil length used =>
        obtain ⟨w, member, some⟩ := used
        obtain ⟨i, inside, same⟩ := List.mem_iff_getElem.mp member
        obtain ⟨v, rfl⟩ := Option.ne_none_iff_exists'.mp some
        refine ⟨.pre s (i + 1), v, ?_⟩
        simp only [Trie.valueAt, found, Option.bind_some, getPrefix, List.getD_eq_getElem?_getD,
          List.getElem?_eq_getElem inside, same, Option.getD_some]
      | @ext _ prefixes k v length more =>
        refine ⟨.suf s k, v, ?_⟩
        simp [Trie.valueAt, found, Trie.BorderNode.getSuffixValue]
      | @int _ prefixes t' length sub =>
        obtain ⟨p, v, here⟩ := ih _ mem t' rfl sub
        refine ⟨.link s p, v, ?_⟩
        simp [Trie.valueAt, found, getLink, here]

end Held

/-! ### Runs -/

/-- What holds of the memory after the puts of a log. -/
structure Inv (m : Memory N) (root : Ptr) (log : List (Key × Ptr))
    (t : TrieOf N.toFlattenableTable Ptr) : Prop where
  valid : m.Valid
  held : Held m t (fun p => p < m.next)
  addr : addrOfTrie t = root
  runs : Runs N.toFlattenableTable log t
  spelled : Spelled t

theorem inv_start : Inv (start (N := N)).2 (start (N := N)).1 [] (.of 1 N.emptyTable []) where
  valid := ⟨fun p bn no => (by cases no), Nat.zero_lt_succ 1⟩
  held := (Iempty_held _).mono fun p here => here ▸ Nat.lt_succ_self _
  addr := rfl
  runs := .empty ⟨N.Iempty_spec, rfl⟩
  spelled := spelled_nil

theorem inv_put {t : TrieOf N.toFlattenableTable Ptr} {key : Key} {v : Ptr}
    (inv : Inv m root log t) (hk : key ≠ []) {n : Nat} (fits : copied key root m = some n)
    (small : n < 2 ^ 32) :
    ∃ m' t', put key v root m = some m' ∧ Inv m' root (log ++ [(key, v)]) t' := by
  obtain ⟨correct, -⟩ := runs_correct inv.runs
  obtain rfl := inv.addr
  obtain ⟨c', t', m', run, h, addr, kept, held⟩ := put_spec correct inv.held inv.valid hk fits small []
  refine ⟨m', t', run, kept.valid, held.mono ?_, addr, inv.runs.put hk h,
    spelled_put h correct inv.spelled⟩
  rintro p (old | new)
  · exact Nat.lt_of_lt_of_le (inv.held.occurs p old) kept.next
  · exact new.2

theorem denotes_of_inv {t : TrieOf N.toFlattenableTable Ptr} (inv : Inv m root log t) :
    Denotes m root log := by
  obtain ⟨correct, holds⟩ := runs_correct inv.runs
  obtain rfl := inv.addr
  have read := valueAt_eq inv.held correct inv.valid
  constructor
  · intro k v
    constructor
    · intro last
      obtain ⟨p, spells, here⟩ := valueAt_of_find ((holds k).trans last)
      exact ⟨p, spells, (read p).trans here⟩
    · intro ⟨p, spells, here⟩
      rw [← holds, find_of_valueAt spells ((read p).symm.trans here)]
  · intro k p p' v v' spells spells' here here'
    exact place_unique spells spells' ((read p).symm.trans here) ((read p').symm.trans here')
  · intro p v here
    have here' := (read p).symm.trans here
    obtain ⟨k, spells⟩ := inv.spelled p v here'
    exact ⟨k, spells, (holds k).symm.trans (find_of_valueAt spells here')⟩

theorem shaped_of_inv {t : TrieOf N.toFlattenableTable Ptr} (inv : Inv m root log t) :
    Shaped m root log := by
  obtain ⟨correct, holds⟩ := runs_correct inv.runs
  obtain rfl := inv.addr
  intro path index layer
  obtain ⟨t', least, at_path, rfl, held, correct'⟩ := layer_eq inv.held correct layer
  have up := valueAt_under at_path
  obtain ⟨addr, tableform, listform⟩ := t'
  refine ⟨tableform, held.index, fun s a mem => ?_⟩
  have found : ∃ bnode, lookup s listform = some (a, bnode) := by
    have looked := lookup_of_mem (FlattenableTable.flatten_sorted correct'.table) mem
    rw [lookup_flatten correct', Option.map_eq_some_iff] at looked
    obtain ⟨⟨a', bnode⟩, found, rfl⟩ := looked
    exact ⟨bnode, found⟩
  obtain ⟨bnode, found⟩ := found
  obtain ⟨bn, here, node, view⟩ := border_found held correct' found
  have nodeValid := inv.valid.nodes a bn node
  have held_at (p : Place) (v : Ptr) (value : nodeAt bnode p = some v) (same : p.slice = s) :
      ∃ k, Spells (.under path p) k ∧ lastValue k log = some v := by
    have value' : Trie.valueAt (.under path p) t = some v := by
      rw [up, valueAt_of, same, found]
      exact value
    obtain ⟨k, spells⟩ := inv.spelled _ v value'
    exact ⟨k, spells, (holds k).symm.trans (find_of_valueAt spells value')⟩
  refine ⟨bn, node, ?_, ?_, ?_, ?_⟩
  · rintro ⟨has, link, linked⟩
    unfold BN_HasSuffix at has
    unfold BN_GetLink at linked
    rw [if_pos (.inl has)] at linked
    cases linked
  · intro r suffix
    refine held_at (.suf s r) bn.suffixLink ?_ rfl
    rw [nodeAt, ← BorderNode.getSuffixValue_map addrOfTrie, ← view, ← suffixValue_view, if_pos suffix]
  · intro index linked
    rw [getLink_view, view, BorderNode.getLink_map, Option.map_eq_some_iff] at linked
    obtain ⟨t1, link, rfl⟩ := linked
    have hs := BorderNode.getLink_eq_some.mp link
    have below := (correct'.node found).link hs
    obtain ⟨p, v, value⟩ := value_exists (held.link found hs) below
    exact ⟨p, v, (valueAt_eq (held.link found hs) below inv.valid p).trans value⟩
  · intro len
    rw [readFlag_iff nodeValid, view, BorderNode.getPrefix_map]
    constructor
    · rintro ⟨v, value⟩
      obtain ⟨k, spells, last⟩ := held_at (.pre s len) v value rfl
      exact ⟨k, lastValue_mem last, spells⟩
    · rintro ⟨k, mem, ends⟩
      obtain ⟨v, last⟩ := lastValue_isSome mem
      obtain ⟨p, spells, value⟩ := valueAt_of_find ((holds k).trans last)
      obtain rfl := place_under at_path ends spells value
      rw [up, valueAt_of] at value
      obtain ⟨e, found', value⟩ := Option.bind_eq_some_iff.mp value
      have same : lookup s listform = some e := found'
      rw [found] at same
      cases same
      exact ⟨v, value⟩

/-- A run of puts in which every copy has its block ends in the invariant. -/
theorem putAll_inv {t : TrieOf N.toFlattenableTable Ptr} (inv : Inv m root done t)
    (hk : ∀ e ∈ log, e.1 ≠ []) (fit : AllFit root log m) :
    ∃ m' t', putAll root log m = some m' ∧ Inv m' root (done ++ log) t' := by
  induction log generalizing m t done with
  | nil =>
    rw [List.append_nil]
    exact ⟨m, t, rfl, inv⟩
  | cons e log ih =>
    obtain ⟨key, v⟩ := e
    obtain ⟨⟨n, fits, small⟩, later⟩ := fit
    obtain ⟨m1, t1, run, inv1⟩ := inv_put (v := v) inv (hk _ List.mem_cons_self) fits small
    obtain ⟨m', t', rest, inv'⟩ := ih inv1 (fun e mem => hk e (List.mem_cons_of_mem _ mem)) (later m1 run)
    refine ⟨m', t', ?_, ?_⟩
    · rw [putAll, run]
      exact rest
    · rwa [List.append_assoc, List.singleton_append] at inv'

theorem allFit_of_putAll {t : TrieOf N.toFlattenableTable Ptr} (inv : Inv m root done t)
    (hk : ∀ e ∈ log, e.1 ≠ []) (runs : putAll root log m = some m') : AllFit root log m := by
  induction log generalizing m t done with
  | nil => trivial
  | cons e log ih =>
    obtain ⟨key, v⟩ := e
    obtain ⟨correct, -⟩ := runs_correct inv.runs
    obtain ⟨n, fits, -⟩ := copied_le key correct inv.held
    rw [inv.addr] at fits
    obtain ⟨m1, run, rest⟩ := Option.bind_eq_some_iff.mp runs
    by_cases small : n < 2 ^ 32
    · refine ⟨⟨n, fits, small⟩, fun m2 run2 => ?_⟩
      obtain ⟨m3, t3, run3, inv3⟩ := inv_put (v := v) inv (hk _ List.mem_cons_self) fits small
      rw [run2] at run run3
      cases run
      cases run3
      exact ih inv3 (fun e mem => hk e (List.mem_cons_of_mem _ mem)) rest
    · obtain rfl := inv.addr
      rw [put_fails correct inv.held fits (Nat.le_of_not_lt small)] at run
      cases run

/-- Keys that an `unsigned int` can count have blocks for all copies. -/
theorem allFit_of_short {t : TrieOf N.toFlattenableTable Ptr} (inv : Inv m root done t)
    (hk : ∀ e ∈ log, e.1 ≠ []) (short : ∀ e ∈ log, e.1.length < 2 ^ 32) : AllFit root log m := by
  induction log generalizing m t done with
  | nil => trivial
  | cons e log ih =>
    obtain ⟨key, v⟩ := e
    obtain ⟨correct, -⟩ := runs_correct inv.runs
    obtain ⟨n, fits, le⟩ := copied_le key correct inv.held
    rw [inv.addr] at fits
    have small := Nat.lt_of_le_of_lt le (short _ List.mem_cons_self)
    refine ⟨⟨n, fits, small⟩, fun m2 run2 => ?_⟩
    obtain ⟨m3, t3, run3, inv3⟩ := inv_put (v := v) inv (hk _ List.mem_cons_self) fits small
    rw [run2] at run3
    cases run3
    exact ih inv3 (fun e mem => hk e (List.mem_cons_of_mem _ mem))
      fun e mem => short e (List.mem_cons_of_mem _ mem)

/-- Every run of puts leaves the map of the puts in memory exactly when every copy has its block. -/
theorem putAll_iff (N : IntIndex) (log : List (Key × Ptr)) (hk : ∀ e ∈ log, e.1 ≠ []) :
    (∃ m, putAll (start (N := N)).1 log (start (N := N)).2 = some m ∧
      Denotes m (start (N := N)).1 log ∧ Shaped m (start (N := N)).1 log)
      ↔ AllFit (start (N := N)).1 log (start (N := N)).2 := by
  constructor
  · intro ⟨m, run, _, _⟩
    exact allFit_of_putAll inv_start hk run
  · intro fit
    obtain ⟨m, t, run, inv⟩ := putAll_inv inv_start hk fit
    exact ⟨m, run, denotes_of_inv inv, shaped_of_inv inv⟩

/-- The sorted list as an index. -/
def sortedIndex : IntIndex where
  toFlattenableTable := sortedListTable Ptr
  emptyTable := []
  putAt := fun k v _ t => (Flattened.makeCursor k (Flattened.putAux k v t), Flattened.putAux k v t)
  Iempty_spec := rfl
  Iput_spec := fun _ => ⟨rfl, rfl⟩

/-- Two keys that share their first slice. -/
theorem putAll_two : ∃ m, putAll (start (N := sortedIndex)).1
      [(List.replicate 9 7, 5), (List.replicate 10 7, 6)] (start (N := sortedIndex)).2 = some m ∧
    Denotes m (start (N := sortedIndex)).1 [(List.replicate 9 7, 5), (List.replicate 10 7, 6)] ∧
    Shaped m (start (N := sortedIndex)).1 [(List.replicate 9 7, 5), (List.replicate 10 7, 6)] :=
  (putAll_iff sortedIndex _ (by decide)).mpr (allFit_of_short inv_start (by decide) (by decide))

/-- A key of 4 GiB has no copy. -/
theorem putAll_fails : ¬∀ (N : IntIndex) (log : List (Key × Ptr)), (∀ e ∈ log, e.1 ≠ []) →
    ∃ m, putAll (start (N := N)).1 log (start (N := N)).2 = some m ∧
      Denotes m (start (N := N)).1 log ∧ Shaped m (start (N := N)).1 log := by
  intro all
  have long : (List.replicate (2 ^ 32) (97 : UInt8)).length = 2 ^ 32 := List.length_replicate
  generalize List.replicate (2 ^ 32) (97 : UInt8) = key at long
  have hk : ∀ e ∈ [(key, 5)], e.1 ≠ [] := by
    intro e mem
    obtain rfl := List.mem_singleton.mp mem
    rintro rfl
    cases long
  obtain ⟨m, run, -⟩ := all sortedIndex [(key, 5)] hk
  obtain ⟨⟨n, fits, small⟩, -⟩ := allFit_of_putAll inv_start hk run
  have index : (start (N := sortedIndex)).2.index (start (N := sortedIndex)).1
      = some sortedIndex.emptyTable := rfl
  have nothing : lookup (getKeyslice key) (sortedIndex.flatten sortedIndex.emptyTable) = none := rfl
  rw [copied_absent index nothing, Option.some.injEq, long] at fits
  exact absurd small (Nat.not_lt.mpr fits.le)

end DeepDB.IndexString
