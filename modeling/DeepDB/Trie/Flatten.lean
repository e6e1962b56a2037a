import DeepDB.Trie.Contents
import Mathlib.Data.Int.GCD

/-!
`flatten` of the functional trie. It counts the lengths of the keys that end in a slice from zero,
and `reconstruct_keyslice` multiplies the slice by the bits of a byte where it should shift by them,
so that only the bytes of a slice of zeros come back.
-/

namespace DeepDB.Trie

open SortedAssoc

variable {Val V Table : Type}

/-! ### Flattening -/

def flattenPrefixArray (pre : Key) (keyslice : Int) : List (Option V) → Nat → List (Key × V)
  | some v :: t, idx =>
    (pre ++ reconstructKeyslice keyslice idx, v) :: flattenPrefixArray pre keyslice t (idx + 1)
  | none :: t, idx => flattenPrefixArray pre keyslice t (idx + 1)
  | [], _ => []

mutual

def flattenAux (pre : Key) : Trienode Table Val V → List (Key × V)
  | .of _ _ listform => flattenLayer pre listform

/-- `flat_map` of `flatten_bordernode`. -/
def flattenLayer (pre : Key) :
    List (Int × (Val × Bordernode V (Trienode Table Val V))) → List (Key × V)
  | [] => []
  | (keyslice, _, ⟨prefixes, none⟩) :: l =>
    flattenPrefixArray pre keyslice prefixes 0 ++ flattenLayer pre l
  | (keyslice, _, ⟨prefixes, some (.inl (suffixKey, suffixValue))⟩) :: l =>
    flattenPrefixArray pre keyslice prefixes 0 ++
      [(pre ++ (reconstructKeyslice keyslice keysliceLength ++ suffixKey), suffixValue)] ++
      flattenLayer pre l
  | (keyslice, _, ⟨prefixes, some (.inr t')⟩) :: l =>
    flattenPrefixArray pre keyslice prefixes 0 ++
      flattenAux (pre ++ reconstructKeyslice keyslice keysliceLength) t' ++ flattenLayer pre l

end

def flatten (t : Trienode Table Val V) : List (Key × V) := flattenAux [] t

/-- What `flatten_bordernode` adds for the keys that go on after the slice. -/
def flattenSuffix (pre : Key) (keyslice : Int) (bnode : Bordernode V (Trienode Table Val V)) :
    List (Key × V) :=
  match bnode.suffix with
  | some (.inl (suffixKey, suffixValue)) =>
    [(pre ++ (reconstructKeyslice keyslice keysliceLength ++ suffixKey), suffixValue)]
  | some (.inr t') => flattenAux (pre ++ reconstructKeyslice keyslice keysliceLength) t'
  | none => []

def flattenBordernode (pre : Key) (keyslice : Int) (bnode : Bordernode V (Trienode Table Val V)) :
    List (Key × V) :=
  flattenPrefixArray pre keyslice bnode.prefixes 0 ++ flattenSuffix pre keyslice bnode

variable {addr : Val} {tableform : Table} {s : Int} {k pre : Key} {v : V}
  {listform : List (Int × (Val × Bordernode V (Trienode Table Val V)))}
  {bnode : Bordernode V (Trienode Table Val V)} {t t' : Trienode Table Val V}

theorem flattenAux_of : flattenAux pre (.of addr tableform listform) =
    listform.flatMap fun e => flattenBordernode pre e.1 e.2.2 := by
  rw [flattenAux]
  induction listform with
  | nil => rfl
  | cons e listform ih =>
    obtain ⟨s, a, prefixes, suffix⟩ := e
    rw [List.flatMap_cons, ← ih, flattenBordernode, flattenSuffix]
    rcases suffix with _ | ⟨k, v⟩ | t'
    · rw [flattenLayer, List.append_nil]
    · rw [flattenLayer]
    · rw [flattenLayer]

/-! ### Bytes that come back -/

theorem length_reconstructKeyslice (s : Int) (len : Nat) : (reconstructKeyslice s len).length = len :=
  length_reconstruct _ len

theorem reconstruct_congr {a b : Int} {n : Nat}
    (same : reconstructKeysliceAux a n = reconstructKeysliceAux b n) : (256 ^ n : Int) ∣ a - b := by
  induction n generalizing a b with
  | zero => simp
  | succ n ih =>
    obtain ⟨front, last⟩ := List.append_inj' same rfl
    obtain ⟨q, hq⟩ := ih front
    have bytes : a % 256 = b % 256 := by
      have bound : (a % 256).toNat < 256 := by omega
      have bound' : (b % 256).toNat < 256 := by omega
      have toNats := congrArg UInt8.toNat (List.singleton_inj.mp last)
      rw [UInt8.toNat_ofNat', UInt8.toNat_ofNat'] at toNats
      omega
    refine ⟨q, ?_⟩
    have whole : a - b = 256 * (a / 256 - b / 256) := by omega
    rw [whole, hq, Int.pow_succ, Int.mul_comm (256 ^ n) 256, Int.mul_assoc]

/-- The bytes of a word are reconstructed when it is zero. -/
theorem reconstruct_eq_spell_iff (range : KeyInrange s) :
    reconstructKeyslice s keysliceLength = spell s keysliceLength ↔ s = 0 := by
  have whole : spell s keysliceLength = reconstructKeysliceAux s keysliceLength := by
    rw [spell, List.take_of_length_le (length_reconstruct s _).le]
  constructor
  · intro same
    rw [whole, reconstructKeyslice, Nat.sub_self, Int.shiftRight_zero] at same
    have seven : s * 8 - s = 7 * s := by omega
    have words : (256 ^ keysliceLength : Int) = 2 ^ 64 := by decide
    have divides := reconstruct_congr same
    rw [words, seven] at divides
    have multiple : (2 ^ 64 : Int) ∣ s := Int.dvd_of_dvd_mul_right_of_gcd_one divides (by decide)
    have small : s < 2 ^ 64 := Int.lt_of_le_sub_one range.2
    exact (Int.emod_eq_of_lt range.1 small).symm.trans (Int.emod_eq_zero_of_dvd multiple)
  · intro zero
    subst zero
    rw [whole, reconstructKeyslice, Nat.sub_self, Int.shiftRight_zero, Int.zero_mul]

/-! ### Entries side by side -/

theorem length_flattenPrefixArray (s : Int) (prefixes : List (Option V)) (idx len : Nat) :
    (flattenPrefixArray pre s prefixes idx).length = (prefixContents s prefixes len).length := by
  induction prefixes generalizing idx len with
  | nil => rfl
  | cons w prefixes ih =>
    cases w with
    | none => exact ih (idx + 1) (len + 1)
    | some w => exact congrArg (· + 1) (ih (idx + 1) (len + 1))

theorem length_flattenBordernode (sub : ∀ t', bnode.suffix = some (.inr t') →
      ∀ pre, (flattenAux pre t').length = (contents t').length) :
    (flattenBordernode pre s bnode).length = (nodeContents s bnode).length := by
  unfold flattenBordernode nodeContents
  rw [List.length_append, List.length_append, length_flattenPrefixArray s bnode.prefixes 0 1]
  congr 1
  unfold flattenSuffix suffixContents
  cases hs : bnode.suffix with
  | none => rfl
  | some w =>
    cases w with
    | inl pair => rfl
    | inr t' =>
      dsimp only
      rw [sub t' hs, prepend, List.length_map]

theorem length_flattenAux (t : Trienode Table Val V) (pre : Key) :
    (flattenAux pre t).length = (contents t).length := by
  induction t using Trienode.subtries generalizing pre with
  | of addr tableform listform ih =>
    rw [flattenAux_of, contents_of, List.length_flatMap, List.length_flatMap]
    congr 1
    refine List.map_congr_left fun e he => length_flattenBordernode fun t' hs pre => ?_
    exact ih e he t' hs pre

theorem flattenPrefixArray_front {prefixes : List (Option V)} {idx : Nat} {e : Key × V}
    (he : e ∈ flattenPrefixArray pre s prefixes idx) : pre <+: e.1 := by
  induction prefixes generalizing idx with
  | nil => cases he
  | cons w prefixes ih =>
    cases w with
    | none => exact ih he
    | some w =>
      rcases List.mem_cons.mp he with rfl | he
      · exact List.prefix_append _ _
      · exact ih he

theorem flattenAux_front {e : Key × V} (he : e ∈ flattenAux pre t) : pre <+: e.1 := by
  induction t using Trienode.subtries generalizing pre with
  | of addr tableform listform ih =>
    rw [flattenAux_of] at he
    obtain ⟨x, hx, he⟩ := List.mem_flatMap.mp he
    rcases List.mem_append.mp he with he | he
    · exact flattenPrefixArray_front he
    · unfold flattenSuffix at he
      split at he
      · obtain rfl := List.mem_singleton.mp he
        exact List.prefix_append _ _
      · rename_i t' hs
        exact (List.prefix_append _ _).trans (ih x hx t' hs he)
      · cases he

/-- Lists of lists with the same lengths are equal one by one. -/
theorem eq_of_flatMap_eq {A B : Type} {f g : A → List B} {l : List A}
    (lengths : ∀ e ∈ l, (f e).length = (g e).length) (same : l.flatMap f = l.flatMap g) :
    ∀ e ∈ l, f e = g e := by
  induction l with
  | nil =>
    intro e he
    cases he
  | cons x l ih =>
    rw [List.flatMap_cons, List.flatMap_cons] at same
    obtain ⟨first, rest⟩ := List.append_inj same (lengths x List.mem_cons_self)
    intro e he
    rcases List.mem_cons.mp he with rfl | he
    · exact first
    · exact ih (fun e he => lengths e (List.mem_cons_of_mem _ he)) rest e he

theorem prepend_append (front : Key) (l l' : List (Key × V)) :
    prepend front (l ++ l') = prepend front l ++ prepend front l' := List.map_append

theorem prepend_prepend (front front' : Key) (l : List (Key × V)) :
    prepend front (prepend front' l) = prepend (front ++ front') l := by
  unfold prepend
  rw [List.map_map]
  refine List.map_congr_left fun e _ => ?_
  dsimp only [Function.comp]
  rw [List.append_assoc]

theorem prepend_flatMap {A : Type} (front : Key) (f : A → List (Key × V)) (l : List A) :
    prepend front (l.flatMap f) = l.flatMap fun e => prepend front (f e) := List.map_flatMap

/-- A key that ends in a slice comes back without its last byte. -/
theorem prefixContents_eq_nil {prefixes : List (Option V)} {idx : Nat}
    (inside : idx + prefixes.length ≤ keysliceLength)
    (same : flattenPrefixArray pre s prefixes idx =
      prepend pre (prefixContents s prefixes (idx + 1))) :
    prefixContents s prefixes (idx + 1) = [] := by
  induction prefixes generalizing idx with
  | nil => rfl
  | cons w prefixes ih =>
    rw [List.length_cons] at inside
    cases w with
    | none => exact ih (by omega) same
    | some w =>
      rw [flattenPrefixArray, prefixContents, prepend, List.map_cons] at same
      have keys := congrArg Prod.fst (List.cons.inj same).1
      have lengths := congrArg List.length (List.append_cancel_left keys)
      rw [length_reconstructKeyslice, length_spell s (by omega)] at lengths
      omega

/-! ### Tries that come back -/

section

variable {N : FlattenableTable Val} {root : Nat} {tableform : N.Table}
  {listform : List (Int × (Val × Bordernode V (TrieOf N V)))} {bnode : Bordernode V (TrieOf N V)}
  {t : TrieOf N V}

/-- A border node that comes back has one key, which goes on after a slice of zeros. -/
theorem flattenBordernode_zero (range : KeyInrange s) (correct : NodeCorrect N 1 bnode)
    (sub : ∀ t', bnode.suffix = some (.inr t') → ∀ pre,
      flattenAux pre t' = prepend pre (contents t') → (contents t').length ≤ 1)
    (same : flattenBordernode pre s bnode = prepend pre (nodeContents s bnode)) :
    s = 0 ∧ prefixContents s bnode.prefixes 1 = [] ∧ (suffixContents s bnode).length ≤ 1 := by
  have inv := correct.invariant
  unfold BorderNode.Invariant at inv
  unfold flattenBordernode nodeContents at same
  rw [prepend_append] at same
  obtain ⟨prefixes, suffix⟩ := List.append_inj same (by
    rw [prepend, List.length_map, length_flattenPrefixArray s _ 0 1])
  have none_short := prefixContents_eq_nil (by omega) prefixes
  have filled : suffixContents s bnode ≠ [] := by
    have some_key := nodeContents_ne_nil s correct fun t' hs => contents_ne_nil (correct.link hs)
    rwa [nodeContents, none_short, List.nil_append] at some_key
  unfold flattenSuffix suffixContents at suffix
  unfold suffixContents at filled ⊢
  cases hs : bnode.suffix with
  | none =>
    rw [hs] at filled
    exact absurd rfl filled
  | some w =>
    rw [hs] at suffix
    cases w with
    | inl pair =>
      obtain ⟨r, v⟩ := pair
      have keys := congrArg Prod.fst (List.singleton_inj.mp suffix)
      have bytes := List.append_cancel_right (List.append_cancel_left keys)
      exact ⟨(reconstruct_eq_spell_iff range).mp bytes, none_short, Nat.le_refl 1⟩
    | inr t' =>
      dsimp only at suffix ⊢
      rw [prepend_prepend] at suffix
      obtain ⟨e, he⟩ := List.exists_mem_of_ne_nil _ (contents_ne_nil (correct.link hs))
      have member : ((pre ++ spell s keysliceLength) ++ e.1, e.2) ∈
          flattenAux (pre ++ reconstructKeyslice s keysliceLength) t' := by
        rw [suffix]
        exact List.mem_map_of_mem (f := fun e => ((pre ++ spell s keysliceLength) ++ e.1, e.2)) he
      have front := List.prefix_of_prefix_length_le (flattenAux_front member)
        (List.prefix_append (pre ++ spell s keysliceLength) e.1) (by
          rw [List.length_append, List.length_append, length_reconstructKeyslice,
            length_spell s (Nat.le_refl _)])
      have bytes := List.append_cancel_left (front.eq_of_length (by
        rw [List.length_append, List.length_append, length_reconstructKeyslice,
          length_spell s (Nat.le_refl _)]))
      rw [bytes] at suffix
      refine ⟨(reconstruct_eq_spell_iff range).mp bytes, none_short, ?_⟩
      rw [prepend, List.length_map]
      exact sub t' hs _ suffix

/-- A trie that comes back has at most one key, and it goes on after a slice of zeros. -/
theorem flattenAux_zero (correct : Correct N root 1 t) (spelled : Spelled t)
    (same : flattenAux pre t = prepend pre (contents t)) :
    (contents t).length ≤ 1 ∧ ∀ e ∈ contents t, getKeyslice e.1 = 0 ∧ keysliceLength < e.1.length := by
  induction t using Trienode.subtries generalizing root pre with
  | of addr tableform listform ih =>
    have node : ∀ e ∈ listform, e.1 = 0 ∧ prefixContents e.1 e.2.2.prefixes 1 = [] ∧
        (suffixContents e.1 e.2.2).length ≤ 1 := by
      intro e he
      have found := correct.lookup_of_mem he
      rw [flattenAux_of, contents_of, prepend_flatMap] at same
      have sameNode : flattenBordernode pre e.1 e.2.2 = prepend pre (nodeContents e.1 e.2.2) := by
        refine eq_of_flatMap_eq (fun e _ => ?_) same e he
        rw [prepend, List.length_map]
        exact length_flattenBordernode fun t' _ pre => length_flattenAux t' pre
      refine flattenBordernode_zero (correct.range he) (correct.node found) ?_ sameNode
      intro t' hs pre below
      exact (ih e he t' hs ((correct.node found).link hs) ((spelled.node found).link hs) below).1
    have single : listform.length ≤ 1 := by
      cases listform with
      | nil => exact Nat.zero_le 1
      | cons e listform =>
        cases listform with
        | nil => exact Nat.le_refl 1
        | cons e' listform =>
          obtain ⟨less, -⟩ := sorted_cons.mp correct.sorted
          have apart := less e' List.mem_cons_self
          rw [(node e List.mem_cons_self).1, (node e' (by simp)).1] at apart
          exact absurd apart (Int.lt_irrefl 0)
    constructor
    · rw [contents_of]
      cases listform with
      | nil => exact Nat.zero_le 1
      | cons e listform =>
        obtain rfl : listform = [] := List.length_eq_zero_iff.mp (Nat.le_zero.mp (Nat.le_of_succ_le_succ single))
        obtain ⟨-, none_short, few⟩ := node e List.mem_cons_self
        rw [List.flatMap_cons, List.flatMap_nil, List.append_nil, nodeContents, none_short]
        exact few
    · rintro ⟨k, v⟩ hk
      rw [contents_of] at hk
      obtain ⟨e, he, hk⟩ := List.mem_flatMap.mp hk
      obtain ⟨zero, none_short, -⟩ := node e he
      have found := correct.lookup_of_mem he
      refine ⟨(node_slice correct spelled he hk).trans zero, ?_⟩
      rw [nodeContents, none_short, List.nil_append] at hk
      obtain ⟨r, more, rfl⟩ := suffixContents_longer (correct.node found) (spelled.node found) hk
      have positive := List.length_pos_iff.mpr more
      rw [List.length_append, length_spell _ (Nat.le_refl _)]
      omega

/-! ### Runs of one key -/

/-- The trie of one key that goes on after its slice. -/
def Single (key : Key) (t : TrieOf N V) : Prop :=
  ∃ addr tableform a v, t = .of addr tableform
    [(getKeyslice key, (a, BorderNode.putSuffix (getSuffix key) v BorderNode.empty))]

/-- Putting the same key again leaves such a trie. -/
theorem single_put {key : Key} (long : keysliceLength < key.length) {c c' : Cursor N V}
    {t' : TrieOf N V} (start : Empty t ∨ Single key t) (h : Put N key v c t c' t') : Single key t' := by
  rcases start with empty | ⟨addr, tableform, a, w, rfl⟩
  · obtain ⟨addr, tableform, listform⟩ := t
    obtain ⟨-, rfl⟩ := empty
    cases h with
    | case1 found => cases found
    | case2 found => cases found
    | case3 found => cases found
    | case4 found => cases found
    | case5 found => cases found
    | case6 absent hbnode abs list tableAbs table =>
      obtain ⟨rfl, -⟩ := list
      subst hbnode
      rw [BorderNode.putValue, if_neg (Nat.not_le.mpr long)]
      exact ⟨_, _, _, _, rfl⟩
  · have here : Flattened.getExact (getKeyslice key)
        [(getKeyslice key, (a, (BorderNode.putSuffix (getSuffix key) w BorderNode.empty :
          Bordernode V (TrieOf N V))))] =
        some (a, BorderNode.putSuffix (getSuffix key) w BorderNode.empty) := by
      simp [Flattened.getExact, Flattened.get, Flattened.makeCursor]
    cases h with
    | case1 found short => exact absurd short (Nat.not_le.mpr long)
    | case2 found long link =>
      cases here.symm.trans found
      cases link
    | case3 found long nothing =>
      cases here.symm.trans found
      cases nothing
    | case4 found long equal hbnode abs list =>
      cases here.symm.trans found
      obtain ⟨rfl, -⟩ := list
      subst hbnode
      refine ⟨addr, tableform, a, v, ?_⟩
      rw [Flattened.putAux, put_head_eq]
      rfl
    | case5 found long pair differ =>
      cases here.symm.trans found
      cases pair
      exact absurd rfl differ
    | case6 absent =>
      cases here.symm.trans absent

theorem single_runs {key : Key} (long : keysliceLength < key.length) {log : List (Key × V)}
    (runs : Runs N log t) (same : ∀ e ∈ log, e.1 = key) : Empty t ∨ Single key t := by
  induction runs with
  | empty h => exact Or.inl h
  | @put log t t' c c' k v before hk h ih =>
    obtain rfl := same (k, v) (by simp)
    exact Or.inr (single_put long (ih fun e he => same e (by simp [he])) h)

/-- The trie of a key after a slice of zeros comes back. -/
theorem flatten_single {key : Key} (zero : getKeyslice key = 0)
    (single : Empty t ∨ Single key t) : flatten t = contents t := by
  rcases single with empty | ⟨addr, tableform, a, w, rfl⟩
  · obtain ⟨addr, tableform, listform⟩ := t
    obtain ⟨-, rfl⟩ := empty
    rw [flatten, flattenAux_of, contents_of]
    rfl
  · have range := keyInrange_getKeyslice key
    have bytes := (reconstruct_eq_spell_iff range).mpr zero
    rw [flatten, flattenAux_of, contents_of, List.flatMap_singleton, List.flatMap_singleton,
      flattenBordernode, nodeContents, flattenSuffix, suffixContents, BorderNode.putSuffix_suffix,
      bytes, List.nil_append]
    rfl

/-! ### The law -/

/-- `flatten` lists the last value of each key, in the order of the keys, and follows the puts. -/
structure FlattenLaw (log : List (Key × V)) (t : TrieOf N V) : Prop where
  sorted : Sorted (flatten t)
  values : ∀ k v, (k, v) ∈ flatten t ↔ lastValue k log = some v
  put : ∀ log₀ k v t₀ c c', log = log₀ ++ [(k, v)] → Runs N log₀ t₀ → Put N k v c t₀ c' t →
    flatten t = Flattened.putAux k v (flatten t₀)

/-- One key, which goes on after eight bytes of zero, is all that is put. -/
structure OneZeroKey (log : List (Key × V)) : Prop where
  zeros : ∀ e ∈ log, e.1.take keysliceLength = List.replicate keysliceLength 0
  longer : ∀ e ∈ log, keysliceLength < e.1.length
  one : ∀ e ∈ log, ∀ e' ∈ log, e.1 = e'.1

theorem getKeyslice_eq_zero_iff {key : Key} (long : keysliceLength ≤ key.length) :
    getKeyslice key = 0 ↔ key.take keysliceLength = List.replicate keysliceLength 0 := by
  constructor
  · intro zero
    rw [← spell_getKeyslice (Nat.le_refl _) long, zero]
    rfl
  · intro zeros
    have slice := getKeyslice_replace (k := key) [] long
    rw [← slice, zeros]
    rfl

theorem flatten_runs {log : List (Key × V)} (runs : Runs N log t) (one : OneZeroKey log) :
    flatten t = sortedMap log := by
  rw [← contents_runs runs]
  cases log with
  | nil =>
    have same : ∀ e ∈ ([] : List (Key × V)), e.1 = List.replicate 9 (0 : UInt8) := fun _ no => by
      cases no
    exact flatten_single rfl (single_runs (by decide) runs same)
  | cons e log =>
    have long := one.longer e List.mem_cons_self
    have zero := (getKeyslice_eq_zero_iff long.le).mpr (one.zeros e List.mem_cons_self)
    exact flatten_single zero
      (single_runs long runs fun e' he' => one.one e' he' e List.mem_cons_self)

/-- `flatten` is the sorted map of the puts exactly when they put one key, which goes on after
eight bytes of zero. -/
theorem flattenLaw_iff {log : List (Key × V)} (runs : Runs N log t) :
    FlattenLaw log t ↔ OneZeroKey log := by
  obtain ⟨correct, holds⟩ := runs_correct runs
  have spelled := runs_spelled runs
  constructor
  · intro law
    have member : ∀ e ∈ log, ∃ v, (e.1, v) ∈ contents t := by
      intro e he
      obtain ⟨v, last⟩ := lastValue_isSome (List.mem_map_of_mem he)
      exact ⟨v, (mem_contents_iff_find correct spelled).mpr ((holds e.1).trans last)⟩
    have back : flatten t = contents t := by
      refine sorted_ext law.sorted (contents_sorted correct spelled) fun k => ?_
      rw [lookup_contents correct spelled, holds]
      cases last : lastValue k log with
      | some v => exact lookup_of_mem law.sorted ((law.values k v).mpr last)
      | none =>
        cases listed : lookup k (flatten t) with
        | none => rfl
        | some v =>
          have found := (law.values k v).mp (mem_of_lookup listed)
          rw [last] at found
          cases found
    have same : flattenAux [] t = prepend [] (contents t) := by
      rw [prepend]
      exact back.trans (List.map_id _).symm
    obtain ⟨few, zero⟩ := flattenAux_zero correct spelled same
    refine ⟨fun e he => ?_, fun e he => ?_, fun e he e' he' => ?_⟩
    · obtain ⟨v, hv⟩ := member e he
      obtain ⟨slice, long⟩ := zero _ hv
      exact (getKeyslice_eq_zero_iff long.le).mp slice
    · obtain ⟨v, hv⟩ := member e he
      exact (zero _ hv).2
    · obtain ⟨v, hv⟩ := member e he
      obtain ⟨v', hv'⟩ := member e' he'
      obtain ⟨i, hi, here⟩ := List.mem_iff_getElem.mp hv
      obtain ⟨i', hi', here'⟩ := List.mem_iff_getElem.mp hv'
      obtain rfl : i = i' := by omega
      exact (Prod.mk.inj (here.symm.trans here')).1
  · intro one
    have whole := flatten_runs runs one
    obtain ⟨sorted, last⟩ := sortedMap_spec log
    rw [← whole] at sorted last
    refine ⟨sorted, fun k v => ?_, ?_⟩
    · rw [← last k]
      exact ⟨lookup_of_mem sorted, mem_of_lookup⟩
    · intro log₀ k v t₀ c c' hlog runs₀ h
      subst hlog
      have before : OneZeroKey log₀ :=
        ⟨fun e he => one.zeros e (by simp [he]), fun e he => one.longer e (by simp [he]),
          fun e he e' he' => one.one e (by simp [he]) e' (by simp [he'])⟩
      rw [whole, sortedMap_snoc, flatten_runs runs₀ before]

end

/-! ### Examples -/

theorem flattenLaw_zeros : ∃ t : TrieOf (sortedListTable Nat) Nat,
    FlattenLaw [([0, 0, 0, 0, 0, 0, 0, 0, 7], 5)] t := by
  have start : Runs (sortedListTable Nat) [] (.of 0 [] [] : TrieOf (sortedListTable Nat) Nat) :=
    .empty ⟨rfl, rfl⟩
  obtain ⟨c, t, h⟩ := put_exists [0, 0, 0, 0, 0, 0, 0, 0, 7] 5 [] (runs_correct start).1
  have runs := start.put (by decide) h
  refine ⟨t, (flattenLaw_iff runs).mpr ⟨fun e he => ?_, fun e he => ?_, by simp⟩⟩
  · obtain rfl := List.mem_singleton.mp he
    rfl
  · obtain rfl := List.mem_singleton.mp he
    decide

/-- The trie after the first put, of a key of one byte. -/
def oneByte : TrieOf (sortedListTable Nat) Nat :=
  .of 0 [(getKeyslice [97], 1)]
    [(getKeyslice [97], (1, BorderNode.putPrefix 1 5 BorderNode.empty))]

theorem runs_oneByte : Runs (sortedListTable Nat) [([97], 5)] oneByte := by
  have start : Runs (sortedListTable Nat) [] (.of 0 [] [] : TrieOf (sortedListTable Nat) Nat) :=
    .empty ⟨rfl, rfl⟩
  obtain ⟨c, first⟩ : ∃ c, Put (sortedListTable Nat) [97] 5 [] (.of 0 [] []) c oneByte :=
    ⟨_, .case6 rfl rfl ⟨sorted_nil, Nat.zero_le 0⟩ ⟨rfl, rfl⟩ ⟨sorted_nil, Nat.zero_le 0⟩ ⟨rfl, rfl⟩⟩
  exact start.put (by decide) first

/-- The key comes back as the empty key. -/
theorem flatten_loses_byte : Runs (sortedListTable Nat) [([97], 5)] oneByte ∧
    flatten oneByte = [([], 5)] ∧ ¬ FlattenLaw [([97], 5)] oneByte := by
  have back : flatten oneByte = [([], 5)] := rfl
  refine ⟨runs_oneByte, back, fun law => ?_⟩
  have listed := (law.values [97] 5).mpr rfl
  rw [back] at listed
  simp at listed

end DeepDB.Trie
