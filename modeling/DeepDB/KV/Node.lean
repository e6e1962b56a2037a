import DeepDB.KV.Key
import DeepDB.Trie.Heap

/-!
Border nodes of the key-value store, as those of the functional trie. A value that is not `NULL` is in
use, and each `BN_` function does to the node what its functional counterpart does to what it shows.
-/

namespace DeepDB.KV
open Trie (Key Ptr NULL keysliceLength Bordernode)
open Trie.BorderNode (empty getPrefix putPrefix putSuffix putLink putValue getLink testSuffix
  getSuffixPair getSuffixValue)

structure BorderNode.Valid (bn : BorderNode) : Prop where
  links : bn.prefixLinks.length = MAX_BN_SIZE
  suffix : ∀ k, bn.keySuffix = some k → k.length < 2 ^ 32 ∧ bn.suffixLink ≠ NULL

/-- A pointer that is not `NULL`. -/
def value? (p : Ptr) : Option Ptr := if p = NULL then none else some p

def BorderNode.view (bn : BorderNode) : Bordernode Ptr Ptr where
  prefixes := bn.prefixLinks.map value?
  suffix :=
    match bn.keySuffix with
    | some k => some (.inl (k, bn.suffixLink))
    | none => (value? bn.suffixLink).map .inr

variable {bn bn' : BorderNode} {key : KVKey} {k : Key} {v p : Ptr}

theorem value?_of_ne (hv : v ≠ NULL) : value? v = some v := if_neg hv

theorem value?_getD (p : Ptr) : (value? p).getD NULL = p := by
  unfold value?
  by_cases null : p = NULL
  · rw [if_pos null, null]
    rfl
  · rw [if_neg null]
    rfl

theorem value?_eq_none : value? p = none ↔ p = NULL := by
  unfold value?
  by_cases null : p = NULL
  · simp [null]
  · simp [null]

theorem valid_new : BN_NewBorderNode.Valid :=
  ⟨List.length_replicate, fun _ no => (by cases no)⟩

theorem view_new : BN_NewBorderNode.view = empty := by
  unfold BorderNode.view BN_NewBorderNode
  rw [List.map_replicate]
  rfl

/-! ### Prefixes -/

/-- Between one and eight, as the assertions ask for. -/
theorem getPrefixValue_eq (valid : bn.Valid) {i : Nat} (pos : 0 < i) (inside : i ≤ keysliceLength) :
    BN_GetPrefixValue bn i = some ((getPrefix i bn.view).getD NULL) := by
  obtain ⟨i, rfl⟩ : ∃ j, i = j + 1 := ⟨i - 1, by omega⟩
  have room : i < bn.prefixLinks.length := by
    rw [valid.links]
    exact inside
  unfold BN_GetPrefixValue getPrefix BorderNode.view
  simp only [gt_iff_lt, pos, guard_true, MAX_BN_SIZE, inside, Option.bind_eq_bind, Option.pure_def,
    Option.bind_some, Nat.add_sub_cancel, List.getD_eq_getElem?_getD, List.getElem?_map,
    List.getElem?_eq_getElem room, Option.map_some, Option.getD_some, value?_getD]

theorem setPrefixValue_eq {i : Nat} (pos : 0 < i) (inside : i ≤ keysliceLength) :
    BN_SetPrefixValue bn i v = some { bn with prefixLinks := bn.prefixLinks.set (i - 1) v } := by
  unfold BN_SetPrefixValue
  simp [pos, MAX_BN_SIZE, inside]

theorem view_setPrefixValue (valid : bn.Valid) {i : Nat} (pos : 0 < i) (inside : i ≤ keysliceLength)
    (hv : v ≠ NULL) :
    ∃ bn', BN_SetPrefixValue bn i v = some bn' ∧ bn'.Valid ∧ bn'.view = putPrefix i v bn.view := by
  obtain ⟨i, rfl⟩ : ∃ j, i = j + 1 := ⟨i - 1, by omega⟩
  refine ⟨_, setPrefixValue_eq pos inside, ⟨?_, valid.suffix⟩, ?_⟩
  · rw [List.length_set]
    exact valid.links
  · unfold BorderNode.view putPrefix
    simp only [Nat.add_sub_cancel, List.map_set, value?_of_ne hv]

/-! ### What comes after the slice -/

theorem setSuffixValue_eq (bn : BorderNode) (k : Key) (v : Ptr) : BN_SetSuffixValue bn k v
    = if k.length < 2 ^ 32 then some { bn with keySuffix := some k, suffixLink := v } else none := by
  unfold BN_SetSuffixValue
  rw [IndexString.copy_eq]
  split <;> rfl

theorem view_setSuffixValue (valid : bn.Valid) (fits : k.length < 2 ^ 32) (hv : v ≠ NULL) :
    ∃ bn', BN_SetSuffixValue bn k v = some bn' ∧ bn'.Valid ∧ bn'.view = putSuffix k v bn.view := by
  rw [setSuffixValue_eq, if_pos fits]
  refine ⟨_, rfl, ⟨valid.links, ?_⟩, rfl⟩
  intro k' same
  cases same
  exact ⟨fits, hv⟩

theorem valid_setLink (valid : bn.Valid) : (BN_SetLink bn v).Valid :=
  ⟨valid.links, fun _ no => (by cases no)⟩

theorem view_setLink (hv : v ≠ NULL) : (BN_SetLink bn v).view = putLink v bn.view := by
  unfold BorderNode.view BN_SetLink putLink
  simp only [value?_of_ne hv, Option.map_some]

theorem view_setValue (valid : bn.Valid) (hk : key.bytes ≠ [])
    (fits : (key.bytes.drop keysliceLength).length < 2 ^ 32) (hv : v ≠ NULL) :
    ∃ bn', BN_SetValue bn key v = some bn' ∧ bn'.Valid ∧ bn'.view = putValue key.bytes v bn.view := by
  unfold BN_SetValue putValue
  rw [length_bytes]
  by_cases short : key.len ≤ keysliceLength
  · have pos : 0 < key.len := by
      rw [← length_bytes]
      exact List.length_pos_iff.mpr hk
    rw [if_neg (by omega), if_pos short]
    exact view_setPrefixValue valid pos short hv
  · rw [if_pos (by omega), if_neg short]
    exact view_setSuffixValue valid fits hv

/-- What stands behind the prefixes. -/
theorem suffix_none (h : bn.view.suffix = none) : bn.keySuffix = none ∧ bn.suffixLink = NULL := by
  unfold BorderNode.view at h
  cases hs : bn.keySuffix with
  | some k => simp [hs] at h
  | none =>
    rw [hs] at h
    exact ⟨rfl, value?_eq_none.mp (Option.map_eq_none_iff.mp h)⟩

theorem suffix_pair (h : bn.view.suffix = some (.inl (k, v))) :
    bn.keySuffix = some k ∧ bn.suffixLink = v := by
  unfold BorderNode.view at h
  cases hs : bn.keySuffix with
  | some k' =>
    rw [hs] at h
    cases h
    exact ⟨rfl, rfl⟩
  | none =>
    rw [hs] at h
    obtain ⟨p, -, no⟩ := Option.map_eq_some_iff.mp h
    cases no

theorem suffix_link (h : bn.view.suffix = some (.inr p)) :
    bn.keySuffix = none ∧ bn.suffixLink = p ∧ p ≠ NULL := by
  unfold BorderNode.view at h
  cases hs : bn.keySuffix with
  | some k => simp [hs] at h
  | none =>
    rw [hs] at h
    obtain ⟨p', used, same⟩ := Option.map_eq_some_iff.mp h
    cases same
    unfold value? at used
    rw [Option.ite_none_left_eq_some] at used
    exact ⟨rfl, Option.some.inj used.2, Option.some.inj used.2 ▸ used.1⟩

@[simp] theorem bytes_moveKey (k : Key) : (KV_MoveKey k).bytes = k := by
  unfold KV_MoveKey KVKey.bytes
  exact List.take_length

end DeepDB.KV
