import DeepDB.Trie.IndexString
import Mathlib.Data.Nat.Bitwise

/-!
Slices, strings and border nodes of the string index, as those of the functional trie. A node whose
flags are set for lengths of prefixes only shows a functional border node, and each `BN_` function
does to the node what its functional counterpart does to what it shows.
-/

namespace DeepDB.IndexString
open Trie Trie.BorderNode

/-! ### Slices -/

theorem nextKeySliceLoop_eq {str : Key} {n : Nat} {res : UInt64} (rounds : n ≤ keysliceLength)
    (small : res.toNat < 256 ^ (keysliceLength - n)) :
    ((nextKeySliceLoop n str res).toNat : Int) = getKeysliceAux str n res.toNat := by
  induction n generalizing str res with
  | zero => rfl
  | succ n ih =>
    have power : 256 ^ (keysliceLength - n) = 256 ^ (keysliceLength - (n + 1)) * 256 := by
      rw [← Nat.pow_succ]
      congr 1
      omega
    have top : 256 ^ (keysliceLength - n) ≤ 256 ^ keysliceLength :=
      Nat.pow_le_pow_right (by decide) (Nat.sub_le _ _)
    have word : 256 ^ keysliceLength = 2 ^ 64 := by decide
    have shifted : (res <<< 8).toNat = res.toNat * 256 := by
      rw [UInt64.toNat_shiftLeft]
      have : (8 : UInt64).toNat % 64 = 8 := by decide
      rw [this, Nat.shiftLeft_eq]
      omega
    cases str with
    | nil =>
      unfold nextKeySliceLoop getKeysliceAux
      rw [ih (by omega) (by omega), shifted]
      rfl
    | cons ch str =>
      have bound := ch.toNat_lt
      have byte : (ch.toUInt64 &&& mask).toNat = ch.toNat := by
        rw [UInt64.toNat_and, UInt8.toNat_toUInt64]
        exact Nat.and_two_pow_sub_one_of_lt_two_pow (n := 8) bound
      have joined : ((res <<< 8) ||| (ch.toUInt64 &&& mask)).toNat = res.toNat * 256 + ch.toNat := by
        rw [UInt64.toNat_or, shifted, byte]
        have := Nat.shiftLeft_add_eq_or_of_lt (i := 8) bound res.toNat
        rw [Nat.shiftLeft_eq] at this
        exact this.symm
      unfold nextKeySliceLoop getKeysliceAux
      rw [ih (by omega) (by omega), joined]
      push_cast
      rfl

theorem getNextKeySlice_eq (str : Key) :
    ((UTIL_GetNextKeySlice str).toNat : Int) = getKeyslice str :=
  nextKeySliceLoop_eq (Nat.le_refl _) (by decide)

theorem getNextKeySlice_inj {str str' : Key} :
    UTIL_GetNextKeySlice str = UTIL_GetNextKeySlice str' ↔ getKeyslice str = getKeyslice str' := by
  rw [← getNextKeySlice_eq, ← getNextKeySlice_eq, Int.natCast_inj, UInt64.toNat_inj]

/-! ### Strings -/

theorem strEqual_eq (a b : Key) : UTIL_StrEqual a b = (a == b) := by
  unfold UTIL_StrEqual
  induction a generalizing b with
  | nil => cases b <;> rfl
  | cons ch a ih =>
    cases b with
    | nil => rfl
    | cons ch' b =>
      have tail := ih b
      simp only [List.length_cons, List.zip_cons_cons, List.all_cons, ne_eq, Nat.add_right_cancel_iff,
        List.cons_beq_cons] at tail ⊢
      rw [← tail]
      split <;> simp

theorem copyLoop_eq {str : Key} {room : Nat} :
    copyLoop str room = if str.length ≤ room then some str else none := by
  induction str generalizing room with
  | nil => cases room <;> rfl
  | cons ch str ih =>
    cases room with
    | zero => rfl
    | succ room =>
      rw [copyLoop, ih]
      simp only [List.length_cons, Nat.add_le_add_iff_right]
      split <;> rfl

/-- A string has a copy unless its length does not fit an `unsigned int`. -/
theorem copy_eq (str : Key) :
    copyLoop str (surely_malloc str.length) = if str.length < 2 ^ 32 then some str else none := by
  unfold surely_malloc
  rw [copyLoop_eq]
  by_cases fits : str.length < 2 ^ 32
  · rw [if_pos fits, if_pos (Nat.mod_eq_of_lt fits).ge]
  · rw [if_neg fits, if_neg]
    have := Nat.mod_lt str.length (y := 2 ^ 32) (by decide)
    omega

theorem new_key_eq (str : Key) :
    new_key str = if str.length < 2 ^ 32 then some str else none := copy_eq str

/-! ### Flags -/

theorem readFlag_eq (flags i : Nat) : readFlag flags i = flags.testBit i := by
  unfold readFlag
  rw [Nat.one_shiftLeft, Nat.and_two_pow]
  cases flags.testBit i with
  | true => simp
  | false => simp

theorem readFlag_setFlag (flags i j : Nat) :
    readFlag (setFlag flags i) j = (readFlag flags j || decide (i = j)) := by
  unfold setFlag
  rw [readFlag_eq, readFlag_eq, Nat.testBit_or, Nat.one_shiftLeft, Nat.testBit_two_pow]

theorem readFlag_zero (i : Nat) : readFlag 0 i = false := by
  rw [readFlag_eq, Nat.zero_testBit]

/-! ### What a border node shows -/

structure BorderNode.Valid (bn : BorderNode) : Prop where
  links : bn.prefixLinks.length = MAX_BN_SIZE + 1
  flags : ∀ i, readFlag bn.prefixFlags i = true → 0 < i ∧ i ≤ MAX_BN_SIZE
  suffix : ∀ k, bn.keySuffix = some k → k.length < 2 ^ 32

def BorderNode.view (bn : BorderNode) : Bordernode Ptr Ptr where
  prefixes := (List.range keysliceLength).map fun i =>
    if readFlag bn.prefixFlags (i + 1) then bn.prefixLinks[i + 1]? else none
  suffix :=
    match bn.keySuffix with
    | some k => some (.inl (k, bn.suffixLink))
    | none => if bn.suffixLink = NULL then none else some (.inr bn.suffixLink)

variable {bn bn' : BorderNode} {key k : Key} {v : Ptr}

theorem valid_new : BN_NewBorderNode.Valid where
  links := List.length_replicate
  flags := fun i set => by
    have none : readFlag BN_NewBorderNode.prefixFlags i = false := readFlag_zero i
    rw [none] at set
    cases set
  suffix := fun k no => (by cases no)

theorem view_new : BN_NewBorderNode.view = empty := by
  unfold BorderNode.view BN_NewBorderNode
  simp only [readFlag_zero, Bool.false_eq_true, if_false, if_true, List.map_const',
    List.length_range]
  rfl

theorem getPrefix_view (valid : bn.Valid) {i : Nat} :
    getPrefix i bn.view = if readFlag bn.prefixFlags i then bn.prefixLinks[i]? else none := by
  cases i with
  | zero =>
    have unset : readFlag bn.prefixFlags 0 ≠ true := fun set => Nat.lt_irrefl 0 (valid.flags 0 set).1
    rw [if_neg unset]
    rfl
  | succ i =>
    unfold getPrefix BorderNode.view
    simp only [List.getD_eq_getElem?_getD, List.getElem?_map]
    by_cases inside : i < keysliceLength
    · rw [List.getElem?_range inside]
      rfl
    · have unset : readFlag bn.prefixFlags (i + 1) ≠ true := fun set =>
        inside (Nat.lt_of_succ_le (valid.flags _ set).2)
      rw [if_neg unset, List.getElem?_eq_none (by simpa using inside)]
      rfl

/-- A flag is set if and only if the node shows a prefix of that length. -/
theorem readFlag_iff (valid : bn.Valid) {i : Nat} :
    readFlag bn.prefixFlags i = true ↔ ∃ v, getPrefix i bn.view = some v := by
  rw [getPrefix_view valid]
  constructor
  · intro set
    have inside : i < bn.prefixLinks.length := by
      have := (valid.flags i set).2
      rw [valid.links]
      omega
    rw [if_pos set, List.getElem?_eq_getElem inside]
    exact ⟨_, rfl⟩
  · intro ⟨v, value⟩
    by_contra unset
    rw [if_neg unset] at value
    cases value

theorem valid_setPrefixValue (valid : bn.Valid) {i : Nat} (pos : 0 < i) (inside : i ≤ MAX_BN_SIZE) :
    (BN_SetPrefixValue bn i v).Valid where
  links := by
    unfold BN_SetPrefixValue
    rw [List.length_set]
    exact valid.links
  flags := fun j set => by
    unfold BN_SetPrefixValue at set
    rw [readFlag_setFlag, Bool.or_eq_true, decide_eq_true_iff] at set
    rcases set with set | rfl
    · exact valid.flags j set
    · exact ⟨pos, inside⟩
  suffix := valid.suffix

theorem view_setPrefixValue (valid : bn.Valid) {i : Nat} (pos : 0 < i) (inside : i ≤ MAX_BN_SIZE) :
    (BN_SetPrefixValue bn i v).view = putPrefix i v bn.view := by
  cases i with
  | zero => cases pos
  | succ i =>
    have room : i + 1 < bn.prefixLinks.length := by
      rw [valid.links]
      omega
    unfold BorderNode.view BN_SetPrefixValue putPrefix
    simp only [Bordernode.mk.injEq, and_true]
    apply List.ext_getElem?
    intro j
    rw [List.getElem?_set, List.length_map, List.length_range, List.getElem?_map, List.getElem?_map]
    by_cases below : j < keysliceLength
    · rw [List.getElem?_range below, Option.map_some, Option.map_some, readFlag_setFlag]
      by_cases here : i = j
      · subst here
        simp [below, room]
      · simp [here]
    · have outside : (List.range keysliceLength)[j]? = none := by
        rw [List.getElem?_eq_none_iff, List.length_range]
        omega
      rw [outside]
      simp only [Option.map_none]
      split
      · rw [if_neg (by omega)]
      · rfl

theorem setSuffixValue_eq (bn : BorderNode) (k : Key) (v : Ptr) : BN_SetSuffixValue bn k v
    = if k.length < 2 ^ 32 then some { bn with keySuffix := some k, suffixLink := v } else none := by
  unfold BN_SetSuffixValue
  rw [copy_eq]
  split <;> rfl

theorem view_setSuffixValue (valid : bn.Valid) (fits : k.length < 2 ^ 32) :
    ∃ bn', BN_SetSuffixValue bn k v = some bn' ∧ bn'.Valid ∧ bn'.view = putSuffix k v bn.view := by
  rw [setSuffixValue_eq, if_pos fits]
  refine ⟨_, rfl, ⟨valid.links, valid.flags, ?_⟩, rfl⟩
  intro k' same
  cases same
  exact fits

theorem valid_setLink (valid : bn.Valid) : (BN_SetLink bn v).Valid :=
  ⟨valid.links, valid.flags, fun _ no => (by cases no)⟩

theorem view_setLink (hv : v ≠ NULL) : (BN_SetLink bn v).view = putLink v bn.view := by
  unfold BorderNode.view BN_SetLink putLink
  simp only [if_neg hv]

theorem view_setValue (valid : bn.Valid) (hk : key ≠ [])
    (fits : (key.drop keysliceLength).length < 2 ^ 32) :
    ∃ bn', BN_SetValue bn key v = some bn' ∧ bn'.Valid ∧ bn'.view = putValue key v bn.view := by
  unfold BN_SetValue putValue
  by_cases short : key.length ≤ keysliceLength
  · have pos : 0 < key.length := List.length_pos_iff.mpr hk
    rw [if_neg (by omega), if_pos short]
    exact ⟨_, rfl, valid_setPrefixValue valid pos short, view_setPrefixValue valid pos short⟩
  · rw [if_pos (by omega), if_neg short]
    exact view_setSuffixValue valid fits

theorem hasSuffix_eq : BN_HasSuffix bn = (getSuffixPair bn.view).isSome := by
  unfold BN_HasSuffix getSuffixPair BorderNode.view
  cases bn.keySuffix with
  | some k => rfl
  | none =>
    by_cases empty : bn.suffixLink = NULL
    · simp [empty]
    · simp [empty]

theorem getLink_view : BN_GetLink bn = getLink bn.view := by
  unfold BN_GetLink getLink BorderNode.view
  cases bn.keySuffix with
  | some k => simp
  | none =>
    by_cases empty : bn.suffixLink = NULL
    · simp [empty]
    · simp [empty]

theorem testSuffix_view : BN_TestSuffix bn key = testSuffix (getSuffix key) bn.view := by
  unfold BN_TestSuffix testSuffix BorderNode.view
  cases bn.keySuffix with
  | some k => exact strEqual_eq _ _
  | none =>
    by_cases empty : bn.suffixLink = NULL
    · simp [empty]
    · simp [empty]

/-- The exported pair is the one that the node shows. -/
theorem exportSuffixValue_view {pair : Key × Ptr} (h : getSuffixPair bn.view = some pair) :
    (BN_ExportSuffixValue bn).1 = some pair ∧
      ∀ p, BN_SetLink (BN_ExportSuffixValue bn).2 p = BN_SetLink bn p := by
  unfold getSuffixPair BorderNode.view at h
  unfold BN_ExportSuffixValue
  cases hs : bn.keySuffix with
  | some k =>
    rw [hs] at h
    exact ⟨h, fun _ => rfl⟩
  | none =>
    rw [hs] at h
    by_cases empty : bn.suffixLink = NULL
    · simp [empty] at h
    · simp [empty] at h

theorem suffixPair_fits (valid : bn.Valid) (h : getSuffixPair bn.view = some (k, v)) :
    k.length < 2 ^ 32 := by
  refine valid.suffix k ?_
  unfold getSuffixPair BorderNode.view at h
  cases hs : bn.keySuffix with
  | some k' =>
    rw [hs] at h
    cases h
    rfl
  | none =>
    rw [hs] at h
    by_cases empty : bn.suffixLink = NULL
    · simp [empty] at h
    · simp [empty] at h

end DeepDB.IndexString
