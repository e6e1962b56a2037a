import DeepDB.Trie.IndexStringNode
import DeepDB.Trie.Order

/-!
The slices of `src/btrees_and_tries/util.c`. A string is cut into slices of eight bytes, each with the
number of bytes that are left, and the slices compare as the strings do. What is read beyond a string
and a failed `assert` have no result.
-/

namespace DeepDB.Util
open Trie
open IndexString (mask)

/-! ### Slices -/

/-- `(keyslice_t) *str` for a `char` with a sign. -/
def extendChar (ch : UInt8) : UInt64 := ch.toInt8.toInt64.toUInt64

/-- The first loop of `UTIL_GetNextKeySlice`, with the number of rounds left. -/
def takeLoop : Nat → Key → UInt64 → Option UInt64
  | 0, _, res => some res
  | _ + 1, [], _ => none
  | i + 1, ch :: str, res => takeLoop i str ((res <<< 8) ||| (extendChar ch &&& mask))

def padLoop : Nat → UInt64 → UInt64
  | 0, res => res
  | i + 1, res => padLoop i (res <<< 8)

def UTIL_GetNextKeySlice (str : Key) (len : Nat) : Option UInt64 :=
  if len ≤ keysliceLength then (takeLoop len str 0).map (padLoop (keysliceLength - len)) else none

/-- The loop of `UTIL_KeySliceToStr`, from the last byte on. -/
def toStrLoop (len : Int) : Nat → UInt64 → Key → Key
  | 0, _, res => res
  | i + 1, keySlice, res =>
    toStrLoop len i (keySlice >>> 8) (if (i : Int) < len then res.set i keySlice.toUInt8 else res)

def UTIL_KeySliceToStr (keySlice : UInt64) (len : Int) : Option Key :=
  if 0 ≤ len ∧ len ≤ keysliceLength then
    some (toStrLoop len keysliceLength keySlice (List.replicate len.toNat 0))
  else none

/-- A string in slices, each with the bytes that are left, nine when it is not the last. -/
def decompose (str : Key) : Option (List (UInt64 × Nat)) := do
  let keySlice ← UTIL_GetNextKeySlice str (min keysliceLength str.length)
  if _more : keysliceLength < str.length then
    let rest ← decompose (str.drop keysliceLength)
    return (keySlice, min (keysliceLength + 1) str.length) :: rest
  else return [(keySlice, min (keysliceLength + 1) str.length)]
termination_by str.length
decreasing_by exact length_getSuffix_lt _more

def compareSlices : List (UInt64 × Nat) → List (UInt64 × Nat) → Ordering
  | [], [] => .eq
  | [], _ :: _ => .lt
  | _ :: _, [] => .gt
  | (slice, left) :: rest, (slice', left') :: rest' =>
    if slice < slice' then .lt
    else if slice' < slice then .gt
    else if left < left' then .lt
    else if left' < left then .gt
    else compareSlices rest rest'

/-! ### The slice of `index_string.c` -/

theorem extendChar_mask (ch : UInt8) : extendChar ch &&& mask = ch.toUInt64 &&& mask := by
  have all : ∀ i : Fin 256, extendChar (UInt8.ofFin i) &&& mask = (UInt8.ofFin i).toUInt64 &&& mask := by
    decide +kernel
  exact all ch.toFin

theorem padLoop_eq (n : Nat) (res : UInt64) : padLoop n res = IndexString.nextKeySliceLoop n [] res := by
  induction n generalizing res with
  | zero => rfl
  | succ n ih => exact ih (res <<< 8)

theorem takeLoop_eq {str : Key} {len n : Nat} (inside : len ≤ n)
    (enough : len ≤ str.length) (last : len = n ∨ str.length = len) (res : UInt64) :
    (takeLoop len str res).map (padLoop (n - len)) = some (IndexString.nextKeySliceLoop n str res) := by
  induction len generalizing str n res with
  | zero =>
    rw [takeLoop, Option.map_some, padLoop_eq, Nat.sub_zero]
    rcases last with rfl | nothing
    · rfl
    · rw [List.length_eq_zero_iff.mp nothing]
  | succ len ih =>
    obtain ⟨ch, str, rfl⟩ := List.exists_cons_of_length_pos (Nat.lt_of_lt_of_le len.succ_pos enough)
    obtain ⟨n, rfl⟩ : ∃ n', n = n' + 1 := ⟨n - 1, by omega⟩
    rw [List.length_cons] at enough last
    rw [takeLoop, IndexString.nextKeySliceLoop, Nat.add_sub_add_right, extendChar_mask]
    exact ih (by omega) (by omega) (by omega) _

theorem getNextKeySlice_eq (str : Key) : UTIL_GetNextKeySlice str (min keysliceLength str.length) =
    some (IndexString.UTIL_GetNextKeySlice str) := by
  rw [UTIL_GetNextKeySlice, if_pos (Nat.min_le_left _ _), IndexString.UTIL_GetNextKeySlice]
  exact takeLoop_eq (Nat.min_le_left _ _) (Nat.min_le_right _ _) (by omega) 0

theorem decompose_eq (str : Key) : decompose str =
    if keysliceLength < str.length then
      (decompose (getSuffix str)).map
        ((IndexString.UTIL_GetNextKeySlice str, min (keysliceLength + 1) str.length) :: ·)
    else some [(IndexString.UTIL_GetNextKeySlice str, min (keysliceLength + 1) str.length)] := by
  rw [decompose, getNextKeySlice_eq]
  split
  · cases h : decompose (str.drop keysliceLength) <;> simp [getSuffix, h]
  · rfl

theorem decompose_cons {str : Key} {slices : List (UInt64 × Nat)} (h : decompose str = some slices) :
    ∃ rest, slices =
        (IndexString.UTIL_GetNextKeySlice str, min (keysliceLength + 1) str.length) :: rest ∧
      (str.length ≤ keysliceLength ∧ rest = [] ∨
        keysliceLength < str.length ∧ decompose (getSuffix str) = some rest) := by
  rw [decompose_eq] at h
  split at h
  · rename_i more
    obtain ⟨rest, below, rfl⟩ := Option.map_eq_some_iff.mp h
    exact ⟨rest, rfl, Or.inr ⟨more, below⟩⟩
  · cases h
    exact ⟨[], rfl, Or.inl ⟨by omega, rfl⟩⟩

/-- Every string has a decomposition. -/
theorem decompose_some (str : Key) : ∃ slices, decompose str = some slices := by
  induction hn : str.length using Nat.strongRecOn generalizing str with
  | ind n ih =>
    rw [decompose_eq]
    split
    · rename_i more
      obtain ⟨rest, h⟩ := ih _ (hn ▸ length_getSuffix_lt more) (getSuffix str) rfl
      exact ⟨_, by rw [h]; rfl⟩
    · exact ⟨_, rfl⟩

/-! ### The order of the slices -/

theorem getNextKeySlice_lt (a b : Key) : IndexString.UTIL_GetNextKeySlice a <
    IndexString.UTIL_GetNextKeySlice b ↔ getKeyslice a < getKeyslice b := by
  rw [← IndexString.getNextKeySlice_eq, ← IndexString.getNextKeySlice_eq, Int.ofNat_lt,
    UInt64.lt_iff_toNat_lt]

/-- What a comparison of two strings says. -/
def Compares (a b : Key) : Ordering → Prop
  | .lt => a < b
  | .eq => a = b
  | .gt => b < a

theorem Compares.iff {a b : Key} {o : Ordering} (h : Compares a b o) :
    (o = .lt ↔ a < b) ∧ (o = .eq ↔ a = b) ∧ (o = .gt ↔ b < a) := by
  cases o with
  | lt =>
    have less : a < b := h
    have differ : a ≠ b := fun same => List.lt_irrefl _ (same ▸ less)
    have back : ¬ b < a := List.lt_asymm less
    simp [less, differ, back]
  | eq =>
    have same : a = b := h
    simp [same]
  | gt =>
    have less : b < a := h
    have differ : a ≠ b := fun same => List.lt_irrefl _ (same ▸ less)
    have back : ¬ a < b := List.lt_asymm less
    simp [less, differ, back]

/-- On equal slices the number of bytes that are left decides. -/
theorem lt_of_left {a b : Key} (same : getKeyslice a = getKeyslice b)
    (less : min (keysliceLength + 1) a.length < min (keysliceLength + 1) b.length) : a < b :=
  lt_of_short same (by omega) (by omega)

theorem compareSlices_spec {a b : Key} {slices slices' : List (UInt64 × Nat)}
    (ha : decompose a = some slices) (hb : decompose b = some slices') :
    Compares a b (compareSlices slices slices') := by
  induction hn : a.length using Nat.strongRecOn generalizing a b slices slices' with
  | ind n ih =>
    obtain ⟨rest, rfl, hrest⟩ := decompose_cons ha
    obtain ⟨rest', rfl, hrest'⟩ := decompose_cons hb
    simp only [compareSlices, getNextKeySlice_lt]
    split
    · exact lt_of_getKeyslice ‹_›
    split
    · exact lt_of_getKeyslice ‹_›
    have same : getKeyslice a = getKeyslice b := by omega
    split
    · exact lt_of_left same ‹_›
    split
    · exact lt_of_left same.symm ‹_›
    have left : min (keysliceLength + 1) a.length = min (keysliceLength + 1) b.length := by omega
    rcases hrest with ⟨short, rfl⟩ | ⟨long, below⟩
    · rcases hrest' with ⟨short', rfl⟩ | ⟨long', below'⟩
      · exact getKeyslice_short same (by omega) short
      · omega
    · rcases hrest' with ⟨short', rfl⟩ | ⟨long', below'⟩
      · omega
      · have rest_spec := ih _ (hn ▸ length_getSuffix_lt long) below below' rfl
        cases hc : compareSlices rest rest' with
        | lt =>
          rw [hc] at rest_spec
          exact lt_of_getSuffix same long long' rest_spec
        | eq =>
          rw [hc] at rest_spec
          exact getKeyslice_long same long long' rest_spec
        | gt =>
          rw [hc] at rest_spec
          exact lt_of_getSuffix same.symm long' long rest_spec

/-! ### Back to the string -/

/-- Byte `n` and those before it are written, the last one first. -/
theorem toStrLoop_eq {len : Nat} (n : Nat) (keySlice : UInt64) {res : Key} (hres : res.length = len) :
    toStrLoop len n keySlice res =
      (reconstructKeysliceAux keySlice.toNat n).take len ++ res.drop n := by
  induction n generalizing keySlice res with
  | zero => simp [toStrLoop, reconstructKeysliceAux]
  | succ n ih =>
    have shifted : ((keySlice >>> 8).toNat : Int) = (keySlice.toNat : Int) / 256 := by
      rw [UInt64.toNat_shiftRight, Nat.shiftRight_eq_div_pow]
      rfl
    have byte : UInt8.ofNat ((keySlice.toNat : Int) % 256).toNat = keySlice.toUInt8 := by
      apply UInt8.toNat_inj.mp
      rw [UInt8.toNat_ofNat', UInt64.toNat_toUInt8]
      omega
    have length := length_reconstruct ((keySlice.toNat : Int) / 256) n
    rw [toStrLoop, reconstructKeysliceAux, byte]
    split
    · rename_i inside
      have room : n < res.length := by omega
      have rest : (res.set n keySlice.toUInt8).drop n = keySlice.toUInt8 :: res.drop (n + 1) := by
        rw [List.drop_eq_getElem_cons (by rwa [List.length_set]), List.getElem_set_self,
          List.drop_set_of_lt (Nat.lt_succ_self n)]
      rw [ih _ (by rw [List.length_set, hres]), shifted, rest, List.take_of_length_le (by omega),
        List.take_of_length_le (by rw [List.length_append, List.length_singleton]; omega),
        List.append_assoc, List.singleton_append]
    · rw [ih _ hres, shifted, List.drop_of_length_le (by omega), List.drop_of_length_le (by omega),
        List.take_append_of_le_length (by omega)]

theorem keySliceToStr_eq (str : Key) :
    UTIL_KeySliceToStr (IndexString.UTIL_GetNextKeySlice str) (min keysliceLength str.length : Nat) =
      some (str.take keysliceLength) := by
  have inside := Nat.min_le_left keysliceLength str.length
  have nothing : (List.replicate (min keysliceLength str.length) (0 : UInt8)).length ≤ keysliceLength :=
    List.length_replicate.trans_le inside
  rw [UTIL_KeySliceToStr, if_pos (by omega), Int.toNat_natCast, toStrLoop_eq _ _ List.length_replicate,
    IndexString.getNextKeySlice_eq, List.drop_of_length_le nothing, List.append_nil]
  exact congrArg some ((spell_getKeyslice inside (Nat.min_le_right _ _)).trans
    List.take_eq_take_min.symm)

/-- The bytes of the slices, one after the other. -/
def recompose (slices : List (UInt64 × Nat)) : Option Key :=
  (slices.mapM fun e => UTIL_KeySliceToStr e.1 (min keysliceLength e.2 : Nat)).map List.flatten

theorem recompose_cons (e : UInt64 × Nat) (rest : List (UInt64 × Nat)) :
    recompose (e :: rest) = (UTIL_KeySliceToStr e.1 (min keysliceLength e.2 : Nat)).bind fun front =>
      (recompose rest).map (front ++ ·) := by
  unfold recompose
  rw [List.mapM_cons]
  cases UTIL_KeySliceToStr e.1 (min keysliceLength e.2 : Nat) with
  | none => rfl
  | some front =>
    cases rest.mapM fun e => UTIL_KeySliceToStr e.1 (min keysliceLength e.2 : Nat) <;> rfl

theorem recompose_spec {str : Key} {slices : List (UInt64 × Nat)} (h : decompose str = some slices) :
    recompose slices = some str := by
  induction hn : str.length using Nat.strongRecOn generalizing str slices with
  | ind n ih =>
    obtain ⟨rest, rfl, hrest⟩ := decompose_cons h
    have left : min keysliceLength (min (keysliceLength + 1) str.length) =
        min keysliceLength str.length := by omega
    have first := keySliceToStr_eq str
    rw [← left] at first
    rcases hrest with ⟨short, rfl⟩ | ⟨long, below⟩
    · rw [recompose_cons, first, Option.bind_some, List.take_of_length_le short]
      exact congrArg some (List.append_nil str)
    · rw [recompose_cons, first, Option.bind_some, ih _ (hn ▸ length_getSuffix_lt long) below rfl]
      exact congrArg some (List.take_append_drop _ _)

/-- The slices of two strings compare as the strings do, and each string comes back from its own. -/
theorem slices_embed (a b : Key) : ∃ slices slices', decompose a = some slices ∧
    decompose b = some slices' ∧
    (compareSlices slices slices' = .lt ↔ a < b) ∧ (compareSlices slices slices' = .eq ↔ a = b) ∧
    (compareSlices slices slices' = .gt ↔ b < a) ∧ (a ≠ b → slices ≠ slices') ∧
    recompose slices = some a ∧
    UTIL_GetNextKeySlice a (min keysliceLength a.length) = some (IndexString.UTIL_GetNextKeySlice a) := by
  obtain ⟨slices, ha⟩ := decompose_some a
  obtain ⟨slices', hb⟩ := decompose_some b
  obtain ⟨less, equal, greater⟩ := (compareSlices_spec ha hb).iff
  refine ⟨slices, slices', ha, hb, less, equal, greater, ?_, recompose_spec ha, getNextKeySlice_eq a⟩
  intro differ same
  have back := recompose_spec ha
  rw [same, recompose_spec hb] at back
  exact differ (Option.some.inj back).symm

end DeepDB.Util
