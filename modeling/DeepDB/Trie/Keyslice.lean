import Mathlib.Data.Int.Order.Basic
import Mathlib.Data.List.Basic
import Mathlib.Algebra.Order.Ring.Int

/-!
Keys and their slices, `functional/keyslice.v`. A slice is the number that the next eight bytes of
a key spell, with zeros for the bytes a short key does not have, so a slice and the number of bytes
taken determine the bytes.
-/

namespace DeepDB.Trie

abbrev Key := List UInt8

/-- The bytes of a word on a machine with 64 bit pointers. -/
def keysliceLength : Nat := 8

def getKeysliceAux : Key → Nat → Int → Int
  | _, 0, result => result
  | [], n + 1, result => getKeysliceAux [] n (result * 256)
  | ch :: key, n + 1, result => getKeysliceAux key n (result * 256 + ch.toNat)

def getKeyslice (key : Key) : Int := getKeysliceAux key keysliceLength 0

def getSuffix (key : Key) : Key := key.drop keysliceLength

def getKeysliceWithLen (key : Key) : Int × Nat := (getKeyslice key, min keysliceLength key.length)

def reconstructKeysliceAux (slice : Int) : Nat → Key
  | 0 => []
  | len + 1 => reconstructKeysliceAux (slice / 256) len ++ [UInt8.ofNat (slice % 256).toNat]

/-- The source shifts by the number of missing bytes and then multiplies by the bits of a byte. -/
def reconstructKeyslice (slice : Int) (len : Nat) : Key :=
  reconstructKeysliceAux ((slice >>> (keysliceLength - len)) * 8) len

/-! ### Slices determine bytes -/

theorem getKeysliceAux_inj {key key' : Key} {n : Nat} {r r' : Int}
    (same : getKeysliceAux key n r = getKeysliceAux key' n r') :
    r = r' ∧ (min n key.length = min n key'.length → key.take n = key'.take n) := by
  induction n generalizing key key' r r' with
  | zero => exact ⟨by simpa [getKeysliceAux] using same, fun _ => rfl⟩
  | succ n ih =>
    cases key with
    | nil =>
      cases key' with
      | nil =>
        obtain ⟨hr, -⟩ := ih same
        exact ⟨by omega, fun _ => rfl⟩
      | cons ch' key' =>
        obtain ⟨hr, -⟩ := ih same
        have bound := ch'.toNat_lt
        refine ⟨by omega, fun lengths => ?_⟩
        simp at lengths
    | cons ch key =>
      cases key' with
      | nil =>
        obtain ⟨hr, -⟩ := ih same
        have bound := ch.toNat_lt
        refine ⟨by omega, fun lengths => ?_⟩
        simp at lengths
      | cons ch' key' =>
        obtain ⟨hr, tail⟩ := ih same
        have bound := ch.toNat_lt
        have bound' := ch'.toNat_lt
        have bytes : ch = ch' := UInt8.toNat_inj.mp (by omega)
        refine ⟨by omega, fun lengths => ?_⟩
        simp only [List.length_cons] at lengths
        rw [List.take_succ_cons, List.take_succ_cons, bytes, tail (by omega)]

/-- Two keys that end in the slice they share, at the same place. -/
theorem getKeyslice_short {key key' : Key} (same : getKeyslice key = getKeyslice key')
    (lengths : key.length = key'.length) (short : key.length ≤ keysliceLength) : key = key' := by
  have taken := (getKeysliceAux_inj same).2 (by rw [lengths])
  rwa [List.take_of_length_le short, List.take_of_length_le (lengths ▸ short)] at taken

/-- Two keys that share their first slice and what comes after it. -/
theorem getKeyslice_long {key key' : Key} (same : getKeyslice key = getKeyslice key')
    (long : keysliceLength < key.length) (long' : keysliceLength < key'.length)
    (suffix : getSuffix key = getSuffix key') : key = key' := by
  have taken := (getKeysliceAux_inj same).2 (by omega)
  calc key = key.take keysliceLength ++ getSuffix key := (List.take_append_drop _ _).symm
    _ = key'.take keysliceLength ++ getSuffix key' := by rw [taken, suffix]
    _ = key' := List.take_append_drop _ _

theorem getSuffix_ne_nil {key : Key} (long : keysliceLength < key.length) : getSuffix key ≠ [] := by
  unfold getSuffix
  intro empty
  have := congrArg List.length empty
  simp at this
  omega

theorem length_getSuffix_lt {key : Key} (long : keysliceLength < key.length) :
    (getSuffix key).length < key.length := by
  unfold getSuffix keysliceLength at *
  rw [List.length_drop]
  omega

theorem getKeysliceAux_range {key : Key} {n : Nat} {r m : Int} (low : 0 ≤ r) (high : r < m) :
    0 ≤ getKeysliceAux key n r ∧ getKeysliceAux key n r < m * 256 ^ n := by
  induction n generalizing key r m with
  | zero => simpa [getKeysliceAux] using ⟨low, high⟩
  | succ n ih =>
    rw [Int.pow_succ, Int.mul_comm (256 ^ n), ← Int.mul_assoc]
    cases key with
    | nil => exact ih (by omega) (by omega)
    | cons ch key =>
      have bound := ch.toNat_lt
      exact ih (by omega) (by omega)

/-- A slice is a word. -/
theorem getKeyslice_range (key : Key) : 0 ≤ getKeyslice key ∧ getKeyslice key ≤ 2 ^ 64 - 1 := by
  have range : 0 ≤ getKeysliceAux key keysliceLength 0 ∧
      getKeysliceAux key keysliceLength 0 < 1 * 256 ^ keysliceLength :=
    getKeysliceAux_range le_rfl Int.zero_lt_one
  have words : (1 : Int) * 256 ^ keysliceLength = 2 ^ 64 := by decide
  rw [words] at range
  exact ⟨range.1, Int.le_sub_one_of_lt range.2⟩

end DeepDB.Trie
