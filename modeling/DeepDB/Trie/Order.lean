import DeepDB.Trie.Keyslice
import Mathlib.Data.List.Lex
import Mathlib.Order.Defs.LinearOrder
import Mathlib.Order.Lattice

/-!
The order of the bytes. Taking a key apart into its slice and what comes after it keeps the order:
smaller slices belong to smaller keys, a key that ends in the slice comes before the longer ones,
and two keys that go on after the slice are in the order of their suffixes.
-/

namespace DeepDB.Trie

instance instLinearOrderByte : LinearOrder UInt8 where
  le_refl a := UInt8.le_refl a
  le_trans a b c := UInt8.le_trans
  lt_iff_le_not_ge a b := by
    rw [UInt8.lt_iff_toNat_lt, UInt8.le_iff_toNat_le, UInt8.le_iff_toNat_le]
    omega
  le_antisymm a b := UInt8.le_antisymm
  le_total a b := UInt8.le_total a b
  toDecidableLE := inferInstance
  toDecidableEq := inferInstance
  toDecidableLT := inferInstance

/-! ### Smaller slices -/

/-- The bytes taken first decide. -/
theorem getKeysliceAux_mono {key key' : Key} {n : Nat} {r r' : Int} (less : r < r') :
    getKeysliceAux key n r < getKeysliceAux key' n r' := by
  induction n generalizing key key' r r' with
  | zero => simpa [getKeysliceAux] using less
  | succ n ih =>
    cases key with
    | nil =>
      cases key' with
      | nil => exact ih (by omega)
      | cons ch' key' => exact ih (by omega)
    | cons ch key =>
      have bound := ch.toNat_lt
      cases key' with
      | nil => exact ih (by omega)
      | cons ch' key' => exact ih (by omega)

theorem lt_of_getKeysliceAux {key key' : Key} {n : Nat} {r : Int}
    (less : getKeysliceAux key n r < getKeysliceAux key' n r) : key < key' := by
  induction n generalizing key key' r with
  | zero => exact absurd less (Int.lt_irrefl _)
  | succ n ih =>
    cases key with
    | nil =>
      cases key' with
      | nil => exact ih less
      | cons ch' key' => exact List.nil_lt_cons ch' key'
    | cons ch key =>
      rw [getKeysliceAux] at less
      cases key' with
      | nil =>
        rcases Nat.eq_zero_or_pos ch.toNat with zero | positive
        · rw [zero, Int.natCast_zero, Int.add_zero] at less
          exact absurd (ih less) (List.not_lt_nil key)
        · have more : getKeysliceAux [] n (r * 256) < getKeysliceAux key n (r * 256 + ch.toNat) :=
            getKeysliceAux_mono (by omega)
          exact absurd (less.trans more) (Int.lt_irrefl _)
      | cons ch' key' =>
        rw [getKeysliceAux] at less
        rw [List.cons_lt_cons_iff]
        rcases Nat.lt_trichotomy ch.toNat ch'.toNat with smaller | same | larger
        · exact Or.inl (UInt8.lt_iff_toNat_lt.mpr smaller)
        · rw [same] at less
          exact Or.inr ⟨UInt8.toNat_inj.mp same, ih less⟩
        · have more : getKeysliceAux key' n (r * 256 + ch'.toNat) <
              getKeysliceAux key n (r * 256 + ch.toNat) := getKeysliceAux_mono (by omega)
          exact absurd (less.trans more) (Int.lt_irrefl _)

theorem lt_of_getKeyslice {key key' : Key} (less : getKeyslice key < getKeyslice key') : key < key' :=
  lt_of_getKeysliceAux less

/-! ### The bytes of a slice -/

/-- The first bytes that a slice spells. -/
def spell (slice : Int) (len : Nat) : Key := (reconstructKeysliceAux slice keysliceLength).take len

theorem length_reconstruct (slice : Int) (n : Nat) : (reconstructKeysliceAux slice n).length = n := by
  induction n generalizing slice with
  | zero => rfl
  | succ n ih => rw [reconstructKeysliceAux, List.length_append, ih, List.length_singleton]

theorem length_spell (slice : Int) {len : Nat} (inside : len ≤ keysliceLength) :
    (spell slice len).length = len := by
  rw [spell, List.length_take, length_reconstruct, Nat.min_eq_left inside]

/-- A slice gets its last byte last. -/
theorem getKeysliceAux_succ (key : Key) (n : Nat) (r : Int) :
    getKeysliceAux key (n + 1) r = getKeysliceAux key n r * 256 + (key.getD n 0).toNat := by
  induction n generalizing key r with
  | zero =>
    cases key with
    | nil => simp [getKeysliceAux]
    | cons ch key => simp [getKeysliceAux]
  | succ n ih =>
    cases key with
    | nil =>
      have step := ih [] (r * 256)
      simpa [getKeysliceAux] using step
    | cons ch key =>
      have step := ih key (r * 256 + ch.toNat)
      simpa [getKeysliceAux] using step

theorem reconstruct_getKeysliceAux {key : Key} {n : Nat} {r : Int} :
    (reconstructKeysliceAux (getKeysliceAux key n r) n).take key.length = key.take n := by
  induction n with
  | zero => rw [reconstructKeysliceAux, List.take_nil, List.take_zero]
  | succ n ih =>
    have bound := (key.getD n 0).toNat_lt
    have front : getKeysliceAux key (n + 1) r / 256 = getKeysliceAux key n r := by
      rw [getKeysliceAux_succ]
      omega
    have last : getKeysliceAux key (n + 1) r % 256 = (key.getD n 0).toNat := by
      rw [getKeysliceAux_succ]
      omega
    have length := length_reconstruct (getKeysliceAux key n r) n
    rw [reconstructKeysliceAux, front, last, Int.toNat_natCast, UInt8.ofNat_toNat]
    rcases Nat.lt_or_ge n key.length with inside | outside
    · rw [List.take_of_length_le (by rw [List.length_append, length, List.length_singleton]; omega),
        List.take_succ_eq_append_getElem inside, ← ih, List.take_of_length_le (by omega),
        List.getD_eq_getElem?_getD, List.getElem?_eq_getElem inside, Option.getD_some]
    · rw [List.take_append_of_le_length (by omega), ih, List.take_of_length_le outside,
        List.take_of_length_le (by omega)]

/-- The slice of a key spells the bytes of the key. -/
theorem spell_getKeyslice {key : Key} {len : Nat} (inside : len ≤ keysliceLength)
    (enough : len ≤ key.length) : spell (getKeyslice key) len = key.take len := by
  have bytes : (reconstructKeysliceAux (getKeyslice key) keysliceLength).take key.length =
      key.take keysliceLength := reconstruct_getKeysliceAux
  have taken := congrArg (List.take len) bytes
  rwa [List.take_take, List.take_take, Nat.min_eq_left enough, Nat.min_eq_left inside] at taken

theorem spell_append_getSuffix {key : Key} (long : keysliceLength < key.length) :
    spell (getKeyslice key) keysliceLength ++ getSuffix key = key := by
  rw [spell_getKeyslice (Nat.le_refl _) long.le]
  exact List.take_append_drop _ _

theorem lt_append (key : Key) {rest : Key} (more : rest ≠ []) : key < key ++ rest := by
  obtain ⟨ch, rest, rfl⟩ := List.exists_cons_of_ne_nil more
  have less : List.Lex (· < ·) (key ++ []) (key ++ ch :: rest) :=
    List.Lex.append_left _ List.Lex.nil key
  rw [List.append_nil] at less
  exact less

theorem spell_lt (slice : Int) {len len' : Nat} (less : len < len') (inside : len' ≤ keysliceLength) :
    spell slice len < spell slice len' := by
  have front : (spell slice len').take len = spell slice len := by
    rw [spell, spell, List.take_take, Nat.min_eq_left less.le]
  have more : (spell slice len').drop len ≠ [] := by
    rw [← List.length_pos_iff, List.length_drop, length_spell slice inside]
    omega
  have longer := lt_append (spell slice len) more
  nth_rewrite 2 [← front] at longer
  rwa [List.take_append_drop] at longer

/-! ### The same slice -/

section
variable {key key' : Key} (same : getKeyslice key = getKeyslice key')
include same

theorem lt_of_short (short : key.length ≤ keysliceLength) (longer : key.length < key'.length) :
    key < key' := by
  have front : key = key'.take key.length := by
    have first : spell (getKeyslice key) key.length = key.take key.length :=
      spell_getKeyslice short (Nat.le_refl _)
    rw [same, spell_getKeyslice short longer.le, List.take_of_length_le (Nat.le_refl _)] at first
    exact first.symm
  have more : key'.drop key.length ≠ [] :=
    List.drop_eq_nil_iff.not.mpr (Nat.not_le.mpr longer)
  have less := lt_append key more
  nth_rewrite 2 [front] at less
  rwa [List.take_append_drop] at less

theorem lt_of_getSuffix (long : keysliceLength < key.length) (long' : keysliceLength < key'.length)
    (less : getSuffix key < getSuffix key') : key < key' := by
  have front := List.Lex.append_left (· < ·) less (spell (getKeyslice key) keysliceLength)
  rw [spell_append_getSuffix long, same, spell_append_getSuffix long'] at front
  exact front

end

end DeepDB.Trie
