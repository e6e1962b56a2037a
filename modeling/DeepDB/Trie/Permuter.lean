import Mathlib.Algebra.Order.Ring.Int
import Mathlib.Algebra.Order.GroupWithZero.Unbundled.Basic
import Mathlib.Data.List.Nodup

/-!
The permuter of `permuter.c`: a word of sixteen fields of four bits, the first of them the number of
elements. A `long` has 64 bits and an `int` has 32, and the masks are shifted as an `int`, where a
shift out of the `int` has no value.
-/

namespace DeepDB.Trie.Permuter

/-! ### The functions -/

/-- `x << n` for an `int`. -/
def shiftLeft (x : BitVec 32) (n : Int) : Option (BitVec 32) :=
  if 0 ≤ n ∧ n < 32 ∧ 0 ≤ x.toInt ∧ x.toInt * 2 ^ n.toNat < 2 ^ 31 then some (x <<< n.toNat)
  else none

/-- `x >> n` for a `long`. -/
def shiftRight (x : BitVec 64) (n : Int) : Option (BitVec 64) :=
  if 0 ≤ n ∧ n < 64 then some (x.sshiftRight n.toNat) else none

def Permuter_size (permutation : BitVec 64) : BitVec 32 := (permutation &&& 15#64).setWidth 32

def Permuter_setSize (permutation : BitVec 64) (size : BitVec 32) : BitVec 64 :=
  (permutation &&& (~~~15#32).signExtend 64) ||| (size &&& 15#32).signExtend 64

def Permuter_get (permutation : BitVec 64) (i : Int) : Option (BitVec 32) := do
  let shifted ← shiftRight permutation (i * 4 + 4)
  return (shifted &&& 15#64).setWidth 32

def Permuter_set (permutation : BitVec 64) (i : Int) (val : BitVec 32) : Option (BitVec 64) := do
  let ones ← shiftLeft 15#32 (i * 4 + 4)
  let bits ← shiftLeft (val &&& 15#32) (i * 4 + 4)
  return (permutation &&& (~~~ones).signExtend 64) ||| bits.signExtend 64

def Permuter_sets : BitVec 64 → List (Int × BitVec 32) → Option (BitVec 64)
  | permutation, [] => some permutation
  | permutation, (i, val) :: sets => do
    let permutation ← Permuter_set permutation i val
    Permuter_sets permutation sets

def IsSlot (i : Int) : Prop := 0 ≤ i ∧ i ≤ 14

instance (i : Int) : Decidable (IsSlot i) := inferInstanceAs (Decidable (_ ∧ _))

/-! ### The bits of a field -/

theorem bit_fifteen {w : Nat} (wide : 4 ≤ w) (b : Nat) :
    (BitVec.ofNat w 15).getLsbD b = decide (b < 4) := by
  have ones := Nat.testBit_two_pow_sub_one 4 b
  rw [BitVec.getLsbD_ofNat, show (15 : Nat) = 2 ^ 4 - 1 from rfl, ones]
  by_cases low : b < 4
  · simp [low, show b < w by omega]
  · simp [low]

theorem bit_size (p : BitVec 64) (b : Nat) :
    (Permuter_size p).getLsbD b = (decide (b < 4) && p.getLsbD b) := by
  unfold Permuter_size
  rw [BitVec.getLsbD_setWidth, BitVec.getLsbD_and, bit_fifteen (by decide)]
  by_cases low : b < 4
  · simp [low, show b < 32 by omega]
  · simp [low]

/-- The field of a slot. -/
theorem get_slot {i : Int} (slot : IsSlot i) (p : BitVec 64) :
    ∃ x, Permuter_get p i = some x ∧
      ∀ b, x.getLsbD b = (decide (b < 4) && p.getLsbD ((i * 4 + 4).toNat + b)) := by
  obtain ⟨low, high⟩ := slot
  refine ⟨_, by rw [Permuter_get, shiftRight, if_pos (by omega)]; rfl, fun b => ?_⟩
  rw [BitVec.getLsbD_setWidth, BitVec.getLsbD_and, bit_fifteen (by decide),
    BitVec.getLsbD_sshiftRight]
  by_cases inside : b < 4
  · simp [inside, show b < 32 by omega, show (i * 4 + 4).toNat + b < 64 by omega,
      show ¬64 ≤ b by omega]
  · simp [inside]

/-- The low bits of an `int`. -/
theorem bit_low (val : BitVec 32) (b : Nat) :
    (val &&& 15#32).getLsbD b = (decide (b < 4) && val.getLsbD b) := by
  rw [BitVec.getLsbD_and, bit_fifteen (by decide), Bool.and_comm]

/-- A value of four bits has no others. -/
theorem bit_of_four {val : BitVec 32} (four : val < 16#32) {b : Nat} (high : 4 ≤ b) :
    val.getLsbD b = false :=
  Nat.testBit_lt_two_pow (Nat.lt_of_lt_of_le (BitVec.lt_def.mp four)
    (Nat.pow_le_pow_right Nat.two_pos high))

theorem low_toInt (val : BitVec 32) : 0 ≤ (val &&& 15#32).toInt ∧ (val &&& 15#32).toInt ≤ 15 := by
  have small : (val &&& 15#32).toNat ≤ 15 := by
    rw [BitVec.toNat_and]
    exact Nat.and_le_right
  rw [BitVec.toInt_eq_toNat_of_lt (by omega)]
  omega

/-- The fields whose mask fits an `int`. -/
theorem shiftLeft_some {x : BitVec 32} {i : Int} (low : 0 ≤ i) (high : i ≤ 5) (pos : 0 ≤ x.toInt)
    (small : x.toInt ≤ 15) : shiftLeft x (i * 4 + 4) = some (x <<< (i * 4 + 4).toNat) := by
  have power : (2 : Int) ^ (i * 4 + 4).toNat ≤ 2 ^ 24 :=
    pow_le_pow_right₀ (by decide) (by omega)
  have fits : x.toInt * 2 ^ (i * 4 + 4).toNat ≤ 15 * 2 ^ 24 :=
    Int.mul_le_mul small power (Int.pow_nonneg (by decide)) (by decide)
  exact if_pos ⟨by omega, by omega, pos, Int.lt_of_le_of_lt fits (by decide)⟩

/-- The mask of a higher field does not. -/
theorem shiftLeft_none {i : Int} (high : 5 < i) : shiftLeft 15#32 (i * 4 + 4) = none := by
  refine if_neg fun ⟨_, _, _, fits⟩ => ?_
  have power : (2 : Int) ^ 28 ≤ 2 ^ (i * 4 + 4).toNat :=
    pow_le_pow_right₀ (by decide) (by omega)
  rw [show (15#32).toInt = 15 from rfl] at fits
  omega

theorem bit_shiftLeft {x : BitVec 32} {n : Nat} (inside : n ≤ 24)
    (four : ∀ b, x.getLsbD b = true → b < 4) (b : Nat) :
    (x <<< n).getLsbD b = (decide (n ≤ b) && x.getLsbD (b - n)) := by
  rw [BitVec.getLsbD_shiftLeft]
  by_cases above : n ≤ b
  · by_cases bit : x.getLsbD (b - n)
    · have := four _ bit
      simp [above, bit, show b < 32 by omega]
    · simp [bit]
  · simp [above, show b < n by omega]

/-- A set changes the bits of its field. -/
theorem set_bits {i : Int} (low : 0 ≤ i) (high : i ≤ 5) (p : BitVec 64) (val : BitVec 32) :
    ∃ q, Permuter_set p i val = some q ∧ ∀ b, q.getLsbD b =
      if (i * 4 + 4).toNat ≤ b ∧ b < (i * 4 + 4).toNat + 4 then val.getLsbD (b - (i * 4 + 4).toNat)
      else p.getLsbD b := by
  have ones := shiftLeft_some (x := 15#32) low high (by decide) (by decide)
  have bits := shiftLeft_some (x := val &&& 15#32) low high (low_toInt val).1 (low_toInt val).2
  refine ⟨_, by rw [Permuter_set, ones, bits]; rfl, fun b => ?_⟩
  have inside : (i * 4 + 4).toNat ≤ 24 := by omega
  generalize (i * 4 + 4).toNat = n at inside ⊢
  have mask := bit_shiftLeft (x := 15#32) inside fun b hb => by
    rw [bit_fifteen (by decide)] at hb
    simpa using hb
  have field := bit_shiftLeft (x := val &&& 15#32) inside fun b hb => by
    rw [bit_low, Bool.and_eq_true] at hb
    simpa using hb.1
  have top : ((15#32) <<< n).msb = false := by
    rw [BitVec.msb_eq_getLsbD_last, mask, bit_fifteen (by decide)]
    simp
    omega
  have top' : ((val &&& 15#32) <<< n).msb = false := by
    rw [BitVec.msb_eq_getLsbD_last, field, bit_low]
    simp
    omega
  rw [BitVec.getLsbD_or, BitVec.getLsbD_and, BitVec.getLsbD_signExtend, BitVec.getLsbD_signExtend,
    BitVec.getLsbD_not, BitVec.msb_not, top, top', mask, field, bit_low, bit_fifteen (by decide)]
  by_cases field : n ≤ b ∧ b < n + 4
  · obtain ⟨above, below⟩ := field
    simp [above, below, show b - n < 4 by omega, show b < 64 by omega, show b < 32 by omega]
  · have outside : (decide (n ≤ b) && decide (b - n < 4)) = false := by
      by_contra inside
      simp only [Bool.not_eq_false, Bool.and_eq_true, decide_eq_true_eq] at inside
      omega
    rw [if_neg field, ← Bool.and_assoc (decide (n ≤ b)), outside]
    rcases Nat.lt_or_ge b 64 with low | high
    · by_cases half : b < 32
      · simp [low, half]
      · simp [low, half]
    · simp [BitVec.getLsbD_of_ge p b high]

/-! ### An array of slots -/

section

variable {i : Int} (low : 0 ≤ i) (high : i ≤ 5) {p q : BitVec 64} {val : BitVec 32}
  (set : Permuter_set p i val = some q)
include low high set

theorem set_size : Permuter_size q = Permuter_size p := by
  obtain ⟨q', same, bits⟩ := set_bits low high p val
  obtain rfl := Option.some.inj (set.symm.trans same)
  apply BitVec.eq_of_getLsbD_eq
  intro b _
  rw [bit_size, bit_size, bits]
  by_cases inside : b < 4
  · rw [if_neg (by omega)]
  · simp [inside]

theorem get_set (four : val < 16#32) : Permuter_get q i = some val := by
  obtain ⟨q', same, bits⟩ := set_bits low high p val
  obtain rfl := Option.some.inj (set.symm.trans same)
  obtain ⟨x, get, field⟩ := get_slot ⟨low, by omega⟩ q
  rw [get, Option.some.injEq]
  apply BitVec.eq_of_getLsbD_eq
  intro b _
  rw [field, bits]
  by_cases inside : b < 4
  · rw [if_pos (by omega), Nat.add_sub_cancel_left]
    simp [inside]
  · simp [inside, bit_of_four four (Nat.le_of_not_lt inside)]

theorem get_set_of_ne {j : Int} (slot : IsSlot j) (apart : j ≠ i) :
    Permuter_get q j = Permuter_get p j := by
  obtain ⟨q', same, bits⟩ := set_bits low high p val
  obtain rfl := Option.some.inj (set.symm.trans same)
  obtain ⟨x, get, field⟩ := get_slot slot q
  obtain ⟨y, get', field'⟩ := get_slot slot p
  obtain ⟨low', -⟩ := slot
  rw [get, get', Option.some.injEq]
  apply BitVec.eq_of_getLsbD_eq
  intro b _
  rw [field, field', bits]
  by_cases inside : b < 4
  · rw [if_neg (by omega)]
  · simp [inside]

end

/-- The size is a field of its own. -/
theorem bit_setSize (p : BitVec 64) (size : BitVec 32) (b : Nat) :
    (Permuter_setSize p size).getLsbD b = if b < 4 then size.getLsbD b else p.getLsbD b := by
  have top : (15#32).msb = false := rfl
  have top' : (size &&& 15#32).msb = false := by
    rw [BitVec.msb_and, top, Bool.and_false]
  unfold Permuter_setSize
  rw [BitVec.getLsbD_or, BitVec.getLsbD_and, BitVec.getLsbD_signExtend, BitVec.getLsbD_signExtend,
    BitVec.getLsbD_not, BitVec.msb_not, top, top', bit_low, bit_fifteen (by decide)]
  rcases Nat.lt_or_ge b 64 with low | high
  · by_cases first : b < 4
    · simp [first, show b < 32 by omega, show b < 64 by omega]
    · by_cases half : b < 32
      · simp [first, low, half]
      · simp [first, low, half]
  · simp [BitVec.getLsbD_of_ge p b high, show ¬b < 4 by omega, show ¬b < 64 by omega]

theorem size_setSize (p : BitVec 64) {size : BitVec 32} (four : size < 16#32) :
    Permuter_size (Permuter_setSize p size) = size := by
  apply BitVec.eq_of_getLsbD_eq
  intro b _
  rw [bit_size, bit_setSize]
  by_cases inside : b < 4
  · simp [inside]
  · simp [inside, bit_of_four four (Nat.le_of_not_lt inside)]

theorem get_setSize {i : Int} (slot : IsSlot i) (p : BitVec 64) (size : BitVec 32) :
    Permuter_get (Permuter_setSize p size) i = Permuter_get p i := by
  obtain ⟨x, get, field⟩ := get_slot slot (Permuter_setSize p size)
  obtain ⟨y, get', field'⟩ := get_slot slot p
  obtain ⟨low, -⟩ := slot
  rw [get, get', Option.some.injEq]
  apply BitVec.eq_of_getLsbD_eq
  intro b _
  rw [field, field', bit_setSize, if_neg (by omega)]

/-- The size and the slots are all there is. -/
theorem ext_slots {p q : BitVec 64} (size : Permuter_size p = Permuter_size q)
    (slots : ∀ i, IsSlot i → Permuter_get p i = Permuter_get q i) : p = q := by
  apply BitVec.eq_of_getLsbD_eq
  intro b inside
  by_cases first : b < 4
  · have bit := congrArg (fun x => x.getLsbD b) size
    simpa [bit_size, first] using bit
  · obtain ⟨i, c, four, place⟩ : ∃ i c : Nat, c < 4 ∧ b = i * 4 + 4 + c :=
      ⟨(b - 4) / 4, b % 4, by omega, by omega⟩
    have slot : IsSlot i := ⟨by omega, by omega⟩
    obtain ⟨x, get, field⟩ := get_slot slot p
    obtain ⟨y, get', field'⟩ := get_slot slot q
    have same := slots i slot
    rw [get, get', Option.some.injEq] at same
    subst same
    have bit := (field c).symm.trans (field' c)
    have at_ : ((i : Int) * 4 + 4).toNat + c = b := by omega
    simpa [at_, four] using bit

/-- The value of the last set of a slot. -/
def lastSet (i : Int) : List (Int × BitVec 32) → Option (BitVec 32)
  | [] => none
  | (j, val) :: sets => (lastSet i sets).or (if j = i then some val else none)

/-- After the sets every slot holds its last value, the others and the size what they held, and sets
of different slots may change places. -/
structure ArrayLaw (p : BitVec 64) (sets : List (Int × BitVec 32)) : Prop where
  built : ∃ q, Permuter_sets p sets = some q ∧ Permuter_size q = Permuter_size p ∧
    ∀ i, IsSlot i → Permuter_get q i = (lastSet i sets).or (Permuter_get p i)
  commute : (sets.map Prod.fst).Nodup → ∀ sets', sets'.Perm sets →
    Permuter_sets p sets' = Permuter_sets p sets

theorem sets_spec {p : BitVec 64} {sets : List (Int × BitVec 32)}
    (low : ∀ e ∈ sets, 0 ≤ e.1 ∧ e.1 ≤ 5 ∧ e.2 < 16#32) :
    ∃ q, Permuter_sets p sets = some q ∧ Permuter_size q = Permuter_size p ∧
      ∀ i, IsSlot i → Permuter_get q i = (lastSet i sets).or (Permuter_get p i) := by
  induction sets generalizing p with
  | nil => exact ⟨p, rfl, rfl, fun i _ => rfl⟩
  | cons e sets ih =>
    obtain ⟨j, val⟩ := e
    obtain ⟨nonneg, small, four⟩ := low _ List.mem_cons_self
    obtain ⟨p₁, set, -⟩ := set_bits nonneg small p val
    obtain ⟨q, run, size, reads⟩ := ih (p := p₁) fun e he => low e (List.mem_cons_of_mem _ he)
    refine ⟨q, ?_, size.trans (set_size nonneg small set), fun i slot => ?_⟩
    · rw [Permuter_sets, set]
      exact run
    · rw [reads i slot, lastSet]
      by_cases same : j = i
      · subst same
        rw [get_set nonneg small set four, if_pos rfl]
        cases lastSet j sets <;> rfl
      · rw [get_set_of_ne nonneg small set slot (Ne.symm same), if_neg same, Option.or_none]

/-- A run of sets with a value has no set above slot 5. -/
theorem sets_low {p q : BitVec 64} {sets : List (Int × BitVec 32)}
    (run : Permuter_sets p sets = some q) :
    ∀ e ∈ sets, e.1 ≤ 5 := by
  induction sets generalizing p with
  | nil =>
    intro e he
    cases he
  | cons e sets ih =>
    obtain ⟨j, val⟩ := e
    rw [Permuter_sets] at run
    obtain ⟨p₁, set, rest⟩ := Option.bind_eq_some_iff.mp run
    intro e he
    rcases List.mem_cons.mp he with rfl | he
    · by_contra above
      rw [Permuter_set, shiftLeft_none (Int.lt_of_not_ge above)] at set
      cases set
    · exact ih rest e he

theorem lastSet_eq_some {i : Int} {v : BitVec 32} {sets : List (Int × BitVec 32)}
    (nodup : (sets.map Prod.fst).Nodup) : lastSet i sets = some v ↔ (i, v) ∈ sets := by
  induction sets generalizing v with
  | nil =>
    rw [lastSet]
    exact ⟨fun no => (by cases no), fun no => (by cases no)⟩
  | cons e sets ih =>
    obtain ⟨j, val⟩ := e
    rw [List.map_cons, List.nodup_cons] at nodup
    rw [lastSet, List.mem_cons, ← ih nodup.2]
    by_cases same : j = i
    · subst same
      have fresh : lastSet j sets = none := by
        cases held : lastSet j sets with
        | none => rfl
        | some w => exact absurd (List.mem_map_of_mem ((ih nodup.2).mp held)) nodup.1
      rw [fresh, if_pos rfl, Option.none_or, Option.some.injEq]
      constructor
      · intro value
        exact Or.inl (by rw [value])
      · intro listed
        rcases listed with here | no
        · exact (Prod.mk.inj here).2.symm
        · cases no
    · rw [if_neg same, Option.or_none]
      constructor
      · exact Or.inr
      · intro listed
        rcases listed with here | later
        · exact absurd (Prod.mk.inj here).1.symm same
        · exact later

/-- The permuter is an array of slots exactly as far as its masks fit an `int`. -/
theorem arrayLaw_iff (p : BitVec 64) (sets : List (Int × BitVec 32))
    (slots : ∀ e ∈ sets, IsSlot e.1 ∧ e.2 < 16#32) : ArrayLaw p sets ↔ ∀ e ∈ sets, e.1 ≤ 5 := by
  constructor
  · intro law
    obtain ⟨q, run, -⟩ := law.built
    exact sets_low run
  · intro high
    have low : ∀ e ∈ sets, 0 ≤ e.1 ∧ e.1 ≤ 5 ∧ e.2 < 16#32 := fun e he =>
      ⟨(slots e he).1.1, high e he, (slots e he).2⟩
    refine ⟨sets_spec low, fun nodup sets' perm => ?_⟩
    obtain ⟨q, run, size, reads⟩ := sets_spec (p := p) low
    obtain ⟨q', run', size', reads'⟩ := sets_spec (p := p) fun e he => low e (perm.mem_iff.mp he)
    have nodup' : (sets'.map Prod.fst).Nodup := (perm.map Prod.fst).nodup_iff.mpr nodup
    have same : ∀ i, lastSet i sets' = lastSet i sets := fun i => by
      apply Option.ext
      intro v
      rw [lastSet_eq_some nodup', lastSet_eq_some nodup, perm.mem_iff]
    rw [run, run', Option.some.injEq]
    exact ext_slots (size'.trans size.symm) fun i slot => by rw [reads i slot, reads' i slot, same]

theorem arrayLaw_three : ArrayLaw 0x0 [(0, 2#32), (1, 0#32), (2, 1#32)] :=
  (arrayLaw_iff 0x0 _ (by decide)).mpr (by decide)

/-- The mask and the value of slot 6 are shifted into the sign of the `int`; where the shifts wrap
around, the sign of the value 9 fills all slots above. -/
theorem arrayLaw_six : Permuter_set 0x0fedcba987654321 6 9#32 = none ∧
    ¬∀ (p : BitVec 64) (sets : List (Int × BitVec 32)),
      (∀ e ∈ sets, IsSlot e.1 ∧ e.2 < 16#32) → ArrayLaw p sets := by
  have undefined : Permuter_set 0x0fedcba987654321 6 9#32 = none := rfl
  refine ⟨undefined, fun all => ?_⟩
  obtain ⟨q, run, -⟩ := (all 0x0fedcba987654321 [(6, 9#32)] (by decide)).built
  rw [Permuter_sets, undefined] at run
  cases run

end DeepDB.Trie.Permuter
