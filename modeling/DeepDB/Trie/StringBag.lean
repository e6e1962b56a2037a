import Mathlib.Order.Interval.Set.Disjoint
import Mathlib.Data.Set.Lattice
import Mathlib.Algebra.Order.Ring.Int
import Mathlib.Order.CompletePartialOrder

/-!
The string bag of `stringbag.c`. A bag has a header and a buffer in one area of memory, and the strings
lie in the buffer behind the header, at offsets that the header keeps. A string that is not longer than
the slot's old one takes its place, another one goes behind all strings. A copy into the header or out of
the area has no value, and neither has one between places that overlap.
-/

namespace DeepDB.Trie.SB

/-- The number of values of `size_t`. -/
def SIZE : Nat := 2 ^ 64

/-- Lengths are of type `int`. -/
def INT_MAX : Nat := 2 ^ 31 - 1

def NULL : Nat := 0

structure InfoType where
  pos : Nat
  len : Nat

/-- The bag at the address `mem`; a byte of the buffer is named by its offset. -/
structure StringBag where
  mem : Nat
  size : Nat
  capacity : Nat
  info : List InfoType
  strBuf : Nat → UInt8

/-! ### The functions -/

def sizeofInfoType : Nat := 16

/-- Two words and the first `InfoType`. -/
def sizeofStringBag : Nat := 32

def SB_MaxSize : Nat := SIZE - 1

def SB_Overhead (width : Int) : Option Nat :=
  if 0 < width then some ((sizeofStringBag + (width - 1).toNat * sizeofInfoType) % SIZE) else none

/-- `contents` is what the memory holds. -/
def SB_NewStringBag (mem : Nat) (contents : Nat → UInt8) (width : Int) (capacity : Nat) :
    Option StringBag := do
  let firstPos ← SB_Overhead width
  if mem ≠ NULL ∧ firstPos ≤ capacity ∧ capacity ≤ SB_MaxSize then
    return ⟨mem, firstPos, capacity, List.replicate width.toNat ⟨0, 0⟩, contents⟩
  else none

/-- The string at a position, as a pointer and an `int`. -/
def SB_Get (strBag : StringBag) (p : Nat) : Option (Nat × Int) := do
  let i ← strBag.info[p]?
  return (strBag.mem + i.pos, (BitVec.ofNat 32 i.len).toInt)

/-- A string of the client: where it is and its bytes, whose number is `len`. -/
structure Str where
  addr : Nat
  bytes : List UInt8

/-- The string does not overlap the place of as many bytes at an address. -/
def Str.ApartFrom (s : Str) (addr : Nat) : Prop :=
  s.addr + s.bytes.length ≤ addr ∨ addr + s.bytes.length ≤ s.addr

instance Str.decidableApartFrom (s : Str) (addr : Nat) : Decidable (s.ApartFrom addr) :=
  inferInstanceAs (Decidable (_ ∨ _))

/-- `memcpy` to an offset of the buffer. -/
def memcpy (strBag : StringBag) (pos : Nat) (s : Str) : Option StringBag := do
  let overhead ← SB_Overhead strBag.info.length
  let len := s.bytes.length
  if len = 0 ∨ (overhead ≤ pos ∧ pos + len ≤ strBag.capacity) ∧ s.ApartFrom (strBag.mem + pos) then
    return { strBag with
      strBuf := fun a => if pos ≤ a ∧ a < pos + len then s.bytes.getD (a - pos) 0 else strBag.strBuf a }
  else none

def SB_Assign (strBag : StringBag) (p : Nat) (s : Str) : Option (StringBag × Bool) := do
  let i ← strBag.info[p]?
  let len := s.bytes.length
  if s.addr = NULL then none
  else if len ≤ i.len then
    let strBag ← memcpy strBag i.pos s
    return ({ strBag with info := strBag.info.set p ⟨i.pos, len⟩ }, true)
  else if (strBag.size + len) % SIZE ≤ strBag.capacity then
    let pos := strBag.size
    let strBag ← memcpy { strBag with size := (strBag.size + len) % SIZE } pos s
    return ({ strBag with info := strBag.info.set p ⟨pos, len⟩ }, true)
  else return (strBag, false)

/-! ### What a bag holds -/

/-- The offsets of a string. -/
def InfoType.region (i : InfoType) : Set Nat := Set.Ico i.pos (i.pos + i.len)

/-- The bytes of a string. -/
def StringBag.bytes (strBag : StringBag) (i : InfoType) : List UInt8 :=
  (List.range i.len).map fun a => strBag.strBuf (i.pos + a)

/-- The bytes behind what `SB_Get` returns. -/
def StringBag.string (strBag : StringBag) (p : Nat) : Option (List UInt8) := do
  let (s, len) ← SB_Get strBag p
  return (List.range len.toNat).map fun a => strBag.strBuf (s - strBag.mem + a)

structure Inv (overhead : Nat) (strBag : StringBag) : Prop where
  header : SB_Overhead strBag.info.length = some overhead
  low : overhead ≤ strBag.size
  high : strBag.size ≤ strBag.capacity
  short : ∀ {p : Nat} {i : InfoType}, strBag.info[p]? = some i → i.len ≤ INT_MAX
  inside : ∀ {p : Nat} {i : InfoType}, strBag.info[p]? = some i → i.region ⊆ Set.Ico overhead strBag.size
  apart : ∀ {p q : Nat} {i j : InfoType}, p ≠ q → strBag.info[p]? = some i → strBag.info[q]? = some j →
    Disjoint i.region j.region

/-- A string in the address space. Where it lies in the bag it is behind the header, and its bytes are
those of the bag. -/
structure Passed (overhead : Nat) (strBag : StringBag) (s : Str) : Prop where
  live : s.addr ≠ NULL
  space : s.addr + s.bytes.length ≤ SIZE
  int : s.bytes.length ≤ INT_MAX
  header : ∀ a < s.bytes.length, s.addr + a < strBag.mem ∨ strBag.mem + overhead ≤ s.addr + a
  inside : ∀ a < s.bytes.length, strBag.mem ≤ s.addr + a → s.addr + a < strBag.mem + strBag.capacity →
    s.bytes[a]? = some (strBag.strBuf (s.addr + a - strBag.mem))

/-- The offset that a string of `len` bytes is copied to. -/
def destination (strBag : StringBag) (p len : Nat) : Option Nat := do
  let i ← strBag.info[p]?
  if len ≤ i.len then return i.pos
  else if (strBag.size + len) % SIZE ≤ strBag.capacity then return strBag.size
  else none

/-- A string that is copied fits, and does not overlap the place it is copied to. -/
def Copies (strBag : StringBag) (p : Nat) (s : Str) : Prop :=
  ∀ pos, destination strBag p s.bytes.length = some pos → s.bytes.length = 0 ∨
    pos + s.bytes.length ≤ strBag.capacity ∧ s.ApartFrom (strBag.mem + pos)

/-! ### One assignment -/

section

variable {overhead : Nat} {bag bag' : StringBag} {p q pos : Nat} {s : List UInt8} {i j : InfoType}

theorem inside_of_region {lo hi : Nat} (inside : i.region ⊆ Set.Ico lo hi) (some : 0 < i.len) :
    lo ≤ i.pos ∧ i.pos + i.len ≤ hi := by
  have first : i.pos ∈ i.region := ⟨Nat.le_refl _, by omega⟩
  have last : i.pos + i.len - 1 ∈ i.region := ⟨by omega, by omega⟩
  have low := (inside first).1
  have high := (inside last).2
  exact ⟨low, by omega⟩

theorem memcpy_some (inv : Inv overhead bag) {s : Str}
    (inside : (InfoType.mk pos s.bytes.length).region ⊆ Set.Ico overhead bag.capacity)
    (apart : s.bytes.length = 0 ∨ s.ApartFrom (bag.mem + pos)) :
    memcpy bag pos s = some { bag with
      strBuf := fun a => if pos ≤ a ∧ a < pos + s.bytes.length then s.bytes.getD (a - pos) 0
        else bag.strBuf a } := by
  have fits : s.bytes.length = 0 ∨
      (overhead ≤ pos ∧ pos + s.bytes.length ≤ bag.capacity) ∧ s.ApartFrom (bag.mem + pos) := by
    rcases Nat.eq_zero_or_pos s.bytes.length with none | some
    · exact Or.inl none
    · exact Or.inr ⟨inside_of_region inside some, apart.resolve_left (Nat.ne_of_gt some)⟩
  rw [memcpy, inv.header]
  exact if_pos fits

theorem memcpy_none (bag : StringBag) (header : SB_Overhead bag.info.length = some overhead) {s : Str}
    (some : s.bytes.length ≠ 0)
    (bad : ¬(pos + s.bytes.length ≤ bag.capacity ∧ s.ApartFrom (bag.mem + pos))) :
    memcpy bag pos s = none := by
  rw [memcpy, header]
  exact if_neg fun fits => bad ⟨(fits.resolve_left some).1.2, (fits.resolve_left some).2⟩

/-- The bag with a string copied to an offset and named by a slot. -/
def place (bag : StringBag) (p pos : Nat) (s : List UInt8) : StringBag :=
  { bag with
    info := bag.info.set p ⟨pos, s.length⟩
    strBuf := fun a => if pos ≤ a ∧ a < pos + s.length then s.getD (a - pos) 0 else bag.strBuf a }

theorem place_bytes : (place bag p pos s).bytes ⟨pos, s.length⟩ = s := by
  apply List.ext_getElem
  · simp [StringBag.bytes]
  · intro a ha ha'
    simp [StringBag.bytes, place, ha']

/-- A copy outside of a string leaves its bytes. -/
theorem place_bytes_of_disjoint (apart : Disjoint (InfoType.mk pos s.length).region i.region) :
    (place bag p pos s).bytes i = bag.bytes i := by
  refine List.map_congr_left fun a ha => if_neg fun here => ?_
  have there : i.pos + a ∈ i.region := ⟨Nat.le_add_right _ _, by
    have := List.mem_range.mp ha
    omega⟩
  exact Set.disjoint_left.mp apart ⟨here.1, here.2⟩ there

theorem place_inv (inv : Inv overhead bag) (short : s.length ≤ INT_MAX)
    (inside : (InfoType.mk pos s.length).region ⊆ Set.Ico overhead bag.size)
    (apart : ∀ {q j}, q ≠ p → bag.info[q]? = some j →
      Disjoint (InfoType.mk pos s.length).region j.region) :
    Inv overhead (place bag p pos s) where
  header := by
    rw [place, List.length_set]
    exact inv.header
  low := inv.low
  high := inv.high
  short := by
    intro q j hj
    rw [place, List.getElem?_set] at hj
    split at hj
    · split at hj
      · cases hj
        exact short
      · cases hj
    · exact inv.short hj
  inside := by
    intro q j hj
    rw [place, List.getElem?_set] at hj
    split at hj
    · split at hj
      · cases hj
        exact inside
      · cases hj
    · exact inv.inside hj
  apart := by
    intro q r j k ne hj hk
    rw [place, List.getElem?_set] at hj hk
    split at hj
    · rename_i here
      subst here
      rw [if_neg ne] at hk
      split at hj
      · cases hj
        exact apart (Ne.symm ne) hk
      · cases hj
    · rename_i other
      split at hk
      · rename_i here
        subst here
        split at hk
        · cases hk
          exact (apart ne hj).symm
        · cases hk
      · exact inv.apart ne hj hk

/-- What an assignment of `s` to the slot `p` makes of a bag. -/
structure Assigned (overhead : Nat) (bag bag' : StringBag) (p : Nat) (s : List UInt8) (r : Bool) :
    Prop where
  inv : Inv overhead bag'
  mem : bag'.mem = bag.mem
  capacity : bag'.capacity = bag.capacity
  width : bag'.info.length = bag.info.length
  others : ∀ {q}, q ≠ p → bag'.info[q]? = bag.info[q]? ∧
    ∀ i, bag.info[q]? = some i → bag'.bytes i = bag.bytes i
  done : r = true → ∃ i, bag'.info[p]? = some i ∧ bag'.bytes i = s
  failed : r = false → bag' = bag

theorem place_assigned (inv : Inv overhead bag) (width : p < bag.info.length)
    (short : s.length ≤ INT_MAX)
    (inside : (InfoType.mk pos s.length).region ⊆ Set.Ico overhead bag.size)
    (apart : ∀ {q j}, q ≠ p → bag.info[q]? = some j →
      Disjoint (InfoType.mk pos s.length).region j.region) :
    Assigned overhead bag (place bag p pos s) p s true where
  inv := place_inv inv short inside apart
  mem := rfl
  capacity := rfl
  width := List.length_set
  others := by
    intro q other
    exact ⟨List.getElem?_set_ne (Ne.symm other), fun i hi =>
      place_bytes_of_disjoint (apart other hi)⟩
  done := fun _ => ⟨_, List.getElem?_set_self width, place_bytes⟩
  failed := fun no => by cases no

theorem assign_spec (inv : Inv overhead bag) (room : bag.mem + bag.capacity ≤ SIZE)
    (live : bag.mem ≠ NULL) (width : p < bag.info.length) {s : Str} (passed : Passed overhead bag s)
    (copies : Copies bag p s) :
    ∃ bag' r, SB_Assign bag p s = some (bag', r) ∧ Assigned overhead bag bag' p s.bytes r := by
  obtain ⟨i, here⟩ : ∃ i, bag.info[p]? = some i := ⟨_, List.getElem?_eq_getElem width⟩
  have low := inv.low
  have high := inv.high
  have inside := inv.inside here
  unfold Copies destination at copies
  rw [here] at copies
  simp only [Option.bind_eq_bind, Option.bind_some] at copies
  rw [SB_Assign, here]
  simp only [Option.bind_eq_bind, Option.bind_some, if_neg passed.live]
  by_cases shorter : s.bytes.length ≤ i.len
  · -- the old place of the slot
    have smaller : (InfoType.mk i.pos s.bytes.length).region ⊆ i.region :=
      Set.Ico_subset_Ico_right (Nat.add_le_add_left shorter _)
    have whole := smaller.trans inside
    have apart := (copies i.pos (by rw [if_pos shorter]; rfl)).imp_right And.right
    rw [if_pos shorter, memcpy_some inv (whole.trans (Set.Ico_subset_Ico_right high)) apart]
    exact ⟨_, _, rfl, place_assigned inv width passed.int whole fun other hj =>
      (inv.apart (Ne.symm other) here hj).mono_left smaller⟩
  · rw [if_neg shorter]
    by_cases fits : (bag.size + s.bytes.length) % SIZE ≤ bag.capacity
    · -- behind all strings
      have copied := copies bag.size (by rw [if_neg shorter, if_pos fits]; rfl)
      obtain ⟨enough, apart⟩ := copied.resolve_left (by omega)
      have exact : bag.size + s.bytes.length < SIZE := by
        simp only [NULL] at live
        omega
      rw [Nat.mod_eq_of_lt exact] at fits ⊢
      have grown : Inv overhead { bag with size := bag.size + s.bytes.length } :=
        ⟨inv.header, Nat.le_trans low (Nat.le_add_right _ _), fits, inv.short, fun hi =>
          (inv.inside hi).trans (Set.Ico_subset_Ico_right (Nat.le_add_right _ _)), inv.apart⟩
      have last : (InfoType.mk bag.size s.bytes.length).region ⊆
          Set.Ico overhead (bag.size + s.bytes.length) := Set.Ico_subset_Ico_left low
      rw [if_pos fits, memcpy_some grown (last.trans (Set.Ico_subset_Ico_right fits)) (Or.inr apart)]
      have placed := place_assigned (p := p) grown width passed.int last fun _ hj =>
        Set.disjoint_left.mpr fun a new old => absurd (inv.inside hj old).2 (Nat.not_lt.mpr new.1)
      exact ⟨_, _, rfl, placed.inv, placed.mem, placed.capacity, placed.width, placed.others,
        placed.done, fun no => by cases no⟩
    · rw [if_neg fits]
      exact ⟨_, _, rfl, inv, rfl, rfl, rfl, fun _ => ⟨rfl, fun _ _ => rfl⟩,
        (fun no => by cases no), fun _ => rfl⟩

/-- An assignment that has a value copies as it may. -/
theorem assign_copies (inv : Inv overhead bag) {s : Str} {r : Bool}
    (done : SB_Assign bag p s = some (bag', r)) : Copies bag p s := by
  intro pos dest
  unfold destination at dest
  unfold SB_Assign at done
  cases here : bag.info[p]? with
  | none =>
    rw [here] at done
    cases done
  | some i =>
    rw [here] at done dest
    simp only [Option.bind_eq_bind, Option.bind_some] at done dest
    split at done
    · cases done
    · by_contra bad
      obtain ⟨some, bad⟩ := not_or.mp bad
      by_cases shorter : s.bytes.length ≤ i.len
      · rw [if_pos shorter] at done dest
        obtain rfl := Option.some.inj dest
        rw [memcpy_none bag inv.header some bad] at done
        cases done
      · rw [if_neg shorter] at done dest
        by_cases fits : (bag.size + s.bytes.length) % SIZE ≤ bag.capacity
        · rw [if_pos fits] at done dest
          obtain rfl := Option.some.inj dest
          have undefined := memcpy_none { bag with size := (bag.size + s.bytes.length) % SIZE }
            inv.header some bad
          rw [undefined] at done
          cases done
        · rw [if_neg fits] at dest
          cases dest

/-- A slot reads the bytes of its string. -/
theorem get_some (inv : Inv overhead bag) (here : bag.info[p]? = some i) :
    SB_Get bag p = some (bag.mem + i.pos, (i.len : Int)) ∧ bag.string p = some (bag.bytes i) := by
  have short := inv.short here
  simp only [INT_MAX] at short
  have exact : (BitVec.ofNat 32 i.len).toInt = i.len := by
    rw [BitVec.toInt_eq_toNat_of_lt]
    · rw [BitVec.toNat_ofNat, Nat.mod_eq_of_lt (by omega)]
    · rw [BitVec.toNat_ofNat, Nat.mod_eq_of_lt (by omega)]
      omega
  have get : SB_Get bag p = some (bag.mem + i.pos, (i.len : Int)) := by
    rw [SB_Get, here, ← exact]
    rfl
  refine ⟨get, ?_⟩
  rw [StringBag.string, get]
  simp only [Option.bind_eq_bind, Option.bind_some, Int.toNat_natCast, Nat.add_sub_cancel_left]
  rfl

end

/-! ### Runs -/

/-- The header of a bag of the width. -/
def headerOf (width : Int) : Nat := sizeofStringBag + (width - 1).toNat * sizeofInfoType

/-- The bags that assignments make of a new bag, with what was assigned and whether it succeeded. -/
inductive Runs (width : Int) (capacity : Nat) : List ((Nat × Str) × Bool) → StringBag → Prop
  | new {mem : Nat} {contents : Nat → UInt8} {bag : StringBag} (int : width ≤ INT_MAX)
      (room : mem + capacity ≤ SIZE) (made : SB_NewStringBag mem contents width capacity = some bag) :
      Runs width capacity [] bag
  | assign {log : List ((Nat × Str) × Bool)} {bag bag' : StringBag} {p : Nat} {s : Str} {r : Bool}
      (before : Runs width capacity log bag) (slot : (p : Int) < width)
      (passed : Passed (headerOf width) bag s) (done : SB_Assign bag p s = some (bag', r)) :
      Runs width capacity (log ++ [((p, s), r)]) bag'

/-- The bytes of the last successful assignment to a slot. -/
def lastAssigned (p : Nat) (log : List ((Nat × Str) × Bool)) : List UInt8 :=
  ((log.reverse.find? fun e => e.1.1 = p ∧ e.2 = true).map fun e => e.1.2.bytes).getD []

theorem lastAssigned_snoc (p q : Nat) (s : Str) (r : Bool) (log : List ((Nat × Str) × Bool)) :
    lastAssigned p (log ++ [((q, s), r)]) =
      if q = p ∧ r = true then s.bytes else lastAssigned p log := by
  unfold lastAssigned
  rw [List.reverse_append, List.reverse_singleton, List.singleton_append, List.find?_cons]
  by_cases here : q = p ∧ r = true
  · simp [here]
  · simp [here]

structure RunInv (width : Int) (capacity : Nat) (log : List ((Nat × Str) × Bool)) (bag : StringBag) :
    Prop where
  inv : Inv (headerOf width) bag
  live : bag.mem ≠ NULL
  room : bag.mem + bag.capacity ≤ SIZE
  capacity : bag.capacity = capacity
  width : (bag.info.length : Int) = width
  last : ∀ {p : Nat} {i : InfoType}, bag.info[p]? = some i → bag.bytes i = lastAssigned p log

theorem new_inv {width : Int} {mem capacity : Nat} {contents : Nat → UInt8} {bag : StringBag}
    (int : width ≤ INT_MAX) (room : mem + capacity ≤ SIZE)
    (made : SB_NewStringBag mem contents width capacity = some bag) :
    RunInv width capacity [] bag := by
  obtain ⟨firstPos, overhead, made⟩ := Option.bind_eq_some_iff.mp made
  obtain ⟨⟨live, enough, -⟩, same⟩ := Option.ite_none_right_eq_some.mp made
  obtain rfl := Option.some.inj same
  have positive : 0 < width := by
    by_contra none
    rw [SB_Overhead, if_neg none] at overhead
    cases overhead
  have header : firstPos = headerOf width := by
    rw [SB_Overhead, if_pos positive, Option.some.injEq] at overhead
    rw [← overhead, headerOf, Nat.mod_eq_of_lt]
    simp only [INT_MAX, sizeofStringBag, sizeofInfoType, SIZE] at int ⊢
    omega
  have length : (List.replicate width.toNat (InfoType.mk 0 0)).length = width.toNat :=
    List.length_replicate
  have cast : (width.toNat : Int) = width := Int.toNat_of_nonneg positive.le
  have empty : ∀ {p : Nat} {i : InfoType},
      (List.replicate width.toNat (InfoType.mk 0 0))[p]? = some i → i = ⟨0, 0⟩ := fun hi =>
    List.eq_of_mem_replicate (List.mem_of_getElem? hi)
  have nothing : (InfoType.mk 0 0).region = ∅ := Set.Ico_self 0
  subst header
  refine ⟨⟨?_, Nat.le_refl _, enough, ?_, ?_, ?_⟩, live, room, rfl, ?_, ?_⟩
  · rw [length, cast]
    exact overhead
  · intro p i hi
    rw [empty hi]
    exact Nat.zero_le _
  · intro p i hi
    rw [empty hi, nothing]
    exact Set.empty_subset _
  · intro p q i j _ hi _
    rw [empty hi, nothing]
    exact Set.empty_disjoint _
  · rw [length, cast]
  · intro p i hi
    rw [empty hi]
    rfl

theorem assigned_inv {width : Int} {capacity : Nat} {log : List ((Nat × Str) × Bool)}
    {bag bag' : StringBag} {p : Nat} {s : Str} {r : Bool} (inv : RunInv width capacity log bag)
    (assigned : Assigned (headerOf width) bag bag' p s.bytes r) :
    RunInv width capacity (log ++ [((p, s), r)]) bag' := by
  refine ⟨assigned.inv, ?_, ?_, ?_, ?_, ?_⟩
  · rw [assigned.mem]
    exact inv.live
  · rw [assigned.mem, assigned.capacity]
    exact inv.room
  · rw [assigned.capacity]
    exact inv.capacity
  · rw [assigned.width]
    exact inv.width
  · intro q i hi
    rw [lastAssigned_snoc]
    by_cases here : p = q
    · subst here
      cases r with
      | true =>
        obtain ⟨j, hj, bytes⟩ := assigned.done rfl
        rw [hi, Option.some.injEq] at hj
        rw [hj, bytes, if_pos ⟨rfl, rfl⟩]
      | false =>
        rw [assigned.failed rfl] at hi ⊢
        rw [if_neg fun no => by cases no.2]
        exact inv.last hi
    · obtain ⟨same, bytes⟩ := assigned.others (Ne.symm here)
      rw [same] at hi
      rw [if_neg fun no => here no.1, bytes i hi]
      exact inv.last hi

theorem runs_inv {width : Int} {capacity : Nat} {log : List ((Nat × Str) × Bool)} {bag : StringBag}
    (runs : Runs width capacity log bag) : RunInv width capacity log bag := by
  induction runs with
  | new int room made => exact new_inv int room made
  | assign before slot passed done ih =>
    have inside : _ < _ := Int.ofNat_lt.mp (ih.width ▸ slot)
    have copies := assign_copies ih.inv done
    obtain ⟨bag', r, assign, assigned⟩ := assign_spec ih.inv ih.room ih.live inside passed copies
    rw [done, Option.some.injEq, Prod.mk.injEq] at assign
    obtain ⟨rfl, rfl⟩ := assign
    exact assigned_inv ih assigned

/-- A bag holds what was assigned to its slots, its strings lie apart behind the header, and the
assignment of `s` to `p` changes this slot only, and nothing when it fails. -/
structure BagLaw (width : Int) (capacity : Nat) (log : List ((Nat × Str) × Bool)) (bag : StringBag)
    (p : Nat) (s : Str) : Prop where
  strings : ∀ q : Nat, (q : Int) < width → bag.string q = some (lastAssigned q log)
  behind : ∀ (q : Nat) i, bag.info[q]? = some i → i.region ⊆ Set.Ico (headerOf width) bag.size
  apart : ∀ (q q' : Nat) i j, q ≠ q' → bag.info[q]? = some i → bag.info[q']? = some j →
    Disjoint i.region j.region
  size : bag.size ≤ bag.capacity ∧ bag.capacity = capacity
  assign : ∃ bag' r, SB_Assign bag p s = some (bag', r) ∧
    (∀ q : Nat, (q : Int) < width → q ≠ p →
      SB_Get bag' q = SB_Get bag q ∧ bag'.string q = bag.string q) ∧ (r = false → bag' = bag)

/-- Whatever has been assigned so far, the law goes on with the next string exactly if it does not
overlap the place it is copied to, and its length does not carry the size over the end of `size_t`. -/
theorem stringBag_iff {width : Int} {capacity : Nat} {log : List ((Nat × Str) × Bool)}
    {bag : StringBag} (runs : Runs width capacity log bag) {p : Nat} {s : Str} (inside : (p : Int) < width)
    (passed : Passed (headerOf width) bag s) :
    BagLaw width capacity log bag p s ↔ Copies bag p s := by
  have inv := runs_inv runs
  have slot : ∀ {p : Nat}, (p : Int) < width → ∃ i, bag.info[p]? = some i := fun inside =>
    ⟨_, List.getElem?_eq_getElem (Int.ofNat_lt.mp (inv.width ▸ inside))⟩
  constructor
  · intro law
    obtain ⟨bag', r, done, -⟩ := law.assign
    exact assign_copies inv.inv done
  · intro copies
    refine ⟨fun q inside => ?_, fun q i => inv.inv.inside, fun q q' i j => inv.inv.apart,
      ⟨inv.inv.high, inv.capacity⟩, ?_⟩
    · obtain ⟨i, here⟩ := slot inside
      rw [(get_some inv.inv here).2, inv.last here]
    · have width' : p < bag.info.length := Int.ofNat_lt.mp (inv.width ▸ inside)
      obtain ⟨bag', r, assign, assigned⟩ :=
        assign_spec inv.inv inv.room inv.live width' passed copies
      refine ⟨bag', r, assign, fun q inside' other => ?_, assigned.failed⟩
      obtain ⟨i, here⟩ := slot inside'
      obtain ⟨same, bytes⟩ := assigned.others other
      have here' := same.trans here
      obtain ⟨get, string⟩ := get_some inv.inv here
      obtain ⟨get', string'⟩ := get_some assigned.inv here'
      rw [get, get', string, string', assigned.mem, bytes i here]
      exact ⟨rfl, rfl⟩

/-- A string in a slot of a bag at the address 8. -/
theorem runs_apple : Runs 2 60 [((1, ⟨100, [65, 112, 112]⟩), true)]
    (place ⟨8, 51, 60, [⟨0, 0⟩, ⟨0, 0⟩], fun _ => 0⟩ 1 48 [65, 112, 112]) := by
  have made : SB_NewStringBag 8 (fun _ => 0) 2 60 =
      some ⟨8, 48, 60, [⟨0, 0⟩, ⟨0, 0⟩], fun _ => 0⟩ := rfl
  have start : Runs 2 60 [] ⟨8, 48, 60, [⟨0, 0⟩, ⟨0, 0⟩], fun _ => 0⟩ :=
    .new (by decide) (by decide) made
  exact start.assign (by decide) ⟨by decide, by decide, by decide, by decide, by decide⟩ rfl

/-- A string, a part of it copied to the other slot, a shorter one in its place and one too many; then
the first byte of the copy goes back. -/
theorem stringBag_iff_back : ∃ bag,
    Runs 2 60 [((1, ⟨100, [65, 112, 112]⟩), true), ((0, ⟨57, [112, 112]⟩), true),
      ((1, ⟨100, [66]⟩), true), ((0, ⟨200, List.replicate 10 67⟩), false)] bag ∧
    BagLaw 2 60 [((1, ⟨100, [65, 112, 112]⟩), true), ((0, ⟨57, [112, 112]⟩), true),
      ((1, ⟨100, [66]⟩), true), ((0, ⟨200, List.replicate 10 67⟩), false)] bag 1 ⟨59, [112]⟩ := by
  have second : Runs 2 60 _
      (place { place ⟨8, 51, 60, [⟨0, 0⟩, ⟨0, 0⟩], fun _ => 0⟩ 1 48 [65, 112, 112] with size := 53 }
        0 51 [112, 112]) :=
    runs_apple.assign (p := 0) (s := ⟨57, [112, 112]⟩) (by decide)
      ⟨by decide, by decide, by decide, by decide, by decide⟩ rfl
  have third : Runs 2 60 _
      (place (place { place ⟨8, 51, 60, [⟨0, 0⟩, ⟨0, 0⟩], fun _ => 0⟩ 1 48 [65, 112, 112] with
        size := 53 } 0 51 [112, 112]) 1 48 [66]) :=
    second.assign (p := 1) (s := ⟨100, [66]⟩) (by decide)
      ⟨by decide, by decide, by decide, by decide, by decide⟩ rfl
  have fourth : Runs 2 60 _
      (place (place { place ⟨8, 51, 60, [⟨0, 0⟩, ⟨0, 0⟩], fun _ => 0⟩ 1 48 [65, 112, 112] with
        size := 53 } 0 51 [112, 112]) 1 48 [66]) :=
    third.assign (p := 0) (s := ⟨200, List.replicate 10 67⟩) (by decide)
      ⟨by decide, by decide, by decide, by decide, by decide⟩ rfl
  refine ⟨_, fourth, (stringBag_iff fourth (by decide)
    ⟨by decide, by decide, by decide, by decide, by decide⟩).mpr fun pos dest => Or.inr ?_⟩
  obtain rfl := Option.some.inj dest
  decide

/-- A slot is assigned the end of its own string, which overlaps the place it is copied to. -/
theorem assign_overlaps : ∃ bag, Runs 2 60 [((1, ⟨100, [65, 112, 112]⟩), true)] bag ∧
    SB_Get bag 1 = some (56, 3) ∧ Passed (headerOf 2) bag ⟨57, [112, 112]⟩ ∧
    SB_Assign bag 1 ⟨57, [112, 112]⟩ = none ∧
    ¬∀ (width : Int) (capacity : Nat) log bag (p : Nat) s, Runs width capacity log bag →
      (p : Int) < width → Passed (headerOf width) bag s → BagLaw width capacity log bag p s := by
  have passed : Passed (headerOf 2)
      (place ⟨8, 51, 60, [⟨0, 0⟩, ⟨0, 0⟩], fun _ => 0⟩ 1 48 [65, 112, 112]) ⟨57, [112, 112]⟩ :=
    ⟨by decide, by decide, by decide, by decide, by decide⟩
  refine ⟨_, runs_apple, rfl, passed, rfl, fun all => ?_⟩
  obtain ⟨bag', r, done, -⟩ := (all 2 60 _ _ 1 _ runs_apple (by decide) passed).assign
  cases done

end DeepDB.Trie.SB
