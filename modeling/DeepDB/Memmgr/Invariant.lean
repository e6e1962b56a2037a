import DeepDB.Memmgr.Malloc
import DeepDB.Lib.Chain
import Mathlib.Data.List.Nodup
import Mathlib.Data.List.Pairwise
import Mathlib.Data.List.Perm.Basic
import Mathlib.Data.Nat.Basic
import Mathlib.Algebra.Order.Ring.Nat
import Mathlib.Tactic.Ring

/-!
Who owns which addresses. A chunk is a pointer with the word in front of it; the chunks of a big
block and the large chunks lie apart from each other in the regions. `Inv` accounts for all of
them: the chunks carved for a bin are those on its free list and those the client holds.
-/

namespace DeepDB.Memmgr
open Chain

/-! ### Sizes -/

def IsBin (b : Int) : Prop := 0 ≤ b ∧ b < BINS

theorem bin2size_eq {b : Int} (h : IsBin b) : (bin2size b : Int) = 16 * b + 8 := by
  obtain ⟨low, high⟩ := h
  simp only [BINS] at high
  simp only [bin2size, ALIGN, WORD, SIZE]
  omega

theorem maxSmall_eq : bin2size (BINS - 1) = 792 := by decide

theorem size2bin_eq {n : Nat} (h : n ≤ bin2size (BINS - 1)) :
    size2bin n = ((n + 7) / 16 : Nat) := by
  rw [size2bin, if_neg (Nat.not_lt.mpr h)]
  rfl

theorem size2bin_isBin {n : Nat} (h : n ≤ bin2size (BINS - 1)) : IsBin (size2bin n) := by
  rw [size2bin_eq h]
  rw [maxSmall_eq] at h
  simp only [IsBin, BINS]
  omega

theorem size2bin_large {n : Nat} (h : bin2size (BINS - 1) < n) : size2bin n = -1 := if_pos h

/-- A chunk of the bin of a size is large enough for it. -/
theorem le_bin2size {n : Nat} (h : n ≤ bin2size (BINS - 1)) : n ≤ bin2size (size2bin n) := by
  have size := bin2size_eq (size2bin_isBin h)
  rw [size2bin_eq h] at size ⊢
  omega

theorem bin2size_le {b : Int} (h : IsBin b) : bin2size b ≤ bin2size (BINS - 1) := by
  have size := bin2size_eq h
  obtain ⟨low, high⟩ := h
  simp only [BINS] at high
  rw [maxSmall_eq]
  omega

/-- The size in the header of a chunk leads back to its bin. -/
theorem size2bin_bin2size {b : Int} (h : IsBin b) : size2bin (bin2size b) = b := by
  have size := bin2size_eq h
  rw [size2bin_eq (bin2size_le h)]
  omega

theorem nblocks_eq {b : Int} (h : IsBin b) :
    nblocks (bin2size b) = (BIGBLOCK - WASTE) / (bin2size b + WORD) := by
  have small := bin2size_le h
  rw [maxSmall_eq] at small
  rw [nblocks, Nat.mod_eq_of_lt]
  simp only [WORD, SIZE]
  omega

theorem nblocks_pos {b : Int} (h : IsBin b) : 0 < nblocks (bin2size b) := by
  have small := bin2size_le h
  rw [maxSmall_eq] at small
  rw [nblocks_eq h]
  refine Nat.div_pos ?_ (by simp [WORD])
  simp only [BIGBLOCK, WASTE, WORD, ALIGN]
  omega

theorem nblocks_mul_le {b : Int} (h : IsBin b) :
    nblocks (bin2size b) * (bin2size b + WORD) ≤ BIGBLOCK - WASTE := by
  rw [nblocks_eq h]
  exact Nat.div_mul_le_self _ _

/-! ### The chunks of a block -/

/-- The pointers of `k` chunks of the given size from the header at `q` on. -/
def chunksFrom (size : Nat) : (k : Nat) → (q : Nat) → List Nat
  | 0, _ => []
  | k + 1, q => (q + WORD) :: chunksFrom size k (q + (size + WORD))

def chunks (base : Nat) (b : Int) : List Nat :=
  chunksFrom (bin2size b) (nblocks (bin2size b)) (base + WASTE)

theorem mem_chunksFrom {size k : Nat} {q p : Nat} :
    p ∈ chunksFrom size k q ↔ ∃ j < k, p = q + WORD + j * (size + WORD) := by
  induction k generalizing q with
  | zero => simp [chunksFrom]
  | succ k ih =>
    rw [chunksFrom, List.mem_cons, ih]
    constructor
    · rintro (rfl | ⟨j, hj, rfl⟩)
      · exact ⟨0, Nat.succ_pos k, by ring⟩
      · exact ⟨j + 1, Nat.succ_lt_succ hj, by ring⟩
    · rintro ⟨j, hj, rfl⟩
      cases j with
      | zero => exact Or.inl (by ring)
      | succ j => exact Or.inr ⟨j, Nat.lt_of_succ_lt_succ hj, by ring⟩

theorem length_chunksFrom (size k : Nat) (q : Nat) : (chunksFrom size k q).length = k := by
  induction k generalizing q with
  | zero => rfl
  | succ k ih => rw [chunksFrom, List.length_cons, ih]

theorem chunksFrom_nodup (size k : Nat) (q : Nat) : (chunksFrom size k q).Nodup := by
  induction k generalizing q with
  | zero => exact List.nodup_nil
  | succ k ih =>
    refine List.nodup_cons.mpr ⟨fun h => ?_, ih _⟩
    obtain ⟨j, -, same⟩ := mem_chunksFrom.mp h
    simp only [WORD] at same
    omega

theorem chunksFrom_apart {size k : Nat} {q p p' : Nat} (h : p ∈ chunksFrom size k q)
    (h' : p' ∈ chunksFrom size k q) (hne : p ≠ p') :
    Apart (p - WORD, size + WORD) (p' - WORD, size + WORD) := by
  obtain ⟨j, -, rfl⟩ := mem_chunksFrom.mp h
  obtain ⟨j', -, rfl⟩ := mem_chunksFrom.mp h'
  have step : ∀ a b, a < b → a * (size + WORD) + (size + WORD) ≤ b * (size + WORD) := by
    intro a b hab
    calc a * (size + WORD) + (size + WORD) = (a + 1) * (size + WORD) := by ring
      _ ≤ b * (size + WORD) := Nat.mul_le_mul_right _ hab
  rcases Nat.lt_trichotomy j j' with hlt | rfl | hlt
  · have := step j j' hlt
    refine Or.inl ?_
    simp only at this ⊢
    omega
  · exact absurd rfl hne
  · have := step j' j hlt
    refine Or.inr ?_
    simp only at this ⊢
    omega

/-- A chunk lies in its block, behind the wasted word, and its pointer is aligned. -/
theorem chunks_inside {base p : Nat} {b : Int} (hb : IsBin b) (haligned : base % (WORD * ALIGN) = 0)
    (h : p ∈ chunks base b) :
    base + WASTE + WORD ≤ p ∧ p + bin2size b ≤ base + BIGBLOCK ∧ p % (WORD * ALIGN) = 0 := by
  obtain ⟨j, hj, rfl⟩ := mem_chunksFrom.mp h
  have size := bin2size_eq hb
  have room := nblocks_mul_le hb
  have last : (j + 1) * (bin2size b + WORD) ≤ nblocks (bin2size b) * (bin2size b + WORD) :=
    Nat.mul_le_mul_right _ hj
  have expand : (j + 1) * (bin2size b + WORD) = j * (bin2size b + WORD) + (bin2size b + WORD) := by
    ring
  have big : WASTE ≤ BIGBLOCK := by decide
  have width : ∃ c, bin2size b + WORD = c * 16 := ⟨b.toNat + 1, by simp only [WORD]; omega⟩
  refine ⟨Nat.le_add_right _ _, by omega, ?_⟩
  obtain ⟨c, hc⟩ := width
  have multiple : j * (bin2size b + WORD) = (j * c) * 16 := by rw [hc]; ring
  rw [multiple]
  simp only [WASTE, WORD, ALIGN] at haligned ⊢
  omega

/-! ### The invariant -/

/-- The chunks that have been carved for bin `b`. -/
def carved (b : Int) (blocks : List (Nat × Int)) : List Nat :=
  (blocks.filter fun x => x.2 = b).flatMap fun x => chunks x.1 b

/-- The chunks of bin `b` in the client's hands. -/
def liveIn (b : Int) (live : List Live) : List Nat :=
  (live.filter fun l => size2bin l.n = b).map Live.ptr

/-- `p` is a small chunk of usable size `sz` in the block `r`, or a large one in its region `r`. -/
def Owned (s : State) (p sz : Nat) (r : Nat × Nat) : Prop :=
  (∃ x ∈ s.blocks, p ∈ chunks x.1 x.2 ∧ sz = bin2size x.2 ∧ r = (x.1, BIGBLOCK)) ∨
    ∃ l ∈ s.live, l.mapped = some r ∧ p = l.ptr ∧ sz = l.n

/-- The client's view of what it holds: small chunks have no region of their own. -/
def LiveOk (l : Live) : Prop :=
  if bin2size (BINS - 1) < l.n then
    WASTE + WORD ≤ l.ptr ∧ l.n ≤ SIZE - 1 - (WASTE + WORD) ∧
      l.mapped = some (l.ptr - (WASTE + WORD), l.n + WASTE + WORD)
  else l.mapped = none

structure Inv (s : State) (fl : Int → List Nat) : Prop where
  lists : ∀ b, IsBin b → Linked s.mem NULL (s.bin b) (fl b)
  accounted : ∀ b, IsBin b → (carved b s.blocks).Perm (fl b ++ liveIn b s.live)
  bins : ∀ x ∈ s.blocks, IsBin x.2
  regions : s.regions.Perm
    (s.blocks.map (fun x => (x.1, BIGBLOCK)) ++ s.live.filterMap Live.mapped)
  apart : s.regions.Pairwise Apart
  mapped : ∀ r ∈ s.regions, r.1 ≠ NULL ∧ r.1 % (WORD * ALIGN) = 0 ∧ r.1 + r.2 ≤ SIZE ∧ 0 < r.2
  liveOk : ∀ l ∈ s.live, LiveOk l
  distinct : (s.live.map Live.ptr).Nodup
  headers : ∀ p sz r, Owned s p sz r → s.mem (p - WORD) = sz

variable {s : State} {fl : Int → List Nat}

instance : Std.Symm Apart := ⟨fun _ _ h => h.symm⟩

theorem mem_carved {b : Int} {blocks : List (Nat × Int)} {p : Nat} :
    p ∈ carved b blocks ↔ ∃ x ∈ blocks, x.2 = b ∧ p ∈ chunks x.1 x.2 := by
  simp only [carved, List.mem_flatMap, List.mem_filter, decide_eq_true_eq]
  constructor
  · rintro ⟨x, ⟨hx, rfl⟩, hp⟩
    exact ⟨x, hx, rfl, hp⟩
  · rintro ⟨x, hx, rfl, hp⟩
    exact ⟨x, ⟨hx, rfl⟩, hp⟩

theorem mem_liveIn {b : Int} {live : List Live} {p : Nat} :
    p ∈ liveIn b live ↔ ∃ l ∈ live, size2bin l.n = b ∧ l.ptr = p := by
  simp [liveIn, and_assoc]

theorem liveOk_mapped {l : Live} (ok : LiveOk l) {r : Nat × Nat} (hmap : l.mapped = some r) :
    bin2size (BINS - 1) < l.n ∧ l.n ≤ SIZE - 1 - (WASTE + WORD) ∧
      l.ptr = r.1 + (WASTE + WORD) ∧ r.2 = l.n + WASTE + WORD := by
  rw [LiveOk, hmap] at ok
  split at ok
  · rename_i large
    obtain ⟨hptr, hn, same⟩ := ok
    obtain rfl := Option.some.inj same
    exact ⟨large, hn, (Nat.sub_add_cancel hptr).symm, rfl⟩
  · cases ok

/-- A chunk lies in a region, behind the wasted word, and its pointer is aligned. -/
theorem owned_inside (h : Inv s fl) {p sz : Nat} {r : Nat × Nat} (hp : Owned s p sz r) :
    r ∈ s.regions ∧ r.1 + WASTE + WORD ≤ p ∧ p + sz ≤ r.1 + r.2 ∧ p % (WORD * ALIGN) = 0 := by
  rcases hp with ⟨x, hx, hp, rfl, rfl⟩ | ⟨l, hl, hmap, rfl, rfl⟩
  · have hr : (x.1, BIGBLOCK) ∈ s.regions :=
      h.regions.mem_iff.mpr (List.mem_append_left _ (List.mem_map.mpr ⟨x, hx, rfl⟩))
    exact ⟨hr, chunks_inside (h.bins x hx) (h.mapped _ hr).2.1 hp⟩
  · have hr : r ∈ s.regions :=
      h.regions.mem_iff.mpr (List.mem_append_right _ (List.mem_filterMap.mpr ⟨l, hl, hmap⟩))
    have haligned := (h.mapped r hr).2.1
    obtain ⟨-, -, hptr, hlen⟩ := liveOk_mapped (h.liveOk l hl) hmap
    simp only [WASTE, WORD, ALIGN] at hptr hlen haligned ⊢
    exact ⟨hr, by omega, by omega, by omega⟩

theorem regions_nodup (h : Inv s fl) : s.regions.Nodup := by
  refine List.Pairwise.imp_of_mem (fun {r r'} _ hr' hapart => ?_) h.apart
  rintro rfl
  have pos := (h.mapped r hr').2.2.2
  rcases hapart with hle | hle <;> omega

theorem regions_apart (h : Inv s fl) {r r' : Nat × Nat} (hr : r ∈ s.regions)
    (hr' : r' ∈ s.regions) (hne : r ≠ r') : Apart r r' :=
  h.apart.forall hr hr' hne

/-- One owner for one region: two chunks of one region are the same or lie apart. -/
theorem owned_same (h : Inv s fl) {p sz p' sz' : Nat} {r : Nat × Nat} (hp : Owned s p sz r)
    (hp' : Owned s p' sz' r) :
    sz = sz' ∧ (p ≠ p' → Apart (p - WORD, sz + WORD) (p' - WORD, sz' + WORD)) := by
  have nodup := h.regions.nodup_iff.mp (regions_nodup h)
  obtain ⟨hblocks, hlive, hcross⟩ := List.nodup_append.mp nodup
  rcases hp with ⟨x, hx, hp, rfl, rfl⟩ | ⟨l, hl, hmap, rfl, rfl⟩
  · rcases hp' with ⟨x', hx', hp', rfl, same⟩ | ⟨l', hl', hmap', rfl, rfl⟩
    · obtain rfl := List.inj_on_of_nodup_map hblocks hx hx' same
      exact ⟨rfl, fun hne => chunksFrom_apart hp hp' hne⟩
    · exact absurd rfl (hcross _ (List.mem_map_of_mem hx) _
        (List.mem_filterMap.mpr ⟨l', hl', hmap'⟩))
  · rcases hp' with ⟨x', hx', hp', rfl, rfl⟩ | ⟨l', hl', hmap', rfl, rfl⟩
    · exact absurd rfl (hcross _ (List.mem_map_of_mem hx') _
        (List.mem_filterMap.mpr ⟨l, hl, hmap⟩))
    · obtain ⟨-, -, hptr, hlen⟩ := liveOk_mapped (h.liveOk l hl) hmap
      obtain ⟨-, -, hptr', hlen'⟩ := liveOk_mapped (h.liveOk l' hl') hmap'
      exact ⟨by omega, fun hne => absurd (hptr.trans hptr'.symm) hne⟩

/-- Chunks with different pointers lie apart, headers included. -/
theorem owned_apart (h : Inv s fl) {p sz p' sz' : Nat} {r r' : Nat × Nat} (hp : Owned s p sz r)
    (hp' : Owned s p' sz' r') (hne : p ≠ p') :
    Apart (p - WORD, sz + WORD) (p' - WORD, sz' + WORD) := by
  by_cases hr : r = r'
  · subst hr
    exact (owned_same h hp hp').2 hne
  · obtain ⟨hmem, low, high, -⟩ := owned_inside h hp
    obtain ⟨hmem', low', high', -⟩ := owned_inside h hp'
    simp only [WASTE, WORD, ALIGN] at low low'
    rcases regions_apart h hmem hmem' hr with hle | hle
    · refine Or.inl ?_
      simp only [WORD]
      omega
    · refine Or.inr ?_
      simp only [WORD]
      omega

/-- A pointer has one owner. -/
theorem owned_unique (h : Inv s fl) {p sz sz' : Nat} {r r' : Nat × Nat} (hp : Owned s p sz r)
    (hp' : Owned s p sz' r') : r = r' ∧ sz = sz' := by
  have same : r = r' := by
    by_contra hr
    obtain ⟨hmem, low, high, -⟩ := owned_inside h hp
    obtain ⟨hmem', low', high', -⟩ := owned_inside h hp'
    simp only [WASTE, WORD, ALIGN] at low low'
    rcases regions_apart h hmem hmem' hr with hle | hle <;> omega
  subst same
  exact ⟨rfl, (owned_same h hp hp').1⟩

theorem owned_of_carved {b : Int} {p : Nat} (hp : p ∈ carved b s.blocks) :
    ∃ r, Owned s p (bin2size b) r := by
  obtain ⟨x, hx, rfl, hpx⟩ := mem_carved.mp hp
  exact ⟨_, Or.inl ⟨x, hx, hpx, rfl, rfl⟩⟩

theorem owned_of_free (h : Inv s fl) {b : Int} (hb : IsBin b) {p : Nat} (hp : p ∈ fl b) :
    ∃ r, Owned s p (bin2size b) r :=
  owned_of_carved ((h.accounted b hb).mem_iff.mpr (List.mem_append_left _ hp))

theorem carved_of_live (h : Inv s fl) {l : Live} (hl : l ∈ s.live)
    (small : l.n ≤ bin2size (BINS - 1)) : l.ptr ∈ carved (size2bin l.n) s.blocks := by
  have hlive : l.ptr ∈ liveIn (size2bin l.n) s.live := mem_liveIn.mpr ⟨l, hl, rfl, rfl⟩
  exact (h.accounted _ (size2bin_isBin small)).mem_iff.mpr (List.mem_append_right _ hlive)

/-- The usable size of what the client holds. -/
theorem owned_of_live (h : Inv s fl) {l : Live} (hl : l ∈ s.live) :
    ∃ r, Owned s l.ptr (s.mem (l.ptr - WORD)) r ∧ l.n ≤ s.mem (l.ptr - WORD) := by
  by_cases small : l.n ≤ bin2size (BINS - 1)
  · obtain ⟨r, hr⟩ := owned_of_carved (carved_of_live h hl small)
    rw [h.headers _ _ _ hr]
    exact ⟨r, hr, le_bin2size small⟩
  · have ok := h.liveOk l hl
    rw [LiveOk, if_pos (Nat.not_le.mp small)] at ok
    have hr : Owned s l.ptr l.n _ := Or.inr ⟨l, hl, ok.2.2, rfl, rfl⟩
    rw [h.headers _ _ _ hr]
    exact ⟨_, hr, Nat.le_refl _⟩

theorem carved_bin_unique (h : Inv s fl) {b b' : Int} {p : Nat} (hp : p ∈ carved b s.blocks)
    (hp' : p ∈ carved b' s.blocks) : b = b' := by
  obtain ⟨x, hx, rfl, hpx⟩ := mem_carved.mp hp
  obtain ⟨x', hx', rfl, hpx'⟩ := mem_carved.mp hp'
  have same := (owned_unique h (Or.inl ⟨x, hx, hpx, rfl, rfl⟩)
    (Or.inl ⟨x', hx', hpx', rfl, rfl⟩)).1
  have nodup := h.regions.nodup_iff.mp (regions_nodup h)
  rw [List.inj_on_of_nodup_map (List.nodup_append.mp nodup).1 hx hx' same]

/-- No chunk is carved twice. -/
theorem carved_nodup (h : Inv s fl) (b : Int) : (carved b s.blocks).Nodup := by
  have nodup := h.regions.nodup_iff.mp (regions_nodup h)
  have hblocks := (List.nodup_append.mp nodup).1
  have distinct : (s.blocks.filter fun x => x.2 = b).Nodup := (List.Nodup.of_map _ hblocks).filter _
  refine List.nodup_flatMap.mpr ⟨fun x _ => chunksFrom_nodup _ _ _, ?_⟩
  refine distinct.imp_of_mem fun {x x'} hx hx' hne => ?_
  obtain ⟨hmem, hb⟩ := List.mem_filter.mp hx
  obtain ⟨hmem', hb'⟩ := List.mem_filter.mp hx'
  have hb := of_decide_eq_true hb
  have hb' := of_decide_eq_true hb'
  intro p hp hp'
  have same := (owned_unique h (Or.inl ⟨x, hmem, hb ▸ hp, rfl, rfl⟩)
    (Or.inl ⟨x', hmem', hb' ▸ hp', rfl, rfl⟩)).1
  exact hne (List.inj_on_of_nodup_map hblocks hmem hmem' same)

end DeepDB.Memmgr
