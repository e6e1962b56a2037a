import DeepDB.Memmgr.Safety

/-!
The machine arithmetic of the memory manager. `malloc` computes its sizes modulo the values of
`size_t`, and a mapping whose length wraps around is shorter than the request. The counts of
`try_pre_fill` are of type `int`.
-/

namespace DeepDB.Memmgr
open Chain

variable {s : State} {fl : Int → List Nat}

/-! ### The sizes of malloc -/

/-- The sizes on the path of `malloc nbytes` are those without a modulus. -/
def SizesExact (nbytes : Nat) : Prop :=
  if bin2size (BINS - 1) < nbytes then nbytes + WASTE + WORD < SIZE
  else nbytes + (WORD * (ALIGN - 1) - 1) < SIZE ∧
    (bin2size (size2bin nbytes) : Int) = ((size2bin nbytes + 1) * ALIGN - 1) * WORD ∧
    bin2size (size2bin nbytes) + WORD < SIZE

/-- From `p` on there are `nbytes` bytes in a region that was mapped or handed to `pre_fill`, and the
client has none of them yet. -/
structure Usable (s s' : State) (p nbytes : Nat) : Prop where
  region : ∃ r ∈ s'.regions, r.1 + WORD ≤ p ∧ p + nbytes ≤ r.1 + r.2
  header : nbytes ≤ s'.mem (p - WORD)
  apart : ∀ l ∈ s.live, Apart (p, nbytes) (l.ptr, l.n)

structure MallocMeets (s : State) (nbytes : Nat) : Prop where
  exact : SizesExact nbytes
  returns : ∃ p s', malloc nbytes s = some (p, s')
  usable : ∀ p s', malloc nbytes s = some (p, s') → p = NULL ∨ Usable s s' p nbytes

theorem sizesExact_iff (nbytes : Nat) : SizesExact nbytes ↔ nbytes ≤ SIZE - 1 - (WASTE + WORD) := by
  unfold SizesExact
  split
  · simp only [SIZE, WASTE, WORD, ALIGN]
    omega
  · rename_i small
    have small := Nat.not_lt.mp small
    have size := bin2size_eq (size2bin_isBin small)
    have chunk := bin2size_le (size2bin_isBin small)
    rw [maxSmall_eq] at small chunk
    simp only [SIZE, WASTE, WORD, ALIGN]
    omega

theorem mmap0_live (len : Nat) (s : State) : (mmap0 len s).2.live = s.live := by
  unfold mmap0
  split
  · split <;> rfl
  · rfl
  · rfl

/-- The client's list is not the allocator's. -/
theorem malloc_live {nbytes p : Nat} {s' : State} (h : malloc nbytes s = some (p, s')) :
    s'.live = s.live := by
  unfold malloc at h
  split at h
  · unfold mallocLarge at h
    rw [← mmap0_live ((nbytes + WASTE + WORD) % SIZE) s]
    split at h
    rename_i q s₁ hmap
    rw [hmap]
    split at h
    · cases h
      rfl
    · cases h
      rfl
  · unfold mallocSmall at h
    dsimp only at h
    split at h
    · obtain ⟨⟨q, s₁⟩, filled, h⟩ := Option.bind_eq_some_iff.mp h
      have live : s₁.live = s.live := by
        unfold fillBin at filled
        rw [← mmap0_live BIGBLOCK s]
        split at filled
        rename_i base s₂ hmap
        rw [hmap]
        split at filled
        · cases filled
          rfl
        · obtain ⟨⟨l, mem⟩, -, filled⟩ := Option.bind_eq_some_iff.mp filled
          cases filled
          rfl
      rw [← live]
      dsimp only at h
      split at h
      · cases h
        rfl
      · cases h
        rfl
    · cases h
      rfl

/-- `malloc` keeps its promise exactly for the sizes that leave room for the header. -/
theorem mallocMeets_iff (h : Reachable s) (nbytes : Nat) :
    MallocMeets s nbytes ↔ nbytes ≤ SIZE - 1 - (WASTE + WORD) := by
  rw [← sizesExact_iff]
  constructor
  · exact MallocMeets.exact
  · intro exact
    have allowed : Allowed s (.malloc nbytes) := (sizesExact_iff nbytes).mp exact
    obtain ⟨fl, inv⟩ := reachable_inv h
    obtain ⟨s₁, r, run⟩ := step_defined inv allowed fun n p no => by cases no
    obtain ⟨⟨q, s₂⟩, served, -⟩ := Option.bind_eq_some_iff.mp run
    refine ⟨exact, ⟨q, s₂, served⟩, fun p s' given => ?_⟩
    by_cases null : p = NULL
    · exact Or.inl null
    apply Or.inr
    have live := malloc_live given
    obtain ⟨mapped, taken⟩ : ∃ mapped, step s (.malloc nbytes) =
        some ({ s' with live := ⟨p, nbytes, mapped⟩ :: s'.live }, .ptr p) := by
      simp only [step, given, Option.bind_eq_bind, Option.bind_some, if_neg null]
      exact ⟨_, rfl⟩
    obtain ⟨fl', inv', -⟩ := step_inv inv allowed taken
    have safe := inv_safe inv'
    have first : (⟨p, nbytes, mapped⟩ : Live) ∈ (⟨p, nbytes, mapped⟩ : Live) :: s'.live :=
      List.mem_cons_self
    have header := safe.header _ first
    have atHand : AtHand { s' with live := ⟨p, nbytes, mapped⟩ :: s'.live } fl' p
        (s'.mem (p - WORD)) := Or.inl ⟨⟨p, nbytes, mapped⟩, first, rfl, rfl⟩
    obtain ⟨⟨r, region, low, high⟩, -⟩ := safe.inside _ _ atHand
    refine ⟨⟨r, region, low, Nat.le_trans (Nat.add_le_add_left header p) high⟩, header, fun l hl => ?_⟩
    have hl : l ∈ s'.live := live ▸ hl
    have other : l ∈ (⟨p, nbytes, mapped⟩ : Live) :: s'.live := List.mem_cons_of_mem _ hl
    have ne : p ≠ l.ptr := by
      have distinct := safe.liveOnce
      rw [List.map_cons, List.nodup_cons] at distinct
      exact fun same => distinct.1 (List.mem_map.mpr ⟨l, hl, same.symm⟩)
    have room := safe.header _ other
    have apart := safe.apart _ _ _ _ atHand (Or.inl ⟨l, other, rfl, rfl⟩) ne
    have below := (safe.inside _ _ (Or.inl ⟨l, other, rfl, rfl⟩)).1
    obtain ⟨r', -, low', -⟩ := below
    simp only [Apart] at apart header room ⊢
    omega

theorem mallocMeets_thousand : MallocMeets (start (fun _ => 0) [some (16, fun _ => 0)]) 1000 :=
  (mallocMeets_iff (.start _ _) 1000).mpr (by decide)

/-- The mapping for the greatest size has fifteen bytes. -/
theorem malloc_greatest :
    (∃ s', malloc (SIZE - 1) (start (fun _ => 0) [some (16, fun _ => 0)]) = some (32, s') ∧
      s'.regions = [(16, 15)]) ∧
    ¬ ∀ s, Reachable s → ∀ nbytes, nbytes < SIZE → MallocMeets s nbytes := by
  have given : malloc (SIZE - 1) (start (fun _ => 0) [some (16, fun _ => 0)]) = some (32, _) := rfl
  refine ⟨⟨_, given, rfl⟩, fun all => ?_⟩
  have meets := all _ (.start (fun _ => 0) [some (16, fun _ => 0)]) (SIZE - 1) (by decide)
  rcases meets.usable _ _ given with null | usable
  · cases null
  · obtain ⟨r, region, -, high⟩ := usable.region
    obtain rfl := List.mem_singleton.mp region
    exact absurd high (by decide)

/-! ### The counts of try_pre_fill -/

def INT_MIN : Int := -2 ^ 31

/-- The value of an `int` expression, none when it overflows. -/
def checkInt (x : Int) : Option Int := if INT_MIN ≤ x ∧ x ≤ INT_MAX then some x else none

/-- `bin2size` with its `int` arithmetic checked. -/
def bin2sizeChecked (b : Int) : Option Nat := do
  let next ← checkInt (b + 1)
  let twice ← checkInt (next * ALIGN)
  let words ← checkInt (twice - 1)
  let size ← checkInt (words * WORD)
  return (size % SIZE).toNat

/-- The loop of `list_from_block` from its counter `j` on. -/
def linkBlocksChecked (s : Nat) (tl : Nat) : (rounds : Nat) → (j : Int) → (q : Nat) → Mem → Option Mem
  | 0, _, q, mem => some (Function.update (Function.update mem q s) (q + WORD) tl)
  | rounds + 1, j, q, mem => do
    let j ← checkInt (j + 1)
    linkBlocksChecked s tl rounds j (q + (s + WORD))
      (Function.update (Function.update mem q s) (q + WORD) (q + WORD + (s + WORD)))

def listFromBlockChecked (s : Nat) (p tl : Nat) (mem : Mem) : Option (Nat × Mem) :=
  if 0 < nblocks s then do
    let last ← checkInt (nblocks s - 1)
    let mem ← linkBlocksChecked s tl last.toNat 0 (p + WASTE) mem
    return (p + WASTE + WORD, mem)
  else none

def preFillChecked (n : Nat) (p : Nat) (s : State) : Option State := do
  let b := size2bin n
  let size ← bin2sizeChecked b
  let (l, mem) ← listFromBlockChecked size p (s.bin b) s.mem
  return { s with mem, bin := Function.update s.bin b l, blocks := (p, b) :: s.blocks }

def tryPreFillLoopChecked (n : Nat) (req chunks : Int) : (rounds : Nat) → (ful : Int) → State →
    Option (Int × State)
  | 0, _, _ => none
  | rounds + 1, ful, s => do
    let rest ← checkInt (req - ful)
    if 0 < rest then
      let room ← checkInt (INT_MAX - ful)
      if room < chunks then return (ful, s)
      else
        let (p, s) := mmap0 BIGBLOCK s
        if p = NULL then return (ful, s)
        else
          let s ← preFillChecked n p s
          let ful ← checkInt (ful + chunks)
          tryPreFillLoopChecked n req chunks rounds ful s
    else return (ful, s)

/-- `try_pre_fill` with its `int` arithmetic checked. -/
def tryPreFillChecked (n : Nat) (req : Int) (s : State) : Option (Int × State) := do
  let most ← bin2sizeChecked (BINS - 1)
  if most < n then return (0, s)
  else
    let size ← bin2sizeChecked (size2bin n)
    let chunks ← checkInt (nblocks size)
    tryPreFillLoopChecked n req chunks (req.toNat + 1) 0 s

theorem checkInt_some {x : Int} (low : INT_MIN ≤ x) (high : x ≤ INT_MAX) : checkInt x = some x :=
  if_pos ⟨low, high⟩

theorem bin2sizeChecked_eq {b : Int} (hb : IsBin b) : bin2sizeChecked b = some (bin2size b) := by
  obtain ⟨low, high⟩ := hb
  simp only [BINS] at high
  have range : ∀ x : Int, -1 ≤ x → x ≤ 1000 → checkInt x = some x := by
    intro x low high
    apply checkInt_some
    · simp only [INT_MIN]
      omega
    · simp only [INT_MAX]
      omega
  unfold bin2sizeChecked
  rw [range _ (by omega) (by omega)]
  simp only [Option.bind_eq_bind, Option.bind_some, ALIGN, WORD]
  rw [range _ (by omega) (by omega), Option.bind_some, range _ (by omega) (by omega), Option.bind_some,
    range _ (by omega) (by omega)]
  rfl

theorem linkBlocksChecked_eq {size tl q rounds : Nat} {j : Int} {mem : Mem} (nonneg : 0 ≤ j)
    (room : j + rounds ≤ INT_MAX) :
    linkBlocksChecked size tl rounds j q mem = some (linkBlocks size tl rounds q mem) := by
  induction rounds generalizing j q mem with
  | zero => rfl
  | succ rounds ih =>
    have next : checkInt (j + 1) = some (j + 1) :=
      checkInt_some (by simp only [INT_MIN]; omega) (by omega)
    rw [linkBlocksChecked, next, Option.bind_eq_bind, Option.bind_some, linkBlocks]
    exact ih (by omega) (by omega)

theorem nblocks_le (size : Nat) : (nblocks size : Int) ≤ BIGBLOCK := by
  have bound : nblocks size ≤ BIGBLOCK - WASTE := Nat.div_le_self _ _
  omega

theorem listFromBlockChecked_eq (size p tl : Nat) (mem : Mem) :
    listFromBlockChecked size p tl mem = listFromBlock size p tl mem := by
  unfold listFromBlockChecked listFromBlock
  split
  · rename_i pos
    have few := nblocks_le size
    have most : (BIGBLOCK : Int) ≤ INT_MAX := by decide
    have last : checkInt (nblocks size - 1) = some ((nblocks size - 1 : Nat) : Int) := by
      rw [checkInt_some (by simp only [INT_MIN]; omega) (by omega), Int.ofNat_sub pos]
      rfl
    rw [last, Option.bind_eq_bind, Option.bind_some, Int.toNat_natCast,
      linkBlocksChecked_eq (Int.le_refl 0) (by omega)]
    rfl
  · rfl

theorem preFillChecked_eq {n : Nat} (small : n ≤ bin2size (BINS - 1)) (p : Nat) (s : State) :
    preFillChecked n p s = preFill n p s := by
  unfold preFillChecked preFill
  dsimp only
  rw [bin2sizeChecked_eq (size2bin_isBin small)]
  simp only [Option.bind_eq_bind, Option.bind_some, listFromBlockChecked_eq]

/-- The count stays between 0 and `INT_MAX`, so the loop has no overflow. -/
theorem tryPreFillLoopChecked_eq {n : Nat} (small : n ≤ bin2size (BINS - 1)) {req chunks ful : Int}
    {rounds : Nat} {s : State} (low : 0 ≤ req) (high : req ≤ INT_MAX) (positive : 0 ≤ chunks)
    (nonneg : 0 ≤ ful) (bound : ful ≤ INT_MAX) :
    tryPreFillLoopChecked n req chunks rounds ful s = tryPreFillLoop n req chunks rounds ful s := by
  have least : INT_MIN ≤ -INT_MAX := by decide
  induction rounds generalizing ful s with
  | zero => rfl
  | succ rounds ih =>
    have rest : checkInt (req - ful) = some (req - ful) := checkInt_some (by omega) (by omega)
    have room : checkInt (INT_MAX - ful) = some (INT_MAX - ful) := checkInt_some (by omega) (by omega)
    unfold tryPreFillLoopChecked tryPreFillLoop
    rw [rest, Option.bind_eq_bind, Option.bind_some]
    split
    · rw [room, Option.bind_some]
      split
      · rfl
      · rename_i fits
        have sum : checkInt (ful + chunks) = some (ful + chunks) := checkInt_some (by omega) (by omega)
        rcases mmap0 BIGBLOCK s with ⟨p, s₁⟩
        dsimp only
        split
        · rfl
        · rw [preFillChecked_eq small]
          congr 1
          funext s₂
          rw [sum, Option.bind_some]
          exact ih (by omega) (by omega)
    · rfl

/-- What `try_pre_fill` has done when it returns `ful`: as many chunks are on the list of the bin in
front of the old ones, and they are enough unless a block more would not fit into an `int` or could not
be mapped. -/
structure Accounts (s s' : State) (n : Nat) (req ful : Int) : Prop where
  lists : ∃ free free' : Int → List Nat, (∀ b, IsBin b → Linked s.mem NULL (s.bin b) (free b)) ∧
    (∀ b, IsBin b → Linked s'.mem NULL (s'.bin b) (free' b)) ∧
    (∃ new : List Nat, (new.length : Int) = ful ∧ free' (size2bin n) = new ++ free (size2bin n)) ∧
    ∀ b, b ≠ size2bin n → free' b = free b ∧ s'.bin b = s.bin b
  enough : req ≤ ful ∨ INT_MAX < ful + nblocks (bin2size (size2bin n)) ∨
    ∃ ps s₁, Filled n s ps s₁ ∧ mmap0 BIGBLOCK s₁ = (NULL, s')

theorem tryPreFill_accounts (h : Reachable s) (n : Nat) (small : n ≤ bin2size (BINS - 1)) (req : Int)
    (low : 0 ≤ req) (high : req ≤ INT_MAX) :
    ∃ ful s', tryPreFill n req s = some (ful, s') ∧ Accounts s s' n req ful ∧
      tryPreFillChecked n req s = some (ful, s') := by
  obtain ⟨fl, inv⟩ := reachable_inv h
  obtain ⟨ful, s', ps, s₁, fl', run, inv', -, count, list, others, rounds, exits⟩ :=
    tryPreFillLoop_spec small req (req.toNat + 1) 0 inv (by omega)
  have whole : tryPreFill n req s = some (ful, s') := by
    rw [tryPreFill, if_neg (Nat.not_lt.mpr small), run]
  refine ⟨ful, s', whole, ⟨?_, ?_⟩, ?_⟩
  · refine ⟨fl, fl', inv.lists, inv'.lists, ⟨_, ?_, list⟩, others⟩
    rw [length_flatMap_chunks, List.length_reverse, count]
    omega
  · rcases exits with ⟨-, enough | more⟩ | failed
    · exact Or.inl enough
    · exact Or.inr (Or.inl more)
    · exact Or.inr (Or.inr ⟨ps, s₁, rounds, failed⟩)
  · have few := nblocks_le (bin2size (size2bin n))
    have most : (BIGBLOCK : Int) ≤ INT_MAX := by decide
    have chunks : checkInt (nblocks (bin2size (size2bin n))) = _ :=
      checkInt_some (by simp only [INT_MIN]; omega) (few.trans most)
    have greatest : IsBin (BINS - 1) := ⟨by decide, by decide⟩
    rw [← whole, tryPreFill, tryPreFillChecked, bin2sizeChecked_eq greatest,
      bin2sizeChecked_eq (size2bin_isBin small)]
    simp only [Option.bind_eq_bind, Option.bind_some, if_neg (Nat.not_lt.mpr small), chunks]
    exact tryPreFillLoopChecked_eq small low high (Int.natCast_nonneg _) (Int.le_refl 0) (by decide)

theorem tryPreFill_accounts_hundred :
    ∃ ful s', tryPreFill 100 1 (start (fun _ => 0) [some (16, fun _ => 0)]) = some (ful, s') ∧
      Accounts (start (fun _ => 0) [some (16, fun _ => 0)]) s' 100 1 ful ∧
      tryPreFillChecked 100 1 (start (fun _ => 0) [some (16, fun _ => 0)]) = some (ful, s') :=
  tryPreFill_accounts (.start _ _) 100 (by decide) 1 (by decide) (by decide)

end DeepDB.Memmgr
