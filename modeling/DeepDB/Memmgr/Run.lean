import DeepDB.Memmgr.Preserve

/-!
The operations one by one: what each returns from a state in order, and the free lists it leaves.
-/

namespace DeepDB.Memmgr
open Chain

variable {s : State} {fl : Int → List Nat}

/-! ### mmap0 -/

theorem mmap0_cases (len : Nat) (s : State) :
    (∃ answers, mmap0 len s = (NULL, { s with answers })) ∨
      ∃ p answers mem', Fresh s.regions p len ∧
        (∀ a, ¬ (p ≤ a ∧ a < p + len) → mem' a = s.mem a) ∧
        mmap0 len s = (p, { s with answers, regions := (p, len) :: s.regions, mem := mem' }) := by
  unfold mmap0
  split
  · split
    · rename_i p contents answers _ fresh
      exact Or.inr ⟨p, answers, _, fresh, fun a ha => if_neg ha, rfl⟩
    · exact Or.inl ⟨_, rfl⟩
  · exact Or.inl ⟨_, rfl⟩
  · exact Or.inl ⟨s.answers, rfl⟩

theorem inv_answers (h : Inv s fl) (answers : List (Option (Nat × Mem))) :
    Inv { s with answers } fl :=
  { h with }

/-! ### malloc -/

theorem bin_of_nil (h : Inv s fl) {b : Int} (hb : IsBin b) (hfl : fl b = []) : s.bin b = NULL := by
  have hlist := h.lists b hb
  rwa [hfl] at hlist

/-- A list that is not empty serves its bin without the operating system. -/
theorem step_malloc_pop (h : Inv s fl) {n p : Nat} {l : List Nat}
    (small : n ≤ bin2size (BINS - 1)) (hfl : fl (size2bin n) = p :: l) :
    p ≠ NULL ∧ step s (.malloc n) =
      some ({ s with bin := Function.update s.bin (size2bin n) (s.mem p),
                     live := ⟨p, n, none⟩ :: s.live }, .ptr p) := by
  have hlist := h.lists _ (size2bin_isBin small)
  rw [hfl] at hlist
  obtain ⟨head, hne, -⟩ := hlist
  have served : malloc n s = some (popBin (size2bin n) p s) := by
    rw [malloc, if_neg (Nat.not_lt.mpr small), mallocSmall, head, if_neg hne]
  refine ⟨hne, ?_⟩
  simp only [step, served, popBin, Option.bind_eq_bind, Option.bind_some, if_neg hne,
    if_neg (Nat.not_lt.mpr small)]
  rfl

/-- An empty list is filled from a fresh block, or `malloc` returns NULL. -/
theorem step_malloc_fill (h : Inv s fl) {n : Nat} (small : n ≤ bin2size (BINS - 1))
    (hfl : fl (size2bin n) = []) :
    (∃ answers, step s (.malloc n) = some ({ s with answers }, .ptr NULL)) ∨
      ∃ p l s', p ≠ NULL ∧ step s (.malloc n) = some (s', .ptr p) ∧
        Inv s' (Function.update fl (size2bin n) l) := by
  have hb := size2bin_isBin small
  have empty := bin_of_nil h hb hfl
  rcases mmap0_cases BIGBLOCK s with ⟨answers, hmap⟩ | ⟨base, answers, mem', fresh, same, hmap⟩
  · refine Or.inl ⟨answers, ?_⟩
    have none : malloc n s = some (NULL, { s with answers }) := by
      rw [malloc, if_neg (Nat.not_lt.mpr small), mallocSmall, empty, if_pos rfl, fillBin, hmap]
      rfl
    simp only [step, none, Option.bind_eq_bind, Option.bind_some, if_true]
    rfl
  · obtain ⟨mem'', hlink, carve⟩ := inv_carve h hb fresh answers same
    rw [empty] at hlink
    obtain ⟨k, hk⟩ : ∃ k, nblocks (bin2size (size2bin n)) = k + 1 :=
      ⟨_, (Nat.sub_add_cancel (nblocks_pos hb)).symm⟩
    have hne : base + WASTE + WORD ≠ NULL := by simp only [NULL, WORD]; omega
    have hchunks : Function.update fl (size2bin n)
        (chunks base (size2bin n) ++ fl (size2bin n)) (size2bin n) = (base + WASTE + WORD) ::
          chunksFrom (bin2size (size2bin n)) k (base + WASTE + (bin2size (size2bin n) + WORD)) := by
      rw [Function.update_self, hfl, List.append_nil, chunks, hk]
      rfl
    have popped := inv_pop carve hb hchunks
    simp only [Function.update_idem] at popped
    refine Or.inr ⟨_, _, _, hne, ?_, popped⟩
    have filled : malloc n s = some (popBin (size2bin n) (base + WASTE + WORD)
        { s with mem := mem'', bin := Function.update s.bin (size2bin n) (base + WASTE + WORD),
                 regions := (base, BIGBLOCK) :: s.regions, answers,
                 blocks := (base, size2bin n) :: s.blocks }) := by
      rw [malloc, if_neg (Nat.not_lt.mpr small), mallocSmall, empty, if_pos rfl, fillBin, hmap]
      simp only [if_neg fresh.1, hlink, Option.bind_eq_bind, Option.bind_some]
      rfl
    simp only [step, filled, popBin, Option.bind_eq_bind, Option.bind_some, if_neg hne,
      if_neg (Nat.not_lt.mpr small), Function.update_idem]
    rfl

theorem step_malloc_large (h : Inv s fl) {n : Nat} (large : bin2size (BINS - 1) < n)
    (bound : n ≤ SIZE - 1 - (WASTE + WORD)) :
    (∃ answers, step s (.malloc n) = some ({ s with answers }, .ptr NULL)) ∨
      ∃ p s', p ≠ NULL ∧ step s (.malloc n) = some (s', .ptr p) ∧ Inv s' fl := by
  have len : (n + WASTE + WORD) % SIZE = n + WASTE + WORD := by
    refine Nat.mod_eq_of_lt ?_
    simp only [SIZE, WASTE, WORD, ALIGN] at bound ⊢
    omega
  rcases mmap0_cases (n + WASTE + WORD) s with ⟨answers, hmap⟩ | ⟨p, answers, mem', fresh, same, hmap⟩
  · refine Or.inl ⟨answers, ?_⟩
    have none : malloc n s = some (NULL, { s with answers }) := by
      rw [malloc, if_pos large, mallocLarge, len, hmap]
      rfl
    simp only [step, none, Option.bind_eq_bind, Option.bind_some, if_true]
    rfl
  · have hne : p + WASTE + WORD ≠ NULL := by simp only [NULL, WORD]; omega
    refine Or.inr ⟨_, _, hne, ?_, inv_large h large bound fresh answers same⟩
    have mapped : malloc n s = some (p + WASTE + WORD,
        { s with mem := Function.update mem' (p + WASTE) n,
                 regions := (p, n + WASTE + WORD) :: s.regions, answers }) := by
      rw [malloc, if_pos large, mallocLarge, len, hmap]
      simp only [if_neg fresh.1]
    simp only [step, mapped, Option.bind_eq_bind, Option.bind_some, if_neg hne, if_pos large]
    rfl

/-! ### free -/

theorem ptr_ne_null (h : Inv s fl) {l : Live} (hl : l ∈ s.live) : l.ptr ≠ NULL := by
  obtain ⟨r, hr, -⟩ := owned_of_live h hl
  have low := (owned_inside h hr).2.1
  simp only [NULL, WASTE, WORD, ALIGN] at low ⊢
  omega

/-- The header of a small chunk names its bin, whatever the request was. -/
theorem step_free_small (h : Inv s fl) {l : Live} (hl : l ∈ s.live)
    (small : l.n ≤ bin2size (BINS - 1)) :
    step s (.free l.ptr) =
      some ({ s with mem := Function.update s.mem l.ptr (s.bin (size2bin l.n)),
                     bin := Function.update s.bin (size2bin l.n) l.ptr,
                     live := s.live.filter fun x => x.ptr ≠ l.ptr }, .done) := by
  have hb := size2bin_isBin small
  obtain ⟨r, hr⟩ := owned_of_carved (carved_of_live h hl small)
  have freed : free l.ptr s = some (freeSmall l.ptr (bin2size (size2bin l.n)) s) := by
    rw [free, if_neg (ptr_ne_null h hl), h.headers _ _ _ hr, if_pos (bin2size_le hb)]
  simp only [step, freed, freeSmall, size2bin_bin2size hb, Option.bind_eq_bind, Option.bind_some]
  rfl

theorem step_free_large (h : Inv s fl) {l : Live} (hl : l ∈ s.live) {r : Nat × Nat}
    (hmap : l.mapped = some r) :
    step s (.free l.ptr) =
      some ({ s with regions := s.regions.erase r,
                     live := s.live.filter fun x => x.ptr ≠ l.ptr }, .done) := by
  obtain ⟨large, bound, hptr, hlen⟩ := liveOk_mapped (h.liveOk l hl) hmap
  have hr : Owned s l.ptr l.n r := Or.inr ⟨l, hl, hmap, rfl, rfl⟩
  have region : (l.ptr - (WASTE + WORD), (l.n + WASTE + WORD) % SIZE) = r := by
    rw [hptr, Nat.add_sub_cancel, Nat.mod_eq_of_lt, ← hlen]
    simp only [SIZE, WASTE, WORD, ALIGN] at bound ⊢
    omega
  have freed : free l.ptr s = some { s with regions := s.regions.erase r } := by
    rw [free, if_neg (ptr_ne_null h hl), h.headers _ _ _ hr, if_neg (Nat.not_le.mpr large),
      freeLarge, munmap, region, if_pos (owned_inside h hr).1]
  simp only [step, freed, Option.bind_eq_bind, Option.bind_some]
  rfl

theorem step_free_null (h : Inv s fl) : step s (.free NULL) = some (s, .done) := by
  have all : s.live.filter (fun l => l.ptr ≠ NULL) = s.live :=
    List.filter_eq_self.mpr fun l hl => decide_eq_true (ptr_ne_null h hl)
  simp only [step, free, if_true, Option.bind_eq_bind, Option.bind_some, all]
  rfl

/-! ### pre_fill and try_pre_fill -/

theorem preFill_carve {b : Int} {n p : Nat} (hb : size2bin n = b) {hd : Nat} {mem' : Mem}
    (hlink : listFromBlock (bin2size b) p (s.bin b) s.mem = some (hd, mem')) :
    preFill n p s = some { s with mem := mem', bin := Function.update s.bin b hd,
                                  blocks := (p, b) :: s.blocks } := by
  subst hb
  simp only [preFill, hlink, Option.bind_eq_bind, Option.bind_some]
  rfl

theorem length_chunks (base : Nat) (b : Int) : (chunks base b).length = nblocks (bin2size b) :=
  length_chunksFrom _ _ _

theorem step_preFill (h : Inv s fl) {n p : Nat} (small : n ≤ bin2size (BINS - 1))
    (fresh : Fresh s.regions p BIGBLOCK) :
    ∃ s', step s (.preFill n p) = some (s', .done) ∧
      Inv s' (Function.update fl (size2bin n) (chunks p (size2bin n) ++ fl (size2bin n))) := by
  obtain ⟨mem'', hlink, carve⟩ :=
    inv_carve h (size2bin_isBin small) fresh s.answers fun a _ => (rfl : s.mem a = s.mem a)
  refine ⟨_, ?_, carve⟩
  simp only [step, preFill_carve (s := { s with regions := (p, BIGBLOCK) :: s.regions }) rfl hlink,
    Option.bind_eq_bind, Option.bind_some]
  rfl

/-- What `pre_fill` may not be called with: the size of a large chunk divides by zero. -/
theorem step_preFill_large {n p : Nat} (large : bin2size (BINS - 1) < n) :
    step s (.preFill n p) = none := by
  have none : ∀ t : State, preFill n p t = none := by
    intro t
    rw [preFill, size2bin_large large]
    rfl
  simp only [step, none]
  rfl

/-- Rounds of the loop of `try_pre_fill`, with the blocks that were mapped. -/
inductive Filled (n : Nat) : State → List Nat → State → Prop where
  | nil (s : State) : Filled n s [] s
  | cons {s s₁ s₂ s' : State} {p : Nat} {ps : List Nat} : mmap0 BIGBLOCK s = (p, s₁) → p ≠ NULL →
      preFill n p s₁ = some s₂ → Filled n s₂ ps s' → Filled n s (p :: ps) s'

/-- Every round of `try_pre_fill` adds the chunks of one block to its bin, and the last one is
followed by one of the three exits. -/
theorem tryPreFillLoop_spec {n : Nat} (small : n ≤ bin2size (BINS - 1)) (req : Int)
    (rounds : Nat) (ful : Int) (h : Inv s fl) (hrounds : (req - ful).toNat < rounds) :
    ∃ ful' s' ps s₁ fl', tryPreFillLoop n req (nblocks (bin2size (size2bin n))) rounds ful s =
        some (ful', s') ∧ Inv s' fl' ∧ s'.live = s.live ∧
      ful' = ful + ps.length * nblocks (bin2size (size2bin n)) ∧
      fl' (size2bin n) = ps.reverse.flatMap (chunks · (size2bin n)) ++ fl (size2bin n) ∧
      (∀ b, b ≠ size2bin n → fl' b = fl b ∧ s'.bin b = s.bin b) ∧ Filled n s ps s₁ ∧
      (s' = s₁ ∧ (req ≤ ful' ∨ INT_MAX < ful' + nblocks (bin2size (size2bin n))) ∨
        mmap0 BIGBLOCK s₁ = (NULL, s')) := by
  have pos := nblocks_pos (size2bin_isBin small)
  induction rounds generalizing s fl ful with
  | zero => exact absurd hrounds (Nat.not_lt_zero _)
  | succ rounds ih =>
    have nothing : ful = ful + ([] : List Nat).length * nblocks (bin2size (size2bin n)) := by simp
    rw [tryPreFillLoop]
    split
    · rename_i open_
      split
      · rename_i full
        exact ⟨ful, s, [], s, fl, rfl, h, rfl, nothing, rfl, fun b _ => ⟨rfl, rfl⟩, .nil s,
          Or.inl ⟨rfl, Or.inr (by omega)⟩⟩
      · rcases mmap0_cases BIGBLOCK s with ⟨answers, hmap⟩ | ⟨p, answers, mem', fresh, same, hmap⟩
        · rw [hmap]
          exact ⟨ful, _, [], s, fl, rfl, inv_answers h answers, rfl, nothing, rfl,
            fun b _ => ⟨rfl, rfl⟩, .nil s, Or.inr hmap⟩
        · obtain ⟨mem'', hlink, carve⟩ := inv_carve h (size2bin_isBin small) fresh answers same
          have filled := preFill_carve (s := { s with
            answers, regions := (p, BIGBLOCK) :: s.regions, mem := mem' }) rfl hlink
          obtain ⟨ful', s', ps, s₁, fl', run, inv', live', count, list, others, rounds', exits⟩ :=
            ih (ful + nblocks (bin2size (size2bin n))) carve (by omega)
          rw [hmap]
          simp only [if_neg fresh.1]
          rw [filled, Option.bind_some]
          refine ⟨ful', s', p :: ps, s₁, fl', run, inv', live', ?_, ?_, fun b hne => ?_,
            .cons hmap fresh.1 filled rounds', exits⟩
          · rw [count, List.length_cons]
            push_cast
            ring
          · rw [list, Function.update_self, List.reverse_cons, List.flatMap_append,
              List.flatMap_singleton, List.append_assoc]
          · obtain ⟨kept, bin⟩ := others b hne
            rw [Function.update_of_ne hne] at kept
            exact ⟨kept, bin.trans (Function.update_of_ne hne _ _)⟩
    · rename_i done
      exact ⟨ful, s, [], s, fl, rfl, h, rfl, nothing, rfl, fun b _ => ⟨rfl, rfl⟩, .nil s,
        Or.inl ⟨rfl, Or.inl (by omega)⟩⟩

theorem length_flatMap_chunks (b : Int) (ps : List Nat) :
    (ps.flatMap (chunks · b)).length = ps.length * nblocks (bin2size b) := by
  induction ps with
  | nil => rw [List.flatMap_nil, List.length_nil, Nat.zero_mul]
  | cons p ps ih =>
    rw [List.flatMap_cons, List.length_append, length_chunks, ih, List.length_cons]
    ring

theorem step_tryPreFill (h : Inv s fl) (n : Nat) (req : Int) :
    ∃ ful s' fl', step s (.tryPreFill n req) = some (s', .count ful) ∧ Inv s' fl' ∧
      s'.live = s.live ∧ 0 ≤ ful ∧
      ∀ b, IsBin b → ((fl' b).length : Int) = (fl b).length + if b = size2bin n then ful else 0 := by
  by_cases large : bin2size (BINS - 1) < n
  · refine ⟨0, s, fl, ?_, h, rfl, Int.le_refl 0, fun b _ => ?_⟩
    · simp only [step, tryPreFill, if_pos large, Option.bind_eq_bind, Option.bind_some]
      rfl
    · split <;> omega
  · obtain ⟨ful, s', ps, s₁, fl', run, inv', live', count, list, others, -⟩ :=
      tryPreFillLoop_spec (Nat.not_lt.mp large) req (req.toNat + 1) 0 h (by omega)
    have length := congrArg List.length list
    rw [List.length_append, length_flatMap_chunks, List.length_reverse] at length
    refine ⟨ful, s', fl', ?_, inv', live', by omega, fun b _ => ?_⟩
    · simp only [step, tryPreFill, if_neg large, run, Option.bind_eq_bind, Option.bind_some]
      rfl
    · split
      · rename_i same
        rw [same]
        omega
      · rename_i hne
        rw [(others b hne).1]
        omega

end DeepDB.Memmgr
