import DeepDB.Memmgr.Run

/-!
Every run of the memory manager: the chunks stay apart, none is lost, and the free lists hold what
`pre_fill` and `free` put there.
-/

namespace DeepDB.Memmgr
open Chain

variable {s : State} {fl : Int → List Nat}

/-! ### Runs -/

def takes (b : Int) : Op → Bool
  | .malloc n => size2bin n = b
  | _ => false

/-- One step keeps the invariant, and a free list gets shorter by a `malloc` of its bin only. -/
theorem step_inv (h : Inv s fl) {op : Op} (allowed : Allowed s op) {s' : State} {r : Result}
    (hstep : step s op = some (s', r)) :
    ∃ fl', Inv s' fl' ∧
      ∀ b, IsBin b → (fl b).length ≤ (fl' b).length + if takes b op then 1 else 0 := by
  cases op with
  | malloc n =>
    by_cases small : n ≤ bin2size (BINS - 1)
    · cases hfl : fl (size2bin n) with
      | nil =>
        rcases step_malloc_fill h small hfl with ⟨answers, run⟩ | ⟨p, l, s₁, -, run, inv⟩
        · rw [run] at hstep
          cases hstep
          exact ⟨fl, inv_answers h answers, fun b _ => Nat.le_add_right _ _⟩
        · rw [run] at hstep
          cases hstep
          refine ⟨_, inv, fun b _ => ?_⟩
          by_cases same : b = size2bin n
          · subst same
            rw [hfl]
            exact Nat.zero_le _
          · rw [Function.update_of_ne same]
            exact Nat.le_add_right _ _
      | cons p l =>
        obtain ⟨-, run⟩ := step_malloc_pop h small hfl
        rw [run] at hstep
        cases hstep
        refine ⟨_, inv_pop h (size2bin_isBin small) hfl, fun b _ => ?_⟩
        by_cases same : b = size2bin n
        · subst same
          simp [takes, hfl]
        · rw [Function.update_of_ne same]
          exact Nat.le_add_right _ _
    · rcases step_malloc_large h (Nat.not_le.mp small) allowed with
        ⟨answers, run⟩ | ⟨p, s₁, -, run, inv⟩
      · rw [run] at hstep
        cases hstep
        exact ⟨fl, inv_answers h answers, fun b _ => Nat.le_add_right _ _⟩
      · rw [run] at hstep
        cases hstep
        exact ⟨fl, inv, fun b _ => Nat.le_add_right _ _⟩
  | free p =>
    rcases allowed with rfl | ⟨l, hl, rfl⟩
    · rw [step_free_null h] at hstep
      cases hstep
      exact ⟨fl, h, fun b _ => Nat.le_add_right _ _⟩
    · by_cases small : l.n ≤ bin2size (BINS - 1)
      · rw [step_free_small h hl small] at hstep
        cases hstep
        refine ⟨_, inv_push h hl (size2bin_isBin small), fun b _ => ?_⟩
        by_cases same : b = size2bin l.n
        · subst same
          rw [Function.update_self, List.length_cons]
          omega
        · rw [Function.update_of_ne same]
          exact Nat.le_add_right _ _
      · have ok := h.liveOk l hl
        rw [LiveOk, if_pos (Nat.not_le.mp small)] at ok
        rw [step_free_large h hl ok.2.2] at hstep
        cases hstep
        exact ⟨fl, inv_unmap h hl ok.2.2, fun b _ => Nat.le_add_right _ _⟩
  | preFill n p =>
    by_cases small : n ≤ bin2size (BINS - 1)
    · obtain ⟨s₁, run, inv⟩ := step_preFill h small allowed.2
      rw [run] at hstep
      cases hstep
      refine ⟨_, inv, fun b _ => ?_⟩
      by_cases same : b = size2bin n
      · subst same
        rw [Function.update_self, List.length_append]
        omega
      · rw [Function.update_of_ne same]
        exact Nat.le_add_right _ _
    · rw [step_preFill_large (Nat.not_le.mp small)] at hstep
      cases hstep
  | tryPreFill n req =>
    obtain ⟨ful, s₁, fl', run, inv, -, nonneg, count⟩ := step_tryPreFill h n req
    rw [run] at hstep
    cases hstep
    refine ⟨fl', inv, fun b hb => ?_⟩
    have := count b hb
    split at this <;> omega
  | write p contents =>
    obtain ⟨l, hl, rfl⟩ := allowed
    cases hstep
    exact ⟨fl, inv_write h hl contents, fun b _ => Nat.le_add_right _ _⟩

theorem start_inv (mem : Mem) (answers : List (Option (Nat × Mem))) :
    Inv (start mem answers) fun _ => [] where
  lists := fun _ _ => rfl
  accounted := fun _ _ => List.Perm.refl _
  bins := fun _ h => absurd h List.not_mem_nil
  regions := List.Perm.refl _
  apart := List.Pairwise.nil
  mapped := fun _ h => absurd h List.not_mem_nil
  liveOk := fun _ h => absurd h List.not_mem_nil
  distinct := List.nodup_nil
  headers := by
    rintro p sz r (⟨x, hx, -⟩ | ⟨l, hl, -⟩)
    · exact absurd hx List.not_mem_nil
    · exact absurd hl List.not_mem_nil

theorem reachable_inv (h : Reachable s) : ∃ fl, Inv s fl := by
  induction h with
  | start mem answers => exact ⟨_, start_inv mem answers⟩
  | step _ allowed hstep ih =>
    obtain ⟨fl, inv⟩ := ih
    obtain ⟨fl', inv', -⟩ := step_inv inv allowed hstep
    exact ⟨fl', inv'⟩

/-! ### Safety -/

/-- The chunks at hand: `p` has `sz` usable bytes and is live or on a free list. -/
def AtHand (s : State) (free : Int → List Nat) (p sz : Nat) : Prop :=
  (∃ l ∈ s.live, l.ptr = p ∧ s.mem (p - WORD) = sz) ∨
    ∃ b, IsBin b ∧ p ∈ free b ∧ bin2size b = sz

structure Safe (s : State) (free : Int → List Nat) : Prop where
  ended : ∀ b, IsBin b → Linked s.mem NULL (s.bin b) (free b)
  acyclic : ∀ b, IsBin b → (free b).Nodup
  apart : ∀ p sz p' sz', AtHand s free p sz → AtHand s free p' sz' → p ≠ p' →
    Apart (p - WORD, sz + WORD) (p' - WORD, sz' + WORD)
  inside : ∀ p sz, AtHand s free p sz →
    (∃ r ∈ s.regions, r.1 + WORD ≤ p ∧ p + sz ≤ r.1 + r.2) ∧ p % (WORD * ALIGN) = 0
  header : ∀ l ∈ s.live, l.n ≤ s.mem (l.ptr - WORD)
  carvedOnce : ∀ b, IsBin b → (carved b s.blocks).Nodup
  carvedApart : ∀ b b', IsBin b → IsBin b' → b ≠ b' →
    (carved b s.blocks).Disjoint (carved b' s.blocks)
  placed : ∀ b, IsBin b → (carved b s.blocks).Perm (free b ++ liveIn b s.live)
  liveOnce : (s.live.map Live.ptr).Nodup
  liveTaken : ∀ l ∈ s.live, ∀ b, IsBin b → l.ptr ∉ free b
  unmaps : ∀ l ∈ s.live, bin2size (BINS - 1) < l.n → ∃ r ∈ s.regions, l.mapped = some r ∧
    ∃ s', step s (.free l.ptr) = some (s', .done) ∧ s'.regions = s.regions.erase r
  regionsOnce : s.regions.Nodup

theorem owned_of_atHand (h : Inv s fl) {p sz : Nat} (hp : AtHand s fl p sz) :
    ∃ r, Owned s p sz r := by
  rcases hp with ⟨l, hl, rfl, rfl⟩ | ⟨b, hb, hp, rfl⟩
  · obtain ⟨r, hr, -⟩ := owned_of_live h hl
    exact ⟨r, hr⟩
  · exact owned_of_free h hb hp

theorem inv_safe (h : Inv s fl) : Safe s fl where
  ended := h.lists
  acyclic := fun b hb => linked_nodup (h.lists b hb)
  apart := by
    intro p sz p' sz' hp hp' hne
    obtain ⟨r, hr⟩ := owned_of_atHand h hp
    obtain ⟨r', hr'⟩ := owned_of_atHand h hp'
    exact owned_apart h hr hr' hne
  inside := by
    intro p sz hp
    obtain ⟨r, hr⟩ := owned_of_atHand h hp
    obtain ⟨hmem, low, high, aligned⟩ := owned_inside h hr
    exact ⟨⟨r, hmem, by omega, high⟩, aligned⟩
  header := fun l hl => (owned_of_live h hl).choose_spec.2
  carvedOnce := fun b _ => carved_nodup h b
  carvedApart := fun b b' _ _ hne p hp hp' => hne (carved_bin_unique h hp hp')
  placed := h.accounted
  liveOnce := h.distinct
  liveTaken := fun l hl b hb hq => free_ne_live h hb hq hl rfl
  unmaps := by
    intro l hl large
    have ok := h.liveOk l hl
    rw [LiveOk, if_pos large] at ok
    exact ⟨_, (owned_inside h (Or.inr ⟨l, hl, ok.2.2, rfl, rfl⟩)).1, ok.2.2, _,
      step_free_large h hl ok.2.2, rfl⟩
  regionsOnce := regions_nodup h

/-- Nothing a client may do is without a value, but for filling a bin with large chunks. -/
theorem step_defined (h : Inv s fl) {op : Op} (allowed : Allowed s op)
    (inRange : ∀ n p, op = .preFill n p → n ≤ bin2size (BINS - 1)) :
    ∃ s' r, step s op = some (s', r) := by
  cases op with
  | malloc n =>
    by_cases small : n ≤ bin2size (BINS - 1)
    · cases hfl : fl (size2bin n) with
      | nil =>
        rcases step_malloc_fill h small hfl with ⟨answers, run⟩ | ⟨p, l, s₁, -, run, -⟩
        · exact ⟨_, _, run⟩
        · exact ⟨_, _, run⟩
      | cons p l => exact ⟨_, _, (step_malloc_pop h small hfl).2⟩
    · rcases step_malloc_large h (Nat.not_le.mp small) allowed with
        ⟨answers, run⟩ | ⟨p, s₁, -, run, -⟩
      · exact ⟨_, _, run⟩
      · exact ⟨_, _, run⟩
  | free p =>
    rcases allowed with rfl | ⟨l, hl, rfl⟩
    · exact ⟨_, _, step_free_null h⟩
    · by_cases small : l.n ≤ bin2size (BINS - 1)
      · exact ⟨_, _, step_free_small h hl small⟩
      · have ok := h.liveOk l hl
        rw [LiveOk, if_pos (Nat.not_le.mp small)] at ok
        exact ⟨_, _, step_free_large h hl ok.2.2⟩
  | preFill n p =>
    obtain ⟨s', run, -⟩ := step_preFill h (inRange n p rfl) allowed.2
    exact ⟨s', _, run⟩
  | tryPreFill n req =>
    obtain ⟨ful, s', fl', run, -⟩ := step_tryPreFill h n req
    exact ⟨s', _, run⟩
  | write p contents => exact ⟨_, _, rfl⟩

/-- In every state that the client can reach the chunks are safe, and all that it may do has a value; the
size that it gives `pre_fill` must be that of a small chunk. -/
theorem memmgr_safe (h : Reachable s) :
    ∃ free, Safe s free ∧
      ∀ op, Allowed s op → (∀ n p, op = .preFill n p → n ≤ bin2size (BINS - 1)) →
        ∃ s' r, step s op = some (s', r) := by
  obtain ⟨fl, inv⟩ := reachable_inv h
  exact ⟨fl, inv_safe inv, fun op allowed inRange => step_defined inv allowed inRange⟩

/-- One large chunk in the first region. -/
theorem memmgr_safe_large :
    ∃ s, s.live.map Live.ptr = [32] ∧ ∃ free, Safe s free ∧
      ∀ op, Allowed s op → (∀ n p, op = .preFill n p → n ≤ bin2size (BINS - 1)) →
        ∃ s' r, step s op = some (s', r) := by
  have run : step (start (fun _ => 0) [some (16, fun _ => 7)]) (.malloc 1000) =
      some (((step (start (fun _ => 0) [some (16, fun _ => 7)]) (.malloc 1000)).get rfl).1,
        .ptr 32) := rfl
  exact ⟨_, rfl, memmgr_safe (.step (.start _ _) (show 1000 ≤ _ by decide) run)⟩

/-- A fresh block for chunks of 800 bytes, one word above the largest small chunk. -/
theorem step_preFill_eightHundred :
    Allowed (start (fun _ => 0) []) (.preFill 800 16) ∧
      step (start (fun _ => 0) []) (.preFill 800 16) = none ∧
      ¬∀ s, Reachable s → ∃ free, Safe s free ∧
        ∀ op, Allowed s op → ∃ s' r, step s op = some (s', r) := by
  have allowed : Allowed (start (fun _ => 0) []) (.preFill 800 16) := by
    refine ⟨by decide, by decide, by decide, by decide, ?_⟩
    exact fun r no => absurd no List.not_mem_nil
  have stuck : step (start (fun _ => 0) []) (.preFill 800 16) = none :=
    step_preFill_large (by decide)
  refine ⟨allowed, stuck, fun safe => ?_⟩
  obtain ⟨-, -, defined⟩ := safe _ (.start (fun _ => 0) [])
  obtain ⟨s', r, run⟩ := defined _ allowed
  rw [stuck] at run
  cases run

/-! ### Resources -/

/-- The number of chunks on each free list. -/
def Resources (s : State) (rv : Int → Nat) : Prop :=
  ∀ b, IsBin b → ∃ l, Linked s.mem NULL (s.bin b) l ∧ l.length = rv b

theorem inv_resources (h : Inv s fl) : Resources s fun b => (fl b).length :=
  fun b hb => ⟨fl b, h.lists b hb, rfl⟩

theorem resources_update {b : Int} {l : List Nat} {k : Nat}
    (h : Inv s (Function.update fl b l)) (hk : l.length = k) :
    Resources s (Function.update (fun b => (fl b).length) b k) := by
  subst hk
  intro b' hb'
  refine ⟨_, h.lists b' hb', ?_⟩
  by_cases same : b' = b
  · subst same
    rw [Function.update_self, Function.update_self]
  · rw [Function.update_of_ne same, Function.update_of_ne same]

inductive Run : State → List (Op × Result) → State → Prop where
  | nil (s : State) : Run s [] s
  | cons {s s₁ s' : State} {op : Op} {r : Result} {es : List (Op × Result)} : Allowed s op →
      step s op = some (s₁, r) → Run s₁ es s' → Run s ((op, r) :: es) s'

def mallocs (b : Int) (es : List (Op × Result)) : Nat := es.countP fun e => takes b e.1

/-- What a run takes from a free list are its calls of `malloc`. -/
theorem run_inv {es : List (Op × Result)} {s' : State} (run : Run s es s') (h : Inv s fl) :
    ∃ fl', Inv s' fl' ∧ ∀ b, IsBin b → (fl b).length ≤ (fl' b).length + mallocs b es := by
  induction run generalizing fl with
  | nil s => exact ⟨fl, h, fun b _ => Nat.le_add_right _ _⟩
  | cons allowed hstep _ ih =>
    obtain ⟨fl₁, h₁, first⟩ := step_inv h allowed hstep
    obtain ⟨fl', h', rest⟩ := ih h₁
    refine ⟨fl', h', fun b hb => ?_⟩
    have shorter := first b hb
    have shorterRest := rest b hb
    rw [mallocs, List.countP_cons]
    rw [mallocs] at shorterRest
    simp only at shorter ⊢
    omega

theorem malloc_of_pos (h : Inv s fl) {n : Nat} (small : n ≤ bin2size (BINS - 1))
    (pos : 0 < (fl (size2bin n)).length) :
    ∃ s' p, step s (.malloc n) = some (s', .ptr p) ∧ p ≠ NULL ∧ s'.answers = s.answers ∧
      s'.regions = s.regions ∧
      Resources s' (Function.update (fun b => (fl b).length) (size2bin n)
        ((fl (size2bin n)).length - 1)) := by
  obtain ⟨p, l, hfl⟩ := List.exists_cons_of_length_pos pos
  obtain ⟨hne, run⟩ := step_malloc_pop h small hfl
  refine ⟨_, p, run, hne, rfl, rfl, resources_update (inv_pop h (size2bin_isBin small) hfl) ?_⟩
  rw [hfl, List.length_cons, Nat.add_sub_cancel]

/-- The accounts of the free lists are exact, and what `try_pre_fill` promises is there when it is
wanted, whatever else happens in between. -/
theorem memmgr_resources (h : Reachable s) :
    ∃ rv, Resources s rv ∧
      (∀ n, n ≤ bin2size (BINS - 1) → 0 < rv (size2bin n) →
        ∃ s' p, step s (.malloc n) = some (s', .ptr p) ∧ p ≠ NULL ∧ s'.answers = s.answers ∧
          s'.regions = s.regions ∧
          Resources s' (Function.update rv (size2bin n) (rv (size2bin n) - 1))) ∧
      (∀ l ∈ s.live, l.n ≤ bin2size (BINS - 1) →
        ∃ s', step s (.free l.ptr) = some (s', .done) ∧
          Resources s' (Function.update rv (size2bin l.n) (rv (size2bin l.n) + 1))) ∧
      (∀ n p, n ≤ bin2size (BINS - 1) → Fresh s.regions p BIGBLOCK →
        ∃ s', step s (.preFill n p) = some (s', .done) ∧
          Resources s' (Function.update rv (size2bin n)
            (rv (size2bin n) + nblocks (bin2size (size2bin n))))) ∧
      ∀ n req, ∃ s' ful, step s (.tryPreFill n req) = some (s', .count ful) ∧ 0 ≤ ful ∧
        Resources s' (Function.update rv (size2bin n) (rv (size2bin n) + ful.toNat)) ∧
        ∀ es s₁, Run s' es s₁ → (mallocs (size2bin n) es : Int) < ful →
          ∀ m, size2bin m = size2bin n →
            ∃ s₂ p, step s₁ (.malloc m) = some (s₂, .ptr p) ∧ p ≠ NULL := by
  obtain ⟨fl, inv⟩ := reachable_inv h
  refine ⟨fun b => (fl b).length, inv_resources inv, fun n small pos => malloc_of_pos inv small pos,
    fun l hl small => ?_, fun n p small fresh => ?_, fun n req => ?_⟩
  · exact ⟨_, step_free_small inv hl small,
      resources_update (inv_push inv hl (size2bin_isBin small)) List.length_cons⟩
  · obtain ⟨s', run, inv'⟩ := step_preFill inv small fresh
    refine ⟨s', run, resources_update inv' ?_⟩
    rw [List.length_append, length_chunks, Nat.add_comm]
  · obtain ⟨ful, s', fl', run, inv', -, nonneg, count⟩ := step_tryPreFill inv n req
    refine ⟨s', ful, run, nonneg, fun b hb => ⟨fl' b, inv'.lists b hb, ?_⟩, ?_⟩
    · have := count b hb
      by_cases same : b = size2bin n
      · subst same
        rw [if_pos rfl] at this
        rw [Function.update_self]
        simp only
        omega
      · rw [if_neg same] at this
        rw [Function.update_of_ne same]
        omega
    · intro es s₁ after few m hm
      obtain ⟨fl₁, inv₁, kept⟩ := run_inv after inv'
      by_cases small : n ≤ bin2size (BINS - 1)
      · have hb := size2bin_isBin small
        have := count _ hb
        rw [if_pos rfl] at this
        have := kept _ hb
        have smallM : m ≤ bin2size (BINS - 1) := isBin_small (by rwa [hm])
        obtain ⟨s₂, p, served, hne, -⟩ := malloc_of_pos inv₁ smallM (by rw [hm]; omega)
        exact ⟨s₂, p, served, hne⟩
      · -- nothing has been promised for a large size
        have none : step s (.tryPreFill n req) = some (s, .count 0) := by
          simp only [step, tryPreFill, if_pos (Nat.not_le.mp small), Option.bind_eq_bind,
            Option.bind_some]
          rfl
        rw [none] at run
        cases run
        omega

/-- One block in advance serves the bin 9362 times. -/
theorem memmgr_resources_block :
    ∃ s, step (start (fun _ => 0) [some (16, fun _ => 0)]) (.tryPreFill 100 1) =
        some (s, .count 9362) ∧
      ∀ es s₁, Run s es s₁ → mallocs 6 es < 9362 →
        ∃ s₂ p, step s₁ (.malloc 100) = some (s₂, .ptr p) ∧ p ≠ NULL := by
  obtain ⟨rv, -, -, -, -, filled⟩ :=
    memmgr_resources (.start (fun _ => 0) [some (16, fun _ => 0)])
  obtain ⟨s, ful, run, -, -, kept⟩ := filled 100 1
  have count : (step (start (fun _ => 0) [some (16, fun _ => 0)]) (.tryPreFill 100 1)).map
      Prod.snd = some (.count 9362) := rfl
  rw [run] at count
  cases count
  exact ⟨s, run, fun es s₁ after few => kept es s₁ after (Int.ofNat_lt.mpr few) 100 rfl⟩

end DeepDB.Memmgr
