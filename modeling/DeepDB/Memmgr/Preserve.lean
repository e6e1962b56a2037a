import DeepDB.Memmgr.Invariant

/-!
What each operation does to the invariant: a write in a payload changes nothing, a small chunk
moves between its free list and the client, a carved block joins a free list, and a large chunk
comes and goes with its region.
-/

namespace DeepDB.Memmgr
open Chain

variable {s : State} {fl : Int → List Nat}

/-! ### Writes in a payload -/

/-- Memory matters to the invariant at the headers and at the links of the free lists only. -/
theorem inv_mem (h : Inv s fl) {mem' : Mem}
    (header : ∀ p sz r, Owned s p sz r → mem' (p - WORD) = s.mem (p - WORD))
    (link : ∀ b, IsBin b → ∀ q ∈ fl b, mem' q = s.mem q) : Inv { s with mem := mem' } fl :=
  { h with
    lists := fun b hb => linked_frame (h.lists b hb) (link b hb)
    headers := fun p sz r hp => (header p sz r hp).trans (h.headers p sz r hp) }

theorem free_ne_live (h : Inv s fl) {b : Int} (hb : IsBin b) {q : Nat} (hq : q ∈ fl b) {l : Live}
    (hl : l ∈ s.live) : q ≠ l.ptr := by
  rintro rfl
  obtain ⟨r, hr⟩ := owned_of_free h hb hq
  by_cases small : l.n ≤ bin2size (BINS - 1)
  · have hcarved : l.ptr ∈ carved b s.blocks :=
      (h.accounted b hb).mem_iff.mpr (List.mem_append_left _ hq)
    have same := carved_bin_unique h (carved_of_live h hl small) hcarved
    have nodup := (h.accounted b hb).nodup_iff.mp (carved_nodup h b)
    exact absurd rfl ((List.nodup_append.mp nodup).2.2 _ hq _ (mem_liveIn.mpr ⟨l, hl, same, rfl⟩))
  · obtain ⟨r', hr', hn⟩ := owned_of_live h hl
    have same := (owned_unique h hr hr').2
    have := bin2size_le hb
    omega

theorem inv_payload (h : Inv s fl) {p sz : Nat} {r : Nat × Nat} (hp : Owned s p sz r)
    (taken : ∀ b, IsBin b → p ∉ fl b) {mem' : Mem}
    (same : ∀ a, ¬ (p ≤ a ∧ a < p + sz) → mem' a = s.mem a) : Inv { s with mem := mem' } fl := by
  obtain ⟨-, low, -, -⟩ := owned_inside h hp
  simp only [WASTE, WORD, ALIGN] at low
  refine inv_mem h (fun p' sz' r' hp' => same _ ?_) (fun b hb q hq => same _ ?_)
  · obtain ⟨-, low', -, -⟩ := owned_inside h hp'
    by_cases hne : p = p'
    · subst hne
      simp only [WORD]
      omega
    · have apart := owned_apart h hp hp' hne
      simp only [Apart, WASTE, WORD, ALIGN] at apart low' ⊢
      omega
  · obtain ⟨r', hq'⟩ := owned_of_free h hb hq
    obtain ⟨-, low', -, -⟩ := owned_inside h hq'
    have size := bin2size_eq hb
    have apart := owned_apart h hp hq' (fun hpq => taken b hb (hpq ▸ hq))
    have nonneg := hb.1
    simp only [Apart, WASTE, WORD, ALIGN] at apart low' ⊢
    omega

theorem inv_write (h : Inv s fl) {l : Live} (hl : l ∈ s.live) (contents : Mem) :
    Inv { s with mem := fun a =>
      if l.ptr ≤ a ∧ a < l.ptr + s.mem (l.ptr - WORD) then contents a else s.mem a } fl := by
  obtain ⟨r, hr, -⟩ := owned_of_live h hl
  exact inv_payload h hr (fun b hb hq => free_ne_live h hb hq hl rfl) fun a ha => if_neg ha

/-! ### Taking a chunk from its list and putting it back -/

theorem liveIn_cons (b : Int) (l : Live) (live : List Live) :
    liveIn b (l :: live) =
      if size2bin l.n = b then l.ptr :: liveIn b live else liveIn b live := by
  by_cases hb : size2bin l.n = b <;> simp [liveIn, hb]

theorem isBin_small {n : Nat} (hb : IsBin (size2bin n)) : n ≤ bin2size (BINS - 1) := by
  by_contra large
  rw [size2bin_large (Nat.not_le.mp large)] at hb
  exact absurd hb.1 (by decide)

/-- The first chunk of a free list goes to the client. -/
theorem inv_pop (h : Inv s fl) {n : Nat} {l : List Nat} {p : Nat} (hb : IsBin (size2bin n))
    (hfl : fl (size2bin n) = p :: l) :
    Inv { s with bin := Function.update s.bin (size2bin n) (s.mem p),
                 live := ⟨p, n, none⟩ :: s.live } (Function.update fl (size2bin n) l) := by
  have hlist := h.lists _ hb
  rw [hfl] at hlist
  have hp : p ∈ fl (size2bin n) := hfl ▸ List.mem_cons_self
  have fresh : ∀ l ∈ s.live, p ≠ l.ptr := fun l hl => free_ne_live h hb hp hl
  refine { lists := fun b hb' => ?_, accounted := fun b hb' => ?_, bins := h.bins,
           regions := h.regions, apart := h.apart, mapped := h.mapped, liveOk := ?_,
           distinct := ?_, headers := ?_ }
  · show Linked s.mem NULL (Function.update s.bin _ (s.mem p) b) (Function.update fl _ l b)
    by_cases same : b = size2bin n
    · subst same
      rw [Function.update_self, Function.update_self]
      exact hlist.2.2
    · rw [Function.update_of_ne same, Function.update_of_ne same]
      exact h.lists b hb'
  · have old := h.accounted b hb'
    rw [liveIn_cons]
    by_cases same : b = size2bin n
    · subst same
      rw [if_pos rfl, Function.update_self]
      rw [hfl] at old
      exact old.trans List.perm_middle.symm
    · rwa [if_neg (Ne.symm same), Function.update_of_ne same]
  · refine List.forall_mem_cons.mpr ⟨?_, h.liveOk⟩
    rw [LiveOk, if_neg (Nat.not_lt.mpr (isBin_small hb))]
  · refine List.nodup_cons.mpr ⟨fun hmem => ?_, h.distinct⟩
    obtain ⟨l, hl, same⟩ := List.mem_map.mp hmem
    exact fresh l hl same.symm
  · rintro q sz r (hq | ⟨l, hl, hmap, hq⟩)
    · exact h.headers q sz r (Or.inl hq)
    · rcases List.mem_cons.mp hl with rfl | hl
      · cases hmap
      · exact h.headers q sz r (Or.inr ⟨l, hl, hmap, hq⟩)

/-- Dropping the entry of a pointer from the client's list. -/
theorem filter_ptr {live : List Live} {l : Live} (distinct : (live.map Live.ptr).Nodup)
    (hl : l ∈ live) : live.Perm (l :: live.filter fun x => x.ptr ≠ l.ptr) := by
  induction live with
  | nil => cases hl
  | cons x live ih =>
    obtain ⟨hx, htail⟩ := List.nodup_cons.mp distinct
    rcases List.mem_cons.mp hl with rfl | hl
    · have all : live.filter (fun y => y.ptr ≠ l.ptr) = live := by
        refine List.filter_eq_self.mpr fun y hy => decide_eq_true ?_
        intro same
        exact hx (List.mem_map.mpr ⟨y, hy, same⟩)
      rw [List.filter_cons_of_neg (by simp), all]
    · have hne : x.ptr ≠ l.ptr := fun same => hx (List.mem_map.mpr ⟨l, hl, same.symm⟩)
      rw [List.filter_cons_of_pos (by simpa using hne)]
      exact ((ih htail hl).cons x).trans (List.Perm.swap l x _)

/-- What the client gives up: its entry leaves the accounts. -/
theorem liveIn_perm {live live' : List Live} {l : Live} (hperm : live.Perm (l :: live')) (b : Int) :
    (liveIn b live).Perm (if size2bin l.n = b then l.ptr :: liveIn b live' else liveIn b live') := by
  rw [← liveIn_cons]
  exact (hperm.filter _).map _

/-- A small chunk goes back to the front of its list. -/
theorem inv_push (h : Inv s fl) {l : Live} (hl : l ∈ s.live) (hb : IsBin (size2bin l.n)) :
    Inv { s with mem := Function.update s.mem l.ptr (s.bin (size2bin l.n)),
                 bin := Function.update s.bin (size2bin l.n) l.ptr,
                 live := s.live.filter fun x => x.ptr ≠ l.ptr }
      (Function.update fl (size2bin l.n) (l.ptr :: fl (size2bin l.n))) := by
  obtain ⟨r, hr⟩ := owned_of_carved (carved_of_live h hl (isBin_small hb))
  have taken : ∀ b, IsBin b → l.ptr ∉ fl b := fun b hb hq => free_ne_live h hb hq hl rfl
  have size := bin2size_eq hb
  have beside : ∀ a, ¬ (l.ptr ≤ a ∧ a < l.ptr + bin2size (size2bin l.n)) →
      Function.update s.mem l.ptr (s.bin (size2bin l.n)) a = s.mem a := by
    intro a ha
    refine Function.update_of_ne ?_ _ _
    rintro rfl
    have := hb.1
    omega
  have written := inv_payload h hr taken beside
  obtain ⟨-, low, -, -⟩ := owned_inside h hr
  have hperm := filter_ptr h.distinct hl
  have hmap : l.mapped = none := by
    have ok := h.liveOk l hl
    rwa [LiveOk, if_neg (Nat.not_lt.mpr (isBin_small hb))] at ok
  refine { lists := fun b hb' => ?_, accounted := fun b hb' => ?_, bins := h.bins,
           regions := ?_, apart := h.apart, mapped := h.mapped, liveOk := ?_,
           distinct := ?_, headers := ?_ }
  · show Linked (Function.update s.mem l.ptr _) NULL (Function.update s.bin _ l.ptr b)
      (Function.update fl _ (l.ptr :: fl _) b)
    by_cases same : b = size2bin l.n
    · subst same
      rw [Function.update_self, Function.update_self]
      refine linked_push (h.lists _ hb) ?_ (taken _ hb)
      simp only [NULL, WASTE, WORD, ALIGN] at low ⊢
      omega
    · rw [Function.update_of_ne same, Function.update_of_ne same]
      exact written.lists b hb'
  · have old := (h.accounted b hb').trans ((liveIn_perm hperm b).append_left _)
    by_cases same : b = size2bin l.n
    · subst same
      rw [if_pos rfl] at old
      rw [Function.update_self]
      exact old.trans List.perm_middle
    · rw [if_neg (Ne.symm same)] at old
      rwa [Function.update_of_ne same]
  · have regions := h.regions.trans ((hperm.filterMap Live.mapped).append_left _)
    rwa [List.filterMap_cons_none hmap] at regions
  · exact fun x hx => h.liveOk x (List.mem_of_mem_filter hx)
  · exact h.distinct.sublist (List.filter_sublist.map _)
  · rintro q sz r (hq | ⟨x, hx, hmapx, hq⟩)
    · exact written.headers q sz r (Or.inl hq)
    · exact written.headers q sz r (Or.inr ⟨x, List.mem_of_mem_filter hx, hmapx, hq⟩)

/-! ### Carving a block -/

/-- The loop of `list_from_block` writes in its chunks only. -/
theorem linkBlocks_outside {size tl j q : Nat} (hsize : 0 < size) {mem : Mem} {a : Nat}
    (ha : ¬ (q ≤ a ∧ a < q + (j + 1) * (size + WORD))) :
    linkBlocks size tl j q mem a = mem a := by
  induction j generalizing q mem with
  | zero =>
    simp only [linkBlocks, WORD] at ha ⊢
    rw [Function.update_of_ne (by omega), Function.update_of_ne (by omega)]
  | succ j ih =>
    have expand : (j + 1 + 1) * (size + WORD) = (j + 1) * (size + WORD) + (size + WORD) := by ring
    rw [expand] at ha
    rw [linkBlocks, ih (by omega)]
    simp only [WORD] at ha ⊢
    rw [Function.update_of_ne (by omega), Function.update_of_ne (by omega)]

theorem linkBlocks_header {size tl j q : Nat} (hsize : 0 < size) {mem : Mem} {p : Nat}
    (hp : p ∈ chunksFrom size (j + 1) q) : linkBlocks size tl j q mem (p - WORD) = size := by
  induction j generalizing q mem with
  | zero =>
    obtain rfl := List.mem_singleton.mp hp
    rw [Nat.add_sub_cancel, linkBlocks, Function.update_of_ne (by simp only [WORD]; omega),
      Function.update_self]
  | succ j ih =>
    rcases List.mem_cons.mp hp with rfl | hp
    · rw [Nat.add_sub_cancel, linkBlocks, linkBlocks_outside hsize (by omega),
        Function.update_of_ne (by simp only [WORD]; omega), Function.update_self]
    · exact ih hp

/-- The chunks are chained in order, up to `tl`. -/
theorem linkBlocks_segment {size tl j q : Nat} (hsize : 0 < size) {mem : Mem} :
    Segment (linkBlocks size tl j q mem) tl (q + WORD) (chunksFrom size (j + 1) q) := by
  induction j generalizing q mem with
  | zero =>
    refine ⟨rfl, ?_⟩
    rw [linkBlocks, Function.update_self]
    exact rfl
  | succ j ih =>
    refine ⟨rfl, ?_⟩
    have link : linkBlocks size tl (j + 1) q mem (q + WORD) = q + (size + WORD) + WORD := by
      rw [linkBlocks, linkBlocks_outside hsize (by simp only [WORD]; omega), Function.update_self]
      omega
    rw [link]
    exact ih

/-- The chunks of the block come in front of the list that was there. -/
theorem linkBlocks_linked {size tl j q : Nat} (hsize : 0 < size) {mem : Mem} {l : List Nat}
    (hl : Linked mem NULL tl l)
    (apart : ∀ a ∈ l, ¬ (q ≤ a ∧ a < q + (j + 1) * (size + WORD))) :
    Linked (linkBlocks size tl j q mem) NULL (q + WORD) (chunksFrom size (j + 1) q ++ l) := by
  apply segment_append_linked (linkBlocks_segment hsize)
  · intro a ha
    obtain ⟨i, -, rfl⟩ := mem_chunksFrom.mp ha
    simp only [WORD, NULL]
    omega
  · exact linked_frame hl fun a ha => linkBlocks_outside hsize (apart a ha)

theorem carved_cons (b b' : Int) (p : Nat) (blocks : List (Nat × Int)) :
    carved b' ((p, b) :: blocks) =
      if b = b' then chunks p b ++ carved b' blocks else carved b' blocks := by
  by_cases same : b = b'
  · subst same
    simp [carved]
  · simp [carved, same]

/-- What lies in a fresh region is owned by nobody yet. -/
theorem owned_fresh (h : Inv s fl) {p len : Nat} (fresh : Fresh s.regions p len) {q sz : Nat}
    {r : Nat × Nat} (hq : Owned s q sz r) : q + sz ≤ p ∨ p + len ≤ q - WORD := by
  obtain ⟨hr, low, high, -⟩ := owned_inside h hq
  have apart := fresh.2.2.2 r hr
  simp only [Apart, WASTE, WORD, ALIGN] at apart low ⊢
  omega

/-- A region mapped for the blocks or for the client keeps the regions in order. -/
theorem fresh_regions (h : Inv s fl) {p len : Nat} (fresh : Fresh s.regions p len) (pos : 0 < len) :
    ((p, len) :: s.regions).Pairwise Apart ∧
      ∀ r ∈ (p, len) :: s.regions,
        r.1 ≠ NULL ∧ r.1 % (WORD * ALIGN) = 0 ∧ r.1 + r.2 ≤ SIZE ∧ 0 < r.2 := by
  obtain ⟨hne, haligned, hfits, apart⟩ := fresh
  exact ⟨List.pairwise_cons.mpr ⟨apart, h.apart⟩,
    List.forall_mem_cons.mpr ⟨⟨hne, haligned, hfits, pos⟩, h.mapped⟩⟩

/-- A fresh block becomes chunks at the front of the free list of its bin. -/
theorem inv_carve (h : Inv s fl) {b : Int} (hb : IsBin b) {p : Nat}
    (fresh : Fresh s.regions p BIGBLOCK) {mem' : Mem} (answers : List (Option (Nat × Mem)))
    (same : ∀ a, ¬ (p ≤ a ∧ a < p + BIGBLOCK) → mem' a = s.mem a) :
    ∃ mem'', listFromBlock (bin2size b) p (s.bin b) mem' = some (p + WASTE + WORD, mem'') ∧
      Inv { s with mem := mem'', bin := Function.update s.bin b (p + WASTE + WORD),
                   regions := (p, BIGBLOCK) :: s.regions, answers, blocks := (p, b) :: s.blocks }
        (Function.update fl b (chunks p b ++ fl b)) := by
  have size := bin2size_eq hb
  have nonneg := hb.1
  have hsize : 0 < bin2size b := by omega
  have count := nblocks_pos hb
  have last : nblocks (bin2size b) - 1 + 1 = nblocks (bin2size b) := Nat.sub_add_cancel count
  have room := nblocks_mul_le hb
  have big : WASTE ≤ BIGBLOCK := by decide
  have outside : ∀ a, a < p ∨ p + BIGBLOCK ≤ a → linkBlocks (bin2size b) (s.bin b)
      (nblocks (bin2size b) - 1) (p + WASTE) mem' a = s.mem a := by
    intro a ha
    rw [linkBlocks_outside hsize (by rw [last]; omega)]
    exact same a (by omega)
  have freeOutside : ∀ b', IsBin b' → ∀ q ∈ fl b', q < p ∨ p + BIGBLOCK ≤ q := by
    intro b' hb' q hq
    obtain ⟨r, hr⟩ := owned_of_free h hb' hq
    have size' := bin2size_eq hb'
    have nonneg' := hb'.1
    rcases owned_fresh h fresh hr with hlt | hle
    · exact Or.inl (by omega)
    · exact Or.inr (by omega)
  obtain ⟨apart, mapped⟩ := fresh_regions h fresh (by decide : 0 < BIGBLOCK)
  refine ⟨_, by rw [listFromBlock, if_pos count], ?_⟩
  refine { lists := fun b' hb' => ?_, accounted := fun b' hb' => ?_, bins := ?_, regions := ?_,
           apart := apart, mapped := mapped, liveOk := h.liveOk, distinct := h.distinct,
           headers := ?_ }
  · show Linked (linkBlocks _ (s.bin b) _ (p + WASTE) mem') NULL
      (Function.update s.bin b (p + WASTE + WORD) b') (Function.update fl b (chunks p b ++ fl b) b')
    by_cases hbin : b' = b
    · subst hbin
      rw [Function.update_self, Function.update_self, chunks, ← last, Nat.add_sub_cancel]
      refine linkBlocks_linked hsize (linked_frame (h.lists b' hb) fun q hq => ?_) fun q hq => ?_
      · have := freeOutside b' hb q hq
        exact same q (by omega)
      · have := freeOutside b' hb q hq
        rw [last]
        omega
    · rw [Function.update_of_ne hbin, Function.update_of_ne hbin]
      exact linked_frame (h.lists b' hb') fun q hq => outside q (freeOutside b' hb' q hq)
  · have old := h.accounted b' hb'
    rw [carved_cons]
    by_cases hbin : b = b'
    · subst hbin
      rw [if_pos rfl, Function.update_self, List.append_assoc]
      exact old.append_left _
    · rwa [if_neg hbin, Function.update_of_ne (Ne.symm hbin)]
  · exact List.forall_mem_cons.mpr ⟨hb, h.bins⟩
  · exact h.regions.cons _
  · rintro q sz r (⟨x, hx, hq, rfl, rfl⟩ | hlive)
    · rcases List.mem_cons.mp hx with rfl | hx
      · refine linkBlocks_header hsize ?_
        rwa [last]
      · have hq : Owned s q (bin2size x.2) (x.1, BIGBLOCK) := Or.inl ⟨x, hx, hq, rfl, rfl⟩
        have := owned_fresh h fresh hq
        have low := (owned_inside h hq).2.1
        simp only [WASTE, WORD, ALIGN] at this low
        exact (outside _ (by simp only [WORD]; omega)).trans (h.headers q _ _ hq)
    · have hq : Owned s q sz r := Or.inr hlive
      have := owned_fresh h fresh hq
      have low := (owned_inside h hq).2.1
      simp only [WASTE, WORD, ALIGN] at this low
      exact (outside _ (by simp only [WORD]; omega)).trans (h.headers q _ _ hq)

/-! ### Large chunks -/

/-- A large chunk is its region, behind the wasted word and the header. -/
theorem inv_large (h : Inv s fl) {n p : Nat} (large : bin2size (BINS - 1) < n)
    (bound : n ≤ SIZE - 1 - (WASTE + WORD)) (fresh : Fresh s.regions p (n + WASTE + WORD))
    {mem' : Mem} (answers : List (Option (Nat × Mem)))
    (same : ∀ a, ¬ (p ≤ a ∧ a < p + (n + WASTE + WORD)) → mem' a = s.mem a) :
    Inv { s with mem := Function.update mem' (p + WASTE) n,
                 regions := (p, n + WASTE + WORD) :: s.regions, answers,
                 live := ⟨p + WASTE + WORD, n, some (p, n + WASTE + WORD)⟩ :: s.live } fl := by
  have outside : ∀ a, a < p ∨ p + (n + WASTE + WORD) ≤ a →
      Function.update mem' (p + WASTE) n a = s.mem a := by
    intro a ha
    simp only [WASTE, WORD, ALIGN] at ha ⊢
    rw [Function.update_of_ne (by omega)]
    exact same a (by simp only [WASTE, WORD, ALIGN]; omega)
  obtain ⟨apart, mapped⟩ := fresh_regions h fresh (by simp only [WORD]; omega)
  refine { lists := fun b hb => ?_, accounted := fun b hb => ?_, bins := h.bins, regions := ?_,
           apart := apart, mapped := mapped, liveOk := ?_, distinct := ?_, headers := ?_ }
  · refine linked_frame (h.lists b hb) fun q hq => outside q ?_
    obtain ⟨r, hr⟩ := owned_of_free h hb hq
    have size := bin2size_eq hb
    have nonneg := hb.1
    rcases owned_fresh h fresh hr with hlt | hle
    · exact Or.inl (by omega)
    · exact Or.inr (by omega)
  · rw [liveIn_cons, if_neg]
    · exact h.accounted b hb
    · rw [size2bin_large large]
      rintro rfl
      exact absurd hb.1 (by decide)
  · exact (h.regions.cons _).trans List.perm_middle.symm
  · refine List.forall_mem_cons.mpr ⟨?_, h.liveOk⟩
    rw [LiveOk, if_pos large]
    refine ⟨by simp only [WASTE, WORD, ALIGN]; omega, bound, ?_⟩
    rw [Nat.add_assoc p, Nat.add_sub_cancel]
  · refine List.nodup_cons.mpr ⟨fun hmem => ?_, h.distinct⟩
    obtain ⟨l, hl, hptr⟩ := List.mem_map.mp hmem
    obtain ⟨r, hr, hn⟩ := owned_of_live h hl
    have := owned_fresh h fresh hr
    simp only [WASTE, WORD, ALIGN] at this hptr
    omega
  · have old : ∀ q sz r, Owned s q sz r →
        Function.update mem' (p + WASTE) n (q - WORD) = sz := by
      intro q sz r hq
      have := owned_fresh h fresh hq
      have low := (owned_inside h hq).2.1
      simp only [WASTE, WORD, ALIGN] at this low
      exact (outside _ (by simp only [WASTE, WORD, ALIGN]; omega)).trans (h.headers q _ _ hq)
    rintro q sz r (hq | ⟨l, hl, hmap, rfl, rfl⟩)
    · exact old q sz r (Or.inl hq)
    · rcases List.mem_cons.mp hl with rfl | hl
      · show Function.update mem' (p + WASTE) n (p + WASTE + WORD - WORD) = n
        rw [Nat.add_sub_cancel, Function.update_self]
      · exact old _ _ r (Or.inr ⟨l, hl, hmap, rfl, rfl⟩)

/-- A large chunk goes with its region. -/
theorem inv_unmap (h : Inv s fl) {l : Live} (hl : l ∈ s.live) {r : Nat × Nat}
    (hmap : l.mapped = some r) :
    Inv { s with regions := s.regions.erase r,
                 live := s.live.filter fun x => x.ptr ≠ l.ptr } fl := by
  have hperm := filter_ptr h.distinct hl
  have large := (liveOk_mapped (h.liveOk l hl) hmap).1
  refine { lists := h.lists, accounted := fun b hb => ?_, bins := h.bins, regions := ?_,
           apart := h.apart.sublist List.erase_sublist, mapped := ?_, liveOk := ?_,
           distinct := ?_, headers := ?_ }
  · have old := (h.accounted b hb).trans ((liveIn_perm hperm b).append_left _)
    rwa [if_neg] at old
    rw [size2bin_large large]
    rintro rfl
    exact absurd hb.1 (by decide)
  · have regions := h.regions.trans ((hperm.filterMap Live.mapped).append_left _)
    rw [List.filterMap_cons_some hmap] at regions
    have erased := (regions.trans List.perm_middle).erase r
    rwa [List.erase_cons_head] at erased
  · exact fun x hx => h.mapped x (List.mem_of_mem_erase hx)
  · exact fun x hx => h.liveOk x (List.mem_of_mem_filter hx)
  · exact h.distinct.sublist (List.filter_sublist.map _)
  · rintro q sz r (hq | ⟨x, hx, hmapx, hq⟩)
    · exact h.headers q sz r (Or.inl hq)
    · exact h.headers q sz r (Or.inr ⟨x, List.mem_of_mem_filter hx, hmapx, hq⟩)

end DeepDB.Memmgr
