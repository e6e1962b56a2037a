import DeepDB.Memmgr.Preserve

/-!
How a block is carved and how sizes find their bins. `list_from_block` links as many chunks as fit, and
the arithmetic of `bin2size` and `size2bin` fits together, so `free` finds the bin that `malloc` used.
-/

namespace DeepDB.Memmgr
open Chain

/-- `list_from_block` has made a list of `s`-chunks, from `l` on and ending at `tl`, out of the block
at `p`. -/
structure Carved (s p tl : Nat) (mem : Mem) (l : Nat) (mem' : Mem) (chunks : List Nat) : Prop where
  count : chunks.length = (BIGBLOCK - WASTE) / (s + WORD)
  chained : Segment mem' tl l chunks
  ordered : chunks.Pairwise (· < ·)
  apart : chunks.Pairwise fun c c' => Apart (c - WORD, s + WORD) (c' - WORD, s + WORD)
  inside : ∀ c ∈ chunks, p + WORD ≤ c ∧ c + s ≤ p + BIGBLOCK
  aligned : ∀ c ∈ chunks, c % (WORD * ALIGN) = 0
  header : ∀ c ∈ chunks, mem' (c - WORD) = s
  outside : ∀ a, ¬(p ≤ a ∧ a < p + BIGBLOCK) → mem' a = mem a

/-- `size2bin` is the least bin whose chunks are large enough, and their size leads back to it. -/
structure SizeClass (n : Nat) (b : Int) : Prop where
  bin : IsBin b
  enough : n ≤ bin2size b
  least : ∀ b', IsBin b' → n ≤ bin2size b' → b ≤ b'
  back : size2bin (bin2size b) = b

theorem chunksFrom_ordered (size k : Nat) (q : Nat) : (chunksFrom size k q).Pairwise (· < ·) := by
  induction k generalizing q with
  | zero => exact List.Pairwise.nil
  | succ k ih =>
    refine List.pairwise_cons.mpr ⟨fun c hc => ?_, ih _⟩
    obtain ⟨j, -, rfl⟩ := mem_chunksFrom.mp hc
    simp only [WORD]
    omega

theorem listFromBlock_carved {b : Int} (hb : IsBin b) {p : Nat} (aligned : p % (WORD * ALIGN) = 0)
    (tl : Nat) (mem : Mem) :
    ∃ l mem', listFromBlock (bin2size b) p tl mem = some (l, mem') ∧
      Carved (bin2size b) p tl mem l mem' (chunks p b) := by
  have size := bin2size_eq hb
  have positive : 0 < bin2size b := by
    have nonneg := hb.1
    omega
  have count := nblocks_pos hb
  have room := nblocks_mul_le hb
  have big : WASTE ≤ BIGBLOCK := by decide
  have last : nblocks (bin2size b) - 1 + 1 = nblocks (bin2size b) := Nat.sub_add_cancel count
  refine ⟨_, _, by rw [listFromBlock, if_pos count], ?_⟩
  have nodup := chunksFrom_nodup (bin2size b) (nblocks (bin2size b)) (p + WASTE)
  constructor
  · rw [chunks, length_chunksFrom, nblocks_eq hb]
  · rw [chunks, ← last, Nat.add_sub_cancel]
    exact linkBlocks_segment positive
  · exact chunksFrom_ordered _ _ _
  · exact nodup.pairwise_of_forall_ne fun c hc c' hc' ne => chunksFrom_apart hc hc' ne
  · intro c hc
    obtain ⟨low, high, -⟩ := chunks_inside hb aligned hc
    exact ⟨by omega, high⟩
  · intro c hc
    exact (chunks_inside hb aligned hc).2.2
  · intro c hc
    apply linkBlocks_header positive
    rwa [last]
  · intro a ha
    apply linkBlocks_outside positive
    rw [last]
    omega

theorem size2bin_sizeClass {n : Nat} (small : n ≤ bin2size (BINS - 1)) : SizeClass n (size2bin n) where
  bin := size2bin_isBin small
  enough := le_bin2size small
  least := by
    intro b hb enough
    have size := bin2size_eq hb
    rw [size2bin_eq small]
    omega
  back := size2bin_bin2size (size2bin_isBin small)

/-- Every bin size is carved into as many chunks as fit, and every small request has its bin. -/
theorem carving_sizes :
    (∀ b, IsBin b → ∀ p, p % (WORD * ALIGN) = 0 → ∀ tl mem, ∃ l mem' chunks,
      listFromBlock (bin2size b) p tl mem = some (l, mem') ∧
        Carved (bin2size b) p tl mem l mem' chunks) ∧
    (∀ n, n ≤ bin2size (BINS - 1) → SizeClass n (size2bin n)) ∧
    ∀ b, IsBin b → size2bin (bin2size b) = b := by
  refine ⟨fun b hb p aligned tl mem => ?_, fun n small => size2bin_sizeClass small,
    fun b hb => size2bin_bin2size hb⟩
  obtain ⟨l, mem', carve, carved⟩ := listFromBlock_carved hb aligned tl mem
  exact ⟨l, mem', _, carve, carved⟩

theorem carving_sizes_first :
    (∃ l mem' chunks, listFromBlock (bin2size 0) 16 7 (fun _ => 0) = some (l, mem') ∧
      Carved (bin2size 0) 16 7 (fun _ => 0) l mem' chunks) ∧
    SizeClass 9 (size2bin 9) ∧ size2bin (bin2size 49) = 49 :=
  ⟨carving_sizes.1 0 ⟨by decide, by decide⟩ 16 (by decide) 7 fun _ => 0,
    carving_sizes.2.1 9 (by decide), carving_sizes.2.2 49 ⟨by decide, by decide⟩⟩

end DeepDB.Memmgr
