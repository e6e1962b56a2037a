import DeepDB.BTree.CellsRefine

/-!
The loops of an insertion. A copy or a shift of entries, run cell by cell, leaves the entries that
`take` and `drop` say, without leaving the arrays; `splitnode` and the insertion into a node with
room are assembled from them.
-/

namespace DeepDB.BTree.Cells
open Traced

variable {R : Type} {c : BtNode R} {n : BTree.BtNode R} {mem : Nodes R} {nodes : BTree.Nodes R}
  {e : Entry R}

/-! ### Single cells -/

theorem set_middle {α : Type} (A : List α) (b : α) (B : List α) (x : α) :
    (A ++ b :: B).set A.length x = A ++ x :: B := by
  simp

theorem writeEntry_returns {A B : List (Option (Entry R))} {b : Option (Entry R)}
    (hc : c.entries = A ++ b :: B) (bounded : A.length < FANOUT) (e : Entry R) :
    Returns Access.InBounds (writeEntry c (A.length : Int) e)
      { c with entries := A ++ some e :: B } := by
  refine returns_bind (returns_emit ⟨Int.natCast_nonneg _, by exact_mod_cast bounded⟩)
    (returns_ofOption ?_)
  have inside : 0 ≤ (A.length : Int) ∧ (A.length : Int).toNat < c.entries.length := by
    rw [hc, Int.toNat_natCast, List.length_append, List.length_cons]
    exact ⟨Int.natCast_nonneg _, by omega⟩
  rw [if_pos inside, hc, Int.toNat_natCast, set_middle]

theorem writeAll_returns {A B : AllEntries R} {b : Option (Entry R)} (bounded : A.length ≤ FANOUT)
    (e : Entry R) :
    Returns Access.InBounds (writeAll (A ++ b :: B) A.length e) (A ++ some e :: B) := by
  refine returns_bind (returns_emit bounded) (returns_ofOption ?_)
  rw [if_pos (by rw [List.length_append, List.length_cons]; omega), set_middle]

theorem readAll_returns {all : List (Entry R)} {i : Nat} {e : Entry R} (he : all[i]? = some e)
    (bounded : i ≤ FANOUT) : Returns Access.InBounds (readAll (all.map some) i) e := by
  refine returns_bind (returns_emit bounded) (returns_ofOption ?_)
  rw [List.getElem?_map, he]
  rfl

/-! ### Copying -/

theorem copyToAll_returns (h : Shows c n) (shift left i : Nat) (A B : AllEntries R)
    (start : A.length = i + shift) (inside : i + left ≤ n.entries.length)
    (room : left ≤ B.length) (bounded : A.length + left ≤ FANOUT + 1) :
    Returns Access.InBounds (copyToAll c shift i left (A ++ B))
      (A ++ ((n.entries.drop i).take left).map some ++ B.drop left) := by
  induction left generalizing i A B with
  | zero =>
    rw [copyToAll, List.take_zero, List.map_nil, List.append_nil, List.drop_zero]
    exact returns_pure _
  | succ left ih =>
    obtain ⟨b, B, rfl⟩ := List.exists_cons_of_length_pos (Nat.lt_of_lt_of_le left.succ_pos room)
    have hi : i < n.entries.length := by omega
    have write := writeAll_returns (A := A) (B := B) (b := b) (by omega) n.entries[i]
    rw [start] at write
    rw [List.length_cons] at room
    have rest := ih (i + 1) (A ++ [some n.entries[i]]) B
      (by rw [List.length_append, List.length_singleton]; omega) (by omega) (by omega)
      (by rw [List.length_append, List.length_singleton]; omega)
    rw [copyToAll]
    refine returns_bind (readEntry_returns h (List.getElem?_eq_getElem hi)) (returns_bind write ?_)
    rw [List.drop_eq_getElem_cons hi, List.take_succ_cons, List.map_cons, List.drop_succ_cons]
    simpa only [List.append_assoc, List.cons_append, List.nil_append] using rest

theorem copyFromAll_returns (all : List (Entry R)) (start left i : Nat)
    (A B : List (Option (Entry R))) (hc : c.entries = A ++ B) (index : A.length + start = i)
    (inside : i + left ≤ all.length) (few : all.length ≤ FANOUT + 1) (room : left ≤ B.length)
    (bounded : A.length + left ≤ FANOUT) :
    Returns Access.InBounds (copyFromAll (all.map some) start i left c)
      { c with entries := A ++ ((all.drop i).take left).map some ++ B.drop left } := by
  induction left generalizing i A B c with
  | zero =>
    rw [copyFromAll, List.take_zero, List.map_nil, List.append_nil, List.drop_zero, ← hc]
    exact returns_pure _
  | succ left ih =>
    obtain ⟨b, B, rfl⟩ := List.exists_cons_of_length_pos (Nat.lt_of_lt_of_le left.succ_pos room)
    have hi : i < all.length := by omega
    have write := writeEntry_returns hc (by omega) all[i]
    rw [show (A.length : Int) = (i : Int) - start by omega] at write
    rw [List.length_cons] at room
    have rest := ih (i + 1) (A ++ [some all[i]]) B
      (c := { c with entries := A ++ some all[i] :: B }) (by simp)
      (by rw [List.length_append, List.length_singleton]; omega) (by omega) (by omega)
      (by rw [List.length_append, List.length_singleton]; omega)
    rw [copyFromAll]
    refine returns_bind (readAll_returns (List.getElem?_eq_getElem hi) (by omega))
      (returns_bind write ?_)
    rw [List.drop_eq_getElem_cons hi, List.take_succ_cons, List.map_cons, List.drop_succ_cons]
    simpa only [List.append_assoc, List.cons_append, List.nil_append] using rest

theorem shiftEntries_returns (tgt : Nat) (A C : List (Option (Entry R))) (es : List (Entry R))
    (b : Option (Entry R)) (hc : c.entries = A ++ (es.map some ++ b :: C)) (start : A.length = tgt)
    (keys : tgt + es.length ≤ c.numKeys) (bounded : tgt + es.length < FANOUT) :
    ∃ b', Returns Access.InBounds (shiftEntries tgt es.length c)
      { c with entries := A ++ b' :: (es.map some ++ C) } := by
  induction es using List.reverseRecOn generalizing b C c with
  | nil =>
    refine ⟨b, ?_⟩
    rw [List.map_nil, List.nil_append] at hc
    rw [List.length_nil, shiftEntries, List.map_nil, List.nil_append, ← hc]
    exact returns_pure _
  | append_singleton es e ih =>
    rw [List.length_append, List.length_singleton] at keys bounded
    have split : c.entries = (A ++ es.map some ++ [some e]) ++ b :: C := by
      rw [hc]
      simp
    have length : (A ++ es.map some ++ [some e]).length = tgt + (es.length + 1) := by
      simp [start]
    have write := writeEntry_returns split (by omega) e
    rw [length] at write
    have read : Returns Access.InBounds (readEntry c ((tgt : Int) + (es.length + 1 : Nat) - 1)) e := by
      have index : (tgt : Int) + (es.length + 1 : Nat) - 1 = ((tgt + es.length : Nat) : Int) := by
        omega
      rw [index]
      refine returns_bind (returns_emit ⟨Int.natCast_nonneg _, by omega, by omega⟩)
        (returns_ofOption ?_)
      have cell : c.entries[tgt + es.length]? = some (some e) := by
        have position : tgt + es.length = (A ++ es.map some).length := by simp [start]
        rw [split, position]
        simp
      rw [if_pos (Int.natCast_nonneg _), Int.toNat_natCast, cell]
      rfl
    obtain ⟨b', rest⟩ := ih (some e :: C) (some e)
      (c := { c with entries := A ++ es.map some ++ [some e] ++ some e :: C }) (by simp)
      (by dsimp only; omega) (by omega)
    refine ⟨b', ?_⟩
    rw [List.length_append, List.length_singleton, shiftEntries]
    rw [Int.natCast_add] at write
    refine returns_bind read (returns_bind write ?_)
    simpa using rest

theorem findRecordIndexFrom_le (key : Key) (es : List (Entry R)) (i : Nat) :
    BTree.findRecordIndexFrom key es i ≤ i + es.length := by
  induction es generalizing i with
  | nil => exact Nat.le_refl _
  | cons e es ih =>
    rw [BTree.findRecordIndexFrom, List.length_cons]
    split
    · omega
    · have := ih (i + 1)
      omega

theorem findRecordIndex_le (n : BTree.BtNode R) (key : Key) :
    BTree.findRecordIndex n key ≤ n.entries.length := by
  have := findRecordIndexFrom_le key n.entries 0
  rwa [Nat.zero_add] at this

/-! ### Splitting a node -/

/-- The part of `splitnode` that updates the entries of the first node. -/
theorem firstHalf_returns {all : List (Entry R)} {tgt : Nat} (full : n.entries.length = FANOUT)
    (hc : c.entries = n.entries.map some) (htgt : tgt ≤ FANOUT)
    (hall : all = n.entries.take tgt ++ e :: n.entries.drop tgt) :
    ∃ rest, rest.length = FANOUT - MIDDLE ∧ Returns Access.InBounds
      (if tgt < MIDDLE then copyFromAll (all.map some) 0 tgt (MIDDLE - tgt) c else pure c)
      { c with entries := (all.take MIDDLE).map some ++ rest } := by
  have half := BTree.firstHalf_eq n.entries e tgt MIDDLE (full ▸ htgt)
  rw [← hall] at half
  have length : all.length = FANOUT + 1 := by
    rw [hall, List.length_append, List.length_cons, List.length_take, List.length_drop, full]
    omega
  refine ⟨(n.entries.drop MIDDLE).map some, by simp [full], ?_⟩
  split
  · rename_i hlt
    rw [if_pos hlt, List.drop_take] at half
    have copy := copyFromAll_returns (c := c) all 0 (MIDDLE - tgt) tgt
      ((n.entries.take tgt).map some) ((n.entries.drop tgt).map some)
      (by rw [hc, ← List.map_append, List.take_append_drop]) (by simp [full, htgt])
      (by rw [length]; simp only [MIDDLE, FANOUT] at *; omega) (by rw [length])
      (by rw [List.length_map, List.length_drop, full]; simp only [MIDDLE, FANOUT] at *; omega)
      (by rw [List.length_map, List.length_take, full]; simp only [MIDDLE, FANOUT] at *; omega)
    rw [← List.map_append, half, ← List.map_drop, List.drop_drop, Nat.add_sub_of_le hlt.le] at copy
    exact copy
  · rename_i hle
    rw [if_neg hle] at half
    rw [← half, ← List.map_append, List.take_append_drop, ← hc]
    exact returns_pure _

theorem Shows.full (h : Shows c n) (full : n.entries.length = FANOUT) :
    c.entries = n.entries.map some := by
  obtain ⟨rest, same⟩ := h.entries
  have cells := h.cells
  rw [same, List.length_append, List.length_map, full] at cells
  obtain rfl : rest = [] := List.length_eq_zero_iff.mp (by omega)
  rw [same, List.append_nil]

/-- The merging of the new entry into `allEntries`. -/
theorem merge_returns (h : Shows c n) (full : n.entries.length = FANOUT) {tgt : Nat}
    (htgt : tgt ≤ FANOUT) {all : List (Entry R)}
    (hall : all = n.entries.take tgt ++ e :: n.entries.drop tgt) {α : Type}
    {f : AllEntries R → Traced Access α} {a : α}
    (hf : Returns Access.InBounds (f (all.map some)) a) :
    Returns Access.InBounds (do
      let all ← copyToAll c 0 0 tgt (List.replicate (FANOUT + 1) none)
      let all ← writeAll all tgt e
      let all ← copyToAll c 1 tgt (FANOUT - tgt) all
      f all) a := by
  have front := copyToAll_returns h 0 tgt 0 [] (List.replicate (FANOUT + 1) none) rfl (by omega) (by rw [List.length_replicate]; omega)
    (by rw [List.length_nil]; omega)
  have length : ((n.entries.take tgt).map some).length = tgt := by simp [full, htgt]
  have rest : FANOUT + 1 - tgt = (FANOUT - tgt) + 1 := by omega
  rw [List.nil_append, List.nil_append, List.drop_zero, List.drop_replicate, rest,
    List.replicate_succ (n := FANOUT - tgt)] at front
  have write := writeAll_returns (A := (n.entries.take tgt).map some)
    (B := List.replicate (FANOUT - tgt) none) (b := none) (by rw [length]; exact htgt) e
  rw [length] at write
  have back := copyToAll_returns h 1 (FANOUT - tgt) tgt
    ((n.entries.take tgt).map some ++ [some e]) (List.replicate (FANOUT - tgt) none)
    (by rw [List.length_append, length, List.length_singleton]) (by omega)
    (by rw [List.length_replicate])
    (by rw [List.length_append, length, List.length_singleton]; omega)
  have tail : (n.entries.drop tgt).take (FANOUT - tgt) = n.entries.drop tgt :=
    List.take_of_length_le (by rw [List.length_drop, full])
  rw [List.append_assoc, List.singleton_append, List.drop_replicate, Nat.sub_self,
    List.replicate_zero, List.append_nil, tail] at back
  refine returns_bind front (returns_bind write (returns_bind back ?_))
  rw [hall] at hf
  simpa using hf

/-- `splitnode` on a full node: the merged entries are cut in the middle. -/
theorem splitnode_returns {p : Ptr} (hc : mem[p]? = some c) (h : Shows c n)
    (full : n.entries.length = FANOUT) (entry : Entry R) (isLeaf : Bool) {all : List (Entry R)}
    (hall : all = n.entries.take (BTree.findRecordIndex n entry.key) ++
      entry :: n.entries.drop (BTree.findRecordIndex n entry.key))
    (htgt : BTree.findRecordIndex n entry.key ≤ FANOUT) {mid : Entry R}
    (hmid : all[MIDDLE]? = some mid) {ptr0 : Option Ptr} {right : List (Entry R)}
    (kind : (n.isLeaf = true ∧ ptr0 = none ∧ right = all.drop MIDDLE) ∨
      (n.isLeaf = false ∧ (∃ q, mid.ptr = .child q ∧ ptr0 = some q) ∧
        right = all.drop (MIDDLE + 1))) :
    ∃ cl cr, Returns Access.InBounds (splitnode mem p entry isLeaf)
        (mem.set p cl ++ [cr], ⟨mid.key, .child mem.length⟩) ∧
      Shows cl { n with Last := false, entries := all.take MIDDLE } ∧
      Shows cr { isLeaf, First := false, Last := n.Last, ptr0, entries := right } := by
  have length : all.length = FANOUT + 1 := by
    rw [hall, List.length_append, List.length_cons, List.length_take, List.length_drop, full]
    omega
  have hlast : Shows { c with Last := false } { n with Last := false } :=
    ⟨h.isLeaf, h.First, rfl, h.ptr0, h.numKeys, h.cells, h.entries⟩
  obtain ⟨rest, hrest, half⟩ := firstHalf_returns (c := { c with Last := false, numKeys := MIDDLE })
    full (h.full full) htgt hall
  have hleft : Shows
      { c with
        Last := false, numKeys := MIDDLE, entries := (all.take MIDDLE).map some ++ rest }
      { n with Last := false, entries := all.take MIDDLE } := by
    have front : (all.take MIDDLE).length = MIDDLE := by
      rw [List.length_take, length]
      rfl
    refine ⟨h.isLeaf, h.First, rfl, h.ptr0, front.symm, ?_, rest, rfl⟩
    rw [List.length_append, List.length_map, front, hrest]
    rfl
  have newCopy : ∀ start, MIDDLE ≤ start → start ≤ FANOUT + 1 → Returns Access.InBounds
      (copyFromAll (all.map some) start start (FANOUT + 1 - start) (createNewNode isLeaf false c.Last))
      { (createNewNode isLeaf false c.Last : BtNode R) with
        entries := (all.drop start).map some ++
          List.replicate (FANOUT - (FANOUT + 1 - start)) none } := by
    intro start hstart hle
    have copy := copyFromAll_returns (c := createNewNode isLeaf false c.Last) all start
      (FANOUT + 1 - start) start [] (List.replicate FANOUT none) rfl (by simp) (by omega) (by omega)
      (by rw [List.length_replicate]; simp only [MIDDLE, FANOUT] at *; omega)
      (by rw [List.length_nil]; simp only [MIDDLE, FANOUT] at *; omega)
    rw [List.nil_append, List.drop_replicate, List.take_of_length_le (by simp [length])] at copy
    exact copy
  have middle := readAll_returns hmid (by decide)
  rcases kind with ⟨hleaf, rfl, rfl⟩ | ⟨hleaf, ⟨q, hq, rfl⟩, rfl⟩
  · refine ⟨_, { (createNewNode isLeaf false c.Last : BtNode R) with
        numKeys := FANOUT + 1 - MIDDLE
        entries := (all.drop MIDDLE).map some ++
          List.replicate (FANOUT - (FANOUT + 1 - MIDDLE)) none }, ?_, hleft, ?_⟩
    · refine returns_bind (returns_ofOption hc) ?_
      refine returns_bind (findRecordIndex_returns h entry.key) ?_
      refine merge_returns hlast full htgt hall ?_
      refine returns_bind half ?_
      dsimp only
      rw [h.isLeaf, hleaf, if_pos rfl]
      exact returns_bind (newCopy MIDDLE (Nat.le_refl _) (by decide))
        (returns_bind middle (returns_pure _))
    · refine ⟨rfl, rfl, h.Last, rfl, ?_, ?_, _, rfl⟩
      · rw [List.length_drop, length]
      · rw [List.length_append, List.length_map, List.length_drop, length, List.length_replicate]
        rfl
  · refine ⟨_, { (createNewNode isLeaf false c.Last : BtNode R) with
        numKeys := FANOUT - MIDDLE
        ptr0 := some q
        entries := (all.drop (MIDDLE + 1)).map some ++
          List.replicate (FANOUT - (FANOUT + 1 - (MIDDLE + 1))) none }, ?_, hleft, ?_⟩
    · refine returns_bind (returns_ofOption hc) ?_
      refine returns_bind (findRecordIndex_returns h entry.key) ?_
      refine merge_returns hlast full htgt hall ?_
      refine returns_bind half ?_
      dsimp only
      rw [h.isLeaf, hleaf, if_neg Bool.false_ne_true]
      refine returns_bind (newCopy (MIDDLE + 1) (by decide) (by decide)) (returns_bind middle ?_)
      rw [hq]
      exact returns_pure _
    · refine ⟨rfl, rfl, h.Last, rfl, ?_, ?_, _, rfl⟩
      · rw [List.length_drop, length]
        rfl
      · rw [List.length_append, List.length_map, List.length_drop, length, List.length_replicate]
        rfl

end DeepDB.BTree.Cells
