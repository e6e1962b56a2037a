import DeepDB.Functional.Steps

/-!
What a lookup reads. The descent to a key ends at the rank of the key in the list of the records,
and `RL_GetRecord` reads the record at the position of the cursor, whatever its key is.
-/

namespace DeepDB.Functional
open SortedAssoc Multiway

variable {V X : Type} {d : Nat} {root : Bool} {r : Range Key} {key : Key} {n n₀ : Node V X}
  {c : Cursor V X}

/-! ### Records -/

mutual

/-- The records of a node with their addresses. -/
def records : Node V X → List (Key × V × X)
  | .btnode entryzero le _ _ _ _ => recordsPtr0 entryzero ++ recordsLe le

def recordsPtr0 : Option (Node V X) → List (Key × V × X)
  | none => []
  | some n => records n

def recordsLe : List (Entry V X) → List (Key × V × X)
  | [] => []
  | e :: le => recordsEntry e ++ recordsLe le

def recordsEntry : Entry V X → List (Key × V × X)
  | .keyval k v x => [(k, v, x)]
  | .keychild _ n => records n

end

mutual

theorem absNode_records : ∀ n : Node V X, absNode n = (records n).map fun e => (e.1, e.2.1)
  | .btnode ptr0 le _ _ _ _ => by
    rw [absNode, records, List.map_append, absPtr0_records ptr0, absLe_records le]

theorem absPtr0_records : ∀ ptr0 : Option (Node V X),
    absPtr0 ptr0 = (recordsPtr0 ptr0).map fun e => (e.1, e.2.1)
  | none => rfl
  | some n => absNode_records n

theorem absLe_records : ∀ le : List (Entry V X),
    absLe le = (recordsLe le).map fun e => (e.1, e.2.1)
  | [] => rfl
  | e :: le => by rw [absLe, recordsLe, List.map_append, absEntry_records e, absLe_records le]

theorem absEntry_records : ∀ e : Entry V X,
    absEntry e = (recordsEntry e).map fun e => (e.1, e.2.1)
  | .keyval _ _ _ => rfl
  | .keychild _ n => absNode_records n

end

theorem length_records (n : Node V X) : (records n).length = (absNode n).length := by
  rw [absNode_records, List.length_map]

theorem rank_records (key : Key) (n : Node V X) : rank key (absNode n) = rank key (records n) := by
  unfold rank
  rw [absNode_records, List.countP_map]
  rfl

theorem keys_records (n : Node V X) : (absNode n).map Prod.fst = (records n).map Prod.fst := by
  rw [absNode_records, List.map_map]
  rfl

@[simp] theorem records_leafNode (recs : List (Key × V × X)) (F L : Bool) (x : X) :
    records (leafNode recs F L x) = recs := by
  have entries : recordsLe (recs.map ofRecord) = recs := by
    induction recs with
    | nil => rfl
    | cons e recs ih =>
      rw [List.map_cons, recordsLe, ih]
      rfl
  rw [leafNode, records, recordsPtr0, entries, List.nil_append]

@[simp] theorem records_internNode (t : Node V X) (ts : List (Key × Node V X)) (F L : Bool)
    (x : X) : records (internNode t ts F L x) = gather records t ts := by
  have entries : recordsLe (ts.map ofChild) = ts.flatMap fun e => records e.2 := by
    induction ts with
    | nil => rfl
    | cons e ts ih =>
      rw [List.map_cons, recordsLe, ih]
      rfl
  rw [internNode, records, recordsPtr0, entries, gather]

theorem records_within (h : WellFormed d root r n) : Within r (records n) := by
  intro e he
  have key : e.1 ∈ (absNode n).map Prod.fst := by
    rw [keys_records]
    exact List.mem_map_of_mem he
  obtain ⟨y, hy, same⟩ := List.mem_map.mp key
  rw [← same]
  exact wellFormed_within h y hy

theorem records_sorted (h : WellFormed d root r n) : Sorted (records n) := by
  have sorted := wellFormed_sorted h
  unfold Sorted at sorted ⊢
  rwa [← keys_records]

theorem length_children (pre : List (Node V X × Key)) :
    (pre.flatMap fun y => records y.1).length = (pre.flatMap fun y => absNode y.1).length := by
  rw [List.length_flatMap, List.length_flatMap]
  simp only [length_records]

/-! ### The record at a position -/

/-- The records of a node are those of the relation from the position of its cursor on. -/
theorem records_under (h : WellFormed d true Range.full n₀) {d' : Nat}
    (hu : Under n₀ c n d' root r) :
    ∃ A B, records n₀ = A ++ records n ++ B ∧ A.length = position c := by
  induction c generalizing n d' root r with
  | nil =>
    obtain rfl := hu.correct
    exact ⟨[], [], by simp, rfl⟩
  | cons e c ih =>
    obtain ⟨p, j⟩ := e
    obtain ⟨pre, post, F, L, x, root', r', rfl, rfl, hp⟩ := hu.parent h
    obtain ⟨A, B, whole, before⟩ := ih hp
    refine ⟨A ++ pre.flatMap fun y => records y.1, (post.flatMap fun y => records y.2) ++ B, ?_, ?_⟩
    · rw [whole, records_internNode, gather_join]
      simp only [List.append_assoc]
    · rw [List.length_append, length_children, before, position, entriesBefore_join, Nat.add_comm]

variable {x nullval : X}

/-- `RL_GetRecord` where the cursor is at an entry of its leaf. -/
theorem RL_GetRecord_inside (h : WellFormed d true Range.full n₀) (hu : Under n₀ c n 0 root r)
    {i : Nat} (inside : i < n.le.length) :
    RL_GetRecord nullval ((n, (i : Int)) :: c) (n₀, x) =
      (records n₀)[i + position c]?.elim nullval fun e => e.2.2 := by
  obtain ⟨A, B, whole, before⟩ := records_under h hu
  obtain ⟨recs, F, L, b, rfl, -⟩ := hu.wellFormed
  have bound : i < recs.length := by simpa [leafNode, Node.le] using inside
  have here : (records n₀)[i + position c]? = some recs[i] := by
    rw [whole, records_leafNode, Nat.add_comm, ← before, List.append_assoc,
      List.getElem?_append_right (Nat.le_add_right _ _), Nat.add_sub_cancel_left,
      List.getElem?_append_left bound, List.getElem?_eq_getElem bound]
  have entry : (leafNode recs F L b).le[i]? = some (ofRecord recs[i]) := by
    rw [leafNode, Node.le, List.getElem?_map, List.getElem?_eq_getElem bound]
    rfl
  have notEnd : ¬ (i : Int) = (leafNode recs F L b).le.length := by omega
  have stays : normalize ((leafNode recs F L b, (i : Int)) :: c) (n₀, x) =
      (leafNode recs F L b, (i : Int)) :: c := if_neg notEnd
  have value : getCVal ((leafNode recs F L b, (i : Int)) :: c) = some recs[i].2.2 := by
    rw [getCVal, getCEntry, nthOption, if_pos (Int.natCast_nonneg _), Int.toNat_natCast, entry]
    rfl
  rw [RL_GetRecord, stays, value, here]
  rfl

/-- `RL_GetRecord` reads the record at the position of the cursor, or `nullval` at the end. -/
theorem RL_GetRecord_denotes (h : WellFormed d true Range.full n₀) {pos : Nat}
    (hc : Denotes n₀ c pos) :
    RL_GetRecord nullval c (n₀, x) = (records n₀)[pos]?.elim nullval fun e => e.2.2 := by
  obtain ⟨complete, rfl⟩ := hc
  obtain ⟨n, i, c, root, r, rfl, hu, hi⟩ := complete_under h complete
  rw [(denotes_leaf hu hi).2]
  rcases Nat.lt_or_ge i n.le.length with before | after
  · exact RL_GetRecord_inside h hu before
  · obtain rfl : i = n.le.length := Nat.le_antisymm hi after
    cases last : r.hi with
    | none =>
      have stays := moveToNext_end (x := x) hu last
      have total := hu.stop last
      rw [← length_leaf hu.wellFormed, ← length_records, Nat.add_comm] at total
      have nothing : getCVal ((n, (n.le.length : Int)) :: c) = none := by
        rw [getCVal, getCEntry, nthOption, if_pos (Int.natCast_nonneg _), Int.toNat_natCast,
          List.getElem?_eq_none (Nat.le_refl _)]
      rw [RL_GetRecord, normalize, if_pos rfl, stays, nothing, total,
        List.getElem?_eq_none (Nat.le_refl _)]
      rfl
    | some k =>
      obtain ⟨leaf, rest, r', leaves, hu', same, -⟩ :=
        moveToNext_leaves (x := x) h hu (by rw [last]; exact Option.some_ne_none k)
      have filled := leaf_nonempty hu'.wellFormed
      have first : RL_GetRecord nullval ((leaf, ((0 : Nat) : Int)) :: rest) (n₀, x) =
          (records n₀)[0 + position rest]?.elim nullval fun e => e.2.2 :=
        RL_GetRecord_inside h hu' filled
      have notEnd : ¬ ((0 : Nat) : Int) = leaf.le.length := by omega
      have stays : normalize ((leaf, ((0 : Nat) : Int)) :: rest) (n₀, x) =
          (leaf, ((0 : Nat) : Int)) :: rest := if_neg notEnd
      rw [RL_GetRecord, stays, Nat.zero_add, same] at first
      rw [RL_GetRecord, normalize, if_pos rfl, leaves]
      exact first

/-! ### The rank of a key -/

theorem findRecordIndex_rank {recs : List (Key × V × X)} {F L : Bool} {b : X} (hs : Sorted recs) :
    findRecordIndex (leafNode recs F L b) key = (rank key recs : Int) := by
  have general : ∀ i : Int, findRecordIndexFrom key (recs.map ofRecord) i =
      i + (rank key recs : Int) := by
    induction recs with
    | nil => exact fun i => (Int.add_zero i).symm
    | cons e recs ih =>
      intro i
      obtain ⟨below, sorted⟩ := sorted_cons.mp hs
      have split : rank key (e :: recs) = rank key recs + rank key [e] := by
        rw [← List.singleton_append, rank_append, Nat.add_comm]
      rw [List.map_cons, findRecordIndexFrom]
      by_cases here : key ≤ e.1
      · have none : rank key (e :: recs) = 0 := by
          apply rank_of_le
          intro y hy
          rcases List.mem_cons.mp hy with rfl | hy
          · exact here
          · exact here.trans (below y hy).le
        rw [none]
        exact (if_pos here).trans (Int.add_zero i).symm
      · have one : rank key [e] = 1 := by
          apply rank_of_lt
          intro y hy
          obtain rfl := List.mem_singleton.mp hy
          exact Nat.lt_of_not_le here
        have beyond : ¬ key ≤ entryKey (ofRecord e : Entry V X) := here
        rw [if_neg beyond, ih sorted, split, one]
        omega
  rw [findRecordIndex, leafNode, Node.le, general, Int.zero_add]

/-- The descent from a node goes to the rank of the key. -/
theorem moveToKey_under (hu : Under n₀ c n d root r) (hk : r.Mem key) :
    Denotes n₀ (moveToKey n key c) (rank key (absNode n) + position c) := by
  induction d generalizing n c root r with
  | zero =>
    have hleaf := (wellFormed_isLeaf hu.wellFormed).mpr rfl
    obtain ⟨recs, F, L, b, rfl, -, sorted, -⟩ := id hu.wellFormed
    have bound := rank_le_length key recs
    rw [moveToKey_leaf hleaf, findRecordIndex_rank sorted, rank_records, records_leafNode]
    apply denotes_leaf hu
    rwa [leafNode, Node.le, List.length_map]
  | succ d ih =>
    obtain ⟨t, ts, F, L, b, rfl, -, hs, -⟩ := id hu.wellFormed
    obtain ⟨pre, f, post, hj, below, above⟩ := exists_focus key t ts hs
    obtain ⟨rfl, rfl⟩ := Prod.mk.inj hj
    have hkf := focusRange_mem hk below above
    have down := ih hu.child hkf
    have ranks := rank_focus (c := absNode) (fun _ _ => wellFormed_within) hs hkf
    rw [moveToKey_join hu.wellFormed (siblings_focus hs) below above, absNode_internNode, ranks,
      Nat.add_comm _ (rank key (absNode f)), Nat.add_assoc]
    rwa [position, entriesBefore_join] at down

/-- The record that a lookup of the key reads. -/
theorem RL_GetRecord_moveToKey (h : WellFormed d true Range.full n₀) (key : Key) :
    RL_GetRecord nullval (moveToKey n₀ key []) (n₀, x) =
      (records n₀)[rank key (records n₀)]?.elim nullval fun e => e.2.2 := by
  have down := moveToKey_under (under_root h) (Range.mem_full key)
  rw [position, Nat.add_zero, rank_records] at down
  exact RL_GetRecord_denotes h down

/-- Where no key lies between, a key reads the record of the next one. -/
theorem RL_GetRecord_gap (h : WellFormed d true Range.full n₀) {k K : Key} {v : V} {y : X}
    (stored : (K, v, y) ∈ records n₀) (low : k ≤ K) (gap : ∀ e ∈ records n₀, e.1 < k ∨ K ≤ e.1) :
    RL_GetRecord nullval (moveToKey n₀ k []) (n₀, x) = y := by
  have here := getElem?_rank_of_mem (records_sorted h) stored
  rw [RL_GetRecord_moveToKey h, rank_gap low gap, here]
  rfl

end DeepDB.Functional
