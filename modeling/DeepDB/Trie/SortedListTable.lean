import DeepDB.Trie.Table

/-!
The laws of `ABSTRACT_TABLE` for the list table of `functional/cursored_kv.v`, with its cursors as the
source has them. A cursor's keys are those between the entry before it and the entry at it. Putting a
key takes the keys between the entry before it and itself away from the cursor behind it, and all
keys are related to some cursor, so that `get_put_diff` and the two `compact` laws ask for too much.
-/

namespace DeepDB.Trie.SortedListTable

open SortedAssoc

variable {K V : Type} {t : List (K × V)} {c : Int} {k : K}

/-! ### Cursors -/

/-- `Znth` of a list of options. -/
def get (c : Int) (t : List (K × V)) : Option (K × V) := if 0 ≤ c then t[c.toNat]? else none

def getKey (c : Int) (t : List (K × V)) : Option K :=
  match get c t with
  | some (k, _) => some k
  | none => none

def nextCursor (c : Int) (t : List (K × V)) : Int := if c < t.length then c + 1 else c

def prevCursor (c : Int) (_t : List (K × V)) : Int := if c > 0 then c - 1 else c

def firstCursor (_t : List (K × V)) : Int := 0

def lastCursor (t : List (K × V)) : Int := t.length

def EqCursor (c1 c2 : Int) (_t : List (K × V)) : Prop := c1 = c2

theorem get_natCast (n : Nat) (t : List (K × V)) : get n t = t[n]? := by
  rw [get, if_pos (Int.natCast_nonneg n), Int.toNat_natCast]

theorem getKey_natCast {n : Nat} {k : K} : getKey n t = some k ↔ ∃ e, t[n]? = some e ∧ e.1 = k := by
  rw [getKey, get_natCast]
  cases t[n]? with
  | none => simp
  | some e => simp

variable [LinearOrder K]

def KeyRel (k : K) (c : Int) (t : List (K × V)) : Prop :=
  ∀ c', (0 ≤ c' ∧ c' < c → ∃ k', getKey c' t = some k' ∧ k' < k) ∧
    (c ≤ c' ∧ c' < t.length → ∃ k', getKey c' t = some k' ∧ ¬ k' < k)

def AbsRel (c : Int) (t : List (K × V)) : Prop := Sorted t ∧ 0 ≤ c ∧ c ≤ t.length

/-- The cursors of a key are in range, and the list of the trie's tables has the same. -/
theorem keyRel_natCast : KeyRel k c t ↔ ∃ n : Nat, c = n ∧ Flattened.KeyRel k n t ∧ n ≤ t.length := by
  constructor
  · intro rel
    have low : 0 ≤ c := by
      by_contra negative
      obtain ⟨k', here, -⟩ := (rel c).2 ⟨le_rfl, by omega⟩
      rw [getKey, get, if_neg negative] at here
      cases here
    obtain ⟨n, rfl⟩ := Int.eq_ofNat_of_zero_le low
    have high : n ≤ t.length := by
      by_contra behind
      obtain ⟨k', here, -⟩ := (rel t.length).1 ⟨by omega, by omega⟩
      obtain ⟨e, none, -⟩ := getKey_natCast.mp here
      rw [List.getElem?_eq_none (Nat.le_refl _)] at none
      cases none
    refine ⟨n, rfl, fun c' => ⟨fun less => ?_, fun inside => ?_⟩, high⟩
    · obtain ⟨k', here, below⟩ := (rel c').1 ⟨by omega, by omega⟩
      obtain ⟨e, at_c', rfl⟩ := getKey_natCast.mp here
      exact ⟨e, at_c', below⟩
    · obtain ⟨k', here, below⟩ := (rel c').2 ⟨by omega, by omega⟩
      obtain ⟨e, at_c', rfl⟩ := getKey_natCast.mp here
      exact ⟨e, at_c', below⟩
  · intro ⟨n, same, rel, high⟩ c'
    subst same
    constructor
    · intro ⟨low, less⟩
      obtain ⟨m, rfl⟩ := Int.eq_ofNat_of_zero_le low
      obtain ⟨e, here, below⟩ := (rel m).1 (by omega)
      exact ⟨e.1, getKey_natCast.mpr ⟨e, here, rfl⟩, below⟩
    · intro ⟨le, inside⟩
      obtain ⟨m, rfl⟩ := Int.eq_ofNat_of_zero_le (show 0 ≤ c' by omega)
      obtain ⟨e, here, below⟩ := (rel m).2 ⟨by omega, by omega⟩
      exact ⟨e.1, getKey_natCast.mpr ⟨e, here, rfl⟩, below⟩

/-- A key has one cursor. -/
theorem keyRel_iff (sorted : Sorted t) : KeyRel k c t ↔ c = (rank k t : Nat) := by
  rw [keyRel_natCast]
  constructor
  · intro ⟨n, same, rel, high⟩
    rw [same, (Flattened.keyRel_iff ⟨sorted, high⟩).mp rel]
  · intro same
    have high := rank_le_length k t
    exact ⟨_, same, (Flattened.keyRel_iff ⟨sorted, high⟩).mpr rfl, high⟩

theorem get_rank (k : K) (t : List (K × V)) : get (rank k t : Nat) t = t[rank k t]? := get_natCast _ t

theorem absRel_rank (sorted : Sorted t) (k : K) : AbsRel (rank k t : Nat) t := by
  have high := rank_le_length k t
  exact ⟨sorted, by omega, by omega⟩

/-! ### Putting a key -/

/-- `put_correct`, `get_put_same` and `get_put_diff` at the key `k2`. -/
structure PutLaws (t1 : List (K × V)) (k : K) (v : V) (k2 : K) : Prop where
  sorted : Sorted (Flattened.putAux k v t1)
  same : ∀ c3, AbsRel c3 (Flattened.putAux k v t1) → KeyRel k c3 (Flattened.putAux k v t1) →
    get c3 (Flattened.putAux k v t1) = some (k, v)
  diff : k2 ≠ k → ∀ c3 c4, AbsRel c4 t1 → KeyRel k2 c4 t1 → AbsRel c3 (Flattened.putAux k v t1) →
    KeyRel k2 c3 (Flattened.putAux k v t1) → get c3 (Flattened.putAux k v t1) = get c4 t1

theorem get_put_same (sorted : Sorted t) (k : K) (v : V) :
    get (rank k (put k v t) : Nat) (put k v t) = some (k, v) := by
  rw [get_rank]
  exact getElem?_rank_of_mem (sorted_put sorted) (mem_put_self k v t)

/-- Another key keeps its entry unless the new entry comes before it. -/
theorem get_put_diff_iff (sorted : Sorted t) {k k2 : K} (v : V) (other : k2 ≠ k) :
    get (rank k2 (put k v t) : Nat) (put k v t) = get (rank k2 t : Nat) t ↔
      (k2 < k → (∃ e ∈ t, k2 ≤ e.1 ∧ e.1 < k) ∨ (k, v) ∈ t) := by
  have sorted' := sorted_put (v := v) (k := k) sorted
  rw [get_rank, get_rank]
  constructor
  · intro same before
    by_contra no
    obtain ⟨nothing, absent⟩ := not_or.mp no
    have least : (put k v t)[rank k2 (put k v t)]? = some (k, v) := by
      refine (getElem?_rank_iff sorted').mpr ⟨mem_put_self k v t, before.le, fun x hx above => ?_⟩
      rcases mem_put hx with rfl | hx
      · exact le_rfl
      · exact not_lt.mp fun less => nothing ⟨x, hx, above, less⟩
    rw [same] at least
    exact absent (List.mem_of_getElem? least)
  · intro condition
    have least : ∀ e, (∃ x ∈ t, k2 ≤ x.1 ∧ x.1 < k) ∨ k < k2 →
        (t[rank k2 t]? = some e ↔ (put k v t)[rank k2 (put k v t)]? = some e) := by
      intro e apart
      rw [getElem?_rank_iff sorted, getElem?_rank_iff sorted']
      constructor
      · intro ⟨member, above, least⟩
        have differ : e.1 ≠ k := by
          rintro rfl
          rcases apart with ⟨x, hx, between, less⟩ | behind
          · exact absurd (least x hx between) (not_le.mpr less)
          · exact absurd above (not_le.mpr behind)
        refine ⟨mem_put_of_ne member differ, above, fun x hx between => ?_⟩
        rcases mem_put hx with rfl | hx
        · rcases apart with ⟨y, hy, above', less⟩ | behind
          · exact ((least y hy above').trans_lt less).le
          · exact absurd between (not_le.mpr behind)
        · exact least x hx between
      · intro ⟨member, above, least⟩
        have differ : e.1 ≠ k := by
          rintro rfl
          rcases apart with ⟨x, hx, between, less⟩ | behind
          · exact absurd (least x (mem_put_of_ne hx less.ne) between) (not_le.mpr less)
          · exact absurd above (not_le.mpr behind)
        rcases mem_put member with rfl | member
        · exact absurd rfl differ
        refine ⟨member, above, fun x hx between => ?_⟩
        by_cases here : x.1 = k
        · rw [here]
          rcases apart with ⟨y, hy, above', less⟩ | behind
          · exact ((least y (mem_put_of_ne hy less.ne) above').trans_lt less).le
          · exact absurd between (not_le.mpr (here ▸ behind))
        · exact least x (mem_put_of_ne hx here) between
    rcases lt_or_gt_of_ne other with before | behind
    · rcases condition before with between | present
      · exact Option.ext fun e => (least e (Or.inl between)).symm
      · rw [put_of_mem sorted present]
    · exact Option.ext fun e => (least e (Or.inr behind)).symm

/-- The laws hold for a key unless the put key is the next one behind it. -/
theorem putLaws_iff (sorted : Sorted t) (k : K) (v : V) (k2 : K) :
    PutLaws t k v k2 ↔ (k2 < k → (∃ e ∈ t, k2 ≤ e.1 ∧ e.1 < k) ∨ (k, v) ∈ t) := by
  have sorted' := sorted_put (v := v) (k := k) sorted
  constructor
  · intro laws before
    exact (get_put_diff_iff sorted v before.ne).mp (laws.diff before.ne _ _ (absRel_rank sorted k2)
      ((keyRel_iff sorted).mpr rfl) (absRel_rank sorted' k2) ((keyRel_iff sorted').mpr rfl)) before
  · intro condition
    refine ⟨sorted', fun c3 _ rel => ?_, fun other c3 c4 _ rel4 _ rel3 => ?_⟩
    · rw [(keyRel_iff sorted').mp rel]
      exact get_put_same sorted k v
    · rw [(keyRel_iff sorted').mp rel3, (keyRel_iff sorted).mp rel4]
      exact (get_put_diff_iff sorted v other).mpr condition

theorem putLaws_five : PutLaws [((1 : Nat), 10)] 5 50 0 :=
  (putLaws_iff (by simp [Sorted]) 5 50 0).mpr fun _ => Or.inl ⟨(1, 10), by simp, by decide, by decide⟩

/-- Key 3 reads the entry of 9, and after the put of 5 that of 5. -/
theorem put_diff_five : get 0 [((9 : Nat), 90)] = some (9, 90) ∧
    get 0 (Flattened.putAux 5 50 [((9 : Nat), 90)]) = some (5, 50) ∧
    ¬ PutLaws [((9 : Nat), 90)] 5 50 3 := by
  have sorted : Sorted [((9 : Nat), 90)] := by simp [Sorted]
  have sorted' : Sorted (Flattened.putAux 5 50 [((9 : Nat), 90)]) := sorted_put sorted
  refine ⟨by decide, by decide, fun laws => ?_⟩
  have same := laws.diff (by decide) 0 0 ⟨sorted, by decide, by decide⟩
    ((keyRel_iff sorted).mpr (by decide)) ⟨sorted', by decide, by decide⟩
    ((keyRel_iff sorted').mpr (by decide))
  revert same
  decide

/-! ### Moving a cursor -/

/-- The movement axioms of `ABSTRACT_TABLE`. -/
structure MovementLaws (t : List (K × V)) : Prop where
  next_prev : ∀ c, AbsRel c t → ¬ EqCursor c (lastCursor t) t →
    EqCursor c (prevCursor (nextCursor c t) t) t
  prev_next : ∀ c, AbsRel c t → ¬ EqCursor c (firstCursor t) t →
    EqCursor c (nextCursor (prevCursor c t) t) t
  next_order : ∀ c k1 k2, ¬ EqCursor c (lastCursor t) t → KeyRel k1 c t →
    KeyRel k2 (nextCursor c t) t → k1 < k2
  prev_order : ∀ c k1 k2, ¬ EqCursor c (firstCursor t) t → KeyRel k1 c t →
    KeyRel k2 (prevCursor c t) t → k2 < k1
  next_compact : ∀ c k1 k2 k3, ¬ EqCursor c (lastCursor t) t → KeyRel k1 c t →
    KeyRel k2 (nextCursor c t) t → ¬ KeyRel k3 c t → k1 < k3 ∧ k3 < k2
  prev_compact : ∀ c k1 k2 k3, ¬ EqCursor c (firstCursor t) t → KeyRel k1 c t →
    KeyRel k2 (prevCursor c t) t → ¬ KeyRel k3 c t → k2 < k3 ∧ k3 < k1

theorem next_prev (abs : AbsRel c t) (notLast : ¬ EqCursor c (lastCursor t) t) :
    EqCursor c (prevCursor (nextCursor c t) t) t := by
  obtain ⟨-, low, high⟩ := abs
  unfold EqCursor lastCursor at notLast
  unfold EqCursor nextCursor prevCursor
  rw [if_pos (by omega), if_pos (by omega)]
  omega

theorem prev_next (abs : AbsRel c t) (notFirst : ¬ EqCursor c (firstCursor t) t) :
    EqCursor c (nextCursor (prevCursor c t) t) t := by
  obtain ⟨-, low, high⟩ := abs
  unfold EqCursor firstCursor at notFirst
  unfold EqCursor nextCursor prevCursor
  rw [if_pos (by omega), if_pos (by omega)]
  omega

/-- A key with a later cursor is greater. -/
theorem lt_of_cursor (sorted : Sorted t) {c1 c2 : Int} {k1 k2 : K} (rel1 : KeyRel k1 c1 t)
    (rel2 : KeyRel k2 c2 t) (less : c1 < c2) : k1 < k2 := by
  rw [keyRel_iff sorted] at rel1 rel2
  by_contra le
  have mono := rank_mono t (not_lt.mp le)
  omega

theorem next_order (sorted : Sorted t) {k1 k2 : K} (notLast : ¬ EqCursor c (lastCursor t) t)
    (rel1 : KeyRel k1 c t) (rel2 : KeyRel k2 (nextCursor c t) t) : k1 < k2 := by
  have place := (keyRel_iff sorted).mp rel1
  have inside := rank_le_length k1 t
  unfold EqCursor lastCursor at notLast
  rw [nextCursor, if_pos (by omega)] at rel2
  exact lt_of_cursor sorted rel1 rel2 (by omega)

theorem prev_order (sorted : Sorted t) {k1 k2 : K} (notFirst : ¬ EqCursor c (firstCursor t) t)
    (rel1 : KeyRel k1 c t) (rel2 : KeyRel k2 (prevCursor c t) t) : k2 < k1 := by
  have place := (keyRel_iff sorted).mp rel1
  unfold EqCursor firstCursor at notFirst
  rw [prevCursor, if_pos (by omega)] at rel2
  exact lt_of_cursor sorted rel2 rel1 (by omega)

theorem keyRel_getElem (sorted : Sorted t) {n : Nat} {e : K × V} (here : t[n]? = some e) :
    KeyRel e.1 n t := by
  have own := getElem?_rank_of_mem sorted (List.mem_of_getElem? here)
  rw [keyRel_iff sorted, eq_of_getElem? sorted own here rfl]

/-- Behind an entry there is a next cursor with a key when some key is greater. -/
theorem exists_next (sorted : Sorted t) {n : Nat} {e : K × V} (here : t[n]? = some e) (more : e.1 < k) :
    ∃ k2, KeyRel k2 (nextCursor n t) t := by
  have inside := (List.getElem?_eq_some_iff.mp here).1
  rw [nextCursor, if_pos (by omega)]
  cases next : t[n + 1]? with
  | some e' => exact ⟨e'.1, keyRel_getElem sorted next⟩
  | none =>
    have last := List.getElem?_eq_none_iff.mp next
    refine ⟨k, (keyRel_iff sorted).mpr ?_⟩
    have all : rank k t = t.length := by
      apply Nat.le_antisymm (rank_le_length k t)
      by_contra less
      have at_rank : n ≤ rank k t := by
        have own := getElem?_rank_of_mem sorted (List.mem_of_getElem? here)
        rw [← eq_of_getElem? sorted own here rfl]
        exact rank_mono t more.le
      obtain rfl : n = rank k t := by omega
      exact absurd (getElem?_rank sorted here).1 (not_le.mpr more)
    omega

/-- Four of the laws hold. The key related to the next cursor is itself not related to this one, so
that the `compact` laws leave no key behind an entry. -/
theorem movementLaws_iff (sorted : Sorted t) : MovementLaws t ↔ ∀ e ∈ t, ∀ k, k ≤ e.1 := by
  constructor
  · intro laws e he k
    by_contra greater
    obtain ⟨n, here⟩ := List.getElem?_of_mem he
    have inside := (List.getElem?_eq_some_iff.mp here).1
    obtain ⟨k2, rel2⟩ := exists_next sorted here (not_le.mp greater)
    have rel1 := keyRel_getElem sorted here
    have notLast : ¬ EqCursor n (lastCursor t) t := by
      unfold EqCursor lastCursor
      omega
    have apart : ¬ KeyRel k2 n t := by
      intro rel
      rw [keyRel_iff sorted] at rel rel2
      rw [nextCursor, if_pos (by omega)] at rel2
      omega
    exact lt_irrefl _ (laws.next_compact n e.1 k2 k2 notLast rel1 rel2 apart).2
  · intro greatest
    have alone : ∀ {c1 c2 : Int} {k1 k2 : K}, KeyRel k1 c1 t → KeyRel k2 c2 t → ¬ c1 < c2 := by
      intro c1 c2 k1 k2 rel1 rel2 less
      rw [keyRel_iff sorted] at rel1 rel2
      have inside := rank_le_length k2 t
      have room : rank k1 t < t.length := by omega
      have here : t[rank k1 t]? = some t[rank k1 t] := List.getElem?_eq_getElem room
      have before := lt_of_cursor sorted (keyRel_getElem sorted here)
        ((keyRel_iff (k := k2) (c := c2) sorted).mpr rel2) (by omega)
      exact absurd (greatest _ (List.mem_of_getElem? here) k2) (not_le.mpr before)
    refine ⟨fun c => next_prev, fun c => prev_next, fun c k1 k2 => next_order sorted,
      fun c k1 k2 => prev_order sorted, ?_, ?_⟩
    · intro c k1 k2 k3 notLast rel1 rel2 _
      have place := (keyRel_iff sorted).mp rel1
      have inside := rank_le_length k1 t
      unfold EqCursor lastCursor at notLast
      rw [nextCursor, if_pos (by omega)] at rel2
      exact absurd (by omega) (alone rel1 rel2)
    · intro c k1 k2 k3 notFirst rel1 rel2 _
      have place := (keyRel_iff sorted).mp rel1
      unfold EqCursor firstCursor at notFirst
      rw [prevCursor, if_pos (by omega)] at rel2
      exact absurd (by omega) (alone rel2 rel1)

theorem movementLaws_greatest : MovementLaws [(true, 30)] :=
  (movementLaws_iff (by simp [Sorted])).mpr (by
    intro e he k
    rw [List.mem_singleton.mp he]
    exact Bool.le_true k)

/-- Key 6 is related to the cursor behind 5, and so is not between 5 and itself. -/
theorem next_compact_five : KeyRel 5 0 [((5 : Nat), 50)] ∧
    KeyRel 6 (nextCursor 0 [((5 : Nat), 50)]) [((5 : Nat), 50)] ∧
    ¬ KeyRel 6 0 [((5 : Nat), 50)] ∧ ¬ MovementLaws [((5 : Nat), 50)] := by
  have sorted : Sorted [((5 : Nat), 50)] := by simp [Sorted]
  have rel1 : KeyRel 5 0 [((5 : Nat), 50)] := (keyRel_iff sorted).mpr (by decide)
  have rel2 : KeyRel 6 (nextCursor 0 [((5 : Nat), 50)]) [((5 : Nat), 50)] :=
    (keyRel_iff sorted).mpr (by decide)
  have apart : ¬ KeyRel 6 0 [((5 : Nat), 50)] := by
    rw [keyRel_iff sorted]
    decide
  refine ⟨rel1, rel2, apart, fun laws => ?_⟩
  have notLast : ¬ EqCursor 0 (lastCursor [((5 : Nat), 50)]) [((5 : Nat), 50)] := by
    unfold EqCursor lastCursor
    decide
  exact lt_irrefl _ (laws.next_compact 0 5 6 6 notLast rel1 rel2 apart).2

end DeepDB.Trie.SortedListTable
