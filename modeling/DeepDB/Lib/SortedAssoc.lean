import Mathlib.Order.Basic
import Mathlib.Order.Monotone.Basic
import Mathlib.Data.List.Pairwise
import Mathlib.Data.List.Basic
import Mathlib.Order.Lattice

/-!
Association lists over a linear order, kept strictly increasing in their keys. `put` binds a
key, `lookup` reads it, `rank` counts the keys below a bound. The append lemmas say how the
operations act on one part of a list that is split between two key ranges.
-/

namespace DeepDB.SortedAssoc

variable {K V : Type} [LinearOrder K]

/-- The keys are strictly increasing. -/
def Sorted (l : List (K × V)) : Prop := (l.map Prod.fst).Pairwise (· < ·)

/-- Bind `k` to `v`, at its place in the order. -/
def put (k : K) (v : V) : List (K × V) → List (K × V)
  | [] => [(k, v)]
  | e :: rest =>
    if k < e.1 then (k, v) :: e :: rest
    else if k = e.1 then (k, v) :: rest
    else e :: put k v rest

/-- The value bound to `k`. -/
def lookup (k : K) : List (K × V) → Option V
  | [] => none
  | e :: rest => if k = e.1 then some e.2 else lookup k rest

/-- How many keys lie below `k`. -/
def rank (k : K) (l : List (K × V)) : Nat := l.countP (fun e => e.1 < k)

@[simp] theorem sorted_nil : Sorted ([] : List (K × V)) := List.Pairwise.nil

theorem sorted_cons {e : K × V} {l : List (K × V)} :
    Sorted (e :: l) ↔ (∀ x ∈ l, e.1 < x.1) ∧ Sorted l := by
  simp [Sorted]

theorem sorted_append {l r : List (K × V)} :
    Sorted (l ++ r) ↔ Sorted l ∧ Sorted r ∧ ∀ x ∈ l, ∀ y ∈ r, x.1 < y.1 := by
  simp only [Sorted, List.map_append, List.pairwise_append, List.mem_map, forall_exists_index,
    and_imp, forall_apply_eq_imp_iff₂]

/-! ### Putting a binding -/

/-- Two parts of a sorted list have no key in common. -/
theorem sorted_disjoint {l r : List (K × V)} (h : Sorted (l ++ r)) {k : K}
    (hl : k ∈ l.map Prod.fst) : k ∉ r.map Prod.fst := by
  intro hr
  obtain ⟨x, hx, rfl⟩ := List.mem_map.mp hl
  obtain ⟨y, hy, same⟩ := List.mem_map.mp hr
  exact absurd same ((sorted_append.mp h).2.2 x hx y hy).ne'

theorem mem_put {k : K} {v : V} {l : List (K × V)} {x : K × V} (h : x ∈ put k v l) :
    x = (k, v) ∨ x ∈ l := by
  induction l with
  | nil => simpa [put] using h
  | cons e rest ih =>
    simp only [put] at h
    split at h
    · simpa using h
    · split at h
      · rcases List.mem_cons.mp h with rfl | h
        · exact Or.inl rfl
        · exact Or.inr (List.mem_cons_of_mem _ h)
      · rcases List.mem_cons.mp h with rfl | h
        · exact Or.inr List.mem_cons_self
        · exact (ih h).imp id (List.mem_cons_of_mem _)

theorem mem_put_self (k : K) (v : V) (l : List (K × V)) : (k, v) ∈ put k v l := by
  induction l with
  | nil => simp [put]
  | cons e rest ih =>
    simp only [put]
    split
    · simp
    · split
      · simp
      · exact List.mem_cons_of_mem _ ih

theorem put_ne_nil (k : K) (v : V) (l : List (K × V)) : put k v l ≠ [] :=
  List.ne_nil_of_mem (mem_put_self k v l)

theorem mem_put_of_ne {k : K} {v : V} {l : List (K × V)} {x : K × V} (hx : x ∈ l)
    (hne : x.1 ≠ k) : x ∈ put k v l := by
  induction l with
  | nil => cases hx
  | cons e rest ih =>
    simp only [put]
    split
    · exact List.mem_cons_of_mem _ hx
    · split
      · rename_i hk
        rcases List.mem_cons.mp hx with rfl | hx
        · exact absurd hk.symm hne
        · exact List.mem_cons_of_mem _ hx
      · rcases List.mem_cons.mp hx with rfl | hx
        · exact List.mem_cons_self
        · exact List.mem_cons_of_mem _ (ih hx)

theorem sorted_put {k : K} {v : V} {l : List (K × V)} (h : Sorted l) : Sorted (put k v l) := by
  induction l with
  | nil => simp [put, Sorted]
  | cons e rest ih =>
    obtain ⟨he, hrest⟩ := sorted_cons.mp h
    simp only [put]
    split
    · rename_i hk
      refine sorted_cons.mpr ⟨?_, h⟩
      intro x hx
      rcases List.mem_cons.mp hx with rfl | hx
      · exact hk
      · exact hk.trans (he x hx)
    · split
      · rename_i hk
        exact sorted_cons.mpr ⟨fun x hx => hk ▸ he x hx, hrest⟩
      · rename_i hlt hne
        have above : e.1 < k := lt_of_le_of_ne (not_lt.mp hlt) (Ne.symm hne)
        refine sorted_cons.mpr ⟨?_, ih hrest⟩
        intro x hx
        rcases mem_put hx with rfl | hx
        · exact above
        · exact he x hx

/-- A put into the right part of a list whose left part lies below the key. -/
theorem put_append_right {k : K} {v : V} {l r : List (K × V)} (h : ∀ x ∈ l, x.1 < k) :
    put k v (l ++ r) = l ++ put k v r := by
  induction l with
  | nil => rfl
  | cons e rest ih =>
    have he := h e List.mem_cons_self
    have tail := ih fun x hx => h x (List.mem_cons_of_mem _ hx)
    simp [put, not_lt.mpr he.le, he.ne', tail]

/-- A put into the left part of a list whose right part lies above the key. -/
theorem put_append_left {k : K} {v : V} {l r : List (K × V)} (h : ∀ x ∈ r, k < x.1) :
    put k v (l ++ r) = put k v l ++ r := by
  induction l with
  | nil =>
    cases r with
    | nil => rfl
    | cons e rest => simp [put, h e List.mem_cons_self]
  | cons e rest ih =>
    simp only [List.cons_append, put, ih]
    split
    · rfl
    · split <;> rfl

theorem put_of_lt {k : K} {v : V} {l : List (K × V)} (h : ∀ x ∈ l, k < x.1) :
    put k v l = (k, v) :: l := put_append_left (l := []) h

theorem put_head_eq {k : K} {v w : V} {l : List (K × V)} : put k v ((k, w) :: l) = (k, v) :: l := by
  simp [put]

/-- The keys after a put are the old keys and the new one. -/
theorem mem_keys_put {k k' : K} {v : V} {l : List (K × V)} :
    k' ∈ (put k v l).map Prod.fst ↔ k' = k ∨ k' ∈ l.map Prod.fst := by
  constructor
  · rintro h
    obtain ⟨x, hx, rfl⟩ := List.mem_map.mp h
    rcases mem_put hx with rfl | hx
    · exact Or.inl rfl
    · exact Or.inr (List.mem_map.mpr ⟨x, hx, rfl⟩)
  · rintro (rfl | h)
    · exact List.mem_map.mpr ⟨_, mem_put_self _ v l, rfl⟩
    · obtain ⟨x, hx, rfl⟩ := List.mem_map.mp h
      by_cases hne : x.1 = k
      · rw [hne]
        exact List.mem_map.mpr ⟨_, mem_put_self _ v l, rfl⟩
      · exact List.mem_map.mpr ⟨x, mem_put_of_ne hx hne, rfl⟩

theorem length_put_of_mem {k : K} {v : V} {l : List (K × V)} (hs : Sorted l)
    (h : k ∈ l.map Prod.fst) : (put k v l).length = l.length := by
  induction l with
  | nil => simp at h
  | cons e rest ih =>
    obtain ⟨he, hrest⟩ := sorted_cons.mp hs
    rcases List.mem_cons.mp h with rfl | h
    · simp [put]
    · obtain ⟨x, hx, rfl⟩ := List.mem_map.mp h
      have below := he x hx
      simp [put, not_lt.mpr below.le, below.ne', ih hrest (List.mem_map.mpr ⟨x, hx, rfl⟩)]

theorem length_put_of_not_mem {k : K} {v : V} {l : List (K × V)} (h : k ∉ l.map Prod.fst) :
    (put k v l).length = l.length + 1 := by
  induction l with
  | nil => simp [put]
  | cons e rest ih =>
    simp only [List.map_cons, List.mem_cons, not_or] at h
    simp only [put, if_neg h.1]
    split
    · simp
    · simp [ih h.2]

theorem length_put_le (k : K) (v : V) (l : List (K × V)) : (put k v l).length ≤ l.length + 1 := by
  induction l with
  | nil => simp [put]
  | cons e rest ih =>
    simp only [put]
    split
    · simp
    · split
      · simp
      · simpa using ih

theorem length_le_put (k : K) (v : V) (l : List (K × V)) : l.length ≤ (put k v l).length := by
  induction l with
  | nil => simp
  | cons e rest ih =>
    simp only [put]
    split
    · simp
    · split
      · simp
      · simpa using ih

/-! ### Reading a binding -/

theorem lookup_put_self (k : K) (v : V) (l : List (K × V)) : lookup k (put k v l) = some v := by
  induction l with
  | nil => simp [put, lookup]
  | cons e rest ih =>
    simp only [put]
    split
    · simp [lookup]
    · split
      · simp [lookup]
      · rename_i hne
        simp [lookup, hne, ih]

theorem lookup_put_of_ne {k k' : K} (v : V) (l : List (K × V)) (h : k' ≠ k) :
    lookup k' (put k v l) = lookup k' l := by
  induction l with
  | nil => simp [put, lookup, h]
  | cons e rest ih =>
    simp only [put]
    split
    · simp [lookup, h]
    · split
      · rename_i hk
        simp [lookup, h, ← hk]
      · simp [lookup, ih]

theorem lookup_eq_none {k : K} {l : List (K × V)} : lookup k l = none ↔ k ∉ l.map Prod.fst := by
  induction l with
  | nil => simp [lookup]
  | cons e rest ih =>
    simp only [lookup, List.map_cons, List.mem_cons, not_or]
    split
    · rename_i hk
      simp [hk]
    · rename_i hk
      simp [hk, ih]

theorem mem_of_lookup {k : K} {v : V} {l : List (K × V)} (h : lookup k l = some v) : (k, v) ∈ l := by
  induction l with
  | nil => simp [lookup] at h
  | cons e rest ih =>
    simp only [lookup] at h
    split at h
    · rename_i hk
      simp only [Option.some.injEq] at h
      subst hk; subst h
      exact List.mem_cons_self
    · exact List.mem_cons_of_mem _ (ih h)

theorem lookup_of_mem {k : K} {v : V} {l : List (K × V)} (hs : Sorted l) (h : (k, v) ∈ l) :
    lookup k l = some v := by
  induction l with
  | nil => cases h
  | cons e rest ih =>
    obtain ⟨he, hrest⟩ := sorted_cons.mp hs
    rcases List.mem_cons.mp h with rfl | h
    · simp [lookup]
    · simp [lookup, (he _ h).ne', ih hrest h]

/-- A sorted list is determined by what its keys are bound to. -/
theorem sorted_ext {l r : List (K × V)} (hl : Sorted l) (hr : Sorted r)
    (same : ∀ k, lookup k l = lookup k r) : l = r := by
  have member : ∀ x, x ∈ l ↔ x ∈ r := fun x =>
    ⟨fun hx => mem_of_lookup ((same x.1).symm.trans (lookup_of_mem hl hx)),
      fun hx => mem_of_lookup ((same x.1).trans (lookup_of_mem hr hx))⟩
  have pairs := List.pairwise_map.mp hl
  have pairs' := List.pairwise_map.mp hr
  have perm : l.Perm r := (List.perm_ext_iff_of_nodup (pairs.imp fun less eq => less.ne (by rw [eq]))
    (pairs'.imp fun less eq => less.ne (by rw [eq]))).mpr member
  exact perm.eq_of_pairwise (fun a b _ _ less more => absurd less more.not_gt) pairs pairs'

/-! ### Ranks -/

@[simp] theorem rank_nil (k : K) : rank k ([] : List (K × V)) = 0 := rfl

theorem rank_append (k : K) (l r : List (K × V)) : rank k (l ++ r) = rank k l + rank k r := by
  simp [rank, List.countP_append]

theorem rank_of_lt {k : K} {l : List (K × V)} (h : ∀ x ∈ l, x.1 < k) : rank k l = l.length := by
  rw [rank, List.countP_eq_length]
  intro x hx
  simpa using h x hx

theorem rank_of_le {k : K} {l : List (K × V)} (h : ∀ x ∈ l, k ≤ x.1) : rank k l = 0 := by
  rw [rank, List.countP_eq_zero]
  intro x hx
  simpa using h x hx

theorem rank_le_length (k : K) (l : List (K × V)) : rank k l ≤ l.length := List.countP_le_length

/-- Keys with no entry between them have the same rank. -/
theorem rank_gap {k k' : K} {l : List (K × V)} (low : k ≤ k') (gap : ∀ x ∈ l, x.1 < k ∨ k' ≤ x.1) :
    rank k l = rank k' l := by
  unfold rank
  apply List.countP_congr
  intro x hx
  rcases gap x hx with below | above
  · exact iff_of_true (decide_eq_true below) (decide_eq_true (below.trans_le low))
  · exact iff_of_false (by simpa using low.trans above) (by simpa using above)

/-- In a sorted list the entries before the rank are below the key, the others are not. -/
theorem rank_split {k : K} {l : List (K × V)} (h : Sorted l) :
    (∀ x ∈ l.take (rank k l), x.1 < k) ∧ ∀ x ∈ l.drop (rank k l), k ≤ x.1 := by
  induction l with
  | nil => simp
  | cons e rest ih =>
    obtain ⟨he, hrest⟩ := sorted_cons.mp h
    by_cases hk : e.1 < k
    · have hr : rank k (e :: rest) = rank k rest + 1 := by simp [rank, hk]
      rw [hr, List.take_succ_cons, List.drop_succ_cons]
      exact ⟨by simpa [hk] using (ih hrest).1, (ih hrest).2⟩
    · have hr : rank k (e :: rest) = 0 := by
        apply rank_of_le
        intro x hx
        rcases List.mem_cons.mp hx with rfl | hx
        · exact not_lt.mp hk
        · exact (not_lt.mp hk).trans (he x hx).le
      rw [hr]
      refine ⟨by simp, ?_⟩
      intro x hx
      rcases List.mem_cons.mp hx with rfl | hx
      · exact not_lt.mp hk
      · exact (not_lt.mp hk).trans (he x hx).le

/-- The entry at a key's rank carries the least key that is not below it. -/
theorem getElem?_rank {k : K} {l : List (K × V)} (h : Sorted l) {e : K × V}
    (he : l[rank k l]? = some e) : k ≤ e.1 ∧ ∀ x ∈ l, k ≤ x.1 → e.1 ≤ x.1 := by
  obtain ⟨below, above⟩ := rank_split (k := k) h
  have hd : l.drop (rank k l) = e :: l.drop (rank k l + 1) := by
    obtain ⟨hlt, rfl⟩ := List.getElem?_eq_some_iff.mp he
    exact List.drop_eq_getElem_cons hlt
  refine ⟨above e (by rw [hd]; exact List.mem_cons_self), ?_⟩
  intro x hx hkx
  rw [← List.take_append_drop (rank k l) l] at hx
  rcases List.mem_append.mp hx with hx | hx
  · exact absurd hkx (not_le.mpr (below x hx))
  · have hs : Sorted (e :: l.drop (rank k l + 1)) := by
      rw [← hd]
      rw [← List.take_append_drop (rank k l) l] at h
      exact (sorted_append.mp h).2.1
    rw [hd] at hx
    rcases List.mem_cons.mp hx with rfl | hx
    · exact le_refl _
    · exact ((sorted_cons.mp hs).1 x hx).le

theorem rank_eq_length {k : K} {l : List (K × V)} :
    rank k l = l.length ↔ ∀ x ∈ l, x.1 < k := by
  rw [rank, List.countP_eq_length]
  simp

/-- A key is stored at one position. -/
theorem eq_of_getElem? {l : List (K × V)} (h : Sorted l) {i j : Nat} {x y : K × V}
    (hx : l[i]? = some x) (hy : l[j]? = some y) (same : x.1 = y.1) : i = j := by
  have nodup : (l.map Prod.fst).Nodup := h.imp fun hlt => hlt.ne
  obtain ⟨hlt, -⟩ := List.getElem?_eq_some_iff.mp hx
  refine (List.getElem?_inj (by simpa using hlt) nodup).mp ?_
  rw [List.getElem?_map, List.getElem?_map, hx, hy]
  exact congrArg Option.some same

/-- A stored key is found at its own rank. -/
theorem getElem?_rank_of_mem {k : K} {v : V} {l : List (K × V)} (h : Sorted l) (hm : (k, v) ∈ l) :
    l[rank k l]? = some (k, v) := by
  induction l with
  | nil => cases hm
  | cons e rest ih =>
    obtain ⟨he, hrest⟩ := sorted_cons.mp h
    rcases List.mem_cons.mp hm with rfl | hm
    · have : rank k ((k, v) :: rest) = 0 :=
        rank_of_le (by simpa using fun a b hab => (he (a, b) hab).le)
      simp [this]
    · have hr : rank k (e :: rest) = rank k rest + 1 := by simp [rank, he _ hm]
      simp [hr, ih hrest hm]

/-- The entry at a key's rank is the least one that is not below the key. -/
theorem getElem?_rank_iff {k : K} {l : List (K × V)} (h : Sorted l) {e : K × V} :
    l[rank k l]? = some e ↔ e ∈ l ∧ k ≤ e.1 ∧ ∀ x ∈ l, k ≤ x.1 → e.1 ≤ x.1 := by
  constructor
  · intro here
    obtain ⟨above, least⟩ := getElem?_rank h here
    exact ⟨List.mem_of_getElem? here, above, least⟩
  · intro ⟨member, above, least⟩
    have inside : rank k l < l.length := by
      apply Nat.lt_of_le_of_ne (rank_le_length k l)
      intro all
      exact absurd (rank_eq_length.mp all e member) (not_lt.mpr above)
    have here := List.getElem?_eq_getElem inside
    obtain ⟨above', least'⟩ := getElem?_rank h here
    have same : e.1 = (l[rank k l]).1 :=
      le_antisymm (least _ (List.getElem_mem inside) above') (least' e member above)
    obtain ⟨i, hi⟩ := List.getElem?_of_mem member
    rw [← eq_of_getElem? h hi here same, hi]

/-- Where a list is cut at a key, the entry at the key's rank is the first after the cut. -/
theorem getElem?_rank_append {k : K} {l r : List (K × V)} (before : ∀ x ∈ l, x.1 < k)
    (after : ∀ x ∈ r, k ≤ x.1) : (l ++ r)[rank k (l ++ r)]? = r.head? := by
  rw [rank_append, rank_of_lt before, rank_of_le after, Nat.add_zero,
    List.getElem?_append_right (Nat.le_refl _), Nat.sub_self, List.head?_eq_getElem?]

theorem rank_mono {k k' : K} (l : List (K × V)) (le : k ≤ k') : rank k l ≤ rank k' l := by
  unfold rank
  apply List.countP_mono_left
  intro x _ hx
  simp only [decide_eq_true_eq] at hx ⊢
  exact lt_of_lt_of_le hx le

/-- A put of an absent key, by position. -/
theorem put_eq_insert {k : K} {v : V} {l : List (K × V)} (hs : Sorted l)
    (h : k ∉ l.map Prod.fst) :
    put k v l = l.take (rank k l) ++ (k, v) :: l.drop (rank k l) := by
  obtain ⟨below, above⟩ := rank_split (k := k) hs
  have strict : ∀ x ∈ l.drop (rank k l), k < x.1 := by
    intro x hx
    refine lt_of_le_of_ne (above x hx) ?_
    rintro rfl
    exact h (List.mem_map_of_mem (List.mem_of_mem_drop hx))
  calc put k v l = put k v (l.take (rank k l) ++ l.drop (rank k l)) := by
        rw [List.take_append_drop]
    _ = _ := by rw [put_append_right below, put_of_lt strict]

/-- A put of a present key, by position. -/
theorem put_eq_set {k : K} {v : V} {l : List (K × V)} (hs : Sorted l)
    (h : k ∈ l.map Prod.fst) : put k v l = l.set (rank k l) (k, v) := by
  induction l with
  | nil => cases h
  | cons e rest ih =>
    obtain ⟨he, hrest⟩ := sorted_cons.mp hs
    rcases List.mem_cons.mp h with rfl | h
    · have first : rank e.1 (e :: rest) = 0 := by
        apply rank_of_le
        intro x hx
        rcases List.mem_cons.mp hx with rfl | hx
        · exact le_refl _
        · exact (he x hx).le
      simp [put, first]
    · obtain ⟨x, hx, rfl⟩ := List.mem_map.mp h
      have below := he x hx
      have next : rank x.1 (e :: rest) = rank x.1 rest + 1 := by simp [rank, below]
      simp [put, not_lt.mpr below.le, below.ne', next,
        ih hrest (List.mem_map_of_mem hx)]

theorem put_of_mem {k : K} {v : V} {l : List (K × V)} (hs : Sorted l) (h : (k, v) ∈ l) :
    put k v l = l := by
  rw [put_eq_set hs (List.mem_map_of_mem h)]
  obtain ⟨inside, same⟩ := List.getElem?_eq_some_iff.mp (getElem?_rank_of_mem hs h)
  calc l.set (rank k l) (k, v) = l.set (rank k l) l[rank k l] := by rw [same]
    _ = l := List.set_getElem_self inside

theorem rank_put_self (k : K) (v : V) (l : List (K × V)) : rank k (put k v l) = rank k l := by
  induction l with
  | nil => simp [put, rank]
  | cons e rest ih =>
    simp only [put]
    split
    · simp [rank]
    · split
      · rename_i hk
        simp [rank, hk]
      · simp only [rank, List.countP_cons] at ih ⊢
        rw [ih]

/-- A put commutes with a function on the values. -/
theorem lookup_map {W : Type} (f : V → W) (k : K) (l : List (K × V)) :
    lookup k (l.map fun e => (e.1, f e.2)) = (lookup k l).map f := by
  induction l with
  | nil => rfl
  | cons e rest ih =>
    simp only [lookup, List.map_cons]
    split
    · rfl
    · exact ih

theorem put_map {W : Type} (f : V → W) (k : K) (v : V) (l : List (K × V)) :
    (put k v l).map (fun e => (e.1, f e.2)) = put k (f v) (l.map fun e => (e.1, f e.2)) := by
  induction l with
  | nil => rfl
  | cons e rest ih =>
    simp only [put, List.map_cons]
    split
    · rfl
    · split
      · rfl
      · rw [List.map_cons, ih]

/-- Nor does an embedding of the keys change what they are bound to. -/
theorem lookup_mapKeys {L : Type} [LinearOrder L] {f : K → L} (mono : StrictMono f) (k : K)
    (l : List (K × V)) : lookup (f k) (l.map fun e => (f e.1, e.2)) = lookup k l := by
  induction l with
  | nil => rfl
  | cons e rest ih =>
    simp only [lookup, List.map_cons, mono.injective.eq_iff, ih]

theorem put_mapKeys {L : Type} [LinearOrder L] {f : K → L} (mono : StrictMono f) (k : K) (v : V)
    (l : List (K × V)) :
    (put k v l).map (fun e => (f e.1, e.2)) = put (f k) v (l.map fun e => (f e.1, e.2)) := by
  induction l with
  | nil => rfl
  | cons e rest ih =>
    simp only [put, List.map_cons, mono.lt_iff_lt, mono.injective.eq_iff]
    split
    · rfl
    · split
      · rfl
      · rw [List.map_cons, ih]

/-- Two keys can be put in any order. -/
theorem put_comm {k k' : K} (v v' : V) {l : List (K × V)} (h : Sorted l) (apart : k ≠ k') :
    put k v (put k' v' l) = put k' v' (put k v l) := by
  apply sorted_ext (sorted_put (sorted_put h)) (sorted_put (sorted_put h))
  intro j
  by_cases here : j = k
  · subst here
    rw [lookup_put_self, lookup_put_of_ne v' _ apart, lookup_put_self]
  · by_cases there : j = k'
    · subst there
      rw [lookup_put_self, lookup_put_of_ne v _ here, lookup_put_self]
    · rw [lookup_put_of_ne v _ here, lookup_put_of_ne v' _ there, lookup_put_of_ne v' _ there,
        lookup_put_of_ne v _ here]

/-- After a put the entries up to the key are those before the next position. -/
theorem put_split {k : K} {v : V} {l : List (K × V)} (h : Sorted l) :
    (∀ x ∈ (put k v l).take (rank k l + 1), x.1 ≤ k) ∧
      ∀ x ∈ (put k v l).drop (rank k l + 1), k < x.1 := by
  have hs := sorted_put (k := k) (v := v) h
  have hget := getElem?_rank_of_mem hs (mem_put_self k v l)
  obtain ⟨below, -⟩ := rank_split (k := k) hs
  rw [rank_put_self] at hget below
  obtain ⟨hlt, hval⟩ := List.getElem?_eq_some_iff.mp hget
  constructor
  · intro x hx
    rw [List.take_succ_eq_append_getElem hlt, hval] at hx
    rcases List.mem_append.mp hx with hx | hx
    · exact (below x hx).le
    · obtain rfl := List.mem_singleton.mp hx
      exact le_refl _
  · intro x hx
    have cut : Sorted ((k, v) :: (put k v l).drop (rank k l + 1)) := by
      rw [← hval, ← List.drop_eq_getElem_cons hlt]
      rw [← List.take_append_drop (rank k l) (put k v l)] at hs
      exact (sorted_append.mp hs).2.1
    exact (sorted_cons.mp cut).1 x hx

end DeepDB.SortedAssoc
