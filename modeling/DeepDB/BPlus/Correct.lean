import Mathlib.Order.MinMax
import DeepDB.BPlus.Insert
import DeepDB.Lib.SortedAssoc

/-!
What an insertion into the second functional B+-tree does. The entries are cut at the subtree the
cursor goes to, the rebuilt node holds the old entries with the new one put among them, and
splitting a node keeps its entries, its depth and its order.
-/

namespace DeepDB.BPlus

open SortedAssoc

variable {K V I : Type}

/-! ### Lists of children -/

theorem flattenChildren_append (l r : List (K × Node K V I)) :
    flattenChildren (l ++ r) = flattenChildren l ++ flattenChildren r := by
  induction l with
  | nil => simp [flattenChildren]
  | cons e tl ih =>
    obtain ⟨k, n⟩ := e
    simp [flattenChildren, ih]

theorem wellSizedChildren_iff {minFanout : Nat} {l : List (K × Node K V I)} :
    WellSizedChildren minFanout l ↔ ∀ e ∈ l, WellSized minFanout e.2 := by
  induction l with
  | nil => simp [WellSizedChildren]
  | cons e tl ih =>
    obtain ⟨k, n⟩ := e
    simp [WellSizedChildren, ih]

theorem card_eq_length (n : Node K V I) : card n = (flatten n).length := by
  induction n using Node.ind with
  | leaf records info => rfl
  | internal ptr0 children info first rest =>
    have tail : cardChildren children = (flattenChildren children).length := by
      induction children with
      | nil => rfl
      | cons e tl ih =>
        obtain ⟨k, n⟩ := e
        have here := rest (k, n) List.mem_cons_self
        have there := ih fun e he => rest e (List.mem_cons_of_mem _ he)
        simp only [cardChildren, flattenChildren, List.length_append, here, there]
    simp only [card, flatten, List.length_append, first, tail]

section Order

variable [LinearOrder K]

theorem wellSortedChildren_cons {min max k : K} {n : Node K V I} {tl : List (K × Node K V I)} :
    WellSortedChildren min max ((k, n) :: tl) ↔ min ≤ k ∧ ∃ minN maxN, k < minN ∧
      WellSorted minN maxN n ∧ WellSortedChildren maxN max tl := Iff.rfl

theorem wellSortedChildren_extends {min max min' max' : K} {l : List (K × Node K V I)}
    (h : WellSortedChildren min max l) (below : min' ≤ min) (above : max ≤ max') :
    WellSortedChildren min' max' l := by
  induction l generalizing min min' with
  | nil =>
    unfold WellSortedChildren at h ⊢
    exact below.trans (h.trans above)
  | cons e tl ih =>
    obtain ⟨k, n⟩ := e
    unfold WellSortedChildren at h ⊢
    obtain ⟨hk, minN, maxN, lt, hn, htl⟩ := h
    exact ⟨below.trans hk, minN, maxN, lt, hn, ih htl le_rfl⟩

theorem wellSorted_extends {min max min' max' : K} {n : Node K V I} (h : WellSorted min max n)
    (below : min' ≤ min) (above : max ≤ max') : WellSorted min' max' n := by
  induction n using Node.ind generalizing min max min' max' with
  | leaf records info =>
    unfold WellSorted at h ⊢
    obtain ⟨hs, hle, hb⟩ := h
    exact ⟨hs, below.trans (hle.trans above),
      fun k hk => ⟨below.trans (hb k hk).1, (hb k hk).2.trans above⟩⟩
  | internal ptr0 children info first rest =>
    unfold WellSorted at h ⊢
    obtain ⟨maxPtr0, h0, hc⟩ := h
    exact ⟨maxPtr0, first h0 below le_rfl, wellSortedChildren_extends hc le_rfl above⟩

theorem wellSortedChildren_append {min max : K} {l r : List (K × Node K V I)} :
    WellSortedChildren min max (l ++ r) ↔
      ∃ mid, WellSortedChildren min mid l ∧ WellSortedChildren mid max r := by
  induction l generalizing min with
  | nil =>
    constructor
    · intro h
      refine ⟨min, ?_, h⟩
      unfold WellSortedChildren
      exact le_rfl
    · intro ⟨mid, hle, h⟩
      unfold WellSortedChildren at hle
      exact wellSortedChildren_extends h hle le_rfl
  | cons e tl ih =>
    obtain ⟨k, n⟩ := e
    simp only [List.cons_append, wellSortedChildren_cons]
    constructor
    · intro ⟨hk, minN, maxN, lt, hn, htl⟩
      obtain ⟨mid, hl, hr⟩ := ih.mp htl
      exact ⟨mid, ⟨hk, minN, maxN, lt, hn, hl⟩, hr⟩
    · intro ⟨mid, ⟨hk, minN, maxN, lt, hn, hl⟩, hr⟩
      exact ⟨hk, minN, maxN, lt, hn, ih.mpr ⟨mid, hl, hr⟩⟩

/-- The entries of a list of children lie above its lower bound. -/
theorem wellSortedChildren_flatten {min max : K} {l : List (K × Node K V I)}
    (nodes : ∀ e ∈ l, ∀ {m M : K}, WellSorted m M e.2 →
      m ≤ M ∧ Sorted (flatten e.2) ∧ ∀ x ∈ flatten e.2, m ≤ x.1 ∧ x.1 ≤ M)
    (h : WellSortedChildren min max l) :
    min ≤ max ∧ Sorted (flattenChildren l) ∧ ∀ x ∈ flattenChildren l, min < x.1 ∧ x.1 ≤ max := by
  induction l generalizing min with
  | nil =>
    unfold WellSortedChildren at h
    simp [flattenChildren, h]
  | cons e tl ih =>
    obtain ⟨k, n⟩ := e
    unfold WellSortedChildren at h
    obtain ⟨hk, minN, maxN, lt, hn, htl⟩ := h
    obtain ⟨nle, nsorted, nbounds⟩ := nodes (k, n) List.mem_cons_self hn
    obtain ⟨tle, tsorted, tbounds⟩ := ih (fun e he => nodes e (List.mem_cons_of_mem _ he)) htl
    have low : min < minN := hk.trans_lt lt
    unfold flattenChildren
    refine ⟨low.le.trans (nle.trans tle), sorted_append.mpr ⟨nsorted, tsorted, ?_⟩, ?_⟩
    · intro x hx y hy
      exact (nbounds x hx).2.trans_lt (tbounds y hy).1
    · intro x hx
      rcases List.mem_append.mp hx with hx | hx
      · exact ⟨low.trans_le (nbounds x hx).1, (nbounds x hx).2.trans tle⟩
      · exact ⟨low.trans_le (nle.trans (tbounds x hx).1.le), (tbounds x hx).2⟩

theorem wellSorted_flatten {min max : K} {n : Node K V I} (h : WellSorted min max n) :
    min ≤ max ∧ Sorted (flatten n) ∧ ∀ x ∈ flatten n, min ≤ x.1 ∧ x.1 ≤ max := by
  induction n using Node.ind generalizing min max with
  | leaf records info =>
    unfold WellSorted at h
    obtain ⟨hs, hle, hb⟩ := h
    exact ⟨hle, hs, fun x hx => hb x.1 (List.mem_map_of_mem hx)⟩
  | internal ptr0 children info first rest =>
    unfold WellSorted at h
    obtain ⟨maxPtr0, h0, hc⟩ := h
    obtain ⟨fle, fsorted, fbounds⟩ := first h0
    obtain ⟨cle, csorted, cbounds⟩ := wellSortedChildren_flatten (fun e he => rest e he) hc
    unfold flatten
    refine ⟨fle.trans cle, sorted_append.mpr ⟨fsorted, csorted, ?_⟩, ?_⟩
    · intro x hx y hy
      exact (fbounds x hx).2.trans_lt (cbounds y hy).1
    · intro x hx
      rcases List.mem_append.mp hx with hx | hx
      · exact ⟨(fbounds x hx).1, (fbounds x hx).2.trans cle⟩
      · exact ⟨fle.trans (cbounds x hx).1.le, (cbounds x hx).2⟩

theorem wellSortedChildren_bounds {min max : K} {l : List (K × Node K V I)}
    (h : WellSortedChildren min max l) :
    min ≤ max ∧ Sorted (flattenChildren l) ∧ ∀ x ∈ flattenChildren l, min < x.1 ∧ x.1 ≤ max :=
  wellSortedChildren_flatten (fun _ _ => wellSorted_flatten) h

/-! ### The position of a key -/

section Position

variable {α : Type}

theorem findIndex_take (k : K) (l : List (K × α)) :
    ∀ x ∈ l.take (findIndex k l), x.1 < k := by
  induction l with
  | nil => simp
  | cons e tl ih =>
    obtain ⟨k', y⟩ := e
    rw [findIndex_cons]
    split
    · rename_i below
      intro x hx
      rcases List.mem_cons.mp hx with rfl | hx
      · exact below
      · exact ih x hx
    · simp

theorem findIndex_drop (k : K) (l : List (K × α)) :
    findIndex k (l.drop (findIndex k l)) = 0 := by
  induction l with
  | nil => rfl
  | cons e tl ih =>
    obtain ⟨k', y⟩ := e
    rw [findIndex_cons]
    split
    · simpa using ih
    · rename_i above
      rw [List.drop_zero, findIndex_cons, if_neg above]

/-- The entry before a key's index, and the lists around it. -/
theorem findIndex_focus {k : K} {l : List (K × α)} (pos : findIndex k l ≠ 0) :
    ∃ pre c x post, l = pre ++ (c, x) :: post ∧ findIndex k l = pre.length + 1 ∧ c < k ∧
      findIndex k post = 0 := by
  have bound := findIndex_le k l
  have inside : findIndex k l - 1 < l.length := by omega
  have next : findIndex k l - 1 + 1 = findIndex k l := by omega
  refine ⟨l.take (findIndex k l - 1), l[findIndex k l - 1].1, l[findIndex k l - 1].2,
    l.drop (findIndex k l), ?_, ?_, ?_, findIndex_drop k l⟩
  · calc l = l.take (findIndex k l - 1) ++ l.drop (findIndex k l - 1) :=
        (List.take_append_drop _ _).symm
      _ = _ := by rw [List.drop_eq_getElem_cons inside, next]
  · rw [List.length_take]
    omega
  · have member : l[findIndex k l - 1] ∈ l.take (findIndex k l - 1 + 1) := by
      rw [List.take_succ_eq_append_getElem inside]
      exact List.mem_append_right _ List.mem_cons_self
    rw [next] at member
    exact findIndex_take k l _ member

end Position

/-- In a sorted leaf the index is the number of smaller keys. -/
theorem findIndex_eq_rank {k : K} {l : List (K × V)} (h : Sorted l) : findIndex k l = rank k l := by
  induction l with
  | nil => rfl
  | cons e tl ih =>
    obtain ⟨k', v⟩ := e
    obtain ⟨above, htl⟩ := sorted_cons.mp h
    rw [findIndex_cons]
    split
    · rename_i below
      rw [ih htl]
      simp [rank, below]
    · rename_i notBelow
      refine (rank_of_le ?_).symm
      intro x hx
      rcases List.mem_cons.mp hx with rfl | hx
      · exact not_lt.mp notBelow
      · exact (not_lt.mp notBelow).trans (above x hx).le

/-- Children that start at or above a key keep their order when the bounds are raised to it. -/
theorem wellSortedChildren_raise {lo hi k : K} {l : List (K × Node K V I)}
    (h : WellSortedChildren lo hi l) (first : findIndex k l = 0) :
    WellSortedChildren (max lo k) (max hi k) l := by
  cases l with
  | nil =>
    unfold WellSortedChildren at h ⊢
    exact max_le_max h le_rfl
  | cons e tl =>
    obtain ⟨k', n⟩ := e
    rw [findIndex_cons] at first
    have above : k ≤ k' := by
      by_contra below
      rw [if_pos (not_le.mp below)] at first
      exact absurd first (Nat.succ_ne_zero _)
    obtain ⟨hk, minN, maxN, lt, hn, htl⟩ := wellSortedChildren_cons.mp h
    exact wellSortedChildren_cons.mpr ⟨max_le hk above, minN, maxN, lt, hn,
      wellSortedChildren_extends htl le_rfl (le_max_left _ _)⟩

theorem flattenChildren_above {lo hi k : K} {l : List (K × Node K V I)}
    (h : WellSortedChildren lo hi l) (first : findIndex k l = 0) :
    ∀ x ∈ flattenChildren l, k < x.1 := by
  intro x hx
  exact (le_max_right lo k).trans_lt
    ((wellSortedChildren_bounds (wellSortedChildren_raise h first)).2.2 x hx).1

end Order

/-! ### Lists around a position -/

section Around

variable {α : Type}

theorem sublist_before (pre post : List α) : sublist 0 pre.length (pre ++ post) = pre := by
  simp [sublist]

theorem sublist_after (pre post : List α) :
    sublist pre.length (pre ++ post).length (pre ++ post) = post := by
  rw [sublist, List.take_length, List.drop_left]

theorem nth_middle [Inhabited α] (pre post : List α) (x : α) :
    nth pre.length (pre ++ x :: post) = x := by
  simp [nth]

theorem nth_map_middle {β : Type} [Inhabited β] (f : α → β) (pre post : List α) (x : α) :
    nth pre.length ((pre ++ x :: post).map f) = f x := by
  simp [nth]

theorem update_middle (pre post : List α) (x y : α) :
    update pre.length (pre ++ x :: post) y = pre ++ y :: post := by
  simp [update]

theorem exists_around {l : List α} {i : Nat} (inside : i < l.length) :
    ∃ pre x post, l = pre ++ x :: post ∧ pre.length = i := by
  refine ⟨l.take i, l[i], l.drop (i + 1), ?_, ?_⟩
  · rw [← List.drop_eq_getElem_cons inside, List.take_append_drop]
  · rw [List.length_take]
    omega

end Around

/-! ### Splitting a node -/

section Split

variable {minFanout : Nat}

/-- The bounds on a node's entries, with a least number of its own for the top node. -/
def SizedFrom (minFanout least : Nat) : Node K V I → Prop
  | .leaf records _ => least ≤ records.length ∧ records.length ≤ 2 * minFanout
  | .internal ptr0 children _ =>
    WellSized minFanout ptr0 ∧ WellSizedChildren minFanout children ∧
      least ≤ children.length ∧ children.length ≤ 2 * minFanout

theorem wellSized_iff {n : Node K V I} : WellSized minFanout n ↔ SizedFrom minFanout minFanout n := by
  cases n <;> simp [WellSized, SizedFrom]

theorem wellSizedRoot_iff {n : Node K V I} : WellSizedRoot minFanout n ↔ SizedFrom minFanout 0 n := by
  cases n <;> simp [WellSizedRoot, SizedFrom]

variable [LinearOrder K] {least : Nat} {lo hi : K} {d : Nat}

/-- A node, alone or with a new right neighbour, that holds `contents` between the bounds. -/
def Rebuilt (minFanout least : Nat) (lo hi : K) (d : Nat) (contents : List (K × V)) :
    Node K V I × Option (K × Node K V I) → Prop
  | (n, none) =>
    WellSorted lo hi n ∧ Balanced d n ∧ SizedFrom minFanout least n ∧ flatten n = contents
  | (left, some (key, right)) =>
    (WellSorted lo key left ∧ ∃ minRight, key < minRight ∧ WellSorted minRight hi right) ∧
      (Balanced d left ∧ Balanced d right) ∧
      (WellSized minFanout left ∧ WellSized minFanout right) ∧
      flatten left ++ flatten right = contents

theorem splitLeaf_spec [Inhabited K] (pos : 0 < minFanout) {records : List (K × V)} {info : I}
    (sorted : WellSorted lo hi (.leaf records info)) (low : least ≤ records.length)
    (high : records.length ≤ 2 * minFanout + 1) :
    Rebuilt minFanout least lo hi 0 records (splitLeaf minFanout records info) := by
  unfold splitLeaf
  split
  · rename_i full
    obtain ⟨pre, x, rest, rfl, hpre⟩ :=
      exists_around (l := records) (i := minFanout - 1) (by omega)
    obtain ⟨y, post, rfl⟩ : ∃ y post, rest = y :: post := by
      cases rest with
      | nil =>
        simp at full
        omega
      | cons y post => exact ⟨y, post, rfl⟩
    have cut : (pre ++ [x]).length = minFanout := by
      simp
      omega
    have key : nth (minFanout - 1) ((pre ++ x :: y :: post).map Prod.fst) = x.1 := by
      rw [← hpre, nth_map_middle]
    have left : sublist 0 minFanout (pre ++ x :: y :: post) = pre ++ [x] := by
      rw [List.append_cons, ← cut, sublist_before]
    have right : sublist minFanout (pre ++ x :: y :: post).length (pre ++ x :: y :: post)
        = y :: post := by
      rw [List.append_cons, ← cut, sublist_after]
    rw [key, left, right]
    unfold WellSorted at sorted
    obtain ⟨hs, hle, hb⟩ := sorted
    simp only [List.map_append, List.map_cons, List.pairwise_append, List.pairwise_cons,
      List.mem_cons, List.mem_append] at hs hb
    obtain ⟨hspre, ⟨hx, hy, hspost⟩, hcross⟩ := hs
    refine ⟨⟨?_, y.1, hx y.1 (Or.inl rfl), ?_⟩, ⟨.leaf, .leaf⟩, ⟨?_, ?_⟩, ?_⟩
    · unfold WellSorted
      simp only [List.map_append, List.map_cons, List.map_nil, List.pairwise_append,
        List.mem_append, List.mem_singleton]
      refine ⟨⟨hspre, List.pairwise_singleton _ _, ?_⟩, (hb x.1 (by simp)).1, ?_⟩
      · intro a ha b hb'
        exact hcross a ha b (Or.inl hb')
      · intro k hk
        rcases hk with hk | rfl
        · exact ⟨(hb k (Or.inl hk)).1, (hcross k hk x.1 (Or.inl rfl)).le⟩
        · exact ⟨(hb x.1 (by simp)).1, le_rfl⟩
    · unfold WellSorted
      simp only [List.map_cons, List.pairwise_cons, List.mem_cons]
      refine ⟨⟨hy, hspost⟩, (hb y.1 (by simp)).2, ?_⟩
      intro k hk
      rcases hk with rfl | hk
      · exact ⟨le_rfl, (hb y.1 (by simp)).2⟩
      · exact ⟨(hy k hk).le, (hb k (Or.inr (Or.inr (Or.inr hk)))).2⟩
    · unfold WellSized
      omega
    · unfold WellSized
      simp only [List.length_append, List.length_cons] at full high cut ⊢
      omega
    · simp [flatten]
  · rename_i room
    exact ⟨sorted, .leaf, ⟨low, by omega⟩, rfl⟩

theorem splitInternal_spec [Inhabited K] [Inhabited I] {ptr0 : Node K V I}
    {children : List (K × Node K V I)} {info : I}
    (sorted : WellSorted lo hi (.internal ptr0 children info))
    (balanced : Balanced d (.internal ptr0 children info))
    (sized : WellSized minFanout ptr0 ∧ WellSizedChildren minFanout children)
    (low : least ≤ children.length) (high : children.length ≤ 2 * minFanout + 1) :
    Rebuilt minFanout least lo hi d (flatten (.internal ptr0 children info))
      (splitInternal minFanout ptr0 children info) := by
  unfold splitInternal
  split
  · rename_i full
    obtain ⟨pre, ⟨key, ptr⟩, post, rfl, hpre⟩ :=
      exists_around (l := children) (i := minFanout) (by omega)
    have left : sublist 0 minFanout (pre ++ (key, ptr) :: post) = pre := by
      rw [← hpre, sublist_before]
    have middle : nth minFanout (pre ++ (key, ptr) :: post) = (key, ptr) := by
      rw [← hpre, nth_middle]
    have right : sublist (minFanout + 1) (pre ++ (key, ptr) :: post).length
        (pre ++ (key, ptr) :: post) = post := by
      have cut : (pre ++ [(key, ptr)]).length = minFanout + 1 := by simp [hpre]
      rw [List.append_cons, ← cut, sublist_after]
    rw [left, middle, right]
    unfold WellSorted at sorted
    obtain ⟨maxPtr0, h0, hc⟩ := sorted
    obtain ⟨mid, hl, hr⟩ := wellSortedChildren_append.mp hc
    obtain ⟨hk, minN, maxN, lt, hn, hpost⟩ := wellSortedChildren_cons.mp hr
    obtain ⟨hsized0, hsized⟩ := sized
    rw [wellSizedChildren_iff] at hsized
    cases balanced with
    | internal first rest =>
      refine ⟨⟨?_, minN, lt, ?_⟩, ⟨?_, ?_⟩, ⟨?_, ?_⟩, ?_⟩
      · exact ⟨maxPtr0, h0, wellSortedChildren_extends hl le_rfl hk⟩
      · exact ⟨maxN, hn, hpost⟩
      · exact .internal first fun e he => rest e (List.mem_append_left _ he)
      · exact .internal (rest (key, ptr) (by simp)) fun e he => rest e (by simp [he])
      · unfold WellSized
        refine ⟨hsized0, wellSizedChildren_iff.mpr fun e he => hsized e (by simp [he]), ?_⟩
        omega
      · unfold WellSized
        refine ⟨hsized (key, ptr) (by simp),
          wellSizedChildren_iff.mpr fun e he => hsized e (by simp [he]), ?_⟩
        simp only [List.length_append, List.length_cons] at full high
        omega
      · simp [flatten, flattenChildren, flattenChildren_append]
  · rename_i room
    exact ⟨sorted, balanced, ⟨sized.1, sized.2, low, by omega⟩, rfl⟩

/-! ### Inserting along the cursor -/

theorem leaf_not_mem [Inhabited K] {k : K} {records : List (K × V)} (hs : Sorted records)
    (h : ¬(findIndex k records < records.length ∧
      k = nth (findIndex k records) (records.map Prod.fst))) : k ∉ records.map Prod.fst := by
  intro hk
  obtain ⟨x, hx, rfl⟩ := List.mem_map.mp hk
  have here := getElem?_rank_of_mem hs hx
  rw [← findIndex_eq_rank hs] at here
  obtain ⟨inside, same⟩ := List.getElem?_eq_some_iff.mp here
  apply h
  refine ⟨inside, ?_⟩
  unfold nth
  rw [List.getD_eq_getElem _ _ (by simpa using inside), List.getElem_map, same]

theorem wellSorted_put {k : K} {v : V} {records : List (K × V)} {info : I}
    (h : WellSorted lo hi (.leaf records info)) :
    WellSorted (min lo k) (max hi k) (Node.leaf (put k v records) info) := by
  unfold WellSorted at h ⊢
  obtain ⟨hs, hle, hb⟩ := h
  refine ⟨sorted_put hs, (min_le_left _ _).trans (hle.trans (le_max_left _ _)), ?_⟩
  intro k' hk'
  rcases mem_keys_put.mp hk' with rfl | hk'
  · exact ⟨min_le_right _ _, le_max_right _ _⟩
  · exact ⟨(min_le_left _ _).trans (hb k' hk').1, (hb k' hk').2.trans (le_max_left _ _)⟩

theorem insertAux_leaf [Inhabited K] [Inhabited I] (pos : 0 < minFanout) {k : K} {v : V}
    {records : List (K × V)} {info : I} (sorted : WellSorted lo hi (.leaf records info))
    (sized : SizedFrom minFanout least (.leaf records info)) :
    Rebuilt minFanout least (min lo k) (max hi k) 0 (put k v records)
      (insertAux minFanout k v (getCursor k (.leaf records info))) := by
  have grown := wellSorted_put (k := k) (v := v) sorted
  obtain ⟨low, high⟩ := sized
  have hs : Sorted records := (wellSorted_flatten sorted).2.1
  unfold getCursor insertAux
  split
  · rename_i found
    have member : k ∈ records.map Prod.fst := by
      rw [found.2]
      unfold nth
      rw [List.getD_eq_getElem _ _ (by simpa using found.1)]
      exact List.getElem_mem _
    have same : update (findIndex k records) records (k, v) = put k v records := by
      rw [put_eq_set hs member, findIndex_eq_rank hs, update]
    rw [same]
    refine ⟨grown, .leaf, ?_, rfl⟩
    simp only [SizedFrom, length_put_of_mem hs member]
    exact ⟨low, high⟩
  · rename_i absent
    have missing := leaf_not_mem hs absent
    have same : sublist 0 (findIndex k records) records ++ (k, v) ::
        sublist (findIndex k records) records.length records = put k v records := by
      rw [put_eq_insert hs missing, findIndex_eq_rank hs]
      simp [sublist]
    have longer := length_put_of_not_mem (v := v) missing
    rw [same]
    exact splitLeaf_spec pos grown (by omega) (by omega)

/-- What is rebuilt below the first subtree, put in its place. -/
theorem insertAux_first [Inhabited K] [Inhabited I] {k : K} {v : V} {ptr0 : Node K V I}
    {children : List (K × Node K V I)} {info : I} (at0 : findIndex k children = 0)
    (sorted : WellSorted lo hi (.internal ptr0 children info))
    (balanced : Balanced (d + 1) (.internal ptr0 children info))
    (sized : SizedFrom minFanout least (.internal ptr0 children info))
    (ih : ∀ {m M : K}, WellSorted m M ptr0 →
      Rebuilt minFanout minFanout (min m k) (max M k) d (put k v (flatten ptr0))
        (insertAux minFanout k v (getCursor k ptr0))) :
    Rebuilt minFanout least (min lo k) (max hi k) (d + 1)
      (put k v (flatten (.internal ptr0 children info)))
      (insertAux minFanout k v (getCursor k (.internal ptr0 children info))) := by
  unfold WellSorted at sorted
  obtain ⟨maxPtr0, h0, hc⟩ := sorted
  obtain ⟨-, hsized, low, high⟩ := sized
  have contents : put k v (flatten (.internal ptr0 children info))
      = put k v (flatten ptr0) ++ flattenChildren children := by
    rw [flatten]
    exact put_append_left (flattenChildren_above hc at0)
  have rebuilt := ih h0
  have raised := wellSortedChildren_raise hc at0
  rw [contents]
  unfold getCursor
  simp only [at0, childAt, if_true, insertAux]
  cases balanced with
  | internal first rest =>
    cases hr : insertAux minFanout k v (getCursor k ptr0) with
    | mk left right =>
      rw [hr] at rebuilt
      cases right with
      | none =>
        obtain ⟨hsorted, hbalanced, hleft, hflatten⟩ := rebuilt
        refine ⟨⟨max maxPtr0 k, hsorted, raised⟩, .internal hbalanced rest, ?_, ?_⟩
        · exact ⟨wellSized_iff.mpr hleft, hsized, low, high⟩
        · rw [← hflatten, flatten]
      | some right =>
        obtain ⟨key, right⟩ := right
        obtain ⟨⟨hl, minRight, lt, hr'⟩, ⟨bl, br⟩, ⟨sl, sr⟩, hflatten⟩ := rebuilt
        have whole : flatten (.internal left ((key, right) :: children) info)
            = put k v (flatten ptr0) ++ flattenChildren children := by
          rw [← hflatten, flatten, flattenChildren, List.append_assoc]
        rw [← whole]
        apply splitInternal_spec
        · exact ⟨key, hl, wellSortedChildren_cons.mpr ⟨le_rfl, minRight, _, lt, hr', raised⟩⟩
        · refine .internal bl ?_
          intro e he
          rcases List.mem_cons.mp he with rfl | he
          · exact br
          · exact rest e he
        · exact ⟨sl, sr, hsized⟩
        · simp
          omega
        · simp
          omega

/-- What is rebuilt below the subtree of an entry, put in its place. -/
theorem insertAux_entry [Inhabited K] [Inhabited I] {k c : K} {v : V} {ptr0 n : Node K V I}
    {pre post : List (K × Node K V I)} {info : I}
    (index : findIndex k (pre ++ (c, n) :: post) = pre.length + 1) (below : c < k)
    (next : findIndex k post = 0)
    (sorted : WellSorted lo hi (.internal ptr0 (pre ++ (c, n) :: post) info))
    (balanced : Balanced (d + 1) (.internal ptr0 (pre ++ (c, n) :: post) info))
    (sized : SizedFrom minFanout least (.internal ptr0 (pre ++ (c, n) :: post) info))
    (ih : ∀ {m M : K}, WellSorted m M n →
      Rebuilt minFanout minFanout (min m k) (max M k) d (put k v (flatten n))
        (insertAux minFanout k v (getCursor k n))) :
    Rebuilt minFanout least (min lo k) (max hi k) (d + 1)
      (put k v (flatten (.internal ptr0 (pre ++ (c, n) :: post) info)))
      (insertAux minFanout k v (getCursor k (.internal ptr0 (pre ++ (c, n) :: post) info))) := by
  unfold WellSorted at sorted
  obtain ⟨maxPtr0, h0, hc⟩ := sorted
  obtain ⟨mid, hpre, hr⟩ := wellSortedChildren_append.mp hc
  obtain ⟨hk, minN, maxN, lt, hn, hpost⟩ := wellSortedChildren_cons.mp hr
  obtain ⟨hsized0, hsized, low, high⟩ := sized
  rw [wellSizedChildren_iff] at hsized
  have before : ∀ x ∈ flatten ptr0 ++ flattenChildren pre, x.1 < k := by
    obtain ⟨mle, -, mbounds⟩ := wellSortedChildren_bounds hpre
    intro x hx
    rcases List.mem_append.mp hx with hx | hx
    · exact ((((wellSorted_flatten h0).2.2 x hx).2.trans mle).trans hk).trans_lt below
    · exact ((mbounds x hx).2.trans hk).trans_lt below
  have contents : put k v (flatten (.internal ptr0 (pre ++ (c, n) :: post) info))
      = (flatten ptr0 ++ flattenChildren pre) ++ (put k v (flatten n) ++ flattenChildren post) := by
    rw [flatten, flattenChildren_append, flattenChildren, ← List.append_assoc,
      put_append_right before, put_append_left (flattenChildren_above hpost next)]
  have start : WellSorted (min lo k) maxPtr0 ptr0 :=
    wellSorted_extends h0 (min_le_left _ _) le_rfl
  have raised := wellSortedChildren_raise hpost next
  have rebuilt := ih hn
  have child : childAt (pre.length + 1) ptr0 (pre ++ (c, n) :: post) = n := by
    unfold childAt
    rw [if_neg (Nat.succ_ne_zero _), Nat.add_sub_cancel, nth_map_middle]
  have key : nth pre.length ((pre ++ (c, n) :: post).map Prod.fst) = c := nth_map_middle _ _ _ _
  have after : sublist (pre.length + 1) (pre ++ (c, n) :: post).length (pre ++ (c, n) :: post)
      = post := by
    have cut : (pre ++ [(c, n)]).length = pre.length + 1 := by simp
    rw [List.append_cons, ← cut, sublist_after]
  rw [contents]
  unfold getCursor
  simp only [index, child, insertAux, if_neg (Nat.succ_ne_zero _), Nat.add_sub_cancel, key, after,
    sublist_before, update_middle]
  cases balanced with
  | internal first rest =>
    cases hresult : insertAux minFanout k v (getCursor k n) with
    | mk left right =>
      rw [hresult] at rebuilt
      cases right with
      | none =>
        obtain ⟨hsorted, hbalanced, hleft, hflatten⟩ := rebuilt
        refine ⟨⟨maxPtr0, start, ?_⟩, .internal first ?_, ?_, ?_⟩
        · exact wellSortedChildren_append.mpr ⟨mid, hpre, wellSortedChildren_cons.mpr
            ⟨hk, min minN k, max maxN k, lt_min lt below, hsorted, raised⟩⟩
        · intro e he
          simp only [List.mem_append, List.mem_cons] at he
          rcases he with he | rfl | he
          · exact rest e (by simp [he])
          · exact hbalanced
          · exact rest e (by simp [he])
        · refine ⟨hsized0, wellSizedChildren_iff.mpr ?_, by simpa using low, by simpa using high⟩
          intro e he
          simp only [List.mem_append, List.mem_cons] at he
          rcases he with he | rfl | he
          · exact hsized e (by simp [he])
          · exact wellSized_iff.mpr hleft
          · exact hsized e (by simp [he])
        · rw [← hflatten, flatten, flattenChildren_append, flattenChildren, List.append_assoc]
      | some right =>
        obtain ⟨ckey, right⟩ := right
        obtain ⟨⟨hl, minRight, ltr, hr'⟩, ⟨bl, br⟩, ⟨sl, sr⟩, hflatten⟩ := rebuilt
        have whole : flatten (.internal ptr0 (pre ++ (c, left) :: (ckey, right) :: post) info)
            = (flatten ptr0 ++ flattenChildren pre)
              ++ (put k v (flatten n) ++ flattenChildren post) := by
          rw [← hflatten, flatten, flattenChildren_append, flattenChildren, flattenChildren,
            List.append_assoc, List.append_assoc]
        rw [← whole]
        apply splitInternal_spec
        · exact ⟨maxPtr0, start, wellSortedChildren_append.mpr ⟨mid, hpre,
            wellSortedChildren_cons.mpr ⟨hk, min minN k, ckey, lt_min lt below, hl,
              wellSortedChildren_cons.mpr ⟨le_rfl, minRight, max maxN k, ltr, hr', raised⟩⟩⟩⟩
        · refine .internal first ?_
          intro e he
          simp only [List.mem_append, List.mem_cons] at he
          rcases he with he | rfl | rfl | he
          · exact rest e (by simp [he])
          · exact bl
          · exact br
          · exact rest e (by simp [he])
        · refine ⟨hsized0, wellSizedChildren_iff.mpr ?_⟩
          intro e he
          simp only [List.mem_append, List.mem_cons] at he
          rcases he with he | rfl | rfl | he
          · exact hsized e (by simp [he])
          · exact sl
          · exact sr
          · exact hsized e (by simp [he])
        · simp only [List.length_append, List.length_cons] at low ⊢
          omega
        · simp only [List.length_append, List.length_cons] at high ⊢
          omega

/-- What the call rebuilds from a node, by induction on the node. -/
theorem insertAux_spec [Inhabited K] [Inhabited I] (pos : 0 < minFanout) {k : K} {v : V}
    {n : Node K V I} (sorted : WellSorted lo hi n) (balanced : Balanced d n)
    (sized : SizedFrom minFanout least n) :
    Rebuilt minFanout least (min lo k) (max hi k) d (put k v (flatten n))
      (insertAux minFanout k v (getCursor k n)) := by
  induction n using Node.ind generalizing lo hi d least with
  | leaf records info =>
    cases balanced
    exact insertAux_leaf pos sorted sized
  | internal ptr0 children info first rest =>
    obtain ⟨d, rfl⟩ : ∃ d', d = d' + 1 := by
      cases balanced
      exact ⟨_, rfl⟩
    have below := balanced
    cases below with
    | internal bfirst brest =>
      by_cases at0 : findIndex k children = 0
      · exact insertAux_first at0 sorted balanced sized fun h =>
          first h bfirst (wellSized_iff.mp sized.1)
      · obtain ⟨pre, c, n, post, rfl, index, less, next⟩ := findIndex_focus at0
        have member : (c, n) ∈ pre ++ (c, n) :: post := by simp
        exact insertAux_entry index less next sorted balanced sized fun h =>
          rest (c, n) member h (brest (c, n) member)
            (wellSized_iff.mp (wellSizedChildren_iff.mp sized.2.1 (c, n) member))

/-! ### Insertion -/

/-- A root as insertions leave it. -/
structure Root (minFanout : Nat) (lo hi : K) (d : Nat) (root : Node K V I) : Prop where
  sorted : WellSorted lo hi root
  balanced : Balanced d root
  sized : WellSizedRoot minFanout root

/-- The root after an insertion is one level deeper when the call returns a second node. -/
theorem insert_root [Inhabited K] [Inhabited I] (pos : 0 < minFanout) {root : Node K V I}
    (h : Root minFanout lo hi d root) (k : K) (v : V) (newInfo : I) :
    Root minFanout (min lo k) (max hi k)
        (if (insertAux minFanout k v (getCursor k root)).2.isSome then d + 1 else d)
        (insert minFanout k v newInfo root) ∧
      flatten (insert minFanout k v newInfo root) = put k v (flatten root) := by
  have rebuilt := insertAux_spec pos (k := k) (v := v) h.sorted h.balanced
    (wellSizedRoot_iff.mp h.sized)
  unfold insert
  cases hresult : insertAux minFanout k v (getCursor k root) with
  | mk left right =>
    rw [hresult] at rebuilt
    cases right with
    | none =>
      obtain ⟨hsorted, hbalanced, hsized, hflatten⟩ := rebuilt
      exact ⟨⟨hsorted, hbalanced, wellSizedRoot_iff.mpr hsized⟩, hflatten⟩
    | some right =>
      obtain ⟨key, right⟩ := right
      obtain ⟨⟨hl, minRight, lt, hr⟩, ⟨bl, br⟩, ⟨sl, sr⟩, hflatten⟩ := rebuilt
      have top := (wellSorted_flatten hr).1
      refine ⟨⟨⟨key, hl, wellSortedChildren_cons.mpr ⟨le_rfl, minRight, _, lt, hr, le_rfl⟩⟩,
        .internal bl ?_, ?_⟩, ?_⟩
      · intro e he
        obtain rfl := List.mem_singleton.mp he
        exact br
      · refine ⟨sl, ⟨sr, trivial⟩, ?_⟩
        simp
        omega
      · simpa [flatten, flattenChildren] using hflatten

theorem insert_correct [Inhabited K] [Inhabited I] (pos : 0 < minFanout) {root : Node K V I}
    (sorted : WellSorted lo hi root) (balanced : Balanced d root)
    (sized : WellSizedRoot minFanout root) (k : K) (v : V) (newInfo : I) :
    flatten (insert minFanout k v newInfo root) = put k v (flatten root) ∧
      Sorted (flatten (insert minFanout k v newInfo root)) ∧
      Balanced (if (insertAux minFanout k v (getCursor k root)).2.isSome then d + 1 else d)
        (insert minFanout k v newInfo root) ∧
      card (insert minFanout k v newInfo root)
        = card root + if k ∈ (flatten root).map Prod.fst then 0 else 1 := by
  obtain ⟨after, contents⟩ := insert_root pos ⟨sorted, balanced, sized⟩ k v newInfo
  have hs := (wellSorted_flatten sorted).2.1
  refine ⟨contents, ?_, after.balanced, ?_⟩
  · rw [contents]
    exact sorted_put hs
  · rw [card_eq_length, card_eq_length, contents]
    split
    · rename_i present
      exact length_put_of_mem hs present
    · rename_i absent
      exact length_put_of_not_mem absent

/-- A leaf of two records that is full for the least fanout splits. -/
theorem insert_correct_split :
    flatten (insert 1 2 20 () (.leaf [(1, 10), (3, 30)] () : Node Nat Nat Unit))
        = [(1, 10), (2, 20), (3, 30)] ∧
      card (insert 1 2 20 () (.leaf [(1, 10), (3, 30)] () : Node Nat Nat Unit)) = 3 := by
  have sorted : WellSorted 1 3 (.leaf [(1, 10), (3, 30)] () : Node Nat Nat Unit) := by
    simp [WellSorted]
  have sized : WellSizedRoot 1 (.leaf [(1, 10), (3, 30)] () : Node Nat Nat Unit) := by
    simp [WellSizedRoot]
  obtain ⟨contents, -, -, count⟩ := insert_correct Nat.one_pos sorted .leaf sized 2 20 ()
  exact ⟨contents.trans (by decide), count.trans (by decide)⟩

/-- Every run of insertions, from `root_empty` or any other root. -/
theorem insertList_root [Inhabited K] [Inhabited I] (pos : 0 < minFanout) {root : Node K V I}
    (h : Root minFanout lo hi d root) (newInfo : I) (l : List (K × V)) :
    (∃ lo' hi' d', Root minFanout lo' hi' d' (insertList minFanout newInfo root l)) ∧
      flatten (insertList minFanout newInfo root l)
        = l.foldl (fun contents e => put e.1 e.2 contents) (flatten root) := by
  induction l generalizing root lo hi d with
  | nil => exact ⟨⟨lo, hi, d, h⟩, rfl⟩
  | cons e tl ih =>
    obtain ⟨k, v⟩ := e
    obtain ⟨after, contents⟩ := insert_root pos h k v newInfo
    have rest := ih after
    rw [contents] at rest
    exact rest

theorem root_empty (lo : K) (info : I) : Root minFanout lo lo 0 (Node.leaf [] info : Node K V I) := by
  refine ⟨?_, .leaf, ?_⟩
  · simp [WellSorted]
  · simp [WellSizedRoot]

end Split

end DeepDB.BPlus
