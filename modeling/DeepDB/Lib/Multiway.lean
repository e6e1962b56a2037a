import DeepDB.Lib.SortedAssoc

/-!
Multiway search nodes: a first child `t` and a list of pairs (separator, child). `Range` is the
interval of keys a subtree may hold, `Siblings P r t ts` says that the separators cut `r` into
ranges for which the children satisfy `P`. `join` rebuilds the children around one of them, so
that a step of a search, of a replacement or of a split is stated at the child it happens in.
-/

namespace DeepDB.Multiway
open SortedAssoc

/-- The keys from `lo` (included) to `hi` (excluded); `none` is no bound. -/
structure Range (K : Type) where
  lo : Option K
  hi : Option K

namespace Range

variable {K : Type} [LinearOrder K]

def full : Range K := ⟨none, none⟩

def Mem (r : Range K) (k : K) : Prop := (∀ l ∈ r.lo, l ≤ k) ∧ ∀ u ∈ r.hi, k < u

/-- A separator leaves room for a key on its left. -/
def Inside (r : Range K) (k : K) : Prop := (∀ l ∈ r.lo, l < k) ∧ ∀ u ∈ r.hi, k < u

def left (r : Range K) (k : K) : Range K := { r with hi := some k }

def right (r : Range K) (k : K) : Range K := { r with lo := some k }

theorem mem_full (k : K) : (full : Range K).Mem k := by simp [full, Mem]

theorem mem_left {r : Range K} {k x : K} : (r.left k).Mem x ↔ (∀ l ∈ r.lo, l ≤ x) ∧ x < k := by
  simp [left, Mem]

theorem mem_right {r : Range K} {k x : K} : (r.right k).Mem x ↔ k ≤ x ∧ ∀ u ∈ r.hi, x < u := by
  simp [right, Mem]

theorem mem_of_left {r : Range K} {k x : K} (hk : r.Inside k) (h : (r.left k).Mem x) : r.Mem x := by
  obtain ⟨hl, hx⟩ := mem_left.mp h
  exact ⟨hl, fun u hu => hx.trans (hk.2 u hu)⟩

theorem mem_of_right {r : Range K} {k x : K} (hk : r.Inside k) (h : (r.right k).Mem x) : r.Mem x := by
  obtain ⟨hx, hu⟩ := mem_right.mp h
  exact ⟨fun l hl => ((hk.1 l hl).trans_le hx).le, hu⟩

end Range

variable {K V T : Type} [LinearOrder K]

def Within (r : Range K) (l : List (K × V)) : Prop := ∀ x ∈ l, r.Mem x.1

/-! ### Children around a focus -/

/-- The children `pre`, `t`, `post`, with the separators between them. -/
def join : List (T × K) → T → List (K × T) → T × List (K × T)
  | [], t, post => (t, post)
  | (t₀, k) :: pre, t, post => (t₀, (k, (join pre t post).1) :: (join pre t post).2)

omit [LinearOrder K] in
@[simp] theorem join_nil (t : T) (post : List (K × T)) : join [] t post = (t, post) := rfl

omit [LinearOrder K] in
theorem length_join (pre : List (T × K)) (t : T) (post : List (K × T)) :
    (join pre t post).2.length = pre.length + post.length := by
  induction pre with
  | nil => simp
  | cons e pre ih => simp [join, ih]; omega

omit [LinearOrder K] in
/-- The separators around the focus. -/
theorem join_seps (pre : List (T × K)) (t : T) (post : List (K × T)) :
    (join pre t post).2.map Prod.fst = pre.map Prod.snd ++ post.map Prod.fst := by
  induction pre with
  | nil => simp
  | cons e pre ih => simp [join, ih]

omit [LinearOrder K] in
/-- The focus after a first child is the pair before `post`. -/
theorem join_getElem? (e : T × K) (pre : List (T × K)) (t : T) (post : List (K × T)) :
    ∃ k, (join (e :: pre) t post).2[pre.length]? = some (k, t) := by
  induction pre generalizing e with
  | nil => exact ⟨e.2, by simp [join]⟩
  | cons e' pre ih =>
    obtain ⟨k, hk⟩ := ih e'
    exact ⟨k, by simpa [join] using hk⟩

omit [LinearOrder K] in
/-- Any pair of the node can be the focus. -/
theorem join_of_getElem? {t : T} {ts : List (K × T)} {i : Nat} {e : K × T} (h : ts[i]? = some e) :
    ∃ pre post, (t, ts) = join pre e.2 post ∧ pre.length = i + 1 := by
  induction ts generalizing t i with
  | nil => simp at h
  | cons e' ts ih =>
    cases i with
    | zero =>
      obtain rfl := Option.some.inj h
      exact ⟨[(t, e'.1)], ts, rfl, rfl⟩
    | succ i =>
      obtain ⟨pre, post, hj, hlen⟩ := ih (t := e'.2) h
      refine ⟨(t, e'.1) :: pre, post, ?_, by simp [hlen]⟩
      simp [join, ← hj]

omit [LinearOrder K] in
/-- A child after the focus can be the focus. -/
theorem join_shift (pre : List (T × K)) (t g : T) (k : K) (post : List (K × T)) :
    join pre t ((k, g) :: post) = join (pre ++ [(t, k)]) g post := by
  induction pre with
  | nil => rfl
  | cons e pre ih => simp [join, ih]

omit [LinearOrder K] in
/-- The number of children in front of it determines the focus. -/
theorem join_inj {pre pre' : List (T × K)} {t t' : T} {post post' : List (K × T)}
    (same : join pre t post = join pre' t' post') (length : pre.length = pre'.length) :
    pre = pre' ∧ t = t' ∧ post = post' := by
  induction pre generalizing pre' with
  | nil =>
    obtain rfl := List.length_eq_zero_iff.mp length.symm
    obtain ⟨rfl, rfl⟩ := Prod.mk.inj same
    exact ⟨rfl, rfl, rfl⟩
  | cons e pre ih =>
    cases pre' with
    | nil => cases length
    | cons e' pre' =>
      simp only [join, Prod.mk.injEq, List.cons.injEq] at same
      obtain ⟨first, ⟨key, child⟩, rest⟩ := same
      obtain ⟨rfl, rfl, rfl⟩ := ih (Prod.ext child rest) (Nat.succ.inj length)
      exact ⟨by rw [Prod.ext first key], rfl, rfl⟩

omit [LinearOrder K] in
/-- Replacing the focus by two children inserts one pair. -/
theorem join_insert {S : Type} (c : T → S) (pre : List (T × K)) (t t₁ t₂ : T) (k : K)
    (post : List (K × T)) (same : c t₁ = c t) :
    ((join pre t₁ ((k, t₂) :: post)).2.map (fun x => (x.1, c x.2))) =
      ((join pre t post).2.map (fun x => (x.1, c x.2))).take pre.length ++
        (k, c t₂) :: ((join pre t post).2.map (fun x => (x.1, c x.2))).drop pre.length ∧
    c (join pre t₁ ((k, t₂) :: post)).1 = c (join pre t post).1 := by
  induction pre with
  | nil => simp [same]
  | cons e pre ih =>
    obtain ⟨he, hc⟩ := ih
    simp [join, he, hc]

omit [LinearOrder K] in
theorem join_congr {S : Type} (c : T → S) (pre : List (T × K)) {t t' : T} (post : List (K × T))
    (same : c t' = c t) :
    ((join pre t' post).2.map (fun x => (x.1, c x.2))) =
      ((join pre t post).2.map (fun x => (x.1, c x.2))) ∧
    c (join pre t' post).1 = c (join pre t post).1 := by
  induction pre with
  | nil => simp [same]
  | cons e pre ih =>
    obtain ⟨he, hc⟩ := ih
    simp [join, he, hc]

/-- What the children hold, in order. -/
def gather {S : Type} (c : T → List S) (t : T) (ts : List (K × T)) : List S :=
  c t ++ ts.flatMap (fun x => c x.2)

omit [LinearOrder K] in
theorem gather_cons {S : Type} (c : T → List S) (t t' : T) (k : K) (ts : List (K × T)) :
    gather c t ((k, t') :: ts) = c t ++ gather c t' ts := by
  simp [gather]

omit [LinearOrder K] in
theorem gather_append {S : Type} (c : T → List S) (t t' : T) (k : K) (A B : List (K × T)) :
    gather c t (A ++ (k, t') :: B) = gather c t A ++ gather c t' B := by
  simp [gather]

omit [LinearOrder K] in
theorem gather_join {S : Type} (c : T → List S) (pre : List (T × K)) (t : T) (post : List (K × T)) :
    gather c (join pre t post).1 (join pre t post).2 =
      pre.flatMap (fun x => c x.1) ++ c t ++ post.flatMap (fun x => c x.2) := by
  induction pre with
  | nil => simp [gather]
  | cons e pre ih => simp [join, gather_cons, ih]

omit [LinearOrder K] in
theorem mem_join (pre : List (T × K)) (t : T) (post : List (K × T)) (x : T) :
    (x = (join pre t post).1 ∨ x ∈ (join pre t post).2.map Prod.snd) ↔
      x ∈ pre.map Prod.fst ∨ x = t ∨ x ∈ post.map Prod.snd := by
  induction pre with
  | nil => simp
  | cons e pre ih =>
    obtain ⟨t₀, k⟩ := e
    simp only [join, List.map_cons, List.mem_cons, ih]
    tauto

/-! ### Ordered children -/

/-- The separators are inside `r` and increasing, and each child satisfies `P` at its range. -/
def Siblings (P : Range K → T → Prop) (r : Range K) : T → List (K × T) → Prop
  | t, [] => P r t
  | t, (k, t') :: ts => P (r.left k) t ∧ r.Inside k ∧ Siblings P (r.right k) t' ts

/-- The range of the child between `pre` and `post`. -/
def focusRange (r : Range K) : List (T × K) → List (K × T) → Range K
  | [], [] => r
  | [], (k, _) :: _ => r.left k
  | (_, k) :: pre, post => focusRange (r.right k) pre post

variable {P : Range K → T → Prop} {r : Range K} {pre : List (T × K)} {t : T} {post : List (K × T)}

theorem siblings_focus (h : Siblings P r (join pre t post).1 (join pre t post).2) :
    P (focusRange r pre post) t := by
  induction pre generalizing r with
  | nil =>
    cases post with
    | nil => exact h
    | cons e post => exact h.1
  | cons e pre ih => exact ih h.2.2

theorem siblings_replace {t' : T} (h : Siblings P r (join pre t post).1 (join pre t post).2)
    (ht : P (focusRange r pre post) t') :
    Siblings P r (join pre t' post).1 (join pre t' post).2 := by
  induction pre generalizing r with
  | nil =>
    cases post with
    | nil => exact ht
    | cons e post => exact ⟨ht, h.2⟩
  | cons e pre ih => exact ⟨h.1, h.2.1, ih h.2.2 ht⟩

theorem siblings_split {t₁ t₂ : T} {k : K}
    (h : Siblings P r (join pre t post).1 (join pre t post).2)
    (hk : (focusRange r pre post).Inside k) (h₁ : P ((focusRange r pre post).left k) t₁)
    (h₂ : P ((focusRange r pre post).right k) t₂) :
    Siblings P r (join pre t₁ ((k, t₂) :: post)).1 (join pre t₁ ((k, t₂) :: post)).2 := by
  induction pre generalizing r with
  | nil =>
    cases post with
    | nil => exact ⟨h₁, hk, h₂⟩
    | cons e post =>
      obtain ⟨k', t'⟩ := e
      have above : k < k' := hk.2 k' rfl
      refine ⟨h₁, ⟨hk.1, fun u hu => above.trans (h.2.1.2 u hu)⟩, h₂, ⟨?_, h.2.1.2⟩, h.2.2⟩
      intro l hl
      obtain rfl := Option.some.inj hl
      exact above
  | cons e pre ih => exact ⟨h.1, h.2.1, ih h.2.2 hk h₁ h₂⟩

theorem siblings_mono {Q : Range K → T → Prop} (weaker : ∀ q x, P q x → Q q x) {ts : List (K × T)}
    (h : Siblings P r t ts) : Siblings Q r t ts := by
  induction ts generalizing r t with
  | nil => exact weaker _ _ h
  | cons e ts ih => exact ⟨weaker _ _ h.1, h.2.1, ih h.2.2⟩

/-- Cutting the children at a separator. -/
theorem siblings_cut {A B : List (K × T)} {t₂ : T} {k : K}
    (h : Siblings P r t (A ++ (k, t₂) :: B)) :
    r.Inside k ∧ Siblings P (r.left k) t A ∧ Siblings P (r.right k) t₂ B := by
  induction A generalizing r t with
  | nil => exact ⟨h.2.1, h.1, h.2.2⟩
  | cons e A ih =>
    obtain ⟨hk, hl, hr⟩ := ih h.2.2
    have below : e.1 < k := hk.1 e.1 rfl
    refine ⟨⟨fun l hl => (h.2.1.1 l hl).trans below, hk.2⟩, ⟨h.1, ⟨h.2.1.1, ?_⟩, hl⟩, hr⟩
    intro u hu
    obtain rfl := Option.some.inj hu
    exact below

/-- Raising the upper bound of the last child. -/
theorem siblings_widen {u u' : K} (raised : u ≤ u')
    (widen : ∀ q x, P (Range.left q u) x → P (q.left u') x) {ts : List (K × T)}
    (h : Siblings P (r.left u) t ts) : Siblings P (r.left u') t ts := by
  induction ts generalizing r t with
  | nil => exact widen _ _ h
  | cons e ts ih =>
    refine ⟨h.1, ⟨h.2.1.1, fun b hb => ?_⟩, ih (r := r.right e.1) h.2.2⟩
    obtain rfl := Option.some.inj hb
    exact (h.2.1.2 u rfl).trans_le raised

/-- Every child satisfies `P` at some range. -/
theorem siblings_mem {ts : List (K × T)} (h : Siblings P r t ts) :
    ∀ x ∈ t :: ts.map Prod.snd, ∃ q, P q x := by
  induction ts generalizing r t with
  | nil =>
    intro x hx
    obtain rfl := List.mem_singleton.mp hx
    exact ⟨r, h⟩
  | cons e ts ih =>
    intro x hx
    rcases List.mem_cons.mp hx with rfl | hx
    · exact ⟨_, h.1⟩
    · exact ih h.2.2 x hx

omit [LinearOrder K] in
theorem focusRange_lo (r : Range K) (pre : List (T × K)) (post : List (K × T)) :
    (focusRange r pre post).lo = none ↔ pre = [] ∧ r.lo = none := by
  induction pre generalizing r with
  | nil =>
    cases post with
    | nil => simp [focusRange]
    | cons e post => simp [focusRange, Range.left]
  | cons e pre ih => simpa [focusRange, Range.right] using ih (r.right e.2)

omit [LinearOrder K] in
/-- The upper bound of the focus is the upper bound of the node only for the last child. -/
theorem focusRange_hi (r : Range K) (pre : List (T × K)) (post : List (K × T)) :
    (focusRange r pre post).hi = none ↔ post = [] ∧ r.hi = none := by
  induction pre generalizing r with
  | nil =>
    cases post with
    | nil => simp [focusRange]
    | cons e post => simp [focusRange, Range.left]
  | cons e pre ih => simpa [focusRange, Range.right] using ih (r.right e.2)

/-- A key between the separators around the focus is in the focus's range. -/
theorem focusRange_mem {k : K} (hk : r.Mem k) (below : ∀ x ∈ pre, x.2 ≤ k)
    (above : ∀ x ∈ post, k < x.1) : (focusRange r pre post).Mem k := by
  induction pre generalizing r with
  | nil =>
    cases post with
    | nil => exact hk
    | cons e post => exact Range.mem_left.mpr ⟨hk.1, above e List.mem_cons_self⟩
  | cons e pre ih =>
    refine ih (Range.mem_right.mpr ⟨below e List.mem_cons_self, hk.2⟩) ?_
    exact fun x hx => below x (List.mem_cons_of_mem _ hx)

theorem siblings_seps {ts : List (K × T)} (h : Siblings P r t ts) :
    (∀ x ∈ ts, r.Inside x.1) ∧ ts.Pairwise (fun x y => x.1 < y.1) := by
  induction ts generalizing r t with
  | nil => simp
  | cons e ts ih =>
    obtain ⟨hin, hp⟩ := ih h.2.2
    refine ⟨?_, List.pairwise_cons.mpr ⟨fun x hx => (hin x hx).1 e.1 rfl, hp⟩⟩
    intro x hx
    rcases List.mem_cons.mp hx with rfl | hx
    · exact h.2.1
    · exact ⟨fun l hl => (h.2.1.1 l hl).trans ((hin x hx).1 e.1 rfl), (hin x hx).2⟩

/-- The separators around a child that is about to be divided at `k`. -/
theorem split_seps (h : Siblings P r (join pre t post).1 (join pre t post).2) {k : K}
    (hk : (focusRange r pre post).Inside k) :
    r.Inside k ∧ (∀ x ∈ pre, x.2 < k) ∧ ∀ x ∈ post, k < x.1 := by
  have weak := siblings_mono (Q := fun _ _ => True) (fun _ _ _ => trivial) h
  have split : Siblings (fun _ _ => True) r (join pre t ((k, t) :: post)).1
      (join pre t ((k, t) :: post)).2 := siblings_split weak hk trivial trivial
  obtain ⟨inside, increasing⟩ := siblings_seps split
  rw [← List.pairwise_map, join_seps, List.map_cons, List.pairwise_append,
    List.pairwise_cons] at increasing
  have seps : ∀ x ∈ pre.map Prod.snd ++ k :: post.map Prod.fst, r.Inside x := by
    rw [← List.map_cons (f := Prod.fst) (a := (k, t)), ← join_seps pre t]
    exact List.forall_mem_map.mpr inside
  exact ⟨seps k (by simp),
    fun x hx => increasing.2.2 _ (List.mem_map_of_mem hx) k List.mem_cons_self,
    fun x hx => increasing.2.1.1 _ (List.mem_map_of_mem hx)⟩

/-- A key of the focus's range lies between the separators before and after the focus. -/
theorem focusRange_seps (h : Siblings P r (join pre t post).1 (join pre t post).2) {k : K}
    (hk : (focusRange r pre post).Mem k) :
    r.Mem k ∧ (∀ x ∈ pre, x.2 ≤ k) ∧ ∀ x ∈ post, k < x.1 := by
  induction pre generalizing r with
  | nil =>
    cases post with
    | nil => exact ⟨hk, by simp, by simp⟩
    | cons e post =>
      obtain ⟨hl, hu⟩ := Range.mem_left.mp hk
      refine ⟨Range.mem_of_left h.2.1 hk, by simp, ?_⟩
      intro x hx
      rcases List.mem_cons.mp hx with rfl | hx
      · exact hu
      · exact hu.trans ((siblings_seps h.2.2).1 x hx |>.1 e.1 rfl)
  | cons e pre ih =>
    obtain ⟨hr, hpre, hpost⟩ := ih h.2.2 hk
    refine ⟨Range.mem_of_right h.2.1 hr, ?_, hpost⟩
    intro x hx
    rcases List.mem_cons.mp hx with rfl | hx
    · exact (Range.mem_right.mp hr).1
    · exact hpre x hx

/-- Every key picks a child. -/
theorem exists_focus (k : K) (t : T) (ts : List (K × T)) (h : Siblings P r t ts) :
    ∃ pre f post, (t, ts) = join pre f post ∧ (∀ x ∈ pre, x.2 ≤ k) ∧ ∀ x ∈ post, k < x.1 := by
  induction ts generalizing r t with
  | nil => exact ⟨[], t, [], rfl, by simp, by simp⟩
  | cons e ts ih =>
    by_cases hk : k < e.1
    · refine ⟨[], t, e :: ts, rfl, by simp, ?_⟩
      intro x hx
      rcases List.mem_cons.mp hx with rfl | hx
      · exact hk
      · exact hk.trans ((siblings_seps h.2.2).1 x hx |>.1 e.1 rfl)
    · obtain ⟨pre, f, post, hj, hpre, hpost⟩ := ih e.2 h.2.2
      refine ⟨(t, e.1) :: pre, f, post, ?_, ?_, hpost⟩
      · simp [join, ← hj]
      · intro x hx
        rcases List.mem_cons.mp hx with rfl | hx
        · exact not_lt.mp hk
        · exact hpre x hx

/-! ### Ordered contents -/

variable {c : T → List (K × V)}

theorem siblings_within (hP : ∀ q x, P q x → Within q (c x)) {ts : List (K × T)}
    (h : Siblings P r t ts) : Within r (gather c t ts) := by
  induction ts generalizing r t with
  | nil => simpa [gather] using hP _ _ h
  | cons e ts ih =>
    rw [show e = (e.1, e.2) from rfl, gather_cons]
    intro x hx
    rcases List.mem_append.mp hx with hx | hx
    · exact Range.mem_of_left h.2.1 (hP _ _ h.1 x hx)
    · exact Range.mem_of_right h.2.1 (ih h.2.2 x hx)

theorem siblings_sorted (hP : ∀ q x, P q x → Within q (c x)) (hS : ∀ q x, P q x → Sorted (c x))
    {ts : List (K × T)} (h : Siblings P r t ts) : Sorted (gather c t ts) := by
  induction ts generalizing r t with
  | nil => simpa [gather] using hS _ _ h
  | cons e ts ih =>
    rw [show e = (e.1, e.2) from rfl, gather_cons]
    refine sorted_append.mpr ⟨hS _ _ h.1, ih h.2.2, ?_⟩
    intro x hx y hy
    have hxe := (Range.mem_left.mp (hP _ _ h.1 x hx)).2
    have hye := (Range.mem_right.mp (siblings_within hP h.2.2 y hy)).1
    exact hxe.trans_le hye

/-- The contents before the focus lie below every key of its range, those after it above. -/
theorem focus_outer (hP : ∀ q x, P q x → Within q (c x))
    (h : Siblings P r (join pre t post).1 (join pre t post).2) {k : K}
    (hk : (focusRange r pre post).Mem k) :
    (∀ x ∈ pre.flatMap (fun x => c x.1), x.1 < k) ∧
      ∀ x ∈ post.flatMap (fun x => c x.2), k < x.1 := by
  induction pre generalizing r with
  | nil =>
    cases post with
    | nil => simp
    | cons e post =>
      refine ⟨by simp, ?_⟩
      intro x hx
      have hu := (Range.mem_left.mp hk).2
      have hx' : x ∈ gather c e.2 post := by simpa [gather] using hx
      exact hu.trans_le (Range.mem_right.mp (siblings_within hP h.2.2 x hx')).1
  | cons e pre ih =>
    obtain ⟨hpre, hpost⟩ := ih h.2.2 hk
    refine ⟨?_, hpost⟩
    intro x hx
    simp only [List.flatMap_cons, List.mem_append] at hx
    rcases hx with hx | hx
    · have hlow := (Range.mem_left.mp (hP _ _ h.1 x hx)).2
      have hek := (focusRange_seps h.2.2 hk).1
      exact hlow.trans_le (Range.mem_right.mp hek).1
    · exact hpre x hx

/-- A put goes to the contents of the child whose range has the key. -/
theorem put_focus (hP : ∀ q x, P q x → Within q (c x))
    (h : Siblings P r (join pre t post).1 (join pre t post).2) {k : K} {v : V}
    (hk : (focusRange r pre post).Mem k) :
    put k v (gather c (join pre t post).1 (join pre t post).2) =
      pre.flatMap (fun x => c x.1) ++ put k v (c t) ++ post.flatMap (fun x => c x.2) := by
  obtain ⟨hpre, hpost⟩ := focus_outer hP h hk
  rw [gather_join, List.append_assoc, put_append_right hpre, put_append_left hpost,
    List.append_assoc]

theorem rank_focus (hP : ∀ q x, P q x → Within q (c x))
    (h : Siblings P r (join pre t post).1 (join pre t post).2) {k : K}
    (hk : (focusRange r pre post).Mem k) :
    rank k (gather c (join pre t post).1 (join pre t post).2) =
      (pre.flatMap (fun x => c x.1)).length + rank k (c t) := by
  obtain ⟨hpre, hpost⟩ := focus_outer hP h hk
  rw [gather_join, rank_append, rank_append, rank_of_lt hpre,
    rank_of_le (fun x hx => (hpost x hx).le), Nat.add_zero]

/-! ### Full nodes -/

theorem within_put {l : List (K × V)} (hw : Within r l) {k : K} (hk : r.Mem k) (v : V) :
    Within r (put k v l) := by
  intro x hx
  rcases mem_put hx with rfl | hx
  · exact hk
  · exact hw x hx

/-- Cutting the records of a leaf: the first record of the right part separates the two. -/
theorem inside_cut {A B : List (K × V)} {x mid : K × V} (hs : Sorted (x :: A ++ mid :: B))
    (hw : Within r (x :: A ++ mid :: B)) :
    r.Inside mid.1 ∧ Within (r.left mid.1) (x :: A) ∧ Within (r.right mid.1) (mid :: B) := by
  obtain ⟨-, hright, hcross⟩ := sorted_append.mp hs
  have below : ∀ y ∈ x :: A, y.1 < mid.1 := fun y hy => hcross y hy mid List.mem_cons_self
  have above : ∀ y ∈ mid :: B, mid.1 ≤ y.1 := by
    intro y hy
    rcases List.mem_cons.mp hy with rfl | hy
    · exact le_refl _
    · exact ((sorted_cons.mp hright).1 y hy).le
  refine ⟨⟨fun l hl => ?_, (hw mid (by simp)).2⟩, fun y hy => ?_, fun y hy => ?_⟩
  · exact ((hw x (by simp)).1 l hl).trans_lt (below x List.mem_cons_self)
  · exact Range.mem_left.mpr ⟨(hw y (List.mem_append_left _ hy)).1, below y hy⟩
  · exact Range.mem_right.mpr ⟨above y hy, (hw y (List.mem_append_right _ hy)).2⟩

/-- A list of `2 * m` entries falls into two halves with a first entry each. -/
theorem exists_middle {α : Type} {m : Nat} (l : List α) (h : l.length = 2 * m) (pos : 0 < m) :
    ∃ x A mid B, l = x :: A ++ mid :: B ∧ (x :: A).length = m ∧ (mid :: B).length = m := by
  have hleft : (l.take m).length = m := by
    rw [List.length_take]
    omega
  have hright : (l.drop m).length = m := by
    rw [List.length_drop]
    omega
  obtain ⟨x, A, hA⟩ := List.exists_cons_of_length_pos (hleft.symm ▸ pos)
  obtain ⟨mid, B, hB⟩ := List.exists_cons_of_length_pos (hright.symm ▸ pos)
  refine ⟨x, A, mid, B, ?_, hA ▸ hleft, hB ▸ hright⟩
  rw [← hA, ← hB, List.take_append_drop]

end DeepDB.Multiway
