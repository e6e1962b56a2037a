import Mathlib.Logic.Function.Basic
import Mathlib.Data.List.Basic
import Mathlib.Data.List.Perm.Basic

/-!
The nested loop join of two lists, and the join that uses up the matches of a key when it first comes
to it. The matches of a key `k` are `found k`, whatever finds them.
-/

namespace DeepDB.Join

variable {α β γ K : Type} [DecidableEq K] (key : α → K) (f : α → β → γ) {found : K → List β}
  {l : List α} {a : α} {k : K}

/-- Every pair of an element and one of its matches. -/
def pairs (found : K → List β) (l : List α) : List γ := l.flatMap fun a => (found (key a)).map (f a)

/-- The pairs that are left when an element takes its matches away. -/
def usedUp : (K → List β) → List α → List γ
  | _, [] => []
  | found, a :: l => (found (key a)).map (f a) ++ usedUp (Function.update found (key a) []) l

/-- What is left of the matches afterwards. -/
def leftOver (found : K → List β) (l : List α) (k : K) : List β :=
  if k ∈ l.map key then [] else found k

theorem leftOver_cons (found : K → List β) (a : α) (l : List α) :
    leftOver key found (a :: l) = leftOver key (Function.update found (key a) []) l := by
  funext k
  unfold leftOver
  by_cases later : k ∈ l.map key
  · have later' : k ∈ (a :: l).map key := List.mem_cons_of_mem _ later
    rw [if_pos later, if_pos later']
  · rw [if_neg later]
    by_cases here : k = key a
    · have first : k ∈ (a :: l).map key := here ▸ List.mem_cons_self
      rw [if_pos first, here, Function.update_self]
    · have other : k ∉ (a :: l).map key := fun hk => (List.mem_cons.mp hk).elim here later
      rw [Function.update_of_ne here, if_neg other]

/-- An element without matches can be passed over. -/
theorem usedUp_skip (none : found (key a) = []) :
    usedUp key f found (a :: l) = usedUp key f found l := by
  have same : Function.update found (key a) [] = found := by
    rw [← none, Function.update_eq_self]
  rw [usedUp, none, same]
  rfl

theorem leftOver_skip (none : found (key a) = []) :
    leftOver key found (a :: l) = leftOver key found l := by
  have same : Function.update found (key a) [] = found := by
    rw [← none, Function.update_eq_self]
  rw [leftOver_cons, same]

/-- One match is taken. -/
theorem usedUp_take {b : β} {bs : List β} (some : found (key a) = b :: bs) :
    usedUp key f found (a :: l) =
      f a b :: usedUp key f (Function.update found (key a) bs) (a :: l) := by
  rw [usedUp, usedUp, some, Function.update_self, Function.update_idem]
  rfl

theorem leftOver_take (found : K → List β) (bs : List β) :
    leftOver key (Function.update found (key a) bs) (a :: l) = leftOver key found (a :: l) := by
  rw [leftOver_cons, leftOver_cons, Function.update_idem]

/-- A second time there is nothing. -/
theorem usedUp_none (none : ∀ a ∈ l, found (key a) = []) : usedUp key f found l = [] := by
  induction l with
  | nil => rfl
  | cons a l ih =>
    obtain ⟨here, later⟩ := List.forall_mem_cons.mp none
    rw [usedUp_skip key f here]
    exact ih later

theorem usedUp_leftOver (found : K → List β) (l : List α) :
    usedUp key f (leftOver key found l) l = [] :=
  usedUp_none key f fun _ ha => if_pos (List.mem_map_of_mem ha)

/-! ### When no pair is missing -/

theorem usedUp_congr {found' : K → List β} (same : ∀ a ∈ l, found (key a) = found' (key a)) :
    usedUp key f found l = usedUp key f found' l := by
  induction l generalizing found found' with
  | nil => rfl
  | cons a l ih =>
    obtain ⟨here, later⟩ := List.forall_mem_cons.mp same
    rw [usedUp, usedUp, here]
    refine congrArg _ (ih fun b hb => ?_)
    by_cases eq : key b = key a
    · rw [eq, Function.update_self, Function.update_self]
    · rw [Function.update_of_ne eq, Function.update_of_ne eq]
      exact later b hb

omit [DecidableEq K] in
theorem pairs_cons (found : K → List β) (a : α) (l : List α) :
    pairs key f found (a :: l) = (found (key a)).map (f a) ++ pairs key f found l :=
  List.flatMap_cons

/-- Without the matches of a key there are fewer pairs, if there were any with it. -/
theorem length_pairs_update (found : K → List β) (k : K) (l : List α) :
    (pairs key f (Function.update found k []) l).length ≤ (pairs key f found l).length ∧
      ((pairs key f (Function.update found k []) l).length = (pairs key f found l).length →
        ∀ a ∈ l, key a = k → found k = []) := by
  induction l with
  | nil => exact ⟨Nat.le_refl _, fun _ a ha => absurd ha List.not_mem_nil⟩
  | cons a l ih =>
    obtain ⟨le, eq⟩ := ih
    rw [pairs_cons, pairs_cons, List.length_append, List.length_append, List.length_map,
      List.length_map]
    by_cases here : key a = k
    · rw [here, Function.update_self, List.length_nil]
      refine ⟨by omega, fun same b _ _ => List.length_eq_zero_iff.mp ?_⟩
      omega
    · rw [Function.update_of_ne here]
      refine ⟨by omega, fun same b hb keyB => ?_⟩
      rcases List.mem_cons.mp hb with rfl | hb
      · exact absurd keyB here
      · exact eq (by omega) b hb keyB

theorem length_usedUp (found : K → List β) (l : List α) :
    (usedUp key f found l).length ≤ (pairs key f found l).length := by
  induction l generalizing found with
  | nil => exact Nat.le_refl _
  | cons a l ih =>
    rw [usedUp, pairs_cons, List.length_append, List.length_append]
    apply Nat.add_le_add_left
    exact Nat.le_trans (ih _) (length_pairs_update key f found (key a) l).1

/-- No pair is missing exactly when no two elements with matches have the same key. -/
theorem usedUp_perm_iff (found : K → List β) (l : List α) :
    (usedUp key f found l).Perm (pairs key f found l) ↔
      l.Pairwise fun a b => key a = key b → found (key a) = [] := by
  induction l with
  | nil => simp [usedUp, pairs]
  | cons a l ih =>
    rw [usedUp, pairs_cons, List.perm_append_left_iff, List.pairwise_cons, ← ih]
    -- either the key does not come again, or it had no matches
    have agree : (∀ b ∈ l, key a = key b → found (key a) = []) →
        usedUp key f (Function.update found (key a) []) l = usedUp key f found l := by
      intro once
      refine usedUp_congr key f fun b hb => ?_
      by_cases eq : key b = key a
      · rw [eq, Function.update_self, once b hb eq.symm]
      · rw [Function.update_of_ne eq]
    constructor
    · intro perm
      obtain ⟨le, eq⟩ := length_pairs_update key f found (key a) l
      have length := perm.length_eq
      have bound := length_usedUp key f (Function.update found (key a) []) l
      have once : ∀ b ∈ l, key a = key b → found (key a) = [] :=
        fun b hb same => eq (by omega) b hb same.symm
      rw [agree once] at perm
      exact ⟨once, perm⟩
    · rintro ⟨once, perm⟩
      rw [agree once]
      exact perm

end DeepDB.Join
