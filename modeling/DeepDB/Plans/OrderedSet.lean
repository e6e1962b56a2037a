import Mathlib.Data.List.Forall2
import Mathlib.Order.Compare
import Mathlib.Order.Nat

/-!
Ordered types up to an equality, from `verif/db/common/comparison/OrderedSet.v`. Rows that compare as
equal need not be the same: two tuples at different addresses may hold the same values.
-/

namespace DeepDB.Plans
open Relator

/-- `Oeset.Rcd`. -/
structure Oeset (A : Type) where
  compare : A → A → Ordering
  compare_eq_trans : ∀ {a b c}, compare a b = .eq → compare b c = .eq → compare a c = .eq
  compare_eq_lt_trans : ∀ {a b c}, compare a b = .eq → compare b c = .lt → compare a c = .lt
  compare_lt_eq_trans : ∀ {a b c}, compare a b = .lt → compare b c = .eq → compare a c = .lt
  compare_lt_trans : ∀ {a b c}, compare a b = .lt → compare b c = .lt → compare a c = .lt
  compare_lt_gt : ∀ a b, compare a b = (compare b a).swap

variable {A B : Type} {O : Oeset A} {OB : Oeset B} {a b c : A} {k l m n : List A}

namespace Oeset

@[simp] theorem compare_eq_refl (O : Oeset A) (a : A) : O.compare a a = .eq := by
  have swapped := O.compare_lt_gt a a
  revert swapped
  cases O.compare a a <;> simp

theorem compare_eq_sym (h : O.compare a b = .eq) : O.compare b a = .eq := by
  rw [O.compare_lt_gt, h]
  rfl

/-- Equal elements compare alike with a third one. -/
theorem compare_eq_iff (h : O.compare a b = .eq) : O.compare a c = .eq ↔ O.compare b c = .eq :=
  ⟨O.compare_eq_trans (compare_eq_sym h), O.compare_eq_trans h⟩

end Oeset

/-! ### Lists -/

def comparelA (compareA : A → A → Ordering) : List A → List A → Ordering
  | [], [] => .eq
  | [], _ :: _ => .lt
  | _ :: _, [] => .gt
  | a₁ :: l₁, a₂ :: l₂ =>
    match compareA a₁ a₂ with
    | .eq => comparelA compareA l₁ l₂
    | .lt => .lt
    | .gt => .gt

section
variable {compareA : A → A → Ordering}

theorem comparelA_cons :
    comparelA compareA (a :: l) (b :: m) = (compareA a b).then (comparelA compareA l m) := by
  rw [comparelA]
  cases compareA a b <;> rfl

theorem comparelA_eq : comparelA compareA l m = .eq ↔ List.Forall₂ (compareA · · = .eq) l m := by
  induction l generalizing m with
  | nil => cases m <;> simp [comparelA]
  | cons a l ih =>
    cases m with
    | nil => simp [comparelA]
    | cons b m =>
      rw [comparelA_cons, Ordering.then_eq_eq, ih, List.forall₂_cons]

end

namespace Oeset

/-- The lists hold equal elements in the same order. -/
def Same (O : Oeset A) (l m : List A) : Prop := comparelA O.compare l m = .eq

theorem same_iff : O.Same l m ↔ List.Forall₂ (O.compare · · = .eq) l m := comparelA_eq

@[refl] theorem Same.refl (l : List A) : O.Same l l :=
  same_iff.mpr (List.forall₂_same.mpr fun a _ => O.compare_eq_refl a)

theorem Same.symm (h : O.Same l m) : O.Same m l := by
  rw [same_iff] at h ⊢
  exact (h.imp fun _ _ => compare_eq_sym).flip

theorem Same.trans (h : O.Same k l) (h' : O.Same l m) : O.Same k m := by
  rw [same_iff] at h h' ⊢
  induction h generalizing m with
  | nil => exact h'
  | cons head _ ih =>
    cases h' with
    | cons head' tail' => exact .cons (O.compare_eq_trans head head') (ih tail')

theorem Same.of_eq (h : l = m) : O.Same l m := h ▸ .refl l

theorem Same.nil_iff : O.Same l [] ↔ l = [] := by
  rw [same_iff]
  exact List.forall₂_nil_right_iff

theorem Same.cons (head : O.compare a b = .eq) (tail : O.Same l m) : O.Same (a :: l) (b :: m) :=
  same_iff.mpr (.cons head (same_iff.mp tail))

theorem Same.append (h : O.Same k l) (h' : O.Same m n) : O.Same (k ++ m) (l ++ n) :=
  same_iff.mpr (List.rel_append (same_iff.mp h) (same_iff.mp h'))

theorem Same.reverse (h : O.Same l m) : O.Same l.reverse m.reverse :=
  same_iff.mpr (List.rel_reverse (same_iff.mp h))

theorem Same.map {f g : A → B} (h : O.Same l m)
    (same : ∀ {a b}, O.compare a b = .eq → OB.compare (f a) (g b) = .eq) :
    OB.Same (l.map f) (m.map g) := by
  rw [same_iff] at h ⊢
  have related : ((O.compare · · = .eq) ⇒ (OB.compare · · = .eq)) f g := fun _ _ => same
  exact List.rel_map related h

theorem Same.flatMap {f g : A → List B} (h : O.Same l m)
    (same : ∀ {a b}, O.compare a b = .eq → OB.Same (f a) (g b)) :
    OB.Same (l.flatMap f) (m.flatMap g) := by
  rw [same_iff] at h ⊢
  exact List.rel_flatMap h fun _ _ ab => same_iff.mp (same ab)

theorem Same.filter {p q : A → Bool} (h : O.Same l m)
    (same : ∀ {a b}, O.compare a b = .eq → p a = q b) : O.Same (l.filter p) (m.filter q) := by
  rw [same_iff] at h ⊢
  have related : ((O.compare · · = .eq) ⇒ Iff) (p · = true) (q · = true) :=
    fun _ _ ab => iff_of_eq (congrArg (· = true) (same ab))
  exact List.rel_filter related h

/-- A property that equal elements share. -/
theorem Same.forall_mem {p : A → Prop} (h : O.Same l m) (same : ∀ {a b}, O.compare a b = .eq → p b → p a)
    (all : ∀ b ∈ m, p b) : ∀ a ∈ l, p a := by
  rw [same_iff] at h
  induction h with
  | nil => exact fun a no => absurd no List.not_mem_nil
  | cons head _ ih =>
    rw [List.forall_mem_cons] at all ⊢
    exact ⟨same head all.1, ih all.2⟩

theorem Same.length (h : O.Same l m) : l.length = m.length := (same_iff.mp h).length_eq

end Oeset

/-- `oeset_of_oset`. -/
def oeset_of_oset (A : Type) [LinearOrder A] : Oeset A where
  compare := compare
  compare_eq_trans := fun h h' => by
    rw [compare_eq_iff_eq] at *
    exact h.trans h'
  compare_eq_lt_trans := fun h h' => by
    rw [compare_eq_iff_eq] at h
    exact h ▸ h'
  compare_lt_eq_trans := fun h h' => by
    rw [compare_eq_iff_eq] at h'
    exact h' ▸ h
  compare_lt_trans := fun h h' => by
    rw [compare_lt_iff_lt] at *
    exact h.trans h'
  compare_lt_gt := fun _ _ => Std.OrientedCmp.eq_swap

theorem oeset_of_oset_eq [LinearOrder A] : (oeset_of_oset A).compare a b = .eq ↔ a = b :=
  compare_eq_iff_eq

theorem oeset_of_oset_congr [LinearOrder A] {O : Oeset B} (f : A → B) (same : (oeset_of_oset A).compare a b = .eq) :
    O.compare (f a) (f b) = .eq := by
  rw [oeset_of_oset_eq.mp same]
  exact O.compare_eq_refl _

/-- Elements compared by what they stand for. -/
def Oeset.comap (O : Oeset A) (f : B → A) : Oeset B where
  compare := fun a b => O.compare (f a) (f b)
  compare_eq_trans := O.compare_eq_trans
  compare_eq_lt_trans := O.compare_eq_lt_trans
  compare_lt_eq_trans := O.compare_lt_eq_trans
  compare_lt_trans := O.compare_lt_trans
  compare_lt_gt := fun a b => O.compare_lt_gt (f a) (f b)

/-- The lists over an ordered type. -/
def mk_oelists (O : Oeset A) : Oeset (List A) where
  compare := comparelA O.compare
  compare_eq_trans := Oeset.Same.trans
  compare_eq_lt_trans := by
    intro k l m h h'
    rw [comparelA_eq] at h
    induction h generalizing m with
    | nil => exact h'
    | cons head _ ih =>
      cases m with
      | nil => exact h'
      | cons c m =>
        rw [comparelA_cons, Ordering.then_eq_lt] at h' ⊢
        rcases h' with less | ⟨same, less⟩
        · exact Or.inl (O.compare_eq_lt_trans head less)
        · exact Or.inr ⟨O.compare_eq_trans head same, ih less⟩
  compare_lt_eq_trans := by
    intro k l m h h'
    rw [comparelA_eq] at h'
    induction h' generalizing k with
    | nil => exact h
    | cons head _ ih =>
      cases k with
      | nil => rfl
      | cons a k =>
        rw [comparelA_cons, Ordering.then_eq_lt] at h ⊢
        rcases h with less | ⟨same, less⟩
        · exact Or.inl (O.compare_lt_eq_trans less head)
        · exact Or.inr ⟨O.compare_eq_trans same head, ih less⟩
  compare_lt_trans := by
    intro k l m h h'
    induction l generalizing k m with
    | nil => cases k <;> cases h
    | cons b l ih =>
      cases m with
      | nil => cases h'
      | cons c m =>
        cases k with
        | nil => rfl
        | cons a k =>
          rw [comparelA_cons, Ordering.then_eq_lt] at h h' ⊢
          rcases h with less | ⟨same, less⟩ <;> rcases h' with less' | ⟨same', less'⟩
          · exact Or.inl (O.compare_lt_trans less less')
          · exact Or.inl (O.compare_lt_eq_trans less same')
          · exact Or.inl (O.compare_eq_lt_trans same less')
          · exact Or.inr ⟨O.compare_eq_trans same same', ih less less'⟩
  compare_lt_gt := by
    intro l m
    induction l generalizing m with
    | nil => cases m <;> rfl
    | cons a l ih =>
      cases m with
      | nil => rfl
      | cons b m => rw [comparelA_cons, comparelA_cons, Ordering.swap_then, O.compare_lt_gt, ih]

/-- The pairs, by `compareAB`. -/
def mk_oepairs (OA : Oeset A) (OB : Oeset B) : Oeset (A × B) where
  compare := fun x y => (OA.compare x.1 y.1).then (OB.compare x.2 y.2)
  compare_eq_trans := by
    intro x y z h h'
    rw [Ordering.then_eq_eq] at *
    exact ⟨OA.compare_eq_trans h.1 h'.1, OB.compare_eq_trans h.2 h'.2⟩
  compare_eq_lt_trans := by
    intro x y z h h'
    rw [Ordering.then_eq_eq] at h
    rw [Ordering.then_eq_lt] at *
    rcases h' with less | ⟨same, less⟩
    · exact Or.inl (OA.compare_eq_lt_trans h.1 less)
    · exact Or.inr ⟨OA.compare_eq_trans h.1 same, OB.compare_eq_lt_trans h.2 less⟩
  compare_lt_eq_trans := by
    intro x y z h h'
    rw [Ordering.then_eq_eq] at h'
    rw [Ordering.then_eq_lt] at *
    rcases h with less | ⟨same, less⟩
    · exact Or.inl (OA.compare_lt_eq_trans less h'.1)
    · exact Or.inr ⟨OA.compare_eq_trans same h'.1, OB.compare_lt_eq_trans less h'.2⟩
  compare_lt_trans := by
    intro x y z h h'
    rw [Ordering.then_eq_lt] at *
    rcases h with less | ⟨same, less⟩ <;> rcases h' with less' | ⟨same', less'⟩
    · exact Or.inl (OA.compare_lt_trans less less')
    · exact Or.inl (OA.compare_lt_eq_trans less same')
    · exact Or.inl (OA.compare_eq_lt_trans same less')
    · exact Or.inr ⟨OA.compare_eq_trans same same', OB.compare_lt_trans less less'⟩
  compare_lt_gt := by
    intro x y
    rw [Ordering.swap_then, ← OA.compare_lt_gt, ← OB.compare_lt_gt]

theorem Oeset.Same.flatten {k l : List (List A)} (h : (mk_oelists O).Same k l) : O.Same k.flatten l.flatten := by
  rw [same_iff] at h ⊢
  exact List.rel_flatten (h.imp fun _ _ same => same_iff.mp same)

end DeepDB.Plans
