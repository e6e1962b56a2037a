import DeepDB.Plans.SeqScan
import Mathlib.Data.List.Perm.Basic

/-!
The nested loop, from `verif/db/plans/NestedLoop.v`, and the operators made from it, `ThetaNestedLoop.v`
and `BlockNestedLoop.v`. The inner operator is run through for each row of the outer one. The loop
keeps no row of the outer operator: it reads it back from what that operator says it has visited.
-/

namespace DeepDB.Plans

namespace NestedLoop
variable {o₁ o₂ o : Type} {O₁ : Oeset o₁} {O₂ : Oeset o₂} {O : Oeset o}

structure Cursor (o : Type) (C1 : CursorRcd O₁) (C2 : CursorRcd O₂) where
  visited : List o
  outer : C1.cursor
  inner : C2.cursor

def cross (build_ : o₁ → o₂ → o) (l₁ : List o₁) (l₂ : List o₂) : List o :=
  l₁.flatMap fun a => l₂.map (build_ a)

section
variable (build_ : o₁ → o₂ → o) {C1 : CursorRcd O₁} {C2 : CursorRcd O₂}

def collection (c : Cursor o C1 C2) : List o := cross build_ (C1.collection c.outer) (C2.collection c.inner)

/-- The rows given are those of the outer rows that are done, and some of the current one. -/
def coherent (O : Oeset o) (c : Cursor o C1 C2) : Prop :=
  C1.coherent c.outer ∧ C2.coherent c.inner ∧
    match C1.visited c.outer with
    | [] => c.visited = [] ∧ C2.visited c.inner = []
    | el :: li => O.Same c.visited
        (cross build_ [el] (C2.visited c.inner) ++ cross build_ li (C2.collection c.inner).reverse)

def reset (c : Cursor o C1 C2) : Cursor o C1 C2 := ⟨[], C1.reset c.outer, C2.reset c.inner⟩

def next (c : Cursor o C1 C2) : Result o × Cursor o C1 C2 :=
  match C2.next c.inner with
  | (.emptyCursor, c2') =>
    match C1.next c.outer with
    | (.emptyCursor, _) => (.emptyCursor, ⟨c.visited, c.outer, c2'⟩)
    | (.noResult, c1') =>
      match C2.next (C2.reset c.inner) with
      | (.emptyCursor, _) => (.emptyCursor, ⟨c.visited, c1', c2'⟩)
      | _ => (.noResult, ⟨c.visited, c1', c2'⟩)
    | (.result e1, c1') =>
      match C2.next (C2.reset c.inner) with
      | (.emptyCursor, c2') => (.emptyCursor, ⟨c.visited, c1', c2'⟩)
      | (.noResult, c2') => (.noResult, ⟨c.visited, c1', c2'⟩)
      | (.result e2, c2') => (.result (build_ e1 e2), ⟨build_ e1 e2 :: c.visited, c1', c2'⟩)
  | (.result e2, c2') =>
    match C1.visited c.outer with
    | [] =>
      match C1.next c.outer with
      | (.emptyCursor, c1') => (.emptyCursor, ⟨c.visited, c1', c.inner⟩)
      | (.result e1, c1') => (.result (build_ e1 e2), ⟨build_ e1 e2 :: c.visited, c1', c2'⟩)
      | (.noResult, c1') => (.noResult, ⟨c.visited, c1', c.inner⟩)
    | e1 :: _ => (.result (build_ e1 e2), ⟨build_ e1 e2 :: c.visited, c.outer, c2'⟩)
  | (.noResult, c2') => (.noResult, ⟨c.visited, c.outer, c2'⟩)

def ubound (c : Cursor o C1 C2) : Nat :=
  C2.ubound c.inner + C1.ubound c.outer * (C2.ubound (C2.reset c.inner) + 1)

/-! ### Steps -/

/-- What a call can do. -/
inductive Step (c : Cursor o C1 C2) : Result o → Cursor o C1 C2 → Prop where
  | quiet {c2'} (inner : C2.next c.inner = (.noResult, c2')) : Step c .noResult ⟨c.visited, c.outer, c2'⟩
  | row {e1 e2 li c2'} (inner : C2.next c.inner = (.result e2, c2')) (current : C1.visited c.outer = e1 :: li) :
      Step c (.result (build_ e1 e2)) ⟨build_ e1 e2 :: c.visited, c.outer, c2'⟩
  | first {e1 e2 c1' c2'} (inner : C2.next c.inner = (.result e2, c2')) (fresh : C1.visited c.outer = [])
      (outer : C1.next c.outer = (.result e1, c1')) :
      Step c (.result (build_ e1 e2)) ⟨build_ e1 e2 :: c.visited, c1', c2'⟩
  | waiting {e2 c1' c2'} (inner : C2.next c.inner = (.result e2, c2')) (fresh : C1.visited c.outer = [])
      (outer : C1.next c.outer = (.noResult, c1')) : Step c .noResult ⟨c.visited, c1', c.inner⟩
  | noOuter {e2 c1' c2'} (inner : C2.next c.inner = (.result e2, c2')) (fresh : C1.visited c.outer = [])
      (outer : C1.next c.outer = (.emptyCursor, c1')) : Step c .emptyCursor ⟨c.visited, c1', c.inner⟩
  | ended {c1' c2'} (inner : C2.next c.inner = (.emptyCursor, c2'))
      (outer : C1.next c.outer = (.emptyCursor, c1')) : Step c .emptyCursor ⟨c.visited, c.outer, c2'⟩
  | skip {c1' c2'} (inner : C2.next c.inner = (.emptyCursor, c2')) (outer : C1.next c.outer = (.noResult, c1'))
      (again : (C2.next (C2.reset c.inner)).1 ≠ .emptyCursor) : Step c .noResult ⟨c.visited, c1', c2'⟩
  | skipEmpty {c1' c2'} (inner : C2.next c.inner = (.emptyCursor, c2'))
      (outer : C1.next c.outer = (.noResult, c1'))
      (again : (C2.next (C2.reset c.inner)).1 = .emptyCursor) : Step c .emptyCursor ⟨c.visited, c1', c2'⟩
  | turn {e1 r c1' c2' c2''} (inner : C2.next c.inner = (.emptyCursor, c2'))
      (outer : C1.next c.outer = (.result e1, c1')) (again : C2.next (C2.reset c.inner) = (r, c2'')) :
      Step c
        (match r with
          | .result e2 => .result (build_ e1 e2)
          | .noResult => .noResult
          | .emptyCursor => .emptyCursor)
        ⟨r.toList.map (build_ e1) ++ c.visited, c1', c2''⟩

theorem next_step (c : Cursor o C1 C2) : Step build_ c (next build_ c).1 (next build_ c).2 := by
  unfold next
  rcases inner : C2.next c.inner with ⟨e2 | _ | _, c2'⟩
  · dsimp only
    cases current : C1.visited c.outer with
    | cons e1 li => exact .row inner current
    | nil =>
      rcases outer : C1.next c.outer with ⟨e1 | _ | _, c1'⟩
      · exact .first inner current outer
      · exact .waiting inner current outer
      · exact .noOuter inner current outer
  · exact .quiet inner
  · dsimp only
    rcases outer : C1.next c.outer with ⟨e1 | _ | _, c1'⟩
    · dsimp only
      rcases again : C2.next (C2.reset c.inner) with ⟨e2 | _ | _, c2''⟩
      · exact .turn inner outer again
      · exact .turn inner outer again
      · exact .turn inner outer again
    · dsimp only
      rcases again : C2.next (C2.reset c.inner) with ⟨e2 | _ | _, c2''⟩
      · exact .skip inner outer (by simp [again])
      · exact .skip inner outer (by simp [again])
      · exact .skipEmpty inner outer (by rw [again])
    · exact .ended inner outer

variable {build_}

section
variable {l l₁ m₁ : List o₁} {m l₂ m₂ : List o₂}

@[simp] theorem cross_nil_right : cross build_ l [] = [] := by
  unfold cross
  exact List.flatMap_eq_nil_iff.mpr fun _ _ => List.map_nil

theorem cross_cons {a : o₁} : cross build_ (a :: l) m = m.map (build_ a) ++ cross build_ l m :=
  List.flatMap_cons

theorem cross_singleton {a : o₁} : cross build_ [a] m = m.map (build_ a) := by
  rw [cross_cons]
  exact List.append_nil _

theorem reverse_cross : (cross build_ l m.reverse).reverse = cross build_ l.reverse m := by
  unfold cross
  rw [List.reverse_flatMap]
  refine congrArg (List.flatMap · l.reverse) (funext fun a => ?_)
  rw [Function.comp_apply, List.map_reverse, List.reverse_reverse]

variable (build_eq_1 : ∀ x1 x1' x2, O₁.compare x1 x1' = .eq → O.compare (build_ x1 x2) (build_ x1' x2) = .eq)
  (build_eq_2 : ∀ x1 x2 x2', O₂.compare x2 x2' = .eq → O.compare (build_ x1 x2) (build_ x1 x2') = .eq)
include build_eq_1 build_eq_2

theorem cross_eq (h₁ : O₁.Same l₁ m₁) (h₂ : O₂.Same l₂ m₂) :
    O.Same (cross build_ l₁ l₂) (cross build_ m₁ m₂) := by
  apply h₁.flatMap
  intro a b ab
  apply h₂.map
  exact fun xy => O.compare_eq_trans (build_eq_1 _ _ _ ab) (build_eq_2 _ _ _ xy)

end

/-! ### The invariant -/

variable {c c' : Cursor o C1 C2} {r : Result o}

/-- What a call leaves of the operands. -/
theorem Step.operands (step : Step build_ c r c') (coherent₁ : C1.coherent c.outer)
    (coherent₂ : C2.coherent c.inner) :
    C1.coherent c'.outer ∧ C2.coherent c'.inner ∧ C1.collection c'.outer = C1.collection c.outer ∧
      C2.collection c'.inner = C2.collection c.inner ∧ C1.reset c'.outer = C1.reset c.outer ∧
      C2.reset c'.inner = C2.reset c.inner := by
  have restart {r} {c2' : C2.cursor} (again : C2.next (C2.reset c.inner) = (r, c2')) :=
    CursorRcd.after (C2.reset_coherent c.inner) again
  cases step with
  | quiet inner | row inner _ | ended inner _ =>
    have after := CursorRcd.after coherent₂ inner
    exact ⟨coherent₁, after.coherent, rfl, after.collection, rfl, after.reset⟩
  | first inner _ outer | skip inner outer _ | skipEmpty inner outer _ =>
    have after := CursorRcd.after coherent₁ outer
    have after' := CursorRcd.after coherent₂ inner
    exact ⟨after.coherent, after'.coherent, after.collection, after'.collection, after.reset, after'.reset⟩
  | waiting _ _ outer | noOuter _ _ outer =>
    have after := CursorRcd.after coherent₁ outer
    exact ⟨after.coherent, coherent₂, after.collection, rfl, after.reset, rfl⟩
  | turn _ outer again =>
    have after := CursorRcd.after coherent₁ outer
    have after' := restart again
    refine ⟨after.coherent, after'.coherent, after.collection, ?_, after.reset, ?_⟩
    · exact after'.collection.trans (C2.reset_collection _)
    · exact after'.reset.trans (C2.reset_reset _)

theorem Step.visited (step : Step build_ c r c') : c'.visited = r.toList ++ c.visited := by
  cases step with
  | @turn e1 r _ _ _ _ _ _ => cases r <;> rfl
  | _ => rfl

theorem next_empty_of (inner : (C2.next c.inner).1 = .emptyCursor)
    (again : (C2.next (C2.reset c.inner)).1 = .emptyCursor ∨ (C1.next c.outer).1 = .emptyCursor) :
    (next build_ c).1 = .emptyCursor := by
  unfold next
  rcases inner' : C2.next c.inner with ⟨_ | _ | _, c2'⟩
  · rw [inner'] at inner
    cases inner
  · rw [inner'] at inner
    cases inner
  · dsimp only
    rcases outer : C1.next c.outer with ⟨e1 | _ | _, c1'⟩ <;>
      rcases again' : C2.next (C2.reset c.inner) with ⟨e2 | _ | _, c2''⟩ <;> simp_all

/-- A loop that is at its end stays there. -/
theorem Step.stays (step : Step build_ c r c') (h : NestedLoop.coherent build_ O c) (empty : r = .emptyCursor) :
    (next build_ c').1 = .emptyCursor := by
  obtain ⟨coherent₁, coherent₂, -⟩ := h
  cases step with
  | @noOuter e2 c1' c2' inner fresh outer =>
    have after := CursorRcd.after coherent₁ outer
    have ended := after.ended rfl
    have fresh' : C1.visited c1' = [] := after.visited.trans fresh
    unfold next
    dsimp only
    rw [inner]
    dsimp only
    rw [fresh']
    rcases outer' : C1.next c1' with ⟨_ | _ | _, c1''⟩ <;> simp_all
  | ended inner outer =>
    exact next_empty_of ((CursorRcd.after coherent₂ inner).ended rfl) (Or.inr (by rw [outer]))
  | skipEmpty inner outer again =>
    have after := CursorRcd.after coherent₂ inner
    refine next_empty_of (after.ended rfl) (Or.inl ?_)
    show (C2.next (C2.reset _)).1 = _
    rw [after.reset, again]
  | @turn e1 r _ _ _ inner outer again =>
    cases r with
    | emptyCursor =>
      have after := CursorRcd.after (C2.reset_coherent _) again
      refine next_empty_of (after.ended rfl) (Or.inl ?_)
      show (C2.next (C2.reset _)).1 = _
      rw [after.reset, C2.reset_reset, again]
    | result | noResult => cases empty
  | quiet | row | first | waiting | skip => cases empty

/-- The calls that are left: those for the current row, and a whole run for each outer row. -/
theorem Step.ubound (step : Step build_ c r c') (h : NestedLoop.coherent build_ O c) :
    NestedLoop.ubound c' ≤ NestedLoop.ubound c ∧
      (r ≠ .emptyCursor → NestedLoop.ubound c' < NestedLoop.ubound c) := by
  obtain ⟨-, -, -, -, -, reset₂⟩ := step.operands h.1 h.2.1
  obtain ⟨coherent₁, coherent₂, -⟩ := h
  unfold NestedLoop.ubound
  rw [reset₂]
  have fewer {r} {c1' : C1.cursor} (outer : C1.next c.outer = (r, c1')) (more : r ≠ .emptyCursor) :
      C1.ubound c1' * (C2.ubound (C2.reset c.inner) + 1) + (C2.ubound (C2.reset c.inner) + 1) ≤
        C1.ubound c.outer * (C2.ubound (C2.reset c.inner) + 1) := by
    have less := (CursorRcd.after coherent₁ outer).lt more
    rw [← Nat.succ_mul]
    exact Nat.mul_le_mul_right _ less
  cases step with
  | quiet inner | row inner _ =>
    have less := (CursorRcd.after coherent₂ inner).lt (by simp)
    dsimp only
    omega
  | ended inner _ =>
    have le := (CursorRcd.after coherent₂ inner).le
    exact ⟨Nat.add_le_add_right le _, fun more => absurd rfl more⟩
  | first inner _ outer | skip inner outer _ | skipEmpty inner outer _ =>
    have less := fewer outer (by simp)
    have le := (CursorRcd.after coherent₂ inner).le
    dsimp only
    omega
  | waiting _ _ outer =>
    have less := fewer outer (by simp)
    dsimp only
    omega
  | noOuter _ _ outer =>
    have le := (CursorRcd.after coherent₁ outer).le
    exact ⟨Nat.add_le_add_left (Nat.mul_le_mul_right _ le) _, fun more => absurd rfl more⟩
  | turn _ outer again =>
    -- the whole run of one outer row pays for the inner operator that starts again
    have less := fewer outer (by simp)
    have le := (CursorRcd.after (C2.reset_coherent c.inner) again).le
    dsimp only
    omega

section
variable (build_eq_1 : ∀ x1 x1' x2, O₁.compare x1 x1' = .eq → O.compare (build_ x1 x2) (build_ x1' x2) = .eq)
  (build_eq_2 : ∀ x1 x2 x2', O₂.compare x2 x2' = .eq → O.compare (build_ x1 x2) (build_ x1 x2') = .eq)
include build_eq_1 build_eq_2

/-- The current row is done too when the inner operator is. -/
theorem visited_done (h : coherent build_ O c) (done : (C2.next c.inner).1 = .emptyCursor) :
    O.Same c.visited (cross build_ (C1.visited c.outer) (C2.collection c.inner).reverse) := by
  obtain ⟨-, coherent₂, visited⟩ := h
  cases current : C1.visited c.outer with
  | nil =>
    rw [current] at visited
    exact .of_eq visited.1
  | cons el li =>
    rw [current] at visited
    have all := (CursorRcd.visited_all coherent₂ done).reverse.symm
    rw [List.reverse_reverse] at all
    rw [cross_cons, ← cross_singleton]
    exact visited.trans (.append (cross_eq build_eq_1 build_eq_2 (.refl _) all) (.refl _))

theorem Step.coherent (step : Step build_ c r c') (h : coherent build_ O c) : NestedLoop.coherent build_ O c' := by
  obtain ⟨coherent₁', coherent₂', -, collection₂, -⟩ := step.operands h.1 h.2.1
  refine ⟨coherent₁', coherent₂', ?_⟩
  have before := h
  obtain ⟨coherent₁, coherent₂, visited⟩ := h
  rw [collection₂]
  cases step with
  | quiet inner | ended inner _ =>
    have after := CursorRcd.after coherent₂ inner
    dsimp only
    rw [after.visited]
    exact visited
  | @row e1 e2 li c2' inner current =>
    have after := CursorRcd.after coherent₂ inner
    dsimp only
    rw [current] at visited
    rw [current, after.visited]
    exact .cons (O.compare_eq_refl _) visited
  | first inner fresh outer =>
    have after₁ := CursorRcd.after coherent₁ outer
    have after₂ := CursorRcd.after coherent₂ inner
    rw [fresh] at visited
    dsimp only
    rw [after₁.visited, after₂.visited, fresh, visited.1, visited.2]
    exact .refl _
  | waiting _ _ outer | noOuter _ _ outer =>
    have after := CursorRcd.after coherent₁ outer
    dsimp only
    rw [after.visited]
    exact visited
  | skip inner outer _ | skipEmpty inner outer _ =>
    have after₁ := CursorRcd.after coherent₁ outer
    have after₂ := CursorRcd.after coherent₂ inner
    dsimp only
    rw [after₁.visited, after₂.visited]
    exact visited
  | @turn e1 r c1' c2' c2'' inner outer again =>
    have after₁ := CursorRcd.after coherent₁ outer
    have after₂ := CursorRcd.after (C2.reset_coherent _) again
    have done := visited_done build_eq_1 build_eq_2 before (by rw [inner])
    dsimp only
    rw [after₁.visited, after₂.visited, C2.reset_visited, List.append_nil]
    show O.Same _ (cross build_ [e1] r.toList ++ cross build_ (C1.visited c.outer) _)
    rw [cross_singleton]
    exact .append (.refl _) done

/-- A loop that is at its end has given every row. -/
theorem Step.all (step : Step build_ c r c') (h : NestedLoop.coherent build_ O c) (empty : r = .emptyCursor) :
    O.Same (collection build_ c) c.visited.reverse := by
  have before := h
  obtain ⟨coherent₁, coherent₂, visited⟩ := h
  have noRows : (C2.next c.inner).1 = .emptyCursor → (C2.next (C2.reset c.inner)).1 = .emptyCursor →
      O.Same (collection build_ c) c.visited.reverse := by
    intro done again
    have done' := visited_done build_eq_1 build_eq_2 before done
    rw [CursorRcd.collection_of_reset_empty again, List.reverse_nil, cross_nil_right, Oeset.Same.nil_iff] at done'
    rw [done']
    unfold collection
    rw [CursorRcd.collection_of_reset_empty again, cross_nil_right, List.reverse_nil]
  cases step with
  | noOuter _ fresh outer =>
    have none := CursorRcd.visited_nil_next_empty coherent₁ fresh (by rw [outer])
    rw [fresh] at visited
    unfold collection
    rw [none, visited.1]
    exact .refl _
  | ended inner outer =>
    have done := visited_done build_eq_1 build_eq_2 before (by rw [inner])
    have all := CursorRcd.visited_all coherent₁ (by rw [outer])
    unfold collection
    refine (cross_eq build_eq_1 build_eq_2 all (.refl _)).trans ?_
    rw [← reverse_cross]
    exact done.symm.reverse
  | skipEmpty inner _ again => exact noRows (by rw [inner]) again
  | @turn e1 r _ _ _ inner _ again =>
    cases r with
    | emptyCursor => exact noRows (by rw [inner]) (by rw [again])
    | result | noResult => cases empty
  | quiet | row | first | waiting | skip => cases empty

end

end

/-! ### The operator -/

variable (O) (build_ : o₁ → o₂ → o)
  (build_eq_1 : ∀ x1 x1' x2, O₁.compare x1 x1' = .eq → O.compare (build_ x1 x2) (build_ x1' x2) = .eq)
  (build_eq_2 : ∀ x1 x2 x2', O₂.compare x2 x2' = .eq → O.compare (build_ x1 x2) (build_ x1 x2') = .eq)
  (C1 : CursorRcd O₁) (C2 : CursorRcd O₂)

def build : CursorRcd O where
  cursor := Cursor o C1 C2
  collection := collection build_
  visited := Cursor.visited
  coherent := coherent build_ O
  reset := reset
  next := next build_
  hasNext := fun c => (next build_ c).1 ≠ .emptyCursor
  emptyCursor := ⟨[], C1.emptyCursor, C2.emptyCursor⟩
  ubound := ubound
  reset_collection := fun c => by
    unfold collection reset
    rw [C1.reset_collection, C2.reset_collection]
  reset_visited := fun _ => rfl
  reset_coherent := fun c => by
    refine ⟨C1.reset_coherent _, C2.reset_coherent _, ?_⟩
    unfold reset
    rw [C1.reset_visited, C2.reset_visited]
    exact ⟨rfl, rfl⟩
  reset_reset := fun c => by
    unfold reset
    rw [C1.reset_reset, C2.reset_reset]
  next_collection := fun c h => by
    obtain ⟨-, -, collection₁, collection₂, -⟩ := (next_step build_ c).operands h.1 h.2.1
    unfold collection
    rw [collection₁, collection₂]
  next_visited := fun c _ => (next_step build_ c).visited
  next_coherent := fun c h => (next_step build_ c).coherent build_eq_1 build_eq_2 h
  next_emptyCursor := fun c h empty => (next_step build_ c).stays h empty
  next_reset := fun c h => by
    obtain ⟨-, -, -, -, reset₁, reset₂⟩ := (next_step build_ c).operands h.1 h.2.1
    unfold reset
    rw [reset₁, reset₂]
  hasNext_spec := fun c h none => (next_step build_ c).all build_eq_1 build_eq_2 h (not_not.mp none)
  hasNext_next_neg := fun _ _ => Iff.rfl
  emptyCursor_collection := by
    unfold collection
    rw [C2.emptyCursor_collection, cross_nil_right]
  emptyCursor_coherent := by
    refine ⟨C1.emptyCursor_coherent, C2.emptyCursor_coherent, ?_⟩
    rw [CursorRcd.empty_collection C1.emptyCursor_coherent C1.emptyCursor_collection,
      CursorRcd.empty_collection C2.emptyCursor_coherent C2.emptyCursor_collection]
    exact ⟨rfl, rfl⟩
  emptyCursor_hasNext := not_not.mpr
    (next_empty_of CursorRcd.emptyCursor_next (Or.inr CursorRcd.emptyCursor_next))
  ubound_next_empty := fun c h _ => ((next_step build_ c).ubound h).1
  ubound_next_not_empty := fun c h more => ((next_step build_ c).ubound h).2 more

/-- The loop gives every pair of the operands' rows, outer row by outer row, whatever state it is in. -/
theorem same_materialize (c : Cursor o C1 C2) :
    O.Same ((build O build_ build_eq_1 build_eq_2 C1 C2).materialize c)
      (cross build_ (C1.materialize c.outer) (C2.materialize c.inner)) := by
  refine (CursorRcd.materialize_collection (C := build O build_ build_eq_1 build_eq_2 C1 C2) c).trans ?_
  apply cross_eq build_eq_1 build_eq_2
  · exact (CursorRcd.materialize_collection c.outer).symm
  · exact (CursorRcd.materialize_collection c.inner).symm

/-- The loop gives the pairs of its operands' rows in order, whatever state it was in before the reset. -/
theorem nestedLoop_run (c : Cursor o C1 C2) (n : Nat) :
    ∃ rest, O.Same (cross build_ (C1.materialize c.outer) (C2.materialize c.inner))
        ((build O build_ build_eq_1 build_eq_2 C1 C2).pulled n (reset c) ++ rest) ∧
      (ubound (reset c) ≤ n → rest = [] ∧
        ((build O build_ build_eq_1 build_eq_2 C1 C2).next
          (iter (next build_) n (reset c) List.cons []).1).1 = .emptyCursor) := by
  obtain ⟨rest, all, enough⟩ := CursorRcd.run (C := build O build_ build_eq_1 build_eq_2 C1 C2) c n
  have whole := (CursorRcd.materialize_collection (C := build O build_ build_eq_1 build_eq_2 C1 C2) c).symm.trans
    (same_materialize O build_ build_eq_1 build_eq_2 C1 C2 c)
  exact ⟨rest, whole.symm.trans all, enough⟩

/-- The first rows of a loop whose outer operator has a call with no row. -/
theorem nestedLoop_run_filtered :
    ∃ rest, (oeset_of_oset Nat).Same [13, 14, 33, 34]
      ((build (oeset_of_oset Nat) (fun a b => 10 * a + b) (fun _ _ b => oeset_of_oset_congr (10 * · + b))
          (fun a _ _ => oeset_of_oset_congr (10 * a + ·))
          (Filter.build (· != 2) (congrArg (· != 2) <| oeset_of_oset_eq.mp ·) (SeqScan.build (oeset_of_oset Nat)))
          (SeqScan.build (oeset_of_oset Nat))).pulled 3
        (reset ⟨[], SeqScan.mk_seqcursor [1, 2, 3], SeqScan.mk_seqcursor [3, 4]⟩) ++ rest) := by
  obtain ⟨rest, all, -⟩ := nestedLoop_run (oeset_of_oset Nat) (fun a b => 10 * a + b)
    (fun _ _ b => oeset_of_oset_congr (10 * · + b)) (fun a _ _ => oeset_of_oset_congr (10 * a + ·))
    (Filter.build (· != 2) (congrArg (· != 2) <| oeset_of_oset_eq.mp ·) (SeqScan.build (oeset_of_oset Nat)))
    (SeqScan.build (oeset_of_oset Nat)) ⟨[], SeqScan.mk_seqcursor [1, 2, 3], SeqScan.mk_seqcursor [3, 4]⟩ 3
  exact ⟨rest, all⟩

/-- Loops over blocks, taken apart. -/
theorem flatten_cross (B₁ : List (List o₁)) (B₂ : List (List o₂)) :
    (cross (cross build_) B₁ B₂).flatten.Perm (cross build_ B₁.flatten B₂.flatten) := by
  have commute (l₁ : List o₁) : (B₂.map (cross build_ l₁)).flatten.Perm (cross build_ l₁ B₂.flatten) := by
    induction B₂ with
    | nil => simp
    | cons l₂ B₂ ih =>
      rw [List.map_cons, List.flatten_cons, List.flatten_cons]
      refine (ih.append_left _).trans ?_
      unfold cross
      simp only [List.map_append]
      exact List.flatMap_append_perm _ _ _
  induction B₁ with
  | nil => rfl
  | cons l₁ B₁ ih =>
    rw [cross_cons, List.flatten_append, List.flatten_cons]
    unfold cross at ih commute ⊢
    rw [List.flatMap_append]
    exact (commute l₁).append ih

end NestedLoop

section
variable {o₁ o₂ o : Type} {O₁ : Oeset o₁} {O₂ : Oeset o₂} (O : Oeset o) (build_ : o₁ → o₂ → o)
  (build_eq_1 : ∀ x1 x1' x2, O₁.compare x1 x1' = .eq → O.compare (build_ x1 x2) (build_ x1' x2) = .eq)
  (build_eq_2 : ∀ x1 x2 x2', O₂.compare x2 x2' = .eq → O.compare (build_ x1 x2) (build_ x1 x2') = .eq)

def ThetaNestedLoop.build (theta : o → Bool) (theta_eq : ∀ {x y}, O.compare x y = .eq → theta x = theta y)
    (C1 : CursorRcd O₁) (C2 : CursorRcd O₂) : CursorRcd O :=
  Filter.build theta theta_eq (NestedLoop.build O build_ build_eq_1 build_eq_2 C1 C2)

/-- The operands give their rows in blocks. -/
def BlockNestedLoop.build (C1 : CursorRcd (mk_oelists O₁)) (C2 : CursorRcd (mk_oelists O₂)) :
    CursorRcd (mk_oelists O) :=
  NestedLoop.build (mk_oelists O) (NestedLoop.cross build_)
    (by
      intro l₁ l₁' _ same
      exact NestedLoop.cross_eq build_eq_1 build_eq_2 same (.refl _))
    (by
      intro _ l₂ l₂' same
      exact NestedLoop.cross_eq build_eq_1 build_eq_2 (.refl _) same)
    C1 C2

/-- The blocks that come out hold the rows of the plain loop, block by block instead of row by row. -/
theorem materialize_blockNestedLoop (C1 : CursorRcd (mk_oelists O₁)) (C2 : CursorRcd (mk_oelists O₂))
    (c : NestedLoop.Cursor (List o) C1 C2) :
    ∃ rows, O.Same ((BlockNestedLoop.build O build_ build_eq_1 build_eq_2 C1 C2).materialize c).flatten rows ∧
      rows.Perm (NestedLoop.cross build_ (C1.materialize c.outer).flatten (C2.materialize c.inner).flatten) := by
  refine ⟨_, ?_, NestedLoop.flatten_cross build_ _ _⟩
  have blocks := NestedLoop.same_materialize (mk_oelists O) (NestedLoop.cross build_)
    (by
      intro l₁ l₁' _ same
      exact NestedLoop.cross_eq build_eq_1 build_eq_2 same (.refl _))
    (by
      intro _ l₂ l₂' same
      exact NestedLoop.cross_eq build_eq_1 build_eq_2 (.refl _) same)
    C1 C2 c
  exact blocks.flatten

/-- The rows of four pairs of blocks, in the order of the blocks. -/
theorem materialize_blockNestedLoop_four :
    ∃ rows, (oeset_of_oset Nat).Same [14, 15, 16, 24, 25, 34, 35, 26, 36] rows ∧
      rows.Perm [14, 15, 16, 24, 25, 26, 34, 35, 36] :=
  materialize_blockNestedLoop (oeset_of_oset Nat) (fun a b => 10 * a + b)
    (fun _ _ b => oeset_of_oset_congr (10 * · + b)) (fun a _ _ => oeset_of_oset_congr (10 * a + ·))
    (SeqScan.build (mk_oelists (oeset_of_oset Nat))) (SeqScan.build (mk_oelists (oeset_of_oset Nat)))
    ⟨[], SeqScan.mk_seqcursor [[1], [2, 3]], SeqScan.mk_seqcursor [[4, 5], [6]]⟩

end

end DeepDB.Plans
