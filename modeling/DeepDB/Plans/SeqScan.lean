import DeepDB.Plans.Signatures

/-!
The sequential scan of a list and the filter of another operator, from `verif/db/plans/SeqScan.v` and
`Filter.v`. A filter passes a row on or uses up the call.
-/

namespace DeepDB.Plans

/-! ### SeqScan -/

namespace SeqScan
variable {o : Type}

structure Cursor (o : Type) where
  visited : List o
  to_visit : List o
  collection : List o

def mk_seqcursor (c : List o) : Cursor o := ⟨[], c, c⟩

def coherent (c : Cursor o) : Prop := c.collection = c.visited.reverse ++ c.to_visit

def reset (c : Cursor o) : Cursor o := ⟨[], c.collection, c.collection⟩

def next (c : Cursor o) : Result o × Cursor o :=
  match c.to_visit with
  | [] => (.emptyCursor, c)
  | el :: li => (.result el, ⟨el :: c.visited, li, c.collection⟩)

/-- What a call does: the scan is over, or it gives the row ahead. -/
theorem next_cases (c : Cursor o) :
    (c.to_visit = [] ∧ next c = (.emptyCursor, c)) ∨
      ∃ el li, c.to_visit = el :: li ∧ next c = (.result el, ⟨el :: c.visited, li, c.collection⟩) := by
  unfold next
  cases ahead : c.to_visit with
  | nil => exact Or.inl ⟨rfl, rfl⟩
  | cons el li => exact Or.inr ⟨el, li, rfl, rfl⟩

theorem next_empty {c : Cursor o} (empty : (next c).1 = .emptyCursor) :
    c.to_visit = [] ∧ next c = (.emptyCursor, c) := by
  rcases next_cases c with none | ⟨el, li, -, one⟩
  · exact none
  · rw [one] at empty
    cases empty

def build (O : Oeset o) : CursorRcd O where
  cursor := Cursor o
  collection := Cursor.collection
  visited := Cursor.visited
  coherent := coherent
  reset := reset
  next := next
  hasNext := fun c => c.to_visit ≠ []
  emptyCursor := ⟨[], [], []⟩
  ubound := fun c => c.to_visit.length
  reset_collection := fun _ => rfl
  reset_visited := fun _ => rfl
  reset_coherent := fun _ => rfl
  reset_reset := fun _ => rfl
  next_collection := by
    intro c _
    rcases next_cases c with ⟨-, none⟩ | ⟨el, li, -, one⟩
    · rw [none]
    · rw [one]
  next_visited := by
    intro c _
    rcases next_cases c with ⟨-, none⟩ | ⟨el, li, -, one⟩
    · rw [none]
      rfl
    · rw [one]
      rfl
  next_coherent := by
    intro c coherent'
    rcases next_cases c with ⟨-, none⟩ | ⟨el, li, ahead, one⟩
    · rw [none]
      exact coherent'
    · rw [one]
      unfold coherent at coherent' ⊢
      rw [coherent', ahead, List.reverse_cons, List.append_assoc, List.singleton_append]
  next_emptyCursor := by
    intro c _ empty
    rw [(next_empty empty).2, (next_empty empty).2]
  next_reset := by
    intro c _
    rcases next_cases c with ⟨-, none⟩ | ⟨el, li, -, one⟩
    · rw [none]
    · rw [one]
      rfl
  hasNext_spec := by
    intro c coherent' none
    unfold coherent at coherent'
    rw [coherent', not_not.mp none, List.append_nil]
  hasNext_next_neg := by
    intro c _
    rcases next_cases c with ⟨ended, none⟩ | ⟨el, li, ahead, one⟩
    · simp [ended, none]
    · simp [ahead, one]
  emptyCursor_collection := rfl
  emptyCursor_coherent := rfl
  emptyCursor_hasNext := fun more => more rfl
  ubound_next_empty := by
    intro c _ empty
    rw [(next_empty empty).2]
  ubound_next_not_empty := by
    intro c _ more
    rcases next_cases c with ⟨-, none⟩ | ⟨el, li, ahead, one⟩
    · rw [none] at more
      exact absurd rfl more
    · rw [one, ahead]
      exact Nat.lt_succ_self _

variable {O : Oeset o}

/-- A scan gives the very rows of its list, not only equal ones. -/
theorem materialize_build (c : (build O).cursor) : (build O).materialize c = Cursor.collection c := by
  have started : (build O).coherent ((build O).reset c) := rfl
  obtain ⟨left, collection, -⟩ := CursorRcd.iter_invariant (f := List.cons) (a := []) started
    ((build O).ubound ((build O).reset c))
  have ended := next_empty (CursorRcd.iter_empty (f := List.cons) (a := []) started (Nat.le_refl _))
  have visited := CursorRcd.visited_pulled started ((build O).ubound ((build O).reset c))
  unfold CursorRcd.materialize
  change Cursor.collection _ = (Cursor.visited _).reverse ++ Cursor.to_visit _ at left
  change Cursor.visited _ = _ ++ [] at visited
  change Cursor.collection _ = Cursor.collection c at collection
  rw [ended.1, List.append_nil, visited, collection, List.append_nil, List.reverse_reverse] at left
  exact left.symm

end SeqScan

/-! ### Filter -/

namespace Filter
variable {o : Type} {O : Oeset o} (theta : o → Bool)
  (theta_eq : ∀ {x y}, O.compare x y = .eq → theta x = theta y) (C : CursorRcd O)

def next (c : C.cursor) : Result o × C.cursor :=
  match C.next c with
  | (.result e, c') => if theta e then (.result e, c') else (.noResult, c')
  | rc' => rc'

variable {theta C}

theorem next_snd (c : C.cursor) : (next theta C c).2 = (C.next c).2 := by
  unfold next
  rcases C.next c with ⟨_ | _ | _, c'⟩
  · dsimp only
    split <;> rfl
  · rfl
  · rfl

theorem next_empty {c : C.cursor} :
    (next theta C c).1 = .emptyCursor ↔ (C.next c).1 = .emptyCursor := by
  unfold next
  rcases C.next c with ⟨_ | _ | _, c'⟩
  · dsimp only
    split <;> simp
  · rfl
  · rfl

theorem next_toList (c : C.cursor) :
    (next theta C c).1.toList = (C.next c).1.toList.filter theta := by
  unfold next
  rcases C.next c with ⟨e | _ | _, c'⟩
  · dsimp only [Result.toList]
    by_cases passes : theta e = true
    · rw [if_pos passes, List.filter_cons_of_pos passes]
      rfl
    · rw [if_neg passes, List.filter_cons_of_neg passes]
      rfl
  · rfl
  · rfl

variable (theta C)

def build : CursorRcd O where
  cursor := C.cursor
  collection := fun c => (C.collection c).filter theta
  visited := fun c => (C.visited c).filter theta
  coherent := C.coherent
  reset := C.reset
  next := next theta C
  hasNext := fun c => (next theta C c).1 ≠ .emptyCursor
  emptyCursor := C.emptyCursor
  ubound := C.ubound
  reset_collection := fun c => by rw [C.reset_collection]
  reset_visited := fun c => by rw [C.reset_visited, List.filter_nil]
  reset_coherent := C.reset_coherent
  reset_reset := C.reset_reset
  next_collection := fun c coherent => by rw [next_snd, C.next_collection c coherent]
  next_visited := fun c coherent => by
    rw [next_snd, C.next_visited c coherent, List.filter_append, next_toList]
  next_coherent := fun c coherent => by
    rw [next_snd]
    exact C.next_coherent c coherent
  next_emptyCursor := fun c coherent empty => by
    rw [next_empty, next_snd]
    exact C.next_emptyCursor c coherent (next_empty.mp empty)
  next_reset := fun c coherent => by rw [next_snd, C.next_reset c coherent]
  hasNext_spec := fun c coherent none => by
    rw [← List.filter_reverse]
    exact (CursorRcd.visited_all coherent (next_empty.mp (not_not.mp none))).filter theta_eq
  hasNext_next_neg := fun _ _ => Iff.rfl
  emptyCursor_collection := by rw [C.emptyCursor_collection, List.filter_nil]
  emptyCursor_coherent := C.emptyCursor_coherent
  emptyCursor_hasNext := not_not.mpr (next_empty.mpr CursorRcd.emptyCursor_next)
  ubound_next_empty := fun c coherent _ => by
    rw [next_snd]
    exact CursorRcd.ubound_next_le coherent
  ubound_next_not_empty := fun c coherent more => by
    rw [next_snd]
    exact C.ubound_next_not_empty c coherent (mt next_empty.mpr more)

include theta_eq in
theorem materialize_filter (c : C.cursor) :
    O.Same ((build theta theta_eq C).materialize c) ((C.materialize c).filter theta) :=
  (CursorRcd.materialize_collection (C := build theta theta_eq C) c).trans
    ((CursorRcd.materialize_collection c).symm.filter theta_eq)

end Filter

end DeepDB.Plans
