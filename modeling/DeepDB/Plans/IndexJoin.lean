import DeepDB.Plans.IndexScan
import DeepDB.Plans.NestedLoop

/-!
The index join, from `verif/db/plans/IndexJoin.v`: for each row of the outer operator, the cursor that
the index of the inner relation has for it.
-/

namespace DeepDB.Plans
namespace IndexJoin
variable {o₁ o₂ op o : Type} {O₁ : Oeset o₁} {O₂ : Oeset o₂} {OP : Oeset op} {O : Oeset o}

structure Cursor (o : Type) (S1 : CursorRcd O₁) (S2 : IndexRcd O₂ OP) where
  visited : List o
  outer : S1.cursor
  inner : S2.C1.cursor
  containers2 : S2.containers

section
variable (projS1 : o₁ → op) {S1 : CursorRcd O₁} {S2 : IndexRcd O₂ OP} (build_ : o₁ → o₂ → o)

def mk_index_join_cursor (o₁ : S1.cursor) (i : S2.containers) : Cursor o S1 S2 := ⟨[], o₁, S2.C1.emptyCursor, i⟩

/-- The rows of one outer row, the last one first. -/
def foldRows (S2 : IndexRcd O₂ OP) (a : o₁) (l₂ : List o₂) : List o :=
  l₂.foldl (fun acc b => if S2.P (projS1 a) (S2.proj b) then build_ a b :: acc else acc) []

def cross2 (S2 : IndexRcd O₂ OP) (l₁ : List o₁) (l₂ : List o₂) : List o :=
  l₁.flatMap fun a => (foldRows projS1 build_ S2 a l₂).reverse

def cross2_inv (S2 : IndexRcd O₂ OP) (l₁ : List o₁) (l₂ : List o₂) : List o :=
  l₁.flatMap fun a => foldRows projS1 build_ S2 a l₂

def collection (c : Cursor o S1 S2) : List o :=
  cross2 projS1 build_ S2 (S1.collection c.outer) (S2.c1 c.containers2)

def coherent (O : Oeset o) (c : Cursor o S1 S2) : Prop :=
  S1.coherent c.outer ∧ S2.C1.coherent c.inner ∧ (S2.C1.hasNext c.inner → S1.visited c.outer ≠ []) ∧
    match S1.visited c.outer with
    | [] => c.visited = [] ∧ S2.C1.visited c.inner = []
    | el :: li => S2.C1.collection c.inner = S2.C1.collection (S2.i c.containers2 (projS1 el)) ∧
        O.Same c.visited ((cross2_inv projS1 build_ S2 [el] (S2.C1.visited c.inner)).reverse ++
          cross2_inv projS1 build_ S2 li (S2.c1 c.containers2))

def reset (c : Cursor o S1 S2) : Cursor o S1 S2 := ⟨[], S1.reset c.outer, S2.C1.emptyCursor, c.containers2⟩

def next (c : Cursor o S1 S2) : Result o × Cursor o S1 S2 :=
  match S2.C1.next c.inner with
  | (.emptyCursor, _) =>
    match S1.next c.outer with
    | (.emptyCursor, s1') => (.emptyCursor, ⟨c.visited, s1', c.inner, c.containers2⟩)
    | (.noResult, s1') => (.noResult, ⟨c.visited, s1', c.inner, c.containers2⟩)
    | (.result tpl1, s1') =>
      let new_s2 := S2.i c.containers2 (projS1 tpl1)
      match S2.C1.next new_s2 with
      | (.emptyCursor, _) => (.noResult, ⟨c.visited, s1', new_s2, c.containers2⟩)
      | (.noResult, s2') => (.noResult, ⟨c.visited, s1', s2', c.containers2⟩)
      | (.result tpl2, s2') =>
        (.result (build_ tpl1 tpl2), ⟨build_ tpl1 tpl2 :: c.visited, s1', s2', c.containers2⟩)
  | (.result tpl2, s2') =>
    match S1.visited c.outer with
    | [] => (.noResult, ⟨c.visited, c.outer, s2', c.containers2⟩)
    | el1 :: _ => (.result (build_ el1 tpl2), ⟨build_ el1 tpl2 :: c.visited, c.outer, s2', c.containers2⟩)
  | (.noResult, s2') => (.noResult, ⟨c.visited, c.outer, s2', c.containers2⟩)

/-- What each call of the outer operator gives, the calls that have no row among them. -/
def iter' (S1 : CursorRcd O₁) (n : Nat) (c : S1.cursor) (acc : List (Option o₁)) : S1.cursor × List (Option o₁) :=
  (fun c'l : S1.cursor × List (Option o₁) =>
    ((S1.next c'l.1).2,
      match (S1.next c'l.1).1 with
      | .result r' => some r' :: c'l.2
      | .noResult => none :: c'l.2
      | .emptyCursor => c'l.2))^[n] (c, acc)

def sumf {A : Type} (f : A → Nat) : List A → Nat
  | [] => 0
  | x :: xs => f x + sumf f xs

/-- The calls that one call of the outer operator leads to. -/
def callCost (S2 : IndexRcd O₂ OP) (i : S2.containers) : Option o₁ → Nat
  | some tpl1 => S2.C1.ubound (S2.i i (projS1 tpl1)) + 1
  | none => 1

def ubound (c : Cursor o S1 S2) : Nat :=
  sumf (callCost projS1 S2 c.containers2) (iter' S1 (S1.ubound c.outer) c.outer []).2 + S2.C1.ubound c.inner

/-! ### Rows -/

def rows (S2 : IndexRcd O₂ OP) (a : o₁) (l₂ : List o₂) : List o :=
  (l₂.filter fun b => S2.P (projS1 a) (S2.proj b)).map (build_ a)

variable {projS1 build_} {l₁ m₁ : List o₁} {l₂ m₂ : List o₂} {a : o₁}

theorem foldRows_eq : foldRows projS1 build_ S2 a l₂ = (rows projS1 build_ S2 a l₂).reverse := by
  suffices ∀ acc, l₂.foldl (fun acc b => if S2.P (projS1 a) (S2.proj b) then build_ a b :: acc else acc) acc =
      (rows projS1 build_ S2 a l₂).reverse ++ acc by
    unfold foldRows
    rw [this, List.append_nil]
  induction l₂ with
  | nil => exact fun _ => rfl
  | cons b l₂ ih =>
    intro acc
    rw [List.foldl_cons, ih]
    unfold rows
    by_cases found : S2.P (projS1 a) (S2.proj b) = true
    · rw [if_pos found, List.filter_cons, if_pos found, List.map_cons, List.reverse_cons, List.append_assoc]
      rfl
    · rw [if_neg found, List.filter_cons, if_neg found]

theorem cross2_eq : cross2 projS1 build_ S2 l₁ l₂ = l₁.flatMap fun a => rows projS1 build_ S2 a l₂ := by
  unfold cross2
  exact congrArg (List.flatMap · l₁) (funext fun a => by rw [foldRows_eq, List.reverse_reverse])

theorem cross2_inv_eq :
    cross2_inv projS1 build_ S2 l₁ l₂ = l₁.flatMap fun a => (rows projS1 build_ S2 a l₂).reverse := by
  unfold cross2_inv
  exact congrArg (List.flatMap · l₁) (funext fun _ => foldRows_eq)

theorem reverse_cross2_inv :
    (cross2_inv projS1 build_ S2 l₁ l₂).reverse = cross2 projS1 build_ S2 l₁.reverse l₂ := by
  rw [cross2_inv_eq, cross2_eq, List.reverse_flatMap]
  exact congrArg (List.flatMap · l₁.reverse) (funext fun a => List.reverse_reverse _)

theorem reverse_cross2_inv_singleton :
    (cross2_inv projS1 build_ S2 [a] l₂).reverse = rows projS1 build_ S2 a l₂ := by
  rw [reverse_cross2_inv, cross2_eq]
  exact List.append_nil _

/-- The rows of an outer row, from what its cursor holds. -/
theorem rows_filter : rows projS1 build_ S2 a (l₂.filter fun b => S2.P (projS1 a) (S2.proj b)) =
    rows projS1 build_ S2 a l₂ := by
  unfold rows
  rw [List.filter_filter]
  exact congrArg (List.map (build_ a)) (List.filter_congr fun b _ => Bool.and_self _)

theorem rows_reverse : rows projS1 build_ S2 a l₂.reverse = (rows projS1 build_ S2 a l₂).reverse := by
  unfold rows
  rw [List.filter_reverse, List.map_reverse]

/-! ### Steps -/

variable (projS1 build_)

/-- What a call can do. -/
inductive Step (c : Cursor o S1 S2) : Result o → Cursor o S1 S2 → Prop where
  | quiet {s2'} (inner : S2.C1.next c.inner = (.noResult, s2')) :
      Step c .noResult ⟨c.visited, c.outer, s2', c.containers2⟩
  | stray {tpl2 s2'} (inner : S2.C1.next c.inner = (.result tpl2, s2')) (fresh : S1.visited c.outer = []) :
      Step c .noResult ⟨c.visited, c.outer, s2', c.containers2⟩
  | row {el1 tpl2 li s2'} (inner : S2.C1.next c.inner = (.result tpl2, s2'))
      (current : S1.visited c.outer = el1 :: li) :
      Step c (.result (build_ el1 tpl2)) ⟨build_ el1 tpl2 :: c.visited, c.outer, s2', c.containers2⟩
  | ended {s1'} (inner : (S2.C1.next c.inner).1 = .emptyCursor) (outer : S1.next c.outer = (.emptyCursor, s1')) :
      Step c .emptyCursor ⟨c.visited, s1', c.inner, c.containers2⟩
  | skip {s1'} (inner : (S2.C1.next c.inner).1 = .emptyCursor) (outer : S1.next c.outer = (.noResult, s1')) :
      Step c .noResult ⟨c.visited, s1', c.inner, c.containers2⟩
  | turnEmpty {tpl1 s1'} (inner : (S2.C1.next c.inner).1 = .emptyCursor)
      (outer : S1.next c.outer = (.result tpl1, s1')) :
      Step c .noResult ⟨c.visited, s1', S2.i c.containers2 (projS1 tpl1), c.containers2⟩
  | turnQuiet {tpl1 s1' s2'} (inner : (S2.C1.next c.inner).1 = .emptyCursor)
      (outer : S1.next c.outer = (.result tpl1, s1'))
      (new : S2.C1.next (S2.i c.containers2 (projS1 tpl1)) = (.noResult, s2')) :
      Step c .noResult ⟨c.visited, s1', s2', c.containers2⟩
  | turnRow {tpl1 tpl2 s1' s2'} (inner : (S2.C1.next c.inner).1 = .emptyCursor)
      (outer : S1.next c.outer = (.result tpl1, s1'))
      (new : S2.C1.next (S2.i c.containers2 (projS1 tpl1)) = (.result tpl2, s2')) :
      Step c (.result (build_ tpl1 tpl2)) ⟨build_ tpl1 tpl2 :: c.visited, s1', s2', c.containers2⟩

theorem next_step (c : Cursor o S1 S2) : Step projS1 build_ c (next projS1 build_ c).1 (next projS1 build_ c).2 := by
  unfold next
  rcases inner : S2.C1.next c.inner with ⟨tpl2 | _ | _, s2'⟩
  · dsimp only
    cases current : S1.visited c.outer with
    | nil => exact .stray inner current
    | cons el1 li => exact .row inner current
  · exact .quiet inner
  · have inner' : (S2.C1.next c.inner).1 = .emptyCursor := by rw [inner]
    dsimp only
    rcases outer : S1.next c.outer with ⟨tpl1 | _ | _, s1'⟩
    · dsimp only
      rcases new : S2.C1.next (S2.i c.containers2 (projS1 tpl1)) with ⟨tpl2 | _ | _, s2'⟩
      · exact .turnRow inner' outer new
      · exact .turnQuiet inner' outer new
      · exact .turnEmpty inner' outer
    · exact .skip inner' outer
    · exact .ended inner' outer

/-! ### The invariant -/

variable {projS1 build_}
variable {c c' : Cursor o S1 S2} {r : Result o}

/-- The cursor of a row in the index. -/
theorem afterIndex {x : op} {i : S2.containers} {r s2'} (new : S2.C1.next (S2.i i x) = (r, s2')) :
    S2.C1.coherent s2' ∧ S2.C1.collection s2' = S2.C1.collection (S2.i i x) ∧
      S2.C1.visited s2' = r.toList ∧ S2.C1.ubound s2' ≤ S2.C1.ubound (S2.i i x) := by
  have after := CursorRcd.after (S2.i_coherent i x) new
  exact ⟨after.coherent, after.collection, after.visited.trans (by rw [S2.i_visited, List.append_nil]), after.le⟩

/-- A cursor of the index gives rows that have the value it was asked for. -/
theorem visited_found {x : op} {i : S2.containers} {s2' : S2.C1.cursor} (coherent : S2.C1.coherent s2')
    (collection : S2.C1.collection s2' = S2.C1.collection (S2.i i x)) :
    ∀ b ∈ S2.C1.visited s2', S2.P x (S2.proj b) = true := by
  obtain ⟨rest, all⟩ := CursorRcd.visited_collection coherent
  rw [collection] at all
  have found := (all.symm.trans (S2.i_collection i x)).forall_mem
    (p := fun b => S2.P x (S2.proj b) = true)
    (fun same => by rw [S2.P_eq_2 (S2.proj_eq same)]; exact id) fun b hb => (List.mem_filter.mp hb).2
  intro b hb
  exact found b (List.mem_append_left _ (List.mem_reverse.mpr hb))

theorem rows_visited {i : S2.containers} {s2' : S2.C1.cursor} (coherent : S2.C1.coherent s2')
    (collection : S2.C1.collection s2' = S2.C1.collection (S2.i i (projS1 a))) :
    rows projS1 build_ S2 a (S2.C1.visited s2') = (S2.C1.visited s2').map (build_ a) := by
  unfold rows
  rw [List.filter_eq_self.mpr (visited_found coherent collection)]

/-- What a call leaves of the operands. -/
theorem Step.operands (step : Step projS1 build_ c r c') (coherent₁ : S1.coherent c.outer)
    (coherent₂ : S2.C1.coherent c.inner) :
    S1.coherent c'.outer ∧ S2.C1.coherent c'.inner ∧ S1.collection c'.outer = S1.collection c.outer ∧
      S1.reset c'.outer = S1.reset c.outer ∧ c'.containers2 = c.containers2 := by
  cases step with
  | quiet inner | stray inner _ | row inner _ =>
    exact ⟨coherent₁, (CursorRcd.after coherent₂ inner).coherent, rfl, rfl, rfl⟩
  | ended _ outer | skip _ outer =>
    have after := CursorRcd.after coherent₁ outer
    exact ⟨after.coherent, coherent₂, after.collection, after.reset, rfl⟩
  | turnEmpty _ outer =>
    have after := CursorRcd.after coherent₁ outer
    exact ⟨after.coherent, S2.i_coherent _ _, after.collection, after.reset, rfl⟩
  | turnQuiet _ outer new | turnRow _ outer new =>
    have after := CursorRcd.after coherent₁ outer
    exact ⟨after.coherent, (afterIndex new).1, after.collection, after.reset, rfl⟩

theorem Step.visited (step : Step projS1 build_ c r c') : c'.visited = r.toList ++ c.visited := by
  cases step <;> rfl

section
variable (projS1_eq : ∀ x1 x2, O₁.compare x1 x2 = .eq → OP.compare (projS1 x1) (projS1 x2) = .eq)
  (build_eq_1 : ∀ x1 x1' x2, O₁.compare x1 x1' = .eq → O.compare (build_ x1 x2) (build_ x1' x2) = .eq)
  (build_eq_2 : ∀ x1 x2 x2', O₂.compare x2 x2' = .eq → O.compare (build_ x1 x2) (build_ x1 x2') = .eq)

include build_eq_2 in
theorem rows_eq (h₂ : O₂.Same l₂ m₂) : O.Same (rows projS1 build_ S2 a l₂) (rows projS1 build_ S2 a m₂) := by
  unfold rows
  apply Oeset.Same.map (h₂.filter fun same => S2.P_eq_2 (S2.proj_eq same))
  exact fun same => build_eq_2 _ _ _ same

include projS1_eq build_eq_1 build_eq_2 in
theorem cross2_same (h₁ : O₁.Same l₁ m₁) (h₂ : O₂.Same l₂ m₂) :
    O.Same (cross2 projS1 build_ S2 l₁ l₂) (cross2 projS1 build_ S2 m₁ m₂) := by
  rw [cross2_eq, cross2_eq]
  apply h₁.flatMap
  intro a b ab
  unfold rows
  apply Oeset.Same.map (h₂.filter fun same => ?_)
  · exact fun same => O.compare_eq_trans (build_eq_1 _ _ _ ab) (build_eq_2 _ _ _ same)
  · exact (S2.P_eq_1 (projS1_eq _ _ ab)).trans (S2.P_eq_2 (S2.proj_eq same))

include build_eq_2

/-- The current row is done too when its cursor is. -/
theorem visited_done (h : coherent projS1 build_ O c) (done : (S2.C1.next c.inner).1 = .emptyCursor) :
    O.Same c.visited (cross2_inv projS1 build_ S2 (S1.visited c.outer) (S2.c1 c.containers2)) := by
  obtain ⟨-, coherent₂, -, visited⟩ := h
  cases current : S1.visited c.outer with
  | nil =>
    rw [current] at visited
    exact .of_eq visited.1
  | cons el li =>
    rw [current] at visited
    obtain ⟨collection, visited⟩ := visited
    rw [reverse_cross2_inv_singleton] at visited
    have all := CursorRcd.visited_all coherent₂ done
    rw [collection] at all
    have found := (S2.i_collection c.containers2 (projS1 el)).symm.trans all
    have same : O.Same (rows projS1 build_ S2 el _).reverse _ := (rows_eq build_eq_2 found).reverse
    rw [rows_filter, rows_reverse, List.reverse_reverse] at same
    rw [cross2_inv_eq, List.flatMap_cons, ← cross2_inv_eq]
    exact visited.trans (.append same.symm (.refl _))

/-- The outer operator has gone on to the row `tpl1`. -/
theorem coherent_turn {tpl1 : o₁} {s1' : S1.cursor} {s2' : S2.C1.cursor}
    (h : coherent projS1 build_ O c) (done : (S2.C1.next c.inner).1 = .emptyCursor)
    (outer : S1.next c.outer = (.result tpl1, s1')) (coherent₂ : S2.C1.coherent s2')
    (collection : S2.C1.collection s2' = S2.C1.collection (S2.i c.containers2 (projS1 tpl1))) :
    coherent projS1 build_ O
      ⟨(S2.C1.visited s2').map (build_ tpl1) ++ c.visited, s1', s2', c.containers2⟩ := by
  have after := CursorRcd.after h.1 outer
  have current : S1.visited s1' = tpl1 :: S1.visited c.outer := after.visited
  refine ⟨after.coherent, coherent₂, fun _ => ?_, ?_⟩
  · rw [current]
    exact List.cons_ne_nil _ _
  · dsimp only
    rw [current]
    refine ⟨collection, ?_⟩
    rw [reverse_cross2_inv_singleton, rows_visited coherent₂ collection]
    exact .append (.refl _) (visited_done build_eq_2 h done)

theorem Step.coherent (step : Step projS1 build_ c r c') (h : coherent projS1 build_ O c) :
    IndexJoin.coherent projS1 build_ O c' := by
  have before := h
  obtain ⟨coherent₁, coherent₂, started, visited⟩ := h
  have more {r s2'} (inner : S2.C1.next c.inner = (r, s2')) (row : r ≠ .emptyCursor) :
      S1.visited c.outer ≠ [] := by
    apply started
    rw [S2.C1.hasNext_next_neg _ coherent₂, inner]
    exact row
  cases step with
  | quiet inner =>
    have after := CursorRcd.after coherent₂ inner
    refine ⟨coherent₁, after.coherent, fun _ => more inner (by simp), ?_⟩
    dsimp only
    rw [after.visited, after.collection]
    exact visited
  | stray inner fresh => exact absurd fresh (more inner (by simp))
  | @row el1 tpl2 li s2' inner current =>
    have after := CursorRcd.after coherent₂ inner
    refine ⟨coherent₁, after.coherent, fun _ => more inner (by simp), ?_⟩
    rw [current] at visited
    obtain ⟨collection, visited⟩ := visited
    have collection' := after.collection.trans collection
    dsimp only
    rw [current]
    refine ⟨collection', ?_⟩
    rw [reverse_cross2_inv_singleton, rows_visited coherent₂ collection] at visited
    rw [reverse_cross2_inv_singleton, rows_visited after.coherent collection', after.visited]
    exact .cons (O.compare_eq_refl _) visited
  | ended _ outer | skip _ outer =>
    have after := CursorRcd.after coherent₁ outer
    refine ⟨after.coherent, coherent₂, ?_⟩
    dsimp only
    rw [after.visited]
    exact ⟨started, visited⟩
  | @turnEmpty tpl1 s1' inner outer =>
    have turn := coherent_turn build_eq_2 before inner outer
      (S2.i_coherent c.containers2 (projS1 tpl1)) rfl
    rw [S2.i_visited] at turn
    exact turn
  | turnQuiet inner outer new | turnRow inner outer new =>
    obtain ⟨coherent₂', collection', visited', -⟩ := afterIndex new
    have turn := coherent_turn build_eq_2 before inner outer coherent₂' collection'
    rw [visited'] at turn
    exact turn

include projS1_eq build_eq_1

/-- A join that is at its end has given every row. -/
theorem Step.all (step : Step projS1 build_ c r c') (h : IndexJoin.coherent projS1 build_ O c)
    (empty : r = .emptyCursor) : O.Same (collection projS1 build_ c) c.visited.reverse := by
  cases step with
  | ended inner outer =>
    have done := (visited_done build_eq_2 h inner).reverse
    rw [reverse_cross2_inv] at done
    have all := CursorRcd.visited_all h.1 (by rw [outer])
    exact (cross2_same projS1_eq build_eq_1 build_eq_2 all (.refl _)).trans done.symm
  | _ => cases empty

end

/-- A join that is at its end stays there. -/
theorem Step.stays (step : Step projS1 build_ c r c') (coherent₁ : S1.coherent c.outer) (empty : r = .emptyCursor) :
    (next projS1 build_ c').1 = .emptyCursor := by
  cases step with
  | @ended s1' inner outer =>
    have ended := (CursorRcd.after coherent₁ outer).ended rfl
    unfold next
    rcases inner' : S2.C1.next c.inner with ⟨_ | _ | _, s2'⟩
    · simp [inner'] at inner
    · simp [inner'] at inner
    · rcases outer' : S1.next s1' with ⟨_ | _ | _, s1''⟩ <;> simp_all
  | _ => cases empty

/-! ### The calls that are left -/

section
variable {f : Option o₁ → Nat} {n m : Nat} {s : S1.cursor}

/-- The cost of what a call of the outer operator gives. -/
def resultCost (f : Option o₁ → Nat) : Result o₁ → Nat
  | .result a => f (some a)
  | .noResult => f none
  | .emptyCursor => 0

theorem sumf_iter'_acc (acc : List (Option o₁)) :
    sumf f (iter' S1 n s acc).2 = sumf f (iter' S1 n s []).2 + sumf f acc := by
  induction n generalizing s acc with
  | zero => exact (Nat.zero_add _).symm
  | succ n ih =>
    have first (acc : List (Option o₁)) : iter' S1 (n + 1) s acc = iter' S1 n (S1.next s).2
        (match (S1.next s).1 with
          | .result r' => some r' :: acc
          | .noResult => none :: acc
          | .emptyCursor => acc) := Function.iterate_succ_apply _ _ _
    rw [first, first]
    cases (S1.next s).1 with
    | result r' =>
      rw [ih (some r' :: acc), ih [some r']]
      simp only [sumf]
      omega
    | noResult =>
      rw [ih (none :: acc), ih [none]]
      simp only [sumf]
      omega
    | emptyCursor => exact ih acc

theorem sumf_iter'_succ : sumf f (iter' S1 (n + 1) s []).2 =
    sumf f (iter' S1 n (S1.next s).2 []).2 + resultCost f (S1.next s).1 := by
  unfold iter'
  rw [Function.iterate_succ_apply]
  refine (sumf_iter'_acc _).trans (congrArg _ ?_)
  dsimp only
  cases (S1.next s).1 <;> rfl

theorem sumf_iter'_empty (coherent : S1.coherent s) (empty : (S1.next s).1 = .emptyCursor) :
    sumf f (iter' S1 n s []).2 = 0 := by
  induction n generalizing s with
  | zero => rfl
  | succ n ih =>
    rw [sumf_iter'_succ, ih (S1.next_coherent s coherent) (S1.next_emptyCursor s coherent empty), empty]
    rfl

/-- Calls beyond `ubound` give nothing more. -/
theorem sumf_iter'_enough (coherent : S1.coherent s) (hn : S1.ubound s ≤ n) (hm : S1.ubound s ≤ m) :
    sumf f (iter' S1 n s []).2 = sumf f (iter' S1 m s []).2 := by
  by_cases empty : (S1.next s).1 = .emptyCursor
  · rw [sumf_iter'_empty coherent empty, sumf_iter'_empty coherent empty]
  have less := S1.ubound_next_not_empty s coherent empty
  induction n generalizing m s with
  | zero => omega
  | succ n ih =>
    obtain ⟨m, rfl⟩ : ∃ m', m = m' + 1 := ⟨m - 1, by omega⟩
    have coherent' := S1.next_coherent s coherent
    rw [sumf_iter'_succ, sumf_iter'_succ]
    refine congrArg (· + _) ?_
    by_cases empty' : (S1.next (S1.next s).2).1 = .emptyCursor
    · rw [sumf_iter'_empty coherent' empty', sumf_iter'_empty coherent' empty']
    · exact ih coherent' (by omega) (by omega) empty' (S1.ubound_next_not_empty _ coherent' empty')

theorem outerCost_next (coherent : S1.coherent s) :
    sumf f (iter' S1 (S1.ubound s) s []).2 =
      sumf f (iter' S1 (S1.ubound (S1.next s).2) (S1.next s).2 []).2 + resultCost f (S1.next s).1 := by
  have coherent' := S1.next_coherent s coherent
  by_cases empty : (S1.next s).1 = .emptyCursor
  · rw [sumf_iter'_empty coherent empty,
      sumf_iter'_empty coherent' (S1.next_emptyCursor s coherent empty), empty]
    rfl
  · have less := S1.ubound_next_not_empty s coherent empty
    obtain ⟨k, hk⟩ : ∃ k, S1.ubound s = k + 1 := ⟨S1.ubound s - 1, by omega⟩
    rw [hk, sumf_iter'_succ]
    exact congrArg (· + _) (sumf_iter'_enough coherent' (by omega) (Nat.le_refl _))

end

theorem Step.ubound (step : Step projS1 build_ c r c') (h : IndexJoin.coherent projS1 build_ O c) :
    IndexJoin.ubound projS1 c' ≤ IndexJoin.ubound projS1 c ∧
      (r ≠ .emptyCursor → IndexJoin.ubound projS1 c' < IndexJoin.ubound projS1 c) := by
  obtain ⟨coherent₁, coherent₂, -⟩ := h
  unfold IndexJoin.ubound
  have outerLess {r s1'} (outer : S1.next c.outer = (r, s1')) :
      sumf (callCost projS1 S2 c.containers2) (iter' S1 (S1.ubound c.outer) c.outer []).2 =
        sumf (callCost projS1 S2 c.containers2) (iter' S1 (S1.ubound s1') s1' []).2 +
          resultCost (callCost projS1 S2 c.containers2) r := by
    have cost := outerCost_next (f := callCost projS1 S2 c.containers2) coherent₁
    rw [outer] at cost
    exact cost
  cases step with
  | quiet inner | stray inner _ | row inner _ =>
    have less := (CursorRcd.after coherent₂ inner).lt (by simp)
    dsimp only
    omega
  | ended _ outer =>
    rw [outerLess outer]
    exact ⟨Nat.add_le_add_right (Nat.le_add_right _ _) _, fun more => absurd rfl more⟩
  | skip _ outer =>
    rw [outerLess outer]
    dsimp only [resultCost, callCost]
    omega
  | turnEmpty _ outer =>
    rw [outerLess outer]
    dsimp only [resultCost, callCost]
    omega
  | turnQuiet _ outer new | turnRow _ outer new =>
    have le := (afterIndex new).2.2.2
    rw [outerLess outer]
    dsimp only [resultCost, callCost]
    omega

end

/-! ### The operator -/

variable (O) (projS1 : o₁ → op)
  (projS1_eq : ∀ x1 x2, O₁.compare x1 x2 = .eq → OP.compare (projS1 x1) (projS1 x2) = .eq)
  (S1 : CursorRcd O₁) (S2 : IndexRcd O₂ OP) (build_ : o₁ → o₂ → o)
  (build_eq_1 : ∀ x1 x1' x2, O₁.compare x1 x1' = .eq → O.compare (build_ x1 x2) (build_ x1' x2) = .eq)
  (build_eq_2 : ∀ x1 x2 x2', O₂.compare x2 x2' = .eq → O.compare (build_ x1 x2) (build_ x1 x2') = .eq)

def build : CursorRcd O where
  cursor := Cursor o S1 S2
  collection := collection projS1 build_
  visited := Cursor.visited
  coherent := coherent projS1 build_ O
  reset := reset
  next := next projS1 build_
  hasNext := fun c => (next projS1 build_ c).1 ≠ .emptyCursor
  emptyCursor := ⟨[], S1.emptyCursor, S2.C1.emptyCursor, S2.dummy_containers⟩
  ubound := ubound projS1
  reset_collection := fun c => by
    unfold collection reset
    rw [S1.reset_collection]
  reset_visited := fun _ => rfl
  reset_coherent := fun c => by
    refine ⟨S1.reset_coherent _, S2.C1.emptyCursor_coherent, ?_, ?_⟩
    · exact fun more => absurd more S2.C1.emptyCursor_hasNext
    · unfold reset
      rw [S1.reset_visited]
      exact ⟨rfl, CursorRcd.empty_collection S2.C1.emptyCursor_coherent S2.C1.emptyCursor_collection⟩
  reset_reset := fun c => by
    unfold reset
    rw [S1.reset_reset]
  next_collection := fun c h => by
    obtain ⟨-, -, collection₁, -, containers⟩ :=
      (next_step projS1 build_ c).operands h.1 h.2.1
    unfold collection
    rw [collection₁, containers]
  next_visited := fun c _ => (next_step projS1 build_ c).visited
  next_coherent := fun c h => (next_step projS1 build_ c).coherent build_eq_2 h
  next_emptyCursor := fun c h empty => (next_step projS1 build_ c).stays h.1 empty
  next_reset := fun c h => by
    obtain ⟨-, -, -, reset₁, containers⟩ :=
      (next_step projS1 build_ c).operands h.1 h.2.1
    unfold reset
    rw [reset₁, containers]
  hasNext_spec := fun c h none => (next_step projS1 build_ c).all projS1_eq build_eq_1 build_eq_2 h (not_not.mp none)
  hasNext_next_neg := fun _ _ => Iff.rfl
  emptyCursor_collection := by
    unfold collection
    rw [S1.emptyCursor_collection]
    rfl
  emptyCursor_coherent := by
    refine ⟨S1.emptyCursor_coherent, S2.C1.emptyCursor_coherent, ?_, ?_⟩
    · exact fun more => absurd more S2.C1.emptyCursor_hasNext
    · rw [CursorRcd.empty_collection S1.emptyCursor_coherent S1.emptyCursor_collection]
      exact ⟨rfl, CursorRcd.empty_collection S2.C1.emptyCursor_coherent S2.C1.emptyCursor_collection⟩
  emptyCursor_hasNext := not_not.mpr <| by
    have none₁ : (S1.next S1.emptyCursor).1 = .emptyCursor := CursorRcd.emptyCursor_next
    have none₂ : (S2.C1.next S2.C1.emptyCursor).1 = .emptyCursor := CursorRcd.emptyCursor_next
    unfold next
    rcases inner : S2.C1.next S2.C1.emptyCursor with ⟨_ | _ | _, s2'⟩ <;>
      rcases outer : S1.next S1.emptyCursor with ⟨_ | _ | _, s1'⟩ <;> simp_all
  ubound_next_empty := fun c h _ => ((next_step projS1 build_ c).ubound h).1
  ubound_next_not_empty := fun c h more => ((next_step projS1 build_ c).ubound h).2 more

/-- The join gives, for each outer row, the rows of the inner relation that the index has for it. -/
theorem materialize_indexJoin (c : Cursor o S1 S2) :
    O.Same ((build O projS1 projS1_eq S1 S2 build_ build_eq_1 build_eq_2).materialize c)
      ((S1.materialize c.outer).flatMap fun a => rows projS1 build_ S2 a (S2.c1 c.containers2)) := by
  refine (CursorRcd.materialize_collection
    (C := build O projS1 projS1_eq S1 S2 build_ build_eq_1 build_eq_2) c).trans ?_
  rw [← cross2_eq]
  apply cross2_same projS1_eq build_eq_1 build_eq_2 _ (.refl _)
  exact (CursorRcd.materialize_collection c.outer).symm

/-- The index join and the nested loop with the same condition over a scan of the inner relation. -/
theorem materialize_indexJoin_theta (theta : o → Bool) (theta_eq : ∀ {x y}, O.compare x y = .eq → theta x = theta y)
    (condition : ∀ a b, theta (build_ a b) = S2.P (projS1 a) (S2.proj b)) (outer : S1.cursor) (i : S2.containers) :
    O.Same
      ((build O projS1 projS1_eq S1 S2 build_ build_eq_1 build_eq_2).materialize (mk_index_join_cursor outer i))
      ((ThetaNestedLoop.build O build_ build_eq_1 build_eq_2 theta theta_eq S1 (SeqScan.build O₂)).materialize
        ⟨[], outer, SeqScan.mk_seqcursor (S2.c1 i)⟩) := by
  refine (materialize_indexJoin O projS1 projS1_eq S1 S2 build_ build_eq_1 build_eq_2 _).trans ?_
  refine Oeset.Same.trans ?_ (Filter.materialize_filter theta theta_eq _ _).symm
  have loop := NestedLoop.same_materialize O build_ build_eq_1 build_eq_2 S1 (SeqScan.build O₂)
    ⟨[], outer, SeqScan.mk_seqcursor (S2.c1 i)⟩
  refine Oeset.Same.trans (.of_eq ?_) (loop.filter theta_eq).symm
  have scan : (SeqScan.build O₂).materialize (SeqScan.mk_seqcursor (S2.c1 i)) = S2.c1 i :=
    SeqScan.materialize_build _
  dsimp only [mk_index_join_cursor]
  rw [scan]
  unfold NestedLoop.cross rows
  rw [List.filter_flatMap]
  refine congrArg (List.flatMap · _) (funext fun a => ?_)
  rw [List.filter_map]
  exact congrArg (List.map _) (List.filter_congr fun b _ => (condition a b).symm)

/-- The inner rows by their last digit, in a bitmap index. -/
theorem materialize_indexJoin_theta_digit :
    (mk_oepairs (oeset_of_oset Nat) (oeset_of_oset Nat)).Same
      ((build (mk_oepairs (oeset_of_oset Nat) (oeset_of_oset Nat)) id (fun _ _ same => same)
          (SeqScan.build (oeset_of_oset Nat))
          (BitmapIndexScan.build (oeset_of_oset Nat) (oeset_of_oset Nat) (· % 10) (oeset_of_oset_congr (· % 10))
            (· == ·) (fun same => by rw [oeset_of_oset_eq.mp same]) (fun same => by rw [oeset_of_oset_eq.mp same]))
          Prod.mk (fun _ _ b => oeset_of_oset_congr (·, b)) (fun a _ _ => oeset_of_oset_congr (a, ·))).materialize
        (mk_index_join_cursor (SeqScan.mk_seqcursor [1, 2]) (.of #v[11, 22, 31])))
      [(1, 11), (1, 31), (2, 22)] := by
  have join := materialize_indexJoin_theta (mk_oepairs (oeset_of_oset Nat) (oeset_of_oset Nat)) id
    (fun _ _ same => same) (SeqScan.build (oeset_of_oset Nat))
    (BitmapIndexScan.build (oeset_of_oset Nat) (oeset_of_oset Nat) (· % 10) (oeset_of_oset_congr (· % 10))
      (· == ·) (fun same => by rw [oeset_of_oset_eq.mp same]) (fun same => by rw [oeset_of_oset_eq.mp same]))
    Prod.mk (fun _ _ b => oeset_of_oset_congr (·, b)) (fun a _ _ => oeset_of_oset_congr (a, ·))
    (fun t => t.1 == t.2 % 10)
    (fun same => by
      have both := Ordering.then_eq_eq.mp same
      rw [oeset_of_oset_eq.mp both.1, oeset_of_oset_eq.mp both.2])
    (fun _ _ => rfl) (SeqScan.mk_seqcursor [1, 2]) (.of #v[11, 22, 31])
  exact join.trans (.of_eq rfl)

end IndexJoin
end DeepDB.Plans
