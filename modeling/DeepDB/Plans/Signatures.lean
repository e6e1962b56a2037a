import DeepDB.Plans.OrderedSet
import Mathlib.Logic.Function.Iterate

/-!
The physical operators of a query plan, from `verif/db/plans/Signatures.v`. An operator is a cursor
that gives its rows one call of `next` at a time. The record `CursorRcd` carries the laws that every
operator keeps; whoever builds an operator proves them for it.
-/

namespace DeepDB.Plans

/-- What a call of `next` gives. An operator may use up a call and have no row to show for it. -/
inductive Result (A : Type) where
  | result (a : A)
  | noResult
  | emptyCursor

def Result.toList {A : Type} : Result A → List A
  | .result a => [a]
  | .noResult => []
  | .emptyCursor => []

section
variable {elt cursor res : Type}

def iterStep (next : cursor → Result elt × cursor) (f : elt → res → res) (c'l : cursor × res) :
    cursor × res :=
  ((next c'l.1).2,
    match (next c'l.1).1 with
    | .result r' => f r' c'l.2
    | .noResult => c'l.2
    | .emptyCursor => c'l.2)

def iter (next : cursor → Result elt × cursor) (n : Nat) (c : cursor) (f : elt → res → res) (acc : res) :
    cursor × res :=
  (iterStep next f)^[n] (c, acc)

end

/-- `Cursor.Rcd`. `next_visited` is the three laws `next_visited_Result`, `next_visited_No_Result` and
`next_visited_Empty_Cursor`; `visited_collection` and `ubound_complete` follow from the other laws. -/
structure CursorRcd {elt : Type} (Elt : Oeset elt) where
  cursor : Type
  collection : cursor → List elt
  /-- the rows given since the last reset, the last one first -/
  visited : cursor → List elt
  coherent : cursor → Prop
  reset : cursor → cursor
  next : cursor → Result elt × cursor
  hasNext : cursor → Prop
  emptyCursor : cursor
  /-- enough calls of `next` to see every row -/
  ubound : cursor → Nat
  reset_collection : ∀ c, collection (reset c) = collection c
  reset_visited : ∀ c, visited (reset c) = []
  reset_coherent : ∀ c, coherent (reset c)
  reset_reset : ∀ c, reset (reset c) = reset c
  next_collection : ∀ c, coherent c → collection (next c).2 = collection c
  next_visited : ∀ c, coherent c → visited (next c).2 = (next c).1.toList ++ visited c
  next_coherent : ∀ c, coherent c → coherent (next c).2
  next_emptyCursor : ∀ c, coherent c → (next c).1 = .emptyCursor → (next (next c).2).1 = .emptyCursor
  next_reset : ∀ c, coherent c → reset (next c).2 = reset c
  hasNext_spec : ∀ c, coherent c → ¬ hasNext c → Elt.Same (collection c) (visited c).reverse
  hasNext_next_neg : ∀ c, coherent c → (hasNext c ↔ (next c).1 ≠ .emptyCursor)
  emptyCursor_collection : collection emptyCursor = []
  emptyCursor_coherent : coherent emptyCursor
  emptyCursor_hasNext : ¬ hasNext emptyCursor
  ubound_next_empty : ∀ c, coherent c → (next c).1 = .emptyCursor → ubound (next c).2 ≤ ubound c
  ubound_next_not_empty : ∀ c, coherent c → (next c).1 ≠ .emptyCursor → ubound (next c).2 < ubound c

namespace CursorRcd
variable {elt : Type} {Elt : Oeset elt} (C : CursorRcd Elt)

/-- The rows that the next `n` calls give. -/
def pulled (n : Nat) (c : C.cursor) : List elt := (iter C.next n c List.cons []).2.reverse

def materialize (c : C.cursor) : List elt := C.pulled (C.ubound (C.reset c)) (C.reset c)

variable {C} {c : C.cursor} {n m : Nat}

/-! ### One call -/

theorem hasNext_next (coherent : C.coherent c) : ¬ C.hasNext c ↔ (C.next c).1 = .emptyCursor := by
  rw [C.hasNext_next_neg c coherent, not_not]

/-- Nothing is left. -/
theorem visited_all (coherent : C.coherent c) (empty : (C.next c).1 = .emptyCursor) :
    Elt.Same (C.collection c) (C.visited c).reverse :=
  C.hasNext_spec c coherent ((hasNext_next coherent).mpr empty)

theorem emptyCursor_next : (C.next C.emptyCursor).1 = .emptyCursor :=
  (hasNext_next C.emptyCursor_coherent).mp C.emptyCursor_hasNext

theorem visited_nil_next_empty (coherent : C.coherent c) (visited : C.visited c = [])
    (empty : (C.next c).1 = .emptyCursor) : C.collection c = [] := by
  have all := visited_all coherent empty
  rw [visited] at all
  exact Oeset.Same.nil_iff.mp all

theorem ubound_next_le (coherent : C.coherent c) : C.ubound (C.next c).2 ≤ C.ubound c := by
  by_cases empty : (C.next c).1 = .emptyCursor
  · exact C.ubound_next_empty c coherent empty
  · exact Nat.le_of_lt (C.ubound_next_not_empty c coherent empty)

/-- What is known of a cursor that a call leaves. -/
structure After (C : CursorRcd Elt) (c : C.cursor) (r : Result elt) (c' : C.cursor) : Prop where
  coherent : C.coherent c'
  collection : C.collection c' = C.collection c
  reset : C.reset c' = C.reset c
  visited : C.visited c' = r.toList ++ C.visited c
  all : r = .emptyCursor → Elt.Same (C.collection c) (C.visited c).reverse
  ended : r = .emptyCursor → (C.next c').1 = .emptyCursor
  le : C.ubound c' ≤ C.ubound c
  lt : r ≠ .emptyCursor → C.ubound c' < C.ubound c

theorem after {r : Result elt} {c' : C.cursor} (coherent : C.coherent c) (next : C.next c = (r, c')) :
    After C c r c' := by
  obtain rfl : (C.next c).1 = r := by rw [next]
  obtain rfl : (C.next c).2 = c' := by rw [next]
  exact ⟨C.next_coherent c coherent, C.next_collection c coherent, C.next_reset c coherent,
    C.next_visited c coherent, visited_all coherent, C.next_emptyCursor c coherent,
    ubound_next_le coherent, C.ubound_next_not_empty c coherent⟩

/-- A cursor that is empty from the start. -/
theorem collection_of_reset_empty (empty : (C.next (C.reset c)).1 = .emptyCursor) : C.collection c = [] := by
  have none := visited_nil_next_empty (C.reset_coherent c) (C.reset_visited c) empty
  rw [C.reset_collection] at none
  exact none

/-! ### Many calls -/

section
variable {res : Type} {f : elt → res → res} {a : res}

theorem iter_succ : iter C.next (n + 1) c f a = iterStep C.next f (iter C.next n c f a) :=
  Function.iterate_succ_apply' _ _ _

/-- The invariant of the calls: the rows given so far have been folded up, and are visited. -/
theorem iter_invariant (coherent : C.coherent c) (n : Nat) :
    C.coherent (iter C.next n c f a).1 ∧
      C.collection (iter C.next n c f a).1 = C.collection c ∧
      C.reset (iter C.next n c f a).1 = C.reset c ∧
      ∃ rows, C.visited (iter C.next n c f a).1 = rows ++ C.visited c ∧
        (iter C.next n c f a).2 = rows.foldr f a := by
  induction n with
  | zero => exact ⟨coherent, rfl, rfl, [], rfl, rfl⟩
  | succ n ih =>
    obtain ⟨coherent', collection, reset, rows, visited, folded⟩ := ih
    rw [iter_succ]
    unfold iterStep
    refine ⟨C.next_coherent _ coherent', (C.next_collection _ coherent').trans collection,
      (C.next_reset _ coherent').trans reset,
      (C.next (iter C.next n c f a).1).1.toList ++ rows, ?_, ?_⟩
    · rw [C.next_visited _ coherent', visited, List.append_assoc]
    · rw [folded]
      cases (C.next (iter C.next n c f a).1).1 <;> rfl

/-- The calls do the same whatever is made of the rows. -/
theorem iter_fst {res' : Type} {g : elt → res' → res'} {b : res'} :
    (iter C.next n c f a).1 = (iter C.next n c g b).1 := by
  induction n with
  | zero => rfl
  | succ n ih =>
    rw [iter_succ, iter_succ]
    unfold iterStep
    rw [ih]

theorem iter_empty_or_ubound (coherent : C.coherent c) (n : Nat) :
    (C.next (iter C.next n c f a).1).1 = .emptyCursor ∨
      C.ubound (iter C.next n c f a).1 + n ≤ C.ubound c := by
  induction n with
  | zero => exact Or.inr (Nat.le_refl _)
  | succ n ih =>
    have coherent' := (iter_invariant (f := f) (a := a) coherent n).1
    rw [iter_succ]
    unfold iterStep
    by_cases empty : (C.next (iter C.next n c f a).1).1 = .emptyCursor
    · exact Or.inl (C.next_emptyCursor _ coherent' empty)
    · have less := C.ubound_next_not_empty _ coherent' empty
      rcases ih with empty' | bound
      · exact absurd empty' empty
      · right
        show C.ubound (C.next _).2 + (n + 1) ≤ C.ubound c
        omega

/-- `ubound` calls are enough. -/
theorem iter_empty (coherent : C.coherent c) (enough : C.ubound c ≤ n) :
    (C.next (iter C.next n c f a).1).1 = .emptyCursor := by
  by_contra more
  rcases iter_empty_or_ubound (f := f) (a := a) coherent n with empty | bound
  · exact more empty
  · have less := C.ubound_next_not_empty _ (iter_invariant (f := f) (a := a) coherent n).1 more
    omega

end

theorem ubound_complete {res : Type} {f : elt → res → res} {a : res} (coherent : C.coherent c)
    (enough : C.ubound c ≤ n) : ¬ C.hasNext (iter C.next n c f a).1 :=
  (hasNext_next (iter_invariant coherent n).1).mpr (iter_empty coherent enough)

/-! ### The rows -/

theorem pulled_zero : C.pulled 0 c = [] := rfl

/-- What is visited after the calls, and that no row is lost on the way. -/
theorem visited_pulled (coherent : C.coherent c) (n : Nat) :
    C.visited (iter C.next n c List.cons []).1 = (C.pulled n c).reverse ++ C.visited c := by
  obtain ⟨-, -, -, rows, visited, folded⟩ := iter_invariant (f := List.cons) (a := []) coherent n
  unfold pulled
  rw [visited, folded, List.reverse_reverse, List.foldr_cons_nil]

/-- All the rows, once the calls are enough. -/
theorem collection_pulled (coherent : C.coherent c) (enough : C.ubound c ≤ n) :
    Elt.Same (C.collection c) ((C.visited c).reverse ++ C.pulled n c) := by
  obtain ⟨coherent', collection, -⟩ := iter_invariant (f := List.cons) (a := []) coherent n
  have all := visited_all coherent' (iter_empty coherent enough)
  rw [collection, visited_pulled coherent, List.reverse_append, List.reverse_reverse] at all
  exact all

theorem pulled_add (coherent : C.coherent c) (n m : Nat) :
    C.pulled (n + m) c = C.pulled n c ++ C.pulled m (iter C.next n c List.cons []).1 := by
  have coherent' := (iter_invariant (f := List.cons) (a := []) coherent n).1
  have whole := visited_pulled coherent (n + m)
  have later := visited_pulled coherent' m
  have split : (iter C.next m (iter C.next n c List.cons []).1 List.cons []).1 =
      (iter C.next (n + m) c List.cons []).1 := by
    rw [iter_fst (g := List.cons) (b := (iter C.next n c List.cons []).2)]
    unfold iter
    rw [Nat.add_comm, Function.iterate_add_apply]
  rw [split, whole, visited_pulled coherent, ← List.append_assoc, List.append_cancel_right_eq,
    ← List.reverse_append, List.reverse_inj] at later
  exact later

/-- The rows that any number of calls give are the first ones of the collection. -/
theorem pulled_prefix (coherent : C.coherent c) (n : Nat) :
    ∃ rest, Elt.Same (C.collection c) ((C.visited c).reverse ++ C.pulled n c ++ rest) := by
  have all := collection_pulled coherent (Nat.le_add_left (C.ubound c) n)
  rw [pulled_add coherent n, ← List.append_assoc] at all
  exact ⟨_, all⟩

theorem visited_collection (coherent : C.coherent c) :
    ∃ rest, Elt.Same (C.collection c) ((C.visited c).reverse ++ rest) :=
  ⟨_, collection_pulled coherent (Nat.le_refl _)⟩

theorem empty_collection (coherent : C.coherent c) (empty : C.collection c = []) : C.visited c = [] := by
  obtain ⟨rest, all⟩ := visited_collection coherent
  rw [empty] at all
  have none := Oeset.Same.nil_iff.mp all.symm
  rw [List.append_eq_nil_iff, List.reverse_eq_nil_iff] at none
  exact none.1

theorem materialize_collection (c : C.cursor) : Elt.Same (C.materialize c) (C.collection c) := by
  have all := collection_pulled (C.reset_coherent c) (Nat.le_refl _)
  rw [C.reset_visited, C.reset_collection] at all
  exact all.symm

/-- However many rows are asked for, they are the first ones of the collection; enough calls give all of
them, and from then on the cursor is at its end. -/
theorem run (c : C.cursor) (n : Nat) :
    ∃ rest, Elt.Same (C.collection c) (C.pulled n (C.reset c) ++ rest) ∧
      (C.ubound (C.reset c) ≤ n →
        rest = [] ∧ (C.next (iter C.next n (C.reset c) List.cons []).1).1 = .emptyCursor) := by
  have started := C.reset_coherent c
  by_cases enough : C.ubound (C.reset c) ≤ n
  · have all := collection_pulled started enough
    rw [C.reset_visited, C.reset_collection] at all
    refine ⟨[], ?_, fun _ => ⟨rfl, iter_empty started enough⟩⟩
    rw [List.append_nil]
    exact all
  · obtain ⟨rest, all⟩ := pulled_prefix started n
    rw [C.reset_visited, C.reset_collection] at all
    exact ⟨rest, all, fun more => absurd more enough⟩

/-- What is folded over the rows is folded over the materialized ones. -/
theorem iter_materialize {res : Type} (f : elt → res → res) (acc : res) (c : C.cursor) :
    (iter C.next (C.ubound (C.reset c)) (C.reset c) f acc).2 = (C.materialize c).foldl (fun a e => f e a) acc := by
  obtain ⟨-, -, -, rows, visited, folded⟩ :=
    iter_invariant (f := f) (a := acc) (C.reset_coherent c) (C.ubound (C.reset c))
  have same := visited_pulled (C.reset_coherent c) (C.ubound (C.reset c))
  rw [iter_fst (g := f) (b := acc), visited, List.append_cancel_right_eq] at same
  unfold materialize
  rw [folded, same, List.foldr_reverse]

end CursorRcd

/-- `Index.Rcd`: the rows of a container by the values of an index, each as a cursor. -/
structure IndexRcd {o₁ o₂ : Type} (O₁ : Oeset o₁) (O₂ : Oeset o₂) where
  /-- the value a row is indexed by -/
  proj : o₁ → o₂
  proj_eq : ∀ {x y}, O₁.compare x y = .eq → O₂.compare (proj x) (proj y) = .eq
  P : o₂ → o₂ → Bool
  P_eq_1 : ∀ {x₁ x₂ y}, O₂.compare x₁ x₂ = .eq → P x₁ y = P x₂ y
  P_eq_2 : ∀ {x y₁ y₂}, O₂.compare y₁ y₂ = .eq → P x y₁ = P x y₂
  C1 : CursorRcd O₁
  containers : Type
  c1 : containers → List o₁
  dummy_containers : containers
  i : containers → o₂ → C1.cursor
  i_collection : ∀ c x, O₁.Same (C1.collection (i c x)) ((c1 c).filter fun y => P x (proj y))
  i_visited : ∀ c x, C1.visited (i c x) = []
  i_coherent : ∀ c x, C1.coherent (i c x)

end DeepDB.Plans
