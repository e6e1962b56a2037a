import DeepDB.Plans.SeqScan
import Mathlib.Data.List.Induction

/-!
Grouping, from `verif/db/plans/Group.v`: the rows of an operator are put into buckets by a key, the
buckets that pass a condition are kept, and each becomes one row.
-/

namespace DeepDB.Plans
namespace Group
variable {elt key : Type} {Elt : Oeset elt} (C : CursorRcd Elt) (Key : Oeset key) (proj : elt → key)

/-- `group` of `OrderedSet.v`: the row goes into the bucket of its key, or into a new one at the end. -/
def assoc (x : elt) : List (key × List elt) → List (key × List elt)
  | [] => [(proj x, [x])]
  | b :: ls => if Key.compare b.1 (proj x) = .eq then (b.1, x :: b.2) :: ls else b :: assoc x ls

def group (theta : List elt → Bool) (build : List elt → elt) (c : C.cursor) : SeqScan.Cursor elt :=
  let c' := C.reset c
  SeqScan.mk_seqcursor
    ((((iter C.next (C.ubound c') c' (assoc Key proj) []).2).filter fun l => theta l.2).map fun l => build l.2)

/-! ### The buckets -/

/-- The keys of the rows in the order in which they first appear. -/
def keysOf : List elt → List key
  | [] => []
  | x :: xs => proj x :: (keysOf xs).filter fun k => Key.compare k (proj x) ≠ .eq

/-- The rows of a key, the last one first. -/
def rowsOf (k : key) (l : List elt) : List elt := (l.filter fun x => Key.compare k (proj x) = .eq).reverse

def buckets (l : List elt) : List (key × List elt) := (keysOf Key proj l).map fun k => (k, rowsOf Key proj k l)

variable {C Key proj} {k : key} {x : elt} {l m : List elt}

theorem keysOf_pairwise : (keysOf Key proj l).Pairwise fun j k => Key.compare j k ≠ .eq := by
  induction l with
  | nil => exact .nil
  | cons x l ih =>
    refine List.pairwise_cons.mpr ⟨fun k hk => ?_, ih.filter _⟩
    have other := (List.mem_filter.mp hk).2
    exact fun same => (of_decide_eq_true other) (Oeset.compare_eq_sym same)

theorem mem_keysOf : (∃ k ∈ keysOf Key proj l, Key.compare k (proj x) = .eq) ↔
    ∃ y ∈ l, Key.compare (proj y) (proj x) = .eq := by
  induction l with
  | nil => simp [keysOf]
  | cons z l ih =>
    rw [keysOf, List.exists_mem_cons_iff, List.exists_mem_cons_iff, ← ih]
    by_cases first : Key.compare (proj z) (proj x) = .eq
    · exact ⟨fun _ => Or.inl first, fun _ => Or.inl first⟩
    · simp only [first, false_or, List.mem_filter]
      constructor
      · rintro ⟨k, ⟨hk, -⟩, same⟩
        exact ⟨k, hk, same⟩
      · rintro ⟨k, hk, same⟩
        refine ⟨k, ⟨hk, decide_eq_true fun other => first ?_⟩, same⟩
        exact Key.compare_eq_trans (Oeset.compare_eq_sym other) same

theorem keysOf_new (fresh : ¬ ∃ y ∈ l, Key.compare (proj y) (proj x) = .eq) :
    keysOf Key proj (l ++ [x]) = keysOf Key proj l ++ [proj x] := by
  induction l with
  | nil => rfl
  | cons z l ih =>
    rw [List.exists_mem_cons_iff, not_or] at fresh
    have other : Key.compare (proj x) (proj z) ≠ .eq := fun same => fresh.1 (Oeset.compare_eq_sym same)
    rw [List.cons_append, keysOf, ih fresh.2, List.filter_append, List.filter_cons, if_pos (decide_eq_true other),
      List.filter_nil]
    rfl

theorem keysOf_old (old : ∃ y ∈ l, Key.compare (proj y) (proj x) = .eq) :
    keysOf Key proj (l ++ [x]) = keysOf Key proj l := by
  induction l with
  | nil =>
    obtain ⟨y, no, -⟩ := old
    cases no
  | cons z l ih =>
    rw [List.cons_append, keysOf, keysOf]
    by_cases later : ∃ y ∈ l, Key.compare (proj y) (proj x) = .eq
    · rw [ih later]
    · have here := ((List.exists_mem_cons_iff _ _ _).mp old).resolve_right later
      have same : ¬ Key.compare (proj x) (proj z) ≠ .eq := not_not.mpr (Oeset.compare_eq_sym here)
      rw [keysOf_new later, List.filter_append, List.filter_cons, if_neg (by simpa using same), List.filter_nil,
        List.append_nil]

theorem rowsOf_append : rowsOf Key proj k (l ++ [x]) =
    if Key.compare k (proj x) = .eq then x :: rowsOf Key proj k l else rowsOf Key proj k l := by
  unfold rowsOf
  by_cases here : Key.compare k (proj x) = .eq
  · simp [List.filter_append, here]
  · simp [List.filter_append, here]

section
variable {ks : List key} {R : key → List elt}

theorem assoc_new (fresh : ¬ ∃ k ∈ ks, Key.compare k (proj x) = .eq) :
    assoc Key proj x (ks.map fun k => (k, R k)) = ks.map (fun k => (k, R k)) ++ [(proj x, [x])] := by
  induction ks with
  | nil => rfl
  | cons k ks ih =>
    rw [List.exists_mem_cons_iff, not_or] at fresh
    rw [List.map_cons, assoc, if_neg fresh.1, ih fresh.2]
    rfl

theorem assoc_old (distinct : ks.Pairwise fun j k => Key.compare j k ≠ .eq)
    (old : ∃ k ∈ ks, Key.compare k (proj x) = .eq) :
    assoc Key proj x (ks.map fun k => (k, R k)) =
      ks.map fun k => (k, if Key.compare k (proj x) = .eq then x :: R k else R k) := by
  induction ks with
  | nil =>
    obtain ⟨k, no, -⟩ := old
    cases no
  | cons k ks ih =>
    obtain ⟨first, distinct⟩ := List.pairwise_cons.mp distinct
    rw [List.map_cons, assoc, List.map_cons]
    by_cases here : Key.compare k (proj x) = .eq
    · have others : ∀ j ∈ ks, (j, R j) = (j, if Key.compare j (proj x) = .eq then x :: R j else R j) := by
        intro j hj
        rw [if_neg fun same => first j hj (Key.compare_eq_trans here (Oeset.compare_eq_sym same))]
      rw [if_pos here, if_pos here, List.map_congr_left others]
    · rw [if_neg here, if_neg here, ih distinct (((List.exists_mem_cons_iff _ _ _).mp old).resolve_left here)]

end

/-- One more row. -/
theorem assoc_buckets : assoc Key proj x (buckets Key proj l) = buckets Key proj (l ++ [x]) := by
  unfold buckets
  by_cases old : ∃ y ∈ l, Key.compare (proj y) (proj x) = .eq
  · rw [assoc_old keysOf_pairwise (mem_keysOf.mpr old), keysOf_old old]
    exact List.map_congr_left fun k _ => by rw [rowsOf_append]
  · have fresh := mt mem_keysOf.mp old
    have alone : rowsOf Key proj (proj x) l = [] := by
      unfold rowsOf
      rw [List.reverse_eq_nil_iff, List.filter_eq_nil_iff]
      exact fun y hy same => old ⟨y, hy, Oeset.compare_eq_sym (of_decide_eq_true same)⟩
    rw [assoc_new fresh, keysOf_new old, List.map_append]
    refine congrArg₂ (· ++ ·) (List.map_congr_left fun k hk => ?_) ?_
    · rw [rowsOf_append, if_neg fun same => fresh ⟨k, hk, same⟩]
    · rw [List.map_singleton, rowsOf_append, if_pos (Key.compare_eq_refl _), alone]

theorem foldl_assoc (l : List elt) : l.foldl (fun a e => assoc Key proj e a) [] = buckets Key proj l := by
  induction l using List.reverseRecOn with
  | nil => rfl
  | append_singleton l x ih => rw [List.foldl_append, ih, List.foldl_cons, List.foldl_nil, assoc_buckets]

/-- One row for each key that the operator's rows have, made from exactly the rows with that key. -/
theorem materialize_group (theta : List elt → Bool) (build : List elt → elt) (c : C.cursor) :
    (SeqScan.build Elt).materialize (group C Key proj theta build c) =
      (((keysOf Key proj (C.materialize c)).map fun k => rowsOf Key proj k (C.materialize c)).filter theta).map build := by
  refine (SeqScan.materialize_build _).trans ?_
  show List.map _ (List.filter _ (iter C.next _ _ _ []).2) = _
  rw [CursorRcd.iter_materialize, foldl_assoc]
  unfold buckets
  rw [List.filter_map, List.filter_map, List.map_map, List.map_map]
  rfl

end Group
end DeepDB.Plans
