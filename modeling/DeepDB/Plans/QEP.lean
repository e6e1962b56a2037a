import DeepDB.Plans.Tuple
import DeepDB.Plans.IndexJoin
import DeepDB.Plans.IndexScan

/-!
Query execution plans, from `verif/db/plans/QEP.v`: a scan, and joins with hash indexes over it. A plan
is run by the operators that it is made of.
-/

namespace DeepDB.Plans
namespace QEP
variable (T : TupleRcd)

def proj (la : List T.Attribute) (t : T.Tuple) : List T.Value := la.map (T.dot t)

def build (t1 t2 : T.Tuple) : T.Tuple := T.join_tuple t1 t2 (T.address t1)

/-- The values of a projection. -/
def LV : Oeset (List T.Value) := mk_oelists (oeset_of_oset T.Value)

/-- A condition that does not look at the address of a tuple. -/
def Placeless (theta : T.Tuple → Bool) : Prop :=
  ∀ s f p1 p2, theta (T.mk_tuple s f p1) = theta (T.mk_tuple s f p2)

inductive Index where
  | SimpleHashIndexScan (la : List T.Attribute) (l : List T.Tuple)
  | FilterHashIndexScan (theta : T.Tuple → Bool) (htheta : Placeless T theta) (la : List T.Attribute)
      (l : List T.Tuple)

inductive Cursor where
  | SeqScan (l : List T.Tuple)
  | IndexJoin (la : List T.Attribute) (c : Cursor) (i : Index T)

variable {T}

theorem LV_eq {x y : List T.Value} : (LV T).compare x y = .eq ↔ x = y := by
  refine Oeset.same_iff.trans ?_
  simp only [oeset_of_oset_eq]
  exact List.forall₂_eq_eq_eq ▸ Iff.rfl

theorem proj_eq (la : List T.Attribute) {t1 t2 : T.Tuple} (same : T.OTuple.compare t1 t2 = .eq) :
    (LV T).compare (proj T la t1) (proj T la t2) = .eq := by
  rw [LV_eq]
  exact List.map_congr_left fun a _ => (TupleRcd.tuple_eq.mp same).2 a

theorem build_eq_1 (t1 t2 t : T.Tuple) (same : T.OTuple.compare t1 t2 = .eq) :
    T.OTuple.compare (build T t1 t) (build T t2 t) = .eq :=
  TupleRcd.join_tuple_eq same (T.OTuple.compare_eq_refl t)

theorem build_eq_2 (t t1 t2 : T.Tuple) (same : T.OTuple.compare t1 t2 = .eq) :
    T.OTuple.compare (build T t t1) (build T t t2) = .eq :=
  TupleRcd.join_tuple_eq (T.OTuple.compare_eq_refl t) same

/-- The condition as the index uses it. -/
def canonized (theta : T.Tuple → Bool) (t : T.Tuple) : Bool := theta (T.canonized_tuple t (T.address t))

theorem theta_eq {theta : T.Tuple → Bool} (htheta : Placeless T theta) {t1 t2 : T.Tuple}
    (same : T.OTuple.compare t1 t2 = .eq) : canonized theta t1 = canonized theta t2 := by
  unfold canonized TupleRcd.canonized_tuple TupleRcd.pairs_as_tuple
  rw [TupleRcd.tuple_as_pairs_canonizes same]
  exact htheta _ _ _ _

def typeIndex : Index T → IndexRcd T.OTuple (LV T)
  | .SimpleHashIndexScan la _ => HashIndexScan.simple_build T.OTuple (LV T) (proj_eq la)
  | .FilterHashIndexScan theta htheta la _ =>
    HashIndexScan.filter_build T.OTuple (LV T) (proj_eq la) (canonized theta) (theta_eq htheta)

def evalIndex : (i : Index T) → (typeIndex i).containers
  | .SimpleHashIndexScan la l => HashIndexScan.mk_simple_hash_index_scan T.OTuple (LV T) (proj_eq la) l
  | .FilterHashIndexScan theta htheta la l =>
    HashIndexScan.mk_filter_hash_index_scan T.OTuple (LV T) (proj_eq la) (canonized theta) (theta_eq htheta) l

def typeCursor : Cursor T → CursorRcd T.OTuple
  | .SeqScan _ => SeqScan.build T.OTuple
  | .IndexJoin la c i =>
    IndexJoin.build T.OTuple (proj T la) (fun _ _ => proj_eq la) (typeCursor c) (typeIndex i) (build T) build_eq_1
      build_eq_2

def evalCursor : (c : Cursor T) → (typeCursor c).cursor
  | .SeqScan l => SeqScan.mk_seqcursor l
  | .IndexJoin _ c i => IndexJoin.mk_index_join_cursor (evalCursor c) (evalIndex i)

/-! ### What a plan gives -/

def Index.attributes : Index T → List T.Attribute
  | .SimpleHashIndexScan la _ => la
  | .FilterHashIndexScan _ _ la _ => la

/-- The rows that the index is made from. -/
def Index.rows : Index T → List T.Tuple
  | .SimpleHashIndexScan _ l => l
  | .FilterHashIndexScan _ _ _ l => l

/-- The rows that the index is meant to give. -/
def Index.passes : Index T → T.Tuple → Bool
  | .SimpleHashIndexScan _ _, _ => true
  | .FilterHashIndexScan theta _ _ _, t => canonized theta t

/-- What an index gives for a value: the first row that has it, if that row passes. -/
def Index.lookup (i : Index T) (x : List T.Value) : List T.Tuple :=
  (i.rows.find? fun t => proj T i.attributes t = x).toList.filter i.passes

def meaning : Cursor T → List T.Tuple
  | .SeqScan l => l
  | .IndexJoin la c i => (meaning c).flatMap fun t1 => (i.lookup (proj T la t1)).map (build T t1)

/-- A join in the sense of relational algebra. -/
def join (la : List T.Attribute) (i : Index T) (l : List T.Tuple) : List T.Tuple :=
  l.flatMap fun t1 => (i.rows.filter fun t => proj T i.attributes t = proj T la t1 && i.passes t).map (build T t1)

/-- The plan in the sense of relational algebra. -/
def relational : Cursor T → List T.Tuple
  | .SeqScan l => l
  | .IndexJoin la c i => join la i (relational c)

/-- No row passes that has the same values as a row before it. -/
def Index.Unique (i : Index T) : Prop :=
  i.rows.Pairwise fun t t' => proj T i.attributes t = proj T i.attributes t' → i.passes t' = false

def UniqueKeys : Cursor T → Prop
  | .SeqScan _ => True
  | .IndexJoin _ c i => UniqueKeys c ∧ i.Unique

theorem find_hash {la : List T.Attribute} {l : List T.Tuple} {x : List T.Value} :
    (l.find? fun t => HashIndexScan.P (LV T) x (proj T la t)) = l.find? fun t => proj T la t = x := by
  refine congrArg (List.find? · l) (funext fun t => ?_)
  rw [Bool.eq_iff_iff, HashIndexScan.P_eq, LV_eq, decide_eq_true_eq]
  exact eq_comm

theorem collection_index (i : Index T) (x : List T.Value) :
    (typeIndex i).C1.collection ((typeIndex i).i (evalIndex i) x) = i.lookup x := by
  cases i with
  | SimpleHashIndexScan la l =>
    refine (HashIndexScan.collection_simple T.OTuple (LV T) (proj_eq la) l x).trans ?_
    rw [find_hash]
    exact (List.filter_true _).symm
  | FilterHashIndexScan theta htheta la l =>
    refine (HashIndexScan.collection_filter T.OTuple (LV T) (proj_eq la) (canonized theta) (theta_eq htheta) l
      x).trans ?_
    rw [find_hash]
    rfl

theorem collection_meaning (c : Cursor T) :
    T.OTuple.Same ((typeCursor c).collection (evalCursor c)) (meaning c) := by
  induction c with
  | SeqScan l => exact .refl l
  | IndexJoin la c i ih =>
    show T.OTuple.Same (IndexJoin.cross2 (proj T la) (build T) (typeIndex i) _ ((typeIndex i).c1 (evalIndex i))) _
    rw [IndexJoin.cross2_eq]
    apply ih.flatMap
    intro a b same
    have found := (typeIndex i).i_collection (evalIndex i) (proj T la a)
    rw [collection_index, LV_eq.mp (proj_eq la same)] at found
    unfold IndexJoin.rows
    rw [LV_eq.mp (proj_eq la same)]
    exact found.symm.map fun same' => T.OTuple.compare_eq_trans (build_eq_1 _ _ _ same) (build_eq_2 _ _ _ same')

/-- However many rows are asked for, they are the first ones of the plan's meaning; enough calls give all of
them, and from then on the plan is at its end. -/
theorem run_meaning (c : Cursor T) (n : Nat) :
    ∃ rest, T.OTuple.Same (meaning c) ((typeCursor c).pulled n ((typeCursor c).reset (evalCursor c)) ++ rest) ∧
      ((typeCursor c).ubound ((typeCursor c).reset (evalCursor c)) ≤ n → rest = [] ∧
        ((typeCursor c).next
          (iter (typeCursor c).next n ((typeCursor c).reset (evalCursor c)) List.cons []).1).1 = .emptyCursor) := by
  obtain ⟨rest, all, enough⟩ := CursorRcd.run (evalCursor c) n
  exact ⟨rest, (collection_meaning c).symm.trans all, enough⟩

theorem materialize_meaning (c : Cursor T) :
    T.OTuple.Same ((typeCursor c).materialize (evalCursor c)) (meaning c) :=
  (CursorRcd.materialize_collection _).trans (collection_meaning c)

/-! ### Unique keys -/

section
variable {A B : Type} [DecidableEq B] {key : A → B} {passes : A → Bool} {l : List A}

/-- The first row of a key stands for all of them. -/
theorem first_eq_all (unique : l.Pairwise fun t t' => key t = key t' → passes t' = false) (x : B) :
    (l.find? fun t => key t = x).toList.filter passes = l.filter fun t => key t = x && passes t := by
  induction l with
  | nil => rfl
  | cons t l ih =>
    obtain ⟨first, unique⟩ := List.pairwise_cons.mp unique
    rw [List.find?_cons, List.filter_cons]
    by_cases here : key t = x
    · have others : (l.filter fun t => key t = x && passes t) = [] := by
        rw [List.filter_eq_nil_iff]
        intro t' ht' both
        rw [Bool.and_eq_true, decide_eq_true_eq] at both
        rw [first t' ht' (here.trans both.1.symm)] at both
        exact Bool.noConfusion both.2
      rw [others, decide_eq_true here, Bool.true_and, Option.toList_some, List.filter_singleton]
      cases passes t <;> rfl
    · rw [decide_eq_false here, Bool.false_and]
      exact ih unique

theorem unique_of_length
    (same : ∀ u ∈ l, ((l.find? fun t => key t = key u).toList.filter passes).length =
      (l.filter fun t => key t = key u && passes t).length) :
    l.Pairwise fun t t' => key t = key t' → passes t' = false := by
  induction l with
  | nil => exact .nil
  | cons t l ih =>
    have first : ∀ t' ∈ l, key t = key t' → passes t' = false := by
      have here := same t List.mem_cons_self
      rw [List.find?_cons, List.filter_cons, decide_eq_true rfl, Bool.true_and, Option.toList_some,
        List.filter_singleton] at here
      have none : (l.filter fun t' => key t' = key t && passes t') = [] := by
        cases pass : passes t <;> simp only [pass] at here
        · exact List.length_eq_zero_iff.mp here.symm
        · exact List.length_eq_zero_iff.mp (Nat.succ.inj here).symm
      intro t' ht' equal
      rw [List.filter_eq_nil_iff] at none
      have not := none t' ht'
      rw [decide_eq_true equal.symm, Bool.true_and] at not
      exact Bool.eq_false_iff.mpr not
    refine List.pairwise_cons.mpr ⟨first, ih fun u hu => ?_⟩
    have later := same u (List.mem_cons_of_mem _ hu)
    rw [List.find?_cons, List.filter_cons] at later
    by_cases here : key t = key u
    · have none : (l.filter fun t' => key t' = key u && passes t') = [] := by
        rw [List.filter_eq_nil_iff]
        intro t' ht' both
        rw [Bool.and_eq_true, decide_eq_true_eq] at both
        rw [first t' ht' (here.trans both.1.symm)] at both
        exact Bool.noConfusion both.2
      rw [none, List.length_nil, List.length_eq_zero_iff, List.filter_eq_nil_iff]
      intro t' ht'
      have found := Option.mem_toList.mp ht'
      have equal := List.find?_some found
      rw [first t' (List.mem_of_find?_eq_some found) (here.trans (of_decide_eq_true equal).symm)]
      exact Bool.false_ne_true
    · rw [decide_eq_false here, Bool.false_and] at later
      exact later

end

theorem meaning_relational (c : Cursor T) (unique : UniqueKeys c) : meaning c = relational c := by
  induction c with
  | SeqScan l => rfl
  | IndexJoin la c i ih =>
    obtain ⟨uniqueC, uniqueI⟩ := unique
    unfold meaning relational join
    rw [ih uniqueC]
    exact congrArg (List.flatMap · _) (funext fun t1 => congrArg (List.map _) (first_eq_all uniqueI _))

/-- A plan whose indexes have unique keys computes its relational meaning. -/
theorem materialize_relational (c : Cursor T) (unique : UniqueKeys c) :
    T.OTuple.Same ((typeCursor c).materialize (evalCursor c)) (relational c) := by
  rw [← meaning_relational c unique]
  exact materialize_meaning c

/-- Two employees, and the departments by their number. -/
theorem materialize_relational_employees :
    let T := Tuple1.T Nat Unit Nat Nat (fun _ => ()) (fun _ => 0)
    let employees : List T.Tuple := [(({1, 2}, fun a => 10 * a + 1), 100), (({1, 2}, fun a => 10 * a), 101)]
    let departments : List T.Tuple := [(({3, 4}, fun a => a + 17), 200), (({3, 4}, fun a => a + 18), 201)]
    let number : List Nat := [3]
    let works : List Nat := [2]
    T.OTuple.Same
      ((typeCursor (T := T)
          (.IndexJoin works (.SeqScan employees) (.SimpleHashIndexScan number departments))).materialize
        (evalCursor (.IndexJoin works (.SeqScan employees) (.SimpleHashIndexScan number departments))))
      (join works (.SimpleHashIndexScan number departments) employees) := by
  intro T employees departments number works
  have unique : Index.Unique (T := T) (.SimpleHashIndexScan number departments) := by
    refine List.pairwise_pair.mpr ?_
    intro same
    exact absurd (List.cons.inj same).1 (by decide)
  exact materialize_relational (T := T)
    (.IndexJoin works (.SeqScan employees) (.SimpleHashIndexScan number departments)) ⟨trivial, unique⟩

/-- One join of a plan, from what is joined. -/
theorem materialize_step (la : List T.Attribute) (c : Cursor T) (i : Index T) :
    T.OTuple.Same ((typeCursor (.IndexJoin la c i)).materialize (evalCursor (.IndexJoin la c i)))
      (((typeCursor c).materialize (evalCursor c)).flatMap fun t1 => (i.lookup (proj T la t1)).map (build T t1)) := by
  refine (IndexJoin.materialize_indexJoin T.OTuple (proj T la) (fun _ _ => proj_eq la) (typeCursor c)
    (typeIndex i) (build T) build_eq_1 build_eq_2 (IndexJoin.mk_index_join_cursor (evalCursor c) (evalIndex i))).trans ?_
  apply Oeset.Same.flatMap (.refl _)
  intro a b same
  have found := (typeIndex i).i_collection (evalIndex i) (proj T la a)
  rw [collection_index, LV_eq.mp (proj_eq la same)] at found
  unfold IndexJoin.rows
  rw [LV_eq.mp (proj_eq la same)]
  exact found.symm.map fun same' => T.OTuple.compare_eq_trans (build_eq_1 _ _ _ same) (build_eq_2 _ _ _ same')

/-- A hash index is good for every join exactly when no row passes that has the values of an earlier one:
the table keeps one row for each key. -/
theorem hash_join_complete_iff (i : Index T) :
    (∀ la c, T.OTuple.Same ((typeCursor (.IndexJoin la c i)).materialize (evalCursor (.IndexJoin la c i)))
      (join la i ((typeCursor c).materialize (evalCursor c)))) ↔ i.Unique := by
  constructor
  · intro complete
    apply unique_of_length
    intro u _
    have whole := (materialize_step i.attributes (.SeqScan [u]) i).symm.trans (complete i.attributes (.SeqScan [u]))
    have scan : (typeCursor (.SeqScan [u])).materialize (evalCursor (.SeqScan [u])) = [u] :=
      SeqScan.materialize_build _
    rw [scan] at whole
    have lengths := whole.length
    unfold join at lengths
    rw [List.flatMap_singleton, List.flatMap_singleton, List.length_map, List.length_map] at lengths
    exact lengths
  · intro unique la c
    refine (materialize_step la c i).trans (.of_eq ?_)
    unfold join
    exact congrArg (List.flatMap · _) (funext fun t1 => congrArg (List.map _) (first_eq_all unique _))

end QEP
end DeepDB.Plans
