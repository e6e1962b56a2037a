import DeepDB.Plans.OrderedSet
import Mathlib.Data.Finset.Sort

/-!
The tuples of `verif/db/data/flat/FlatData.v`: a finite set of attributes and a value for each of them,
and the address at which the tuple is stored. Tuples are equal when they hold the same values, wherever
they are stored.
-/

namespace DeepDB.Plans

/-- `Tuple.Rcd`. Sets of attributes are finite sets. -/
structure TupleRcd where
  Attribute : Type
  type : Type
  Value : Type
  /-- where a tuple is stored -/
  Val : Type
  type_of_attribute : Attribute → type
  default_value : type → Value
  [OAtt : LinearOrder Attribute]
  [OVal : LinearOrder Value]
  Tuple : Type
  support : Tuple → Finset Attribute
  dot_ : Tuple → Attribute → Value
  address : Tuple → Val
  mk_tuple_ : Finset Attribute → (Attribute → Value) → Val → Tuple
  support_mk_tuple_ : ∀ s f p, support (mk_tuple_ s f p) = s
  dot_mk_tuple_ : ∀ a s f p, a ∈ s → dot_ (mk_tuple_ s f p) a = f a
  address_mk_tuple_ : ∀ s f p, address (mk_tuple_ s f p) = p
  OTuple : Oeset Tuple
  tuple_eq_ : ∀ t1 t2, OTuple.compare t1 t2 = .eq ↔
    support t1 = support t2 ∧ ∀ a ∈ support t1, dot_ t1 a = dot_ t2 a

namespace TupleRcd

instance instLinearOrderAttribute (T : TupleRcd) : LinearOrder T.Attribute := T.OAtt

instance instLinearOrderValue (T : TupleRcd) : LinearOrder T.Value := T.OVal

variable (T : TupleRcd)

def default (a : T.Attribute) : T.Value := T.default_value (T.type_of_attribute a)

def mk_tuple (s : Finset T.Attribute) (f : T.Attribute → T.Value) (p : T.Val) : T.Tuple :=
  T.mk_tuple_ s (fun a => if a ∈ s then f a else T.default a) p

def dot (t : T.Tuple) (a : T.Attribute) : T.Value := if a ∈ T.support t then T.dot_ t a else T.default a

def tuple_as_pairs (t : T.Tuple) : List (T.Attribute × T.Value) :=
  ((T.support t).sort (· ≤ ·)).map fun a => (a, T.dot t a)

def pairs_as_tuple (t' : List (T.Attribute × T.Value)) (p : T.Val) : T.Tuple :=
  T.mk_tuple (t'.map Prod.fst).toFinset
    (fun a =>
      match t'.lookup a with
      | some b => b
      | none => T.default a) p

def canonized_tuple (t : T.Tuple) (p : T.Val) : T.Tuple := T.pairs_as_tuple (T.tuple_as_pairs t) p

def join_tuple (t1 t2 : T.Tuple) (p : T.Val) : T.Tuple :=
  T.mk_tuple (T.support t1 ∪ T.support t2) (fun a => if a ∈ T.support t1 then T.dot t1 a else T.dot t2 a) p

variable {T} {t1 t2 u1 u2 : T.Tuple} {s : Finset T.Attribute} {f : T.Attribute → T.Value} {p q : T.Val}

theorem support_mk_tuple : T.support (T.mk_tuple s f p) = s := T.support_mk_tuple_ _ _ _

theorem dot_mk_tuple (a : T.Attribute) : T.dot (T.mk_tuple s f p) a = if a ∈ s then f a else T.default a := by
  unfold dot
  rw [support_mk_tuple]
  by_cases member : a ∈ s
  · rw [if_pos member, if_pos member]
    unfold mk_tuple
    rw [T.dot_mk_tuple_ _ _ _ _ member, if_pos member]
  · rw [if_neg member, if_neg member]

theorem tuple_eq : T.OTuple.compare t1 t2 = .eq ↔
    T.support t1 = T.support t2 ∧ ∀ a, T.dot t1 a = T.dot t2 a := by
  rw [T.tuple_eq_]
  constructor
  · rintro ⟨support, same⟩
    refine ⟨support, fun a => ?_⟩
    unfold dot
    rw [← support]
    by_cases member : a ∈ T.support t1
    · rw [if_pos member, if_pos member, same a member]
    · rw [if_neg member, if_neg member]
  · rintro ⟨support, same⟩
    refine ⟨support, fun a member => ?_⟩
    have here := same a
    unfold dot at here
    rw [← support, if_pos member, if_pos member] at here
    exact here

theorem tuple_as_pairs_canonizes (same : T.OTuple.compare t1 t2 = .eq) :
    T.tuple_as_pairs t1 = T.tuple_as_pairs t2 := by
  obtain ⟨support, dots⟩ := tuple_eq.mp same
  unfold tuple_as_pairs
  rw [support]
  exact List.map_congr_left fun a _ => by rw [dots a]

theorem join_tuple_eq (same₁ : T.OTuple.compare t1 u1 = .eq) (same₂ : T.OTuple.compare t2 u2 = .eq) :
    T.OTuple.compare (T.join_tuple t1 t2 p) (T.join_tuple u1 u2 q) = .eq := by
  obtain ⟨support₁, dots₁⟩ := tuple_eq.mp same₁
  obtain ⟨support₂, dots₂⟩ := tuple_eq.mp same₂
  unfold join_tuple
  rw [tuple_eq, support_mk_tuple, support_mk_tuple, support₁, support₂]
  refine ⟨rfl, fun a => ?_⟩
  rw [dot_mk_tuple, dot_mk_tuple, dots₁, dots₂]

end TupleRcd

/-! ### SortedTuples -/

namespace Tuple1
variable (Attribute type Value Val : Type) (type_of_attribute : Attribute → type) (default_value : type → Value)
  [LinearOrder Attribute] [LinearOrder Value]

abbrev Aug_tuple := (Finset Attribute × (Attribute → Value)) × Val

variable {Attribute Value Val} in
/-- What the comparison of tuples looks at. -/
def compared (t : Aug_tuple Attribute Value Val) : List Attribute × List Value :=
  (t.1.1.sort (· ≤ ·), (t.1.1.sort (· ≤ ·)).map t.1.2)

theorem compared_eq {t1 t2 : Aug_tuple Attribute Value Val} :
    (mk_oepairs (mk_oelists (oeset_of_oset Attribute)) (mk_oelists (oeset_of_oset Value))).compare
      (compared t1) (compared t2) = .eq ↔ t1.1.1 = t2.1.1 ∧ ∀ a ∈ t1.1.1, t1.1.2 a = t2.1.2 a := by
  show Ordering.then _ _ = .eq ↔ _
  rw [Ordering.then_eq_eq]
  show (oeset_of_oset Attribute).Same _ _ ∧ (oeset_of_oset Value).Same _ _ ↔ _
  rw [Oeset.same_iff, Oeset.same_iff]
  simp only [oeset_of_oset_eq, List.forall₂_eq_eq_eq]
  unfold compared
  constructor
  · rintro ⟨support, dots⟩
    have support' : t1.1.1 = t2.1.1 := by
      rw [← Finset.sort_toFinset t1.1.1 (· ≤ ·), ← Finset.sort_toFinset t2.1.1 (· ≤ ·)]
      exact congrArg List.toFinset support
    refine ⟨support', fun a member => ?_⟩
    dsimp only at dots
    rw [← support'] at dots
    exact List.map_inj_left.mp dots a ((Finset.mem_sort _).mpr member)
  · rintro ⟨support, dots⟩
    dsimp only
    rw [← support]
    exact ⟨rfl, List.map_congr_left fun a member => dots a ((Finset.mem_sort _).mp member)⟩

def T : TupleRcd where
  Attribute := Attribute
  type := type
  Value := Value
  Val := Val
  type_of_attribute := type_of_attribute
  default_value := default_value
  Tuple := Aug_tuple Attribute Value Val
  support := fun t => t.1.1
  dot_ := fun t a => t.1.2 a
  address := fun t => t.2
  mk_tuple_ := fun fa f p => ((fa, f), p)
  support_mk_tuple_ := fun _ _ _ => rfl
  dot_mk_tuple_ := fun _ _ _ _ _ => rfl
  address_mk_tuple_ := fun _ _ _ => rfl
  OTuple := (mk_oepairs (mk_oelists (oeset_of_oset Attribute)) (mk_oelists (oeset_of_oset Value))).comap compared
  tuple_eq_ := fun _ _ => compared_eq Attribute Value Val

end Tuple1

end DeepDB.Plans
