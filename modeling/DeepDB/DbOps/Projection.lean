import DeepDB.DbOps.IndexLaw
import Mathlib.Data.List.Basic

/-!
The attribute lists of `db_ops/db_operations_light.c` and the projection of a tuple on them. A tuple is
an array of words, and the number of an attribute in the list of the schema, which fits an `int`, is its
offset; what leaves the array, and what calls `exit`, has no value.
-/

namespace DeepDB.DbOps

inductive Domain where
  | Int
  | Str
  deriving DecidableEq

structure Attribute where
  id : CString
  domain : Domain
  deriving DecidableEq

abbrev AttributeList := List Attribute

variable {h h' : Heap} {t : Value} {words : Tuple} {a : Attribute} {attrs attrsAll : AttributeList}

/-! ### The functions -/

def getSchemaAux : Domain → Schema
  | .Int => .inthashSchema
  | .Str => .stringlistSchema

/-- The empty list has the schema NULL. -/
def getSchema : AttributeList → Option Schema
  | [] => none
  | [a] => some (getSchemaAux a.domain)
  | a :: b :: attrs => (getSchema (b :: attrs)).map (.tupleSchema (getSchemaAux a.domain))

/-- The loop of `get_offset`, at the attribute number `res`. -/
def getOffsetFrom (id : CString) (dom : Domain) : AttributeList → Int → Option Int
  | [], _ => some (-1)
  | x :: rest, res =>
    if id = x.id then if dom = x.domain then some res else none
    else getOffsetFrom id dom rest (res + 1)

def getOffset (attrsAll : AttributeList) (id : CString) (dom : Domain) : Option Int :=
  if attrsAll = [] then none else getOffsetFrom id dom attrsAll 0

/-- `*((size_t *) t + ofs)`. -/
def tupleWord (h : Heap) (t : Value) (ofs : Int) : Option Entry :=
  match h.obj t with
  | some (.tuple words) => if 0 ≤ ofs then words[ofs.toNat]? else none
  | _ => none

/-- A word as a `Key`. -/
def Entry.key : Entry → Key
  | .int n => .int n
  | .str s => .str s

def buildKeypair (a b : Key) : Key := .pair a b

def getProjection (h : Heap) (attrsAll : AttributeList) (t : Value) : AttributeList → Option Key
  | [] => none
  | [a] => do return (← tupleWord h t (← getOffset attrsAll a.id a.domain)).key
  | a :: b :: attrs => do
    let current := (← tupleWord h t (← getOffset attrsAll a.id a.domain)).key
    return buildKeypair current (← getProjection h attrsAll t (b :: attrs))

/-! ### Tuples of a schema -/

def Entry.domain : Entry → Domain
  | .int _ => .Int
  | .str _ => .Str

/-- The attribute is one of the schema, and the only one of its name there. -/
def AttributeOf (attrsAll : AttributeList) (a : Attribute) : Prop :=
  a ∈ attrsAll ∧ ∀ x ∈ attrsAll, x.id = a.id → x = a

/-- At `t` there is a tuple of the schema, with the values `words`. -/
structure TupleAt (h : Heap) (attrsAll : AttributeList) (t : Value) (words : Tuple) : Prop where
  live : t ≠ NULL
  obj : h.obj t = some (.tuple words)
  domains : words.map Entry.domain = attrsAll.map Attribute.domain

/-- The key that a list of values makes. -/
def keyOf : List Entry → Option Key
  | [] => none
  | [e] => some e.key
  | e :: f :: es => (keyOf (f :: es)).map (.pair e.key)

/-- The projection: each attribute's value is at its place in the schema. -/
def projection (attrsAll : AttributeList) (words : Tuple) (attrs : AttributeList) : Option Key := do
  keyOf (← attrs.mapM fun a => words[attrsAll.idxOf a]?)

/-- The strings of the attributes in a tuple are short enough to be copied. -/
def StringsFit (attrsAll : AttributeList) (words : Tuple) (attrs : AttributeList) : Prop :=
  ∀ a ∈ attrs, ∀ e, words[attrsAll.idxOf a]? = some e → e.key.Fits

/-! ### The laws -/

theorem getOffsetFrom_idxOf (of : AttributeOf attrsAll a) (res : Int) :
    getOffsetFrom a.id a.domain attrsAll res = some (res + attrsAll.idxOf a) := by
  induction attrsAll generalizing res with
  | nil => exact absurd of.1 List.not_mem_nil
  | cons x rest ih =>
    obtain ⟨member, only⟩ := of
    unfold getOffsetFrom
    by_cases same : x = a
    · rw [same, if_pos rfl, if_pos rfl, List.idxOf_cons_self]
      simp
    · have other : ¬ a.id = x.id := fun id => same (only x List.mem_cons_self id.symm)
      have inside : a ∈ rest := (List.mem_cons.mp member).resolve_left (Ne.symm same)
      rw [if_neg other, ih ⟨inside, fun y hy => only y (List.mem_cons_of_mem _ hy)⟩,
        List.idxOf_cons_ne _ same]
      congr 1
      push_cast
      omega

theorem getOffset_idxOf (of : AttributeOf attrsAll a) :
    getOffset attrsAll a.id a.domain = some (attrsAll.idxOf a : Int) := by
  have filled : attrsAll ≠ [] := List.ne_nil_of_mem of.1
  rw [getOffset, if_neg filled, getOffsetFrom_idxOf of, Int.zero_add]

/-- The value of an attribute in a tuple of the schema is of the attribute's domain. -/
theorem word_domain (tuple : TupleAt h attrsAll t words) (of : AttributeOf attrsAll a) :
    ∃ e, words[attrsAll.idxOf a]? = some e ∧ e.domain = a.domain := by
  have found : attrsAll[attrsAll.idxOf a]? = some a := List.getElem?_idxOf of.1
  have domain : (words.map Entry.domain)[attrsAll.idxOf a]? = some a.domain := by
    rw [tuple.domains, List.getElem?_map, found, Option.map_some]
  rw [List.getElem?_map] at domain
  exact Option.map_eq_some_iff.mp domain

theorem accepts_word {e : Entry} (domain : e.domain = a.domain) :
    (getSchemaAux a.domain).Accepts e.key := by
  rw [← domain]
  cases e <;> trivial

theorem tupleWord_offset (tuple : TupleAt h attrsAll t words) (of : AttributeOf attrsAll a) :
    (getOffset attrsAll a.id a.domain).bind (tupleWord h t) = words[attrsAll.idxOf a]? := by
  rw [getOffset_idxOf of, Option.bind_some, tupleWord, tuple.obj]
  exact if_pos (Int.natCast_nonneg _)

theorem getSchema_some (filled : attrs ≠ []) : ∃ s, getSchema attrs = some s := by
  induction attrs with
  | nil => exact absurd rfl filled
  | cons a attrs ih =>
    cases attrs with
    | nil => exact ⟨_, rfl⟩
    | cons b attrs =>
      obtain ⟨s, schema⟩ := ih (List.cons_ne_nil _ _)
      exact ⟨.tupleSchema (getSchemaAux a.domain) s, by rw [getSchema, schema]; rfl⟩

theorem getSchema_domains {attrs' : AttributeList}
    (same : attrs.map Attribute.domain = attrs'.map Attribute.domain) :
    getSchema attrs = getSchema attrs' := by
  induction attrs generalizing attrs' with
  | nil =>
    rw [List.map_eq_nil_iff.mp same.symm]
  | cons a attrs ih =>
    cases attrs' with
    | nil => cases same
    | cons a' attrs' =>
      obtain ⟨first, rest⟩ := List.cons.inj same
      have later := ih rest
      cases attrs with
      | nil =>
        rw [List.map_eq_nil_iff.mp rest.symm, getSchema, getSchema, first]
      | cons b attrs =>
        cases attrs' with
        | nil => cases rest
        | cons b' attrs' => rw [getSchema, getSchema, first, later]

/-- On a tuple of the schema `get_projection` is the projection, a key of the attributes' schema. -/
theorem getProjection_tuple {s : Schema} (tuple : TupleAt h attrsAll t words)
    (of : ∀ a ∈ attrs, AttributeOf attrsAll a) (schema : getSchema attrs = some s) :
    ∃ k, getProjection h attrsAll t attrs = some k ∧ projection attrsAll words attrs = some k ∧
      s.Accepts k := by
  induction attrs generalizing s with
  | nil => cases schema
  | cons a attrs ih =>
    obtain ⟨ofA, ofRest⟩ := List.forall_mem_cons.mp of
    obtain ⟨e, word, domain⟩ := word_domain tuple ofA
    have read := tupleWord_offset tuple ofA
    rw [word, getOffset_idxOf ofA, Option.bind_some] at read
    cases attrs with
    | nil =>
      obtain rfl : getSchemaAux a.domain = s := Option.some.inj schema
      refine ⟨e.key, ?_, ?_, accepts_word domain⟩
      · simp only [getProjection, getOffset_idxOf ofA, read, Option.bind_eq_bind, Option.bind_some]
        rfl
      · simp [projection, word, keyOf]
    | cons b attrs =>
      obtain ⟨inner, rest, rfl⟩ := Option.map_eq_some_iff.mp schema
      obtain ⟨k, get, project, accepts⟩ := ih ofRest rest
      refine ⟨.pair e.key k, ?_, ?_, accepts_word domain, accepts⟩
      · unfold getProjection
        simp only [getOffset_idxOf ofA, read, get, Option.bind_eq_bind, Option.bind_some]
        rfl
      · obtain ⟨es, values, made⟩ := Option.bind_eq_some_iff.mp project
        have filled : es ≠ [] := by
          rintro rfl
          cases made
        obtain ⟨f, es, rfl⟩ := List.exists_cons_of_ne_nil filled
        rw [projection, List.mapM_cons, word, values]
        show (keyOf (f :: es)).map (Key.pair e.key) = _
        rw [made]
        rfl

theorem keyOf_fits {es : List Entry} {k : Key} (made : keyOf es = some k) :
    k.Fits ↔ ∀ e ∈ es, e.key.Fits := by
  induction es generalizing k with
  | nil => cases made
  | cons e es ih =>
    cases es with
    | nil =>
      obtain rfl : e.key = k := Option.some.inj made
      rw [List.forall_mem_singleton]
    | cons f es =>
      obtain ⟨rest, later, rfl⟩ := Option.map_eq_some_iff.mp made
      rw [List.forall_mem_cons, ← ih later]
      rfl

theorem projection_fits {k : Key} (project : projection attrsAll words attrs = some k) :
    k.Fits ↔ StringsFit attrsAll words attrs := by
  obtain ⟨es, values, made⟩ := Option.bind_eq_some_iff.mp project
  rw [keyOf_fits made]
  unfold StringsFit
  clear project made
  induction attrs generalizing es with
  | nil =>
    obtain rfl : [] = es := Option.some.inj values
    exact ⟨fun _ _ no => absurd no List.not_mem_nil, fun _ _ no => absurd no List.not_mem_nil⟩
  | cons a attrs ih =>
    rw [List.mapM_cons] at values
    obtain ⟨e, word, values⟩ := Option.bind_eq_some_iff.mp values
    obtain ⟨rest, later, same⟩ := Option.bind_eq_some_iff.mp values
    obtain rfl : e :: rest = es := Option.some.inj same
    rw [List.forall_mem_cons, List.forall_mem_cons, ih rest later]
    apply and_congr_left
    intro
    constructor
    · intro fits e' word'
      rw [word] at word'
      exact Option.some.inj word' ▸ fits
    · exact fun fits => fits e word

end DeepDB.DbOps
