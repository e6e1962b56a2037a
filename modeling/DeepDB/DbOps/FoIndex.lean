import DeepDB.DbOps.Index
import Mathlib.Data.List.Forall2

/-!
The first-order index of `tuplekey/fo_index.c`. A schema is a vector of descriptors up to `desc_End`, and
a key a vector with one component for each. A failed assertion, or a key of another schema, has no value.
`index_insert` never stores its value: below the last component it asks for an index of the empty schema,
which does not exist.
-/

namespace DeepDB.DbOps.FoIndex

inductive Descriptor where
  | desc_End
  | desc_Int
  | desc_Str
  deriving DecidableEq

/-- The vector from the descriptor on that a `Schema` points to. -/
abbrev Schema := List Descriptor

abbrev VectorKey := List Key

/-! ### The functions -/

def indexNew (sch : Schema) (h : Heap) : Option (Heap × Nat) :=
  match sch with
  | .desc_Int :: _ => some (inthashNew h)
  | .desc_Str :: _ => some (stringlistNew h)
  | _ => none

def indexInsert (h : Heap) : Schema → Nat → VectorKey → Value → Option (Heap × Value)
  | .desc_End :: _, ind, _, _ => some (h, ind)
  | .desc_Int :: sch, ind, k :: vk, val => do
    let bindex ← inthashMtable.lookup h ind k
    if bindex = NULL then
      let (h, bindex) ← indexNew sch h
      let (h, _) ← inthashMtable.insert h ind k bindex
      indexInsert h sch bindex vk val
    else indexInsert h sch bindex vk val
  | .desc_Str :: sch, ind, k :: vk, val => do
    let bindex ← stringlistMtable.lookup h ind k
    if bindex = NULL then
      let (h, bindex) ← indexNew sch h
      let (h, _) ← stringlistMtable.insert h ind k bindex
      indexInsert h sch bindex vk val
    else indexInsert h sch bindex vk val
  | _, _, _, _ => none

def indexLookup (h : Heap) : Schema → Nat → VectorKey → Option Value
  | .desc_End :: _, ind, _ => some ind
  | .desc_Int :: sch, ind, k :: vk => do
    let bindex ← inthashMtable.lookup h ind k
    if bindex = NULL then return NULL
    indexLookup h sch bindex vk
  | .desc_Str :: sch, ind, k :: vk => do
    let bindex ← stringlistMtable.lookup h ind k
    if bindex = NULL then return NULL
    indexLookup h sch bindex vk
  | _, _, _ => none

/-! ### Sequences of calls -/

inductive Op where
  | insert (key : VectorKey) (val : Value)
  | lookup (key : VectorKey)

def Op.key : Op → VectorKey
  | .insert key _ => key
  | .lookup key => key

def Op.isInsert : Op → Bool
  | .insert _ _ => true
  | .lookup _ => false

def Op.exec (sch : Schema) (ind : Nat) (h : Heap) : Op → Option (Heap × Value)
  | .insert key val => indexInsert h sch ind key val
  | .lookup key => (indexLookup h sch ind key).map fun v => (h, v)

def run (sch : Schema) (ind : Nat) : Heap → List Op → Option (Heap × List Value)
  | h, [] => some (h, [])
  | h, op :: ops => do
    let (h, v) ← op.exec sch ind h
    let (h, vs) ← run sch ind h ops
    return (h, v :: vs)

/-- The value of the last insert of `k`, NULL if there is none. -/
def lastInsert (k : VectorKey) (ops : List Op) : Value :=
  ops.foldl (fun v op => match op with
    | .insert key val => if key = k then val else v
    | .lookup _ => v) NULL

/-- A component of a descriptor. -/
def Component : Descriptor → Key → Prop
  | .desc_Int, .int _ => True
  | .desc_Str, .str _ => True
  | _, _ => False

/-- The descriptors of a schema before its end. -/
def Components (ds : List Descriptor) : Prop := Descriptor.desc_End ∉ ds

/-- The calls on a new index have values, and a lookup has that of the last insert of its key. -/
def IndexLaw (h : Heap) (ds : List Descriptor) (ops : List Op) : Prop :=
  ∃ h₁ ind, indexNew (ds ++ [.desc_End]) h = some (h₁, ind) ∧
    ∃ h' vs, run (ds ++ [.desc_End]) ind h₁ ops = some (h', vs) ∧
      ∀ (n : Nat) key, ops[n]? = some (.lookup key) → vs[n]? = some (lastInsert key (ops.take n))

/-! ### Empty indices -/

/-- An index of the first descriptor, without entries. -/
def EmptyAt (h : Heap) (d : Descriptor) (ind : Nat) : Prop :=
  match d with
  | .desc_Int => h.obj ind = some (.inthash fun _ => [])
  | .desc_Str => h.obj ind = some (.stringlist [])
  | .desc_End => False

section

variable {h h' : Heap} {d : Descriptor} {ds : List Descriptor} {ind : Nat} {k : Key} {vk : VectorKey}

theorem new_empty (ok : h.Ok) (some_d : d ≠ .desc_End) (sch : Schema) :
    ∃ h' ind, indexNew (d :: sch) h = some (h', ind) ∧ h'.Ok ∧ EmptyAt h' d ind ∧
      (∀ x, x ≠ ind → h'.obj x = h.obj x) ∧ h.obj ind = none := by
  have free := ok.free h.next (Nat.le_refl _)
  have grown : ∀ o, (h.alloc o).1.Ok := fun o => by
    refine ⟨Nat.succ_pos _, fun i late => ?_⟩
    have later : h.next < i := late
    exact (Function.update_of_ne (Nat.ne_of_gt later) _ _).trans (ok.free i later.le)
  cases d with
  | desc_End => exact absurd rfl some_d
  | desc_Int =>
    exact ⟨_, _, rfl, grown _, Function.update_self _ _ _, fun x ne => Function.update_of_ne ne _ _,
      free⟩
  | desc_Str =>
    exact ⟨_, _, rfl, grown _, Function.update_self _ _ _, fun x ne => Function.update_of_ne ne _ _,
      free⟩

/-- The functions of a component's table. -/
def tableOf : Descriptor → SchemaMethods
  | .desc_Str => stringlistMtable
  | .desc_Int | .desc_End => inthashMtable

theorem lookup_empty (empty : EmptyAt h d ind) (component : Component d k) :
    (tableOf d).lookup h ind k = some NULL := by
  cases d with
  | desc_End => exact empty.elim
  | desc_Int =>
    cases k with
    | int n =>
      unfold EmptyAt at empty
      simp only [tableOf, inthashMtable, empty]
      rfl
    | str c | pair a b => exact component.elim
  | desc_Str =>
    cases k with
    | str c =>
      unfold EmptyAt at empty
      simp only [tableOf, stringlistMtable, empty]
      rfl
    | int n | pair a b => exact component.elim

/-- An insert into a table changes one object. -/
theorem insert_table (ok : h.Ok) (live : ind < h.next) {v old : Value}
    (insert : (tableOf d).insert h ind k v = some (h', old)) :
    h'.Ok ∧ ∀ x, x ≠ ind → h'.obj x = h.obj x := by
  have set : ∀ o, (h.set ind o).Ok := fun o => by
    refine ⟨ok.pos, fun i late => ?_⟩
    have later : h.next ≤ i := late
    exact (Function.update_of_ne (by omega) _ _).trans (ok.free i later)
  have changed : ∃ o, h' = h.set ind o := by
    cases d with
    | desc_Str =>
      simp only [tableOf, stringlistMtable] at insert
      split at insert
      · obtain ⟨r, -, insert⟩ := Option.bind_eq_some_iff.mp insert
        exact ⟨_, (Prod.mk.inj (Option.some.inj insert)).1.symm⟩
      · cases insert
    | desc_Int | desc_End =>
      simp only [tableOf, inthashMtable] at insert
      split at insert
      · obtain ⟨r, -, insert⟩ := Option.bind_eq_some_iff.mp insert
        exact ⟨_, (Prod.mk.inj (Option.some.inj insert)).1.symm⟩
      · cases insert
  obtain ⟨o, rfl⟩ := changed
  exact ⟨set o, fun x ne => Function.update_of_ne ne _ _⟩

theorem insert_absent (absent : (tableOf d).lookup h ind k = some NULL) (some_d : d ≠ .desc_End)
    (sch : Schema) (val : Value) :
    indexInsert h (d :: sch) ind (k :: vk) val = (indexNew sch h).bind fun new =>
      ((tableOf d).insert new.1 ind k new.2).bind fun r => indexInsert r.1 sch new.2 vk val := by
  cases d with
  | desc_End => exact absurd rfl some_d
  | desc_Int | desc_Str =>
    rw [tableOf] at absent
    rw [indexInsert, absent]
    rfl

theorem empty_live (ok : h.Ok) (empty : EmptyAt h d ind) : ind < h.next ∧ h.obj ind ≠ none := by
  have stored : h.obj ind ≠ none := by
    cases d with
    | desc_End => exact empty.elim
    | desc_Int | desc_Str =>
      unfold EmptyAt at empty
      rw [empty]
      exact Option.some_ne_none _
  refine ⟨?_, stored⟩
  by_contra late
  exact stored (ok.free ind (Nat.le_of_not_lt late))

/-- An insert into an empty index comes down to the end of the schema, where there is no index to
make. -/
theorem insert_empty (ok : h.Ok) (empty : EmptyAt h d ind) (ends : Components (d :: ds))
    (keys : List.Forall₂ Component (d :: ds) (k :: vk)) (val : Value) :
    indexInsert h (d :: ds ++ [.desc_End]) ind (k :: vk) val = none := by
  induction ds generalizing h d ind k vk with
  | nil =>
    cases keys with
    | cons component rest =>
      have some_d : d ≠ .desc_End := fun same => ends (by rw [same]; exact List.mem_cons_self)
      rw [List.cons_append, insert_absent (lookup_empty empty component) some_d]
      rfl
  | cons d' ds ih =>
    cases keys with
    | cons component rest =>
      cases rest with
      | @cons _ k' _ vk' component' rest =>
        have some_d : d ≠ .desc_End := fun same => ends (by rw [same]; exact List.mem_cons_self)
        have ends' : Components (d' :: ds) := fun no => ends (List.mem_cons_of_mem _ no)
        have some_d' : d' ≠ .desc_End := fun same => ends' (by rw [same]; exact List.mem_cons_self)
        obtain ⟨h₁, b, new, ok₁, empty₁, same, free⟩ := new_empty ok some_d' (ds ++ [.desc_End])
        obtain ⟨live, stored⟩ := empty_live ok empty
        have apart : b ≠ ind := fun here => stored (here ▸ free)
        have live₁ : ind < h₁.next := by
          by_contra late
          exact stored ((same ind (Ne.symm apart)).symm.trans (ok₁.free ind (Nat.le_of_not_lt late)))
        rw [List.cons_append, insert_absent (lookup_empty empty component) some_d, List.cons_append,
          new, Option.bind_some]
        cases insert : (tableOf d).insert h₁ ind k b with
        | none => rfl
        | some r =>
          obtain ⟨h₂, old⟩ := r
          obtain ⟨ok₂, same₂⟩ := insert_table ok₁ live₁ insert
          have empty₂ : EmptyAt h₂ d' b := by
            unfold EmptyAt at empty₁ ⊢
            rw [same₂ b apart]
            exact empty₁
          exact ih ok₂ empty₂ ends' (.cons component' rest)

theorem lookup_in_empty (empty : EmptyAt h d ind) (component : Component d k) (sch : Schema) :
    indexLookup h (d :: sch) ind (k :: vk) = some NULL := by
  have absent := lookup_empty empty component
  cases d with
  | desc_End => exact empty.elim
  | desc_Int | desc_Str =>
    rw [tableOf] at absent
    rw [indexLookup, absent]
    rfl

end

/-! ### The law -/

theorem lastInsert_lookups {ops : List Op} (lookups : ∀ op ∈ ops, op.isInsert = false)
    (k : VectorKey) : lastInsert k ops = NULL := by
  unfold lastInsert
  induction ops with
  | nil => rfl
  | cons op ops ih =>
    have first := lookups op List.mem_cons_self
    cases op with
    | insert key val => cases first
    | lookup key => exact ih fun op hop => lookups op (List.mem_cons_of_mem _ hop)

section

variable {h : Heap} {d : Descriptor} {ds : List Descriptor} {ind : Nat} {ops : List Op}
  (empty : EmptyAt h d ind)
  (keys : ∀ op ∈ ops, List.Forall₂ Component (d :: ds) op.key)
include empty keys

/-- Lookups leave an empty index as it is. -/
theorem run_lookups (lookups : ∀ op ∈ ops, op.isInsert = false) :
    run (d :: ds ++ [.desc_End]) ind h ops = some (h, ops.map fun _ => NULL) := by
  induction ops with
  | nil => rfl
  | cons op ops ih =>
    have rest := ih (fun op hop => keys op (List.mem_cons_of_mem _ hop)) fun op hop =>
      lookups op (List.mem_cons_of_mem _ hop)
    have first := lookups op List.mem_cons_self
    have key := keys op List.mem_cons_self
    cases op with
    | insert key val => cases first
    | lookup key' =>
      cases key' with
      | nil => cases key
      | cons k vk =>
        cases key with
        | cons component _ =>
          have exec : Op.exec (d :: ds ++ [.desc_End]) ind h (.lookup (k :: vk)) = some (h, NULL) := by
            rw [Op.exec, List.cons_append, lookup_in_empty empty component]
            rfl
          rw [run, exec, Option.bind_eq_bind, Option.bind_some]
          dsimp only
          rw [rest]
          rfl

theorem run_insert (ok : h.Ok) (ends : Components (d :: ds)) (some_insert : ∃ op ∈ ops, op.isInsert) :
    run (d :: ds ++ [.desc_End]) ind h ops = none := by
  induction ops with
  | nil =>
    obtain ⟨op, hop, -⟩ := some_insert
    cases hop
  | cons op ops ih =>
    have key := keys op List.mem_cons_self
    cases op with
    | insert key' val =>
      cases key' with
      | nil => cases key
      | cons k vk =>
        have exec : Op.exec (d :: ds ++ [.desc_End]) ind h (.insert (k :: vk) val) = none :=
          insert_empty ok empty ends key val
        rw [run, exec]
        rfl
    | lookup key' =>
      cases key' with
      | nil => cases key
      | cons k vk =>
        cases key with
        | cons component _ =>
          have exec : Op.exec (d :: ds ++ [.desc_End]) ind h (.lookup (k :: vk)) = some (h, NULL) := by
            rw [Op.exec, List.cons_append, lookup_in_empty empty component]
            rfl
          have later : ∃ op ∈ ops, op.isInsert := by
            obtain ⟨op, hop, insert⟩ := some_insert
            rcases List.mem_cons.mp hop with rfl | hop
            · cases insert
            · exact ⟨op, hop, insert⟩
          rw [run, exec, Option.bind_eq_bind, Option.bind_some]
          dsimp only
          rw [ih (fun op hop => keys op (List.mem_cons_of_mem _ hop)) later]
          rfl

end

/-- The first-order index works as long as nothing is inserted. -/
theorem indexLaw_iff {h : Heap} (ok : h.Ok) {ds : List Descriptor} (ends : Components ds)
    {ops : List Op} (keys : ∀ op ∈ ops, List.Forall₂ Component ds op.key) :
    IndexLaw h ds ops ↔ ds ≠ [] ∧ ∀ op ∈ ops, op.isInsert = false := by
  constructor
  · intro ⟨h₁, ind, new, h', vs, calls, _⟩
    cases ds with
    | nil => cases new
    | cons d ds =>
      have some_d : d ≠ .desc_End := fun same => ends (by rw [same]; exact List.mem_cons_self)
      obtain ⟨h₂, ind₂, new₂, ok₂, empty, -⟩ := new_empty ok some_d (ds ++ [.desc_End])
      obtain ⟨rfl, rfl⟩ := Prod.mk.inj (Option.some.inj (new.symm.trans new₂))
      refine ⟨List.cons_ne_nil _ _, fun op hop => ?_⟩
      by_contra insert
      have failed := run_insert empty keys ok₂ ends ⟨op, hop, Bool.not_eq_false _ ▸ insert⟩
      rw [failed] at calls
      cases calls
  · intro ⟨components, lookups⟩
    obtain ⟨d, ds, rfl⟩ := List.exists_cons_of_ne_nil components
    have some_d : d ≠ .desc_End := fun same => ends (by rw [same]; exact List.mem_cons_self)
    obtain ⟨h₁, ind, new, -, empty, -⟩ := new_empty ok some_d (ds ++ [.desc_End])
    refine ⟨h₁, ind, new, h₁, _, run_lookups empty keys lookups, fun n key here => ?_⟩
    rw [lastInsert_lookups fun op hop => lookups op (List.mem_of_mem_take hop), List.getElem?_map, here]
    rfl

theorem indexLaw_iff_lookup : IndexLaw ⟨fun _ => none, 1⟩ [.desc_Int, .desc_Str]
    [.lookup [.int 50, .str [72]]] :=
  (indexLaw_iff ⟨by decide, fun _ _ => rfl⟩ (by unfold Components; decide) (by
    intro op hop
    obtain rfl := List.mem_singleton.mp hop
    exact .cons trivial (.cons trivial .nil))).mpr ⟨by decide, by decide⟩

/-- The first insert of a number asks for an index of the empty schema. -/
theorem indexInsert_fails :
    indexInsert ⟨Function.update (fun _ => none) 1 (some (.inthash fun _ => [])), 2⟩
        [.desc_Int, .desc_End] 1 [.int 50] 123 = none ∧
      ¬∀ (h : Heap) (ds : List Descriptor) (ops : List Op), h.Ok → Components ds →
        (∀ op ∈ ops, List.Forall₂ Component ds op.key) → IndexLaw h ds ops := by
  have failed : indexInsert ⟨Function.update (fun _ => none) 1 (some (.inthash fun _ => [])), 2⟩
      [.desc_Int, .desc_End] 1 [.int 50] 123 = none := rfl
  refine ⟨failed, fun all => ?_⟩
  obtain ⟨h₁, ind, new, h', vs, calls, -⟩ := all ⟨fun _ => none, 1⟩ [.desc_Int]
    [.insert [.int 50] 123] ⟨by decide, fun _ _ => rfl⟩ (by unfold Components; decide) (by
      intro op hop
      obtain rfl := List.mem_singleton.mp hop
      exact .cons trivial .nil)
  cases new
  cases calls

end DeepDB.DbOps.FoIndex
