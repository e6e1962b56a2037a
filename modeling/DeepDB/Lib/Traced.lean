import Mathlib.Logic.Basic
import Mathlib.Data.List.Basic

/-!
Computations that keep a log of what they do and may come to a stop without a value. `Only` says
that all of the log is allowed, `Returns` that a value is reached with an allowed log, and `Refines`
compares a computation with a function that has no log: where the function has a value, the
computation returns a related one.
-/

namespace DeepDB

structure Traced (E α : Type) where
  events : List E
  value : Option α

namespace Traced

variable {E α β A B : Type}

instance : Monad (Traced E) where
  pure a := ⟨[], some a⟩
  bind x f :=
    match x.value with
    | none => ⟨x.events, none⟩
    | some a => ⟨x.events ++ (f a).events, (f a).value⟩

def emit (e : E) : Traced E Unit := ⟨[e], some ()⟩

def ofOption (o : Option α) : Traced E α := ⟨[], o⟩

variable {x : Traced E α} {f : α → Traced E β} {a : α} {b : β}

theorem bind_of_none (h : x.value = none) : x >>= f = ⟨x.events, none⟩ := by
  change (match x.value with
    | none => _
    | some a => _ : Traced E β) = _
  rw [h]

theorem bind_of_some (h : x.value = some a) :
    x >>= f = ⟨x.events ++ (f a).events, (f a).value⟩ := by
  change (match x.value with
    | none => _
    | some a => _ : Traced E β) = _
  rw [h]

@[simp] theorem pure_value (a : α) : (pure a : Traced E α).value = some a := rfl

@[simp] theorem emit_value (e : E) : (emit e).value = some () := rfl

@[simp] theorem ofOption_value (o : Option α) : (ofOption o : Traced E α).value = o := rfl

theorem bind_value : (x >>= f).value = x.value.bind fun a => (f a).value := by
  cases h : x.value with
  | none => rw [bind_of_none h, Option.bind_none]
  | some a => rw [bind_of_some h, Option.bind_some]

theorem bind_bind {γ : Type} (x : Traced E α) (f : α → Traced E β) (g : β → Traced E γ) :
    x >>= f >>= g = x >>= fun a => f a >>= g := by
  cases h : x.value with
  | none => rw [bind_of_none h, bind_of_none h, bind_of_none rfl]
  | some a =>
    rw [bind_of_some h, bind_of_some h]
    cases h' : (f a).value with
    | none => rw [bind_of_none h', bind_of_none rfl]
    | some b => rw [bind_of_some h', bind_of_some rfl, List.append_assoc]

theorem bind_return (x : Traced E α) : (x >>= fun a => pure a) = x := by
  obtain ⟨events, value⟩ := x
  cases value with
  | none => rfl
  | some a =>
    rw [bind_of_some rfl]
    exact congrArg (fun l => (⟨l, some a⟩ : Traced E α)) (List.append_nil events)

instance : LawfulMonad (Traced E) :=
  LawfulMonad.mk' (Traced E) bind_return (fun _ _ => rfl) bind_bind

/-! ### Logs that are allowed -/

def Only (P : E → Prop) (x : Traced E α) : Prop := ∀ e ∈ x.events, P e

variable {P : E → Prop}

@[simp] theorem only_pure (a : α) : Only P (pure a : Traced E α) := fun _ h => by cases h

@[simp] theorem only_ofOption (o : Option α) : Only P (ofOption o : Traced E α) :=
  fun _ h => by cases h

@[simp] theorem only_emit {e : E} : Only P (emit e) ↔ P e := by simp [Only, emit]

theorem only_bind :
    Only P (x >>= f) ↔ Only P x ∧ ∀ a, x.value = some a → Only P (f a) := by
  cases h : x.value with
  | none =>
    rw [bind_of_none h]
    exact ⟨fun only => ⟨only, fun _ no => by cases no⟩, And.left⟩
  | some a =>
    rw [bind_of_some h]
    simp only [Only, List.mem_append, or_imp, forall_and, Option.some.injEq, forall_eq']

/-- The value `a` is reached with an allowed log. -/
def Returns (P : E → Prop) (x : Traced E α) (a : α) : Prop := Only P x ∧ x.value = some a

theorem returns_pure (a : α) : Returns P (pure a : Traced E α) a := ⟨only_pure a, rfl⟩

theorem returns_emit {e : E} (h : P e) : Returns P (emit e) () := ⟨only_emit.mpr h, rfl⟩

theorem returns_ofOption {o : Option α} (h : o = some a) : Returns P (ofOption o) a :=
  ⟨only_ofOption o, h⟩

theorem returns_bind (hx : Returns P x a) (hf : Returns P (f a) b) : Returns P (x >>= f) b := by
  obtain ⟨only, value⟩ := hx
  constructor
  · rw [only_bind]
    refine ⟨only, fun a' ha' => ?_⟩
    obtain rfl := Option.some.inj (value.symm.trans ha')
    exact hf.1
  · rw [bind_value, value]
    exact hf.2

theorem only_bind_returns (hx : Returns P x a) : Only P (x >>= f) ↔ Only P (f a) := by
  rw [only_bind]
  constructor
  · exact fun only => only.2 a hx.2
  · refine fun only => ⟨hx.1, fun a' ha' => ?_⟩
    obtain rfl := Option.some.inj (hx.2.symm.trans ha')
    exact only

/-! ### Refinement -/

def Refines (P : E → Prop) (R : α → A → Prop) (x : Traced E α) (o : Option A) : Prop :=
  ∀ c, o = some c → ∃ a, Returns P x a ∧ R a c

variable {R : α → A → Prop} {S : β → B → Prop}

theorem refines_pure {c : A} (h : R a c) : Refines P R (pure a) (some c) := by
  intro c' same
  obtain rfl := Option.some.inj same
  exact ⟨a, returns_pure a, h⟩

theorem refines_none : Refines P R x none := fun _ no => by cases no

theorem Returns.refines {c : A} (hx : Returns P x a) (h : R a c) : Refines P R x (some c) := by
  intro c' same
  obtain rfl := Option.some.inj same
  exact ⟨a, hx, h⟩

/-- Refinement goes through sequential composition. -/
theorem refines_bind {o : Option A} {g : A → Option B} (hx : Refines P R x o)
    (hf : ∀ a c, R a c → Refines P S (f a) (g c)) : Refines P S (x >>= f) (o >>= g) := by
  intro c' same
  obtain ⟨c, ho, hg⟩ := Option.bind_eq_some_iff.mp same
  obtain ⟨a, ha, related⟩ := hx c ho
  obtain ⟨b, hb, related'⟩ := hf a c related c' hg
  exact ⟨b, returns_bind ha hb, related'⟩

theorem refines_ofOption {o : Option α} {o' : Option A}
    (h : ∀ c, o' = some c → ∃ a, o = some a ∧ R a c) : Refines P R (ofOption o) o' := by
  intro c hc
  obtain ⟨a, ha, related⟩ := h c hc
  exact ⟨a, returns_ofOption ha, related⟩

/-- Refinement where the computation also has no value when the function has none. -/
def Agrees (P : E → Prop) (R : α → A → Prop) (x : Traced E α) (o : Option A) : Prop :=
  Only P x ∧ Option.Rel R x.value o

theorem Refines.agrees {o : Option A} (h : Refines P R x o) (hasValue : o.isSome) :
    Agrees P R x o := by
  obtain ⟨c, rfl⟩ := Option.isSome_iff_exists.mp hasValue
  obtain ⟨a, ⟨only, value⟩, related⟩ := h c rfl
  exact ⟨only, by rw [value]; exact Option.Rel.some related⟩

theorem agrees_none : Agrees P R (ofOption none) none :=
  ⟨only_ofOption none, Option.Rel.none⟩

theorem agrees_pure {c : A} (h : R a c) : Agrees P R (pure a) (some c) :=
  ⟨only_pure a, Option.Rel.some h⟩

theorem Returns.agrees {o : Option B} (hx : Returns P x a) (hf : Agrees P S (f a) o) :
    Agrees P S (x >>= f) o := by
  rw [Agrees, only_bind_returns hx, bind_value, hx.2]
  exact hf

theorem Agrees.fails (hx : Agrees P R x none) : Agrees P S (x >>= f) none := by
  obtain ⟨only, values⟩ := hx
  cases h : x.value with
  | none =>
    rw [bind_of_none h]
    exact ⟨only, Option.Rel.none⟩
  | some a =>
    rw [h] at values
    cases values

theorem agrees_bind {o : Option A} {g : A → Option B} (hx : Agrees P R x o)
    (hf : ∀ a c, R a c → Agrees P S (f a) (g c)) : Agrees P S (x >>= f) (o >>= g) := by
  obtain ⟨only, values⟩ := hx
  cases h : x.value with
  | none =>
    rw [h] at values
    cases values
    rw [bind_of_none h]
    exact ⟨only, Option.Rel.none⟩
  | some a =>
    rw [h] at values
    cases values with
    | some related =>
      rw [bind_of_some h]
      obtain ⟨only', values'⟩ := hf _ _ related
      refine ⟨fun e he => ?_, values'⟩
      exact (List.mem_append.mp he).elim (only e) (only' e)

end Traced

end DeepDB
