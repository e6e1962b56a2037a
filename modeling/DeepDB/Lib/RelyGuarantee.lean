import DeepDB.Lib.Linearizability

/-!
Programs that share a state. A program is a tree of atomic actions; between two of its actions the
state may change as others are allowed to change it. A program ensures a result when each of its own
actions keeps to the same rules, from any state in which it can find itself there. Threads that run
such programs keep the rules together.
-/

namespace DeepDB.RelyGuarantee
open Linearizability

/-- A program over actions `A` with results `R`. A loop whose rounds are used up comes to a `stop`. -/
inductive Prog (A : Type) (R : A → Type) (α : Type) where
  | pure (a : α)
  | act (a : A) (k : R a → Prog A R α)
  | stop

variable {A S T C α β : Type} {R : A → Type}

namespace Prog

def bind : Prog A R α → (α → Prog A R β) → Prog A R β
  | .pure a, f => f a
  | .act a k, f => .act a fun r => (k r).bind f
  | .stop, _ => .stop

instance : Monad (Prog A R) where
  pure := .pure
  bind := Prog.bind

def perform (a : A) : Prog A R (R a) := .act a .pure

/-- The program alone. -/
def run (exec : (a : A) → S → Option (R a × S)) : Prog A R α → S → Option (α × S)
  | .pure a, s => some (a, s)
  | .act a k, s =>
    match exec a s with
    | some (r, s') => run exec (k r) s'
    | none => none
  | .stop, _ => none

variable {exec : (a : A) → S → Option (R a × S)} {p : Prog A R α} {f : α → Prog A R β} {s s' : S}

@[simp] theorem run_pure {a : α} : (Pure.pure a : Prog A R α).run exec s = some (a, s) := rfl

@[simp] theorem run_stop : (stop : Prog A R α).run exec s = none := rfl

theorem run_bind : (p >>= f).run exec s = (p.run exec s).bind fun x => (f x.1).run exec x.2 := by
  show (p.bind f).run exec s = _
  induction p generalizing s with
  | pure a => rfl
  | act a k ih =>
    simp only [bind, run]
    cases exec a s with
    | none => rfl
    | some x => exact ih x.1
  | stop => rfl

theorem run_perform {a : A} : (perform a : Prog A R (R a)).run exec s = exec a s := by
  unfold perform run
  cases exec a s <;> rfl

/-- The first part of a program has run. -/
theorem run_bind_of {a : α} (first : p.run exec s = some (a, s')) :
    (p >>= f).run exec s = (f a).run exec s' := by
  rw [run_bind, first, Option.bind_some]

theorem run_perform_of {a : A} {f : R a → Prog A R β} {r : R a} (done : exec a s = some (r, s')) :
    (perform a >>= f).run exec s = (f r).run exec s' :=
  run_bind_of (run_perform.trans done)

end Prog

/-! ### Programs among others -/

/-- The states that may be met, and what every action leaves of a state. -/
structure Rules (S : Type) where
  Inv : S → Prop
  Keeps : S → S → Prop
  refl : ∀ s, Keeps s s
  trans : ∀ {s s' s''}, Keeps s s' → Keeps s' s'' → Keeps s s''

variable (exec : (a : A) → S → Option (R a × S)) (rules : Rules S) (Meets : A → S → Prop)

/-- Each action has a result and keeps the rules in every state that the program can meet, as long
as its own actions satisfy `Meets`, and `Q` holds of the program's result ever after. -/
def Ensures : Prog A R α → (α → S → Prop) → S → Prop
  | .pure a, Q, s => ∀ s', rules.Inv s' → rules.Keeps s s' → Q a s'
  | .act a k, Q, s => ∀ s', rules.Inv s' → rules.Keeps s s' → Meets a s' →
    ∃ r s'', exec a s' = some (r, s'') ∧ rules.Inv s'' ∧ rules.Keeps s' s'' ∧ Ensures (k r) Q s''
  | .stop, _, _ => True

variable {exec rules Meets} {p : Prog A R α} {Q Q' : α → S → Prop} {s s' : S}

/-- It is enough to look at the states that come later. -/
theorem ensures_later
    (later : ∀ s', rules.Inv s' → rules.Keeps s s' → Ensures exec rules Meets p Q s') :
    Ensures exec rules Meets p Q s := by
  cases p with
  | pure a =>
    intro s' inv keeps
    exact later s' inv keeps s' inv (rules.refl s')
  | act a k =>
    intro s' inv keeps meets
    exact later s' inv keeps s' inv (rules.refl s') meets
  | stop => trivial

theorem ensures_stable (h : Ensures exec rules Meets p Q s) (keeps : rules.Keeps s s') :
    Ensures exec rules Meets p Q s' := by
  cases p with
  | pure a =>
    intro s'' inv' keeps'
    exact h s'' inv' (rules.trans keeps keeps')
  | act a k =>
    intro s'' inv' keeps' meets
    exact h s'' inv' (rules.trans keeps keeps') meets
  | stop => trivial

theorem ensures_mono (h : Ensures exec rules Meets p Q s)
    (weaker : ∀ a s, rules.Inv s → Q a s → Q' a s) : Ensures exec rules Meets p Q' s := by
  induction p generalizing s with
  | pure a =>
    intro s' inv keeps
    exact weaker a s' inv (h s' inv keeps)
  | act a k ih =>
    intro s' inv keeps meets
    obtain ⟨r, s'', run, inv', keeps', rest⟩ := h s' inv keeps meets
    exact ⟨r, s'', run, inv', keeps', ih r rest⟩
  | stop => trivial

theorem ensures_pure {a : α} (h : ∀ s', rules.Inv s' → rules.Keeps s s' → Q a s') :
    Ensures exec rules Meets (Pure.pure a : Prog A R α) Q s := h

theorem ensures_bind {f : α → Prog A R β} {Q : β → S → Prop}
    (h : Ensures exec rules Meets p (fun a s => Ensures exec rules Meets (f a) Q s) s) :
    Ensures exec rules Meets (p >>= f) Q s := by
  show Ensures exec rules Meets (p.bind f) Q s
  induction p generalizing s with
  | pure a => exact ensures_later h
  | act a k ih =>
    intro s' inv keeps meets
    obtain ⟨r, s'', run, inv', keeps', rest⟩ := h s' inv keeps meets
    exact ⟨r, s'', run, inv', keeps', ih r rest⟩
  | stop => trivial

theorem ensures_keeps (h : Ensures exec rules Meets p Q s) :
    Ensures exec rules Meets p (fun a s' => Q a s' ∧ rules.Keeps s s') s := by
  suffices ∀ s₀, rules.Keeps s₀ s → Ensures exec rules Meets p (fun a s' => Q a s' ∧ rules.Keeps s₀ s') s
    from this s (rules.refl s)
  induction p generalizing s with
  | pure a =>
    intro s₀ before s' inv keeps
    exact ⟨h s' inv keeps, rules.trans before keeps⟩
  | act a k ih =>
    intro s₀ before s' inv keeps meets
    obtain ⟨r, s'', run, inv', keeps', rest⟩ := h s' inv keeps meets
    exact ⟨r, s'', run, inv', keeps', ih r rest s₀ (rules.trans (rules.trans before keeps) keeps')⟩
  | stop => exact fun _ _ => trivial

/-- A call, and what comes after it. -/
theorem ensures_call {f : α → Prog A R β} {Q' : β → S → Prop} (h : Ensures exec rules Meets p Q s)
    (rest : ∀ a s', rules.Inv s' → rules.Keeps s s' → Q a s' →
      Ensures exec rules Meets (f a) Q' s') : Ensures exec rules Meets (p >>= f) Q' s :=
  ensures_bind (ensures_mono (ensures_keeps h) fun a s' inv ⟨q, keeps⟩ => rest a s' inv keeps q)

/-- One action, in the state in which it is performed, and what comes after it. -/
theorem ensures_perform {a : A} {f : R a → Prog A R β} {Q : β → S → Prop}
    (h : ∀ s', rules.Inv s' → rules.Keeps s s' → Meets a s' →
      ∃ r s'', exec a s' = some (r, s'') ∧ rules.Inv s'' ∧ rules.Keeps s' s'' ∧
        Ensures exec rules Meets (f r) Q s'') :
    Ensures exec rules Meets (Prog.perform a >>= f) Q s := by
  intro s' inv keeps meets
  exact h s' inv keeps meets

/-! ### Threads -/

/-- What the threads share, and the call of each thread with what is left of it. -/
structure State (T C A : Type) (R : A → Type) (α S : Type) where
  shared : S
  pc : T → Option (C × Prog A R α)

section
variable [DecidableEq T] (exec) (starts : C → Prog A R α → Prop)
  (Allowed : History T C α → State T C A R α S → T → Prop)

/-- The threads go on. A thread may only take an action where `Allowed` says so. -/
inductive Steps : History T C α → State T C A R α S → History T C α → State T C A R α S → Prop where
  | refl {h : History T C α} {s : State T C A R α S} : Steps h s h s
  | call {h h' : History T C α} {s s' : State T C A R α S} (t : T) {c : C} {p : Prog A R α} :
      Steps h s h' s' → s'.pc t = none → starts c p →
      Steps h s (h' ++ [.call t c]) { s' with pc := Function.update s'.pc t (some (c, p)) }
  | run {h h' : History T C α} {s s' : State T C A R α S} (t : T) {c : C} {a : A}
      {k : R a → Prog A R α} {r : R a} {shared : S} :
      Steps h s h' s' → s'.pc t = some (c, .act a k) → Allowed h' s' t →
      exec a s'.shared = some (r, shared) →
      Steps h s h' { shared, pc := Function.update s'.pc t (some (c, k r)) }
  | ret {h h' : History T C α} {s s' : State T C A R α S} (t : T) {c : C} {a : α} :
      Steps h s h' s' → s'.pc t = some (c, .pure a) →
      Steps h s (h' ++ [.ret t a]) { s' with pc := Function.update s'.pc t none }

/-- A run of threads that have not called anything yet. -/
def Runs (init : S) (h : History T C α) (s : State T C A R α S) : Prop :=
  Steps exec starts Allowed [] ⟨init, fun _ => none⟩ h s

end

/-- A thread is between two calls or inside one that ensures its result. -/
def ThreadOk (exec : (a : A) → S → Option (R a × S)) (rules : Rules S) (Post : C → α → S → Prop)
    (h : History T C α) (s : S) (t : T) : Option (C × Prog A R α) → Prop
  | none => ∀ i c, ¬Pending h i t c
  | some (c, p) => (∃ i, Pending h i t c) ∧ Ensures exec rules (fun _ _ => True) p (Post c) s

structure Ok (exec : (a : A) → S → Option (R a × S)) (rules : Rules S) (Post : C → α → S → Prop)
    (h : History T C α) (s : State T C A R α S) : Prop where
  inv : rules.Inv s.shared
  threads : ∀ t, ThreadOk exec rules Post h s.shared t (s.pc t)
  answers : ∀ i j t c a, Answered h i j t c a → Post c a s.shared

variable {Post : C → α → S → Prop} {h h' : History T C α} {e : Event T C α} {t : T}
  {pc : Option (C × Prog A R α)}

theorem ThreadOk.snoc (ok : ThreadOk exec rules Post h s t pc) (other : e.thread ≠ t) :
    ThreadOk exec rules Post (h ++ [e]) s t pc := by
  cases pc with
  | none => exact fun i c pending => ok i c (pending_of_snoc pending other)
  | some x =>
    obtain ⟨⟨i, pending⟩, ensures⟩ := ok
    exact ⟨⟨i, pending_snoc pending other⟩, ensures⟩

theorem ThreadOk.later (ok : ThreadOk exec rules Post h s t pc) (keeps : rules.Keeps s s') :
    ThreadOk exec rules Post h s' t pc := by
  cases pc with
  | none => exact ok
  | some x => exact ⟨ok.1, ensures_stable ok.2 keeps⟩

theorem answered_call {i j : Nat} {u : T} {c c' : C} {a : α}
    (answered : Answered (h ++ [.call u c']) i j t c a) : Answered h i j t c a := by
  rcases answered_snoc answered with before | ⟨-, same, -⟩
  · exact before
  · cases same

variable [DecidableEq T] {starts : C → Prog A R α → Prop}
  {Allowed : History T C α → State T C A R α S → T → Prop} {s s' : State T C A R α S}

/-- Threads whose calls ensure their results keep the rules, and every answer holds ever after. -/
theorem steps_ok (stable : ∀ c a m m', Post c a m → rules.Inv m' → rules.Keeps m m' → Post c a m')
    (calls : ∀ c p m, starts c p → rules.Inv m → Ensures exec rules (fun _ _ => True) p (Post c) m)
    (steps : Steps exec starts Allowed h s h' s') (ok : Ok exec rules Post h s) :
    Ok exec rules Post h' s' ∧ rules.Keeps s.shared s'.shared := by
  induction steps with
  | refl => exact ⟨ok, rules.refl _⟩
  | @call _ _ s' t c p _ idle starts ih =>
    obtain ⟨ok, keeps⟩ := ih ok
    refine ⟨⟨ok.inv, fun u => ?_, fun i j u c a answered => ?_⟩, keeps⟩
    · show ThreadOk exec rules Post _ _ u (Function.update s'.pc t _ u)
      by_cases same : u = t
      · subst same
        rw [Function.update_self]
        exact ⟨⟨_, pending_call _ u c⟩, calls c p _ starts ok.inv⟩
      · rw [Function.update_of_ne same]
        exact (ok.threads u).snoc (Ne.symm same)
    · exact ok.answers i j u c a (answered_call answered)
  | @run _ _ s' t c a k r shared _ here _ done ih =>
    obtain ⟨ok, keeps⟩ := ih ok
    have mine := ok.threads t
    rw [here] at mine
    obtain ⟨pending, ensures⟩ := mine
    obtain ⟨r', shared', done', inv', keeps', rest⟩ := ensures _ ok.inv (rules.refl _) trivial
    rw [done] at done'
    cases done'
    refine ⟨⟨inv', fun u => ?_, fun i j u c a answered => ?_⟩, rules.trans keeps keeps'⟩
    · show ThreadOk exec rules Post _ _ u (Function.update s'.pc t _ u)
      by_cases same : u = t
      · subst same
        rw [Function.update_self]
        exact ⟨pending, rest⟩
      · rw [Function.update_of_ne same]
        exact (ok.threads u).later keeps'
    · exact stable c a _ _ (ok.answers i j u c a answered) inv' keeps'
  | @ret _ _ s' t c a _ here ih =>
    obtain ⟨ok, keeps⟩ := ih ok
    have mine := ok.threads t
    rw [here] at mine
    obtain ⟨⟨i, pending⟩, ensures⟩ := mine
    refine ⟨⟨ok.inv, fun u => ?_, fun i' j u c' a' answered => ?_⟩, keeps⟩
    · show ThreadOk exec rules Post _ _ u (Function.update s'.pc t _ u)
      by_cases same : u = t
      · subst same
        rw [Function.update_self]
        exact fun i c => not_pending_ret
      · rw [Function.update_of_ne same]
        exact (ok.threads u).snoc (Ne.symm same)
    · rcases answered_snoc answered with before | ⟨-, same, pending'⟩
      · exact ok.answers i' j u c' a' before
      · cases same
        obtain ⟨-, rfl⟩ := pending_unique pending pending'
        exact ensures _ ok.inv (rules.refl _)

theorem runs_ok {init : S}
    (stable : ∀ c a m m', Post c a m → rules.Inv m' → rules.Keeps m m' → Post c a m')
    (calls : ∀ c p m, starts c p → rules.Inv m → Ensures exec rules (fun _ _ => True) p (Post c) m)
    (inv : rules.Inv init) (runs : Runs exec starts Allowed init h s) : Ok exec rules Post h s := by
  refine (steps_ok stable calls runs ⟨inv, fun t i c pending => ?_, fun i j t c a answered => ?_⟩).1
  · cases pending.1
  · cases answered.2.1

end DeepDB.RelyGuarantee
