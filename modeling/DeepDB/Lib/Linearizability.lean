import Mathlib.Logic.Function.Basic
import Mathlib.Data.List.Nodup
import Mathlib.Data.List.Pairwise

/-!
Linearizability. A history is the sequence of the calls and returns of the threads. It is
linearizable when its operations can be put in one order that respects real time and in which a
sequential object gives every result that was returned. An implementation that the atomic object
simulates has only such histories.
-/

namespace DeepDB.Linearizability

inductive Event (T O R : Type) where
  | call (t : T) (op : O)
  | ret (t : T) (r : R)

variable {T O R σ : Type}

def Event.thread : Event T O R → T
  | .call t _ => t
  | .ret t _ => t

abbrev History (T O R : Type) := List (Event T O R)

variable {h : History T O R} {e : Event T O R} {i j : Nat} {t t' : T} {op op' : O} {r r' : R}

/-! ### Calls and their answers -/

/-- The last thing thread `t` did was the call at `i`. -/
def Pending (h : History T O R) (i : Nat) (t : T) (op : O) : Prop :=
  h[i]? = some (.call t op) ∧ ∀ m e, i < m → h[m]? = some e → e.thread ≠ t

/-- The call at `i` is answered at `j`. -/
def Answered (h : History T O R) (i j : Nat) (t : T) (op : O) (r : R) : Prop :=
  i < j ∧ h[i]? = some (.call t op) ∧ h[j]? = some (.ret t r) ∧
    ∀ m e, i < m → m < j → h[m]? = some e → e.thread ≠ t

/-- One operation in a sequential order: its call in the history and the result given to it. -/
structure Entry (T O R : Type) where
  call : Nat
  thread : T
  op : O
  result : R

/-- The operation `x` was over before `y` was called. -/
def Before (h : History T O R) (x y : Entry T O R) : Prop :=
  ∃ j t op r, Answered h x.call j t op r ∧ j < y.call

/-- The sequential object gives the results. -/
def Legal (apply : O → σ → σ × R) : σ → List (Entry T O R) → Prop
  | _, [] => True
  | s, x :: order => (apply x.op s).2 = x.result ∧ Legal apply (apply x.op s).1 order

def final (apply : O → σ → σ × R) (s : σ) (order : List (Entry T O R)) : σ :=
  order.foldl (fun s x => (apply x.op s).1) s

structure Linearization (apply : O → σ → σ × R) (init : σ) (h : History T O R)
    (order : List (Entry T O R)) : Prop where
  calls : ∀ x ∈ order, h[x.call]? = some (.call x.thread x.op)
  once : (order.map Entry.call).Nodup
  complete : ∀ i j t op r, Answered h i j t op r → ⟨i, t, op, r⟩ ∈ order
  realTime : order.Pairwise fun x y => ¬ Before h y x
  legal : Legal apply init order

def Linearizable (apply : O → σ → σ × R) (init : σ) (h : History T O R) : Prop :=
  ∃ order, Linearization apply init h order

/-! ### One event more -/

theorem getElem?_snoc_some {e' : Event T O R} (hi : h[i]? = some e') :
    (h ++ [e])[i]? = some e' := by
  rw [List.getElem?_append_left (List.getElem?_eq_some_iff.mp hi).1]
  exact hi

theorem getElem?_snoc {e' : Event T O R} (hi : (h ++ [e])[i]? = some e') :
    h[i]? = some e' ∨ (i = h.length ∧ e' = e) := by
  rcases Nat.lt_trichotomy i h.length with hlt | rfl | hlt
  · rw [List.getElem?_append_left hlt] at hi
    exact Or.inl hi
  · rw [List.getElem?_concat_length] at hi
    exact Or.inr ⟨rfl, (Option.some.inj hi).symm⟩
  · rw [List.getElem?_eq_none (by simp only [List.length_append, List.length_singleton]; omega)]
      at hi
    cases hi

theorem lt_of_getElem? {e' : Event T O R} (hi : h[i]? = some e') : i < h.length :=
  (List.getElem?_eq_some_iff.mp hi).1

theorem pending_unique (hi : Pending h i t op) (hj : Pending h j t op') : i = j ∧ op = op' := by
  have same : i = j := by
    rcases Nat.lt_trichotomy i j with hlt | same | hlt
    · exact absurd rfl (hi.2 j _ hlt hj.1)
    · exact same
    · exact absurd rfl (hj.2 i _ hlt hi.1)
  subst same
  have calls := hi.1.symm.trans hj.1
  cases calls
  exact ⟨rfl, rfl⟩

theorem pending_snoc (hi : Pending h i t op) (other : e.thread ≠ t) :
    Pending (h ++ [e]) i t op := by
  refine ⟨getElem?_snoc_some hi.1, fun m e' hm he => ?_⟩
  rcases getElem?_snoc he with he | ⟨-, rfl⟩
  · exact hi.2 m e' hm he
  · exact other

theorem pending_of_snoc (hi : Pending (h ++ [e]) i t op) (other : e.thread ≠ t) :
    Pending h i t op := by
  rcases getElem?_snoc hi.1 with hcall | ⟨-, rfl⟩
  · exact ⟨hcall, fun m e' hm he => hi.2 m e' hm (getElem?_snoc_some he)⟩
  · exact absurd rfl other

theorem pending_call (h : History T O R) (t : T) (op : O) :
    Pending (h ++ [.call t op]) h.length t op := by
  refine ⟨List.getElem?_concat_length, fun m e hm he => ?_⟩
  have := lt_of_getElem? he
  simp only [List.length_append, List.length_singleton] at this
  omega

theorem not_pending_ret (hi : Pending (h ++ [.ret t r]) i t op) : False := by
  rcases getElem?_snoc hi.1 with hcall | ⟨-, same⟩
  · exact hi.2 h.length _ (lt_of_getElem? hcall) List.getElem?_concat_length rfl
  · cases same

theorem not_answered (hi : Pending h i t op) : ¬ Answered h i j t' op' r := by
  rintro ⟨hlt, hcall, hret, -⟩
  cases hi.1.symm.trans hcall
  exact hi.2 j _ hlt hret rfl

/-- A new event answers at most the call that was pending. -/
theorem answered_snoc (ha : Answered (h ++ [e]) i j t op r) :
    Answered h i j t op r ∨ (j = h.length ∧ e = .ret t r ∧ Pending h i t op) := by
  obtain ⟨hlt, hcall, hret, quiet⟩ := ha
  have bound := lt_of_getElem? hret
  simp only [List.length_append, List.length_singleton] at bound
  have call' : h[i]? = some (.call t op) := by
    rw [List.getElem?_append_left (by omega)] at hcall
    exact hcall
  rcases getElem?_snoc hret with hret | ⟨rfl, same⟩
  · exact Or.inl ⟨hlt, call', hret, fun m e' hm hmj he => quiet m e' hm hmj (getElem?_snoc_some he)⟩
  · exact Or.inr ⟨rfl, same.symm, call', fun m e' hm he =>
      quiet m e' hm (lt_of_getElem? he) (getElem?_snoc_some he)⟩

/-! ### The atomic object -/

inductive Status (O R : Type) where
  | idle
  | pending (op : O)
  | done (r : R)

/-- One thread moves on. -/
theorem status_update [DecidableEq T] {P : Type} (status : P → Status O R) (pc : T → P) (t : T)
    (p : P) : (fun u => status (Function.update pc t p u)) =
      Function.update (fun u => status (pc u)) t (status p) :=
  Function.comp_update status pc t p

/-- A thread calls, its operation takes effect at one moment, and it returns. -/
inductive Atomic [DecidableEq T] (apply : O → σ → σ × R) :
    σ → (T → Status O R) → Option (Event T O R) → σ → (T → Status O R) → Prop where
  | call {s : σ} {st : T → Status O R} (t : T) (op : O) : st t = .idle →
      Atomic apply s st (some (.call t op)) s (Function.update st t (.pending op))
  | effect {s : σ} {st : T → Status O R} (t : T) (op : O) : st t = .pending op →
      Atomic apply s st none (apply op s).1 (Function.update st t (.done (apply op s).2))
  | ret {s : σ} {st : T → Status O R} (t : T) (r : R) : st t = .done r →
      Atomic apply s st (some (.ret t r)) s (Function.update st t .idle)

/-- What the order of effects has to do with what the threads are waiting for. -/
def Waits (h : History T O R) (order : List (Entry T O R)) (t : T) : Status O R → Prop
  | .idle => ∀ i op, ¬ Pending h i t op
  | .pending op => ∃ i, Pending h i t op ∧ ∀ x ∈ order, x.call ≠ i
  | .done r => ∃ i op, Pending h i t op ∧ ⟨i, t, op, r⟩ ∈ order

structure Follows (apply : O → σ → σ × R) (init : σ) (h : History T O R) (s : σ)
    (st : T → Status O R) (order : List (Entry T O R)) : Prop where
  linear : Linearization apply init h order
  state : final apply init order = s
  waits : ∀ t, Waits h order t (st t)

theorem waits_snoc {order : List (Entry T O R)} {status : Status O R}
    (hw : Waits h order t status) (other : e.thread ≠ t) : Waits (h ++ [e]) order t status := by
  cases status with
  | idle => exact fun i op hi => hw i op (pending_of_snoc hi other)
  | pending op =>
    obtain ⟨i, hi, fresh⟩ := hw
    exact ⟨i, pending_snoc hi other, fresh⟩
  | done r =>
    obtain ⟨i, op, hi, hmem⟩ := hw
    exact ⟨i, op, pending_snoc hi other, hmem⟩

/-- The order of the operations survives a new event that answers none or one of them. -/
theorem linearization_snoc {apply : O → σ → σ × R} {init : σ} {order : List (Entry T O R)}
    (hl : Linearization apply init h order)
    (answer : ∀ i t op r, e = .ret t r → Pending h i t op → ⟨i, t, op, r⟩ ∈ order) :
    Linearization apply init (h ++ [e]) order where
  calls := fun x hx => getElem?_snoc_some (hl.calls x hx)
  once := hl.once
  complete := by
    intro i j t op r ha
    rcases answered_snoc ha with ha | ⟨-, same, hi⟩
    · exact hl.complete i j t op r ha
    · exact answer i t op r same hi
  realTime := by
    refine hl.realTime.imp_of_mem fun {x y} hx _ late => ?_
    rintro ⟨j, t, op, r, ha, hj⟩
    rcases answered_snoc ha with ha | ⟨rfl, -, -⟩
    · exact late ⟨j, t, op, r, ha, hj⟩
    · exact absurd (lt_of_getElem? (hl.calls x hx)) (Nat.not_lt.mpr (Nat.le_of_lt hj))
  legal := hl.legal

theorem legal_append {apply : O → σ → σ × R} {s : σ} {order : List (Entry T O R)}
    {x : Entry T O R} (hl : Legal apply s order)
    (hx : (apply x.op (final apply s order)).2 = x.result) : Legal apply s (order ++ [x]) := by
  induction order generalizing s with
  | nil => exact ⟨hx, trivial⟩
  | cons y order ih => exact ⟨hl.1, ih hl.2 hx⟩

theorem follows_step [DecidableEq T] {apply : O → σ → σ × R} {init s s' : σ}
    {st st' : T → Status O R} {label : Option (Event T O R)} {order : List (Entry T O R)}
    (hf : Follows apply init h s st order) (hstep : Atomic apply s st label s' st') :
    ∃ order', Follows apply init (h ++ label.toList) s' st' order' := by
  cases hstep with
  | call t op idle =>
    refine ⟨order, linearization_snoc hf.linear fun _ _ _ _ same => (by cases same), hf.state,
      fun u => ?_⟩
    by_cases same : u = t
    · subst same
      rw [Function.update_self]
      refine ⟨h.length, pending_call h u op, fun x hx hlen => ?_⟩
      have := lt_of_getElem? (hf.linear.calls x hx)
      omega
    · rw [Function.update_of_ne same]
      exact waits_snoc (hf.waits u) (Ne.symm same)
  | effect t op pending =>
    have hw := hf.waits t
    rw [pending] at hw
    obtain ⟨i, hi, fresh⟩ := hw
    have hl := hf.linear
    refine ⟨order ++ [⟨i, t, op, (apply op s).2⟩], ?_, ?_, fun u => ?_⟩
    · rw [Option.toList_none, List.append_nil]
      refine ⟨?_, ?_, ?_, ?_, ?_⟩
      · intro x hx
        rcases List.mem_append.mp hx with hx | hx
        · exact hl.calls x hx
        · obtain rfl := List.mem_singleton.mp hx
          exact hi.1
      · rw [List.map_append, List.nodup_append]
        refine ⟨hl.once, List.nodup_singleton _, ?_⟩
        intro a ha b hb
        obtain ⟨x, hx, rfl⟩ := List.mem_map.mp ha
        obtain rfl := List.mem_singleton.mp hb
        exact fresh x hx
      · exact fun i j t op r ha => List.mem_append_left _ (hl.complete i j t op r ha)
      · rw [List.pairwise_append]
        refine ⟨hl.realTime, List.pairwise_singleton _ _, ?_⟩
        intro x _ y hy
        obtain rfl := List.mem_singleton.mp hy
        rintro ⟨j, t', op', r', ha, -⟩
        exact not_answered hi ha
      · refine legal_append hl.legal ?_
        rw [hf.state]
    · rw [final, List.foldl_append]
      exact congrArg (fun s => (apply op s).1) hf.state
    · rw [Option.toList_none, List.append_nil]
      by_cases same : u = t
      · subst same
        rw [Function.update_self]
        exact ⟨i, op, hi, List.mem_append_right _ List.mem_cons_self⟩
      · rw [Function.update_of_ne same]
        have hu := hf.waits u
        revert hu
        cases st u with
        | idle => exact id
        | pending op' =>
          rintro ⟨i', hi', fresh'⟩
          refine ⟨i', hi', fun x hx => ?_⟩
          rcases List.mem_append.mp hx with hx | hx
          · exact fresh' x hx
          · obtain rfl := List.mem_singleton.mp hx
            rintro rfl
            cases hi.1.symm.trans hi'.1
            exact same rfl
        | done r =>
          rintro ⟨i', op', hi', hmem⟩
          exact ⟨i', op', hi', List.mem_append_left _ hmem⟩
  | ret t r done =>
    have hw := hf.waits t
    rw [done] at hw
    obtain ⟨i, op, hi, hmem⟩ := hw
    refine ⟨order, linearization_snoc hf.linear fun i' t' op' r' same hi' => ?_, hf.state,
      fun u => ?_⟩
    · cases same
      obtain ⟨rfl, rfl⟩ := pending_unique hi hi'
      exact hmem
    · by_cases same : u = t
      · subst same
        rw [Function.update_self]
        exact fun i op hi => not_pending_ret hi
      · rw [Function.update_of_ne same]
        exact waits_snoc (hf.waits u) (Ne.symm same)

/-! ### Implementations -/

structure System (T O R : Type) where
  State : Type
  Init : State → Prop
  Step : State → Option (Event T O R) → State → Prop

inductive Steps (M : System T O R) (s : M.State) : History T O R → M.State → Prop where
  | refl : Steps M s [] s
  | step {h : History T O R} {s₁ s' : M.State} {label : Option (Event T O R)} :
      Steps M s h s₁ → M.Step s₁ label s' → Steps M s (h ++ label.toList) s'

/-- A run that is computed: each turn has a label and a next state. -/
def schedule {X S : Type} (turn : X → S → Option (Option (Event T O R) × S)) :
    List X → S → Option (History T O R × S)
  | [], s => some ([], s)
  | x :: xs, s => do
    let (label, s) ← turn x s
    let (h, s) ← schedule turn xs s
    return (label.toList ++ h, s)

theorem Steps.schedule {M : System T O R} {X : Type}
    {turn : X → M.State → Option (Option (Event T O R) × M.State)}
    (sound : ∀ x s label s', turn x s = some (label, s') → M.Step s label s')
    {s₀ s s' : M.State} {h h' : History T O R} (steps : Steps M s₀ h s) (xs : List X)
    (go : schedule turn xs s = some (h', s')) : Steps M s₀ (h ++ h') s' := by
  induction xs generalizing s h h' with
  | nil =>
    cases go
    rwa [List.append_nil]
  | cons x xs ih =>
    obtain ⟨⟨label, s₁⟩, first, go⟩ := Option.bind_eq_some_iff.mp go
    obtain ⟨⟨h₁, s₂⟩, rest, same⟩ := Option.bind_eq_some_iff.mp go
    cases same
    rw [← List.append_assoc]
    exact ih (steps.step (sound x s label s₁ first)) rest

def Run (M : System T O R) (h : History T O R) (s : M.State) : Prop :=
  ∃ s₀, M.Init s₀ ∧ Steps M s₀ h s

/-- Every step of the implementation is a step of the atomic object, or none. -/
structure Simulation [DecidableEq T] (M : System T O R) (apply : O → σ → σ × R) (init : σ)
    (Rel : M.State → σ → (T → Status O R) → Prop) : Prop where
  start : ∀ s, M.Init s → Rel s init fun _ => .idle
  step : ∀ s label s' a st, Rel s a st → M.Step s label s' →
    (label = none ∧ Rel s' a st) ∨
      ∃ a' st', Atomic apply a st label a' st' ∧ Rel s' a' st'

theorem follows_start (apply : O → σ → σ × R) (init : σ) :
    Follows apply init ([] : History T O R) init (fun _ => .idle) [] where
  linear :=
    { calls := fun _ hx => absurd hx List.not_mem_nil
      once := List.nodup_nil
      complete := by
        rintro i j t op r ⟨-, hcall, -⟩
        cases hcall
      realTime := List.Pairwise.nil
      legal := trivial }
  state := rfl
  waits := by
    rintro t i op ⟨hcall, -⟩
    cases hcall

theorem linearizable_of_simulation [DecidableEq T] {M : System T O R}
    {apply : O → σ → σ × R} {init : σ} {Rel : M.State → σ → (T → Status O R) → Prop}
    (sim : Simulation M apply init Rel) {s : M.State} (run : Run M h s) :
    (∃ a st, Rel s a st) ∧ Linearizable apply init h := by
  suffices ∃ a st order, Rel s a st ∧ Follows apply init h a st order by
    obtain ⟨a, st, order, hrel, hf⟩ := this
    exact ⟨⟨a, st, hrel⟩, order, hf.linear⟩
  obtain ⟨s₀, start, steps⟩ := run
  induction steps with
  | refl => exact ⟨init, _, [], sim.start _ start, follows_start apply init⟩
  | step _ hstep ih =>
    obtain ⟨a, st, order, hrel, hf⟩ := ih
    rcases sim.step _ _ _ a st hrel hstep with ⟨rfl, hrel'⟩ | ⟨a', st', hatomic, hrel'⟩
    · rw [Option.toList_none, List.append_nil]
      exact ⟨a, st, order, hrel', hf⟩
    · obtain ⟨order', hf'⟩ := follows_step hf hatomic
      exact ⟨a', st', order', hrel', hf'⟩

/-! ### Maps -/

inductive MapOp (K V : Type) where
  | insert (key : K) (value : Option V)
  | lookup (key : K)
  | delete (key : K)

inductive MapResult (V : Type) where
  | done
  | value (v : Option V)

def MapOp.apply {K V : Type} [DecidableEq K] : MapOp K V → (K → Option V) →
    (K → Option V) × MapResult V
  | .insert key value, m => (Function.update m key value, .done)
  | .lookup key, m => (m, .value (m key))
  | .delete key, m => (Function.update m key none, .done)

/-- The operation that may change the value of `key`. -/
def MapOp.Writes {K V : Type} (key : K) : MapOp K V → Prop
  | .insert k _ => k = key
  | .lookup _ => False
  | .delete k => k = key

section
variable {K V : Type} [DecidableEq K] {m : K → Option V} {key : K}
  {order pre mid post : List (Entry T (MapOp K V) (MapResult V))}
  {x y : Entry T (MapOp K V) (MapResult V)}

theorem final_quiet (quiet : ∀ y ∈ order, ¬ y.op.Writes key) :
    final MapOp.apply m order key = m key := by
  induction order generalizing m with
  | nil => rfl
  | cons y order ih =>
    obtain ⟨hy, rest⟩ := List.forall_mem_cons.mp quiet
    refine (ih rest).trans ?_
    show (y.op.apply m).1 key = m key
    revert hy
    cases y.op with
    | lookup => exact fun _ => rfl
    | insert k value => exact fun hy => Function.update_of_ne (Ne.symm hy) _ _
    | delete k => exact fun hy => Function.update_of_ne (Ne.symm hy) _ _

theorem legal_at (hl : Legal MapOp.apply m (pre ++ y :: post)) :
    (y.op.apply (final MapOp.apply m pre)).2 = y.result := by
  induction pre generalizing m with
  | nil => exact hl.1
  | cons x pre ih => exact ih hl.2

/-- A lookup has the value of the latest insert of its key. -/
theorem lookup_insert {value : Option V} (hl : Legal MapOp.apply m (pre ++ x :: mid ++ y :: post))
    (hx : x.op = .insert key value) (quiet : ∀ z ∈ mid, ¬ z.op.Writes key)
    (hy : y.op = .lookup key) : y.result = .value value := by
  have result := legal_at hl
  rw [hy] at result
  refine result.symm.trans (congrArg MapResult.value ?_)
  rw [final, List.foldl_append]
  refine (final_quiet quiet).trans ?_
  show (x.op.apply _).1 key = _
  rw [hx]
  exact Function.update_self _ _ _

/-- A lookup finds nothing when its key has been deleted since. -/
theorem lookup_delete (hl : Legal MapOp.apply m (pre ++ x :: mid ++ y :: post))
    (hx : x.op = .delete key) (quiet : ∀ z ∈ mid, ¬ z.op.Writes key)
    (hy : y.op = .lookup key) : y.result = .value none := by
  have result := legal_at hl
  rw [hy] at result
  refine result.symm.trans (congrArg MapResult.value ?_)
  rw [final, List.foldl_append]
  refine (final_quiet quiet).trans ?_
  show (x.op.apply _).1 key = _
  rw [hx]
  exact Function.update_self _ _ _

end

end DeepDB.Linearizability
