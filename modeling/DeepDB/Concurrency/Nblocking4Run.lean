import DeepDB.Concurrency.Nblocking4Find

/-!
Any number of threads that add and find, in any order of their steps. Every state holds a search
tree with the keys of all adds that have returned. A find that starts after an add of its key has
returned finds it, if it never loads the operation of a node under the sentinel while another thread
has an operation there: the loop of `find` breaks off at such a node, with the result from its parent.
-/

namespace DeepDB.Concurrency.Nblocking4
open Linearizability RelyGuarantee SearchTree

variable {T V : Type} {null : V} {key : Int} {i : Nat}

inductive Call (V : Type) where
  | add (key : Int) (value : V)
  | find (key : Int)

inductive Answer (V : Type) where
  | added
  | found (result : FindResult) (value : Option V)

def code (room : Nat) : Call V → Code V (Answer V)
  | .add key value => do
    add key value room room
    return .added
  | .find key => do
    let out ← find key none base_root room room
    return .found out.result out.value

/-- A call has any room for its loops. -/
def Starts (c : Call V) (p : Code V (Answer V)) : Prop := ∃ room, p = code room c

abbrev Threads (T V : Type) := State T (Call V) (Act V) Act.Result (Answer V) (Mem V)

/-- An add of the key was answered before the event `i`. -/
def AddedBefore (h : History T (Call V) (Answer V)) (i : Nat) (key : Int) : Prop :=
  ∃ i' j u value a, Answered h i' j u (.add key value) a ∧ j < i

/-- The find of an added key does not load the operation of a busy node under the sentinel. -/
def Undisturbed (h : History T (Call V) (Answer V)) (s : Threads T V) (t : T) : Prop :=
  ∀ i key n p, Pending h i t (.find key) → AddedBefore h i key →
    s.pc t = some (.find key, .act (.loadOp n) p) → n ≠ 0 → ¬Busy s.shared n

/-! ### Calls -/

def Post (c : Call V) (_ : Answer V) (m : Mem V) : Prop :=
  match c with
  | .add key _ => Held m key
  | .find _ => True

theorem post_later {m m' : Mem V} (c : Call V) (a : Answer V) (post : Post c a m) (keeps : Keeps m m') :
    Post c a m' := by
  cases c with
  | add key value => exact Held.later post keeps
  | find key => trivial

theorem code_ensures {m : Mem V} {c : Call V} {p : Code V (Answer V)} (starts : Starts c p) :
    Ensures exec (rules V) (fun _ _ => True) p (Post c) m := by
  obtain ⟨room, rfl⟩ := starts
  cases c with
  | add key value =>
    exact ensures_call add_ensures fun _ m' _ _ held => ensures_pure fun m'' _ keeps => held.later keeps
  | find key =>
    exact ensures_call (find_ensures False fun no => no.elim) fun out m' _ _ _ =>
      ensures_pure fun _ _ _ => trivial

/-- The action does not load the operation of a busy node under the sentinel. -/
def Quiet (a : Act V) (m : Mem V) : Prop := ∀ n, a = .loadOp n → n ≠ 0 → ¬Busy m n

theorem find_quiet {m : Mem V} {p : Code V (Answer V)} (held : Held m key) (starts : Starts (.find key) p) :
    Ensures exec (rules V) Quiet p (fun a _ => ∃ value, a = .found .FOUND value) m := by
  obtain ⟨room, rfl⟩ := starts
  refine ensures_call (find_ensures True fun _ => held) fun out m' _ _ post =>
    ensures_pure fun _ _ _ => ⟨out.value, ?_⟩
  have result : out.result = .FOUND := by
    by_contra missed
    obtain ⟨n, m'', other, busy, quiet⟩ := (post.missed missed).2 trivial
    exact quiet n rfl other busy
  rw [result]

/-! ### Runs -/

theorem start_good (null : V) : Good (start null) (.nil (childOf 0 false)) where
  repr := rfl
  root := rfl
  cells := List.nodup_singleton _
  pointers := List.nodup_nil
  ordered := trivial
  base := rfl
  sentinel := ⟨_, rfl⟩
  zero := List.not_mem_nil
  sides := by
    intro n p here is_left
    cases n with
    | zero =>
      cases here
      cases is_left <;> rfl
    | succ n => cases here
  lengths := rfl
  ops := by
    intro n p here
    cases n with
    | zero =>
      cases here
      exact .inl rfl
    | succ n => cases here

variable {h h₀ : History T (Call V) (Answer V)} {s s₀ : Threads T V}

theorem added_held (ok : Ok exec (rules V) Post h s) (added : AddedBefore h i key) :
    Held s.shared key := by
  obtain ⟨i', j, u, value, a, answered, -⟩ := added
  exact ok.answers i' j u (.add key value) a answered

/-- A later event adds nothing before an earlier one. -/
theorem addedBefore_of_snoc {e : Event T (Call V) (Answer V)} (added : AddedBefore (h ++ [e]) i key)
    (early : i ≤ h.length) : AddedBefore h i key := by
  obtain ⟨i', j, u, value, a, answered, before⟩ := added
  rcases answered_snoc answered with answered | ⟨rfl, -, -⟩
  · exact ⟨i', j, u, value, a, answered, before⟩
  · exact absurd before (Nat.not_lt.mpr early)

/-- What holds of the finds of added keys while none is disturbed. -/
structure Finds (h : History T (Call V) (Answer V)) (s : Threads T V) : Prop where
  threads : ∀ t i key p, s.pc t = some (.find key, p) → Pending h i t (.find key) →
    AddedBefore h i key →
      Ensures exec (rules V) Quiet p (fun a _ => ∃ value, a = .found .FOUND value) s.shared
  answers : ∀ i j t key a, Answered h i j t (.find key) a → AddedBefore h i key →
    ∃ value, a = .found .FOUND value

variable [DecidableEq T] {Allowed : History T (Call V) (Answer V) → Threads T V → T → Prop}

theorem run_ok (run : Runs exec Starts Allowed (start null) h s) : Ok exec (rules V) Post h s :=
  runs_ok (fun c a _ _ post _ keeps => post_later c a post keeps)
    (fun _ _ _ starts _ => code_ensures starts) ⟨_, start_good null⟩ run

theorem steps_finds (steps : Steps exec Starts Undisturbed h₀ s₀ h s)
    (ok₀ : Ok exec (rules V) Post h₀ s₀) (finds : Finds h₀ s₀) : Finds h s := by
  have later {h : History T (Call V) (Answer V)} {s : Threads T V}
      (steps : Steps exec Starts Undisturbed h₀ s₀ h s) : Ok exec (rules V) Post h s :=
    (steps_ok (fun c a _ _ post _ keeps => post_later c a post keeps)
      (fun _ _ _ starts _ => code_ensures starts) steps ok₀).1
  clear ok₀
  induction steps with
  | refl => exact finds
  | @call h' _ s' t c p sub idle starts ih =>
    obtain ⟨threads, answers⟩ := ih finds later
    refine ⟨fun u i key p' here pending added => ?_, fun i j u key a answered added => ?_⟩
    · replace here : Function.update s'.pc t (some (c, p)) u = some (.find key, p') := here
      by_cases same : u = t
      · subst same
        rw [Function.update_self] at here
        cases here
        obtain ⟨rfl, -⟩ := pending_unique pending (pending_call h' u _)
        have held : Held s'.shared key :=
          added_held (later sub) (addedBefore_of_snoc added (Nat.le_refl _))
        exact find_quiet held starts
      · rw [Function.update_of_ne same] at here
        have pending' := pending_of_snoc pending (Ne.symm same)
        exact threads u i key p' here pending'
          (addedBefore_of_snoc added (Nat.le_of_lt (lt_of_getElem? pending'.1)))
    · have answered' := answered_call answered
      exact answers i j u key a answered'
        (addedBefore_of_snoc added (Nat.le_of_lt (lt_of_getElem? answered'.2.1)))
  | @run h' _ s' t c a k r shared sub here allowed done ih =>
    obtain ⟨threads, answers⟩ := ih finds later
    refine ⟨fun u i key p' there pending added => ?_, answers⟩
    replace there : Function.update s'.pc t (some (c, k r)) u = some (.find key, p') := there
    have ok := later sub
    by_cases same : u = t
    · subst same
      rw [Function.update_self] at there
      cases there
      have quiet : Quiet a s'.shared := by
        rintro n rfl
        exact allowed i key n k pending added here
      obtain ⟨r', shared', done', -, -, rest⟩ :=
        threads u i key _ here pending added _ ok.inv (keeps_refl _) quiet
      rw [done] at done'
      cases done'
      exact rest
    · rw [Function.update_of_ne same] at there
      have mine := ok.threads t
      rw [here] at mine
      obtain ⟨r', shared', done', -, keeps, -⟩ := mine.2 _ ok.inv (keeps_refl _) trivial
      rw [done] at done'
      cases done'
      exact ensures_stable (threads u i key p' there pending added) keeps
  | @ret h' _ s' t c a sub here ih =>
    obtain ⟨threads, answers⟩ := ih finds later
    have ok := later sub
    refine ⟨fun u i key p' there pending added => ?_, fun i j u key a' answered added => ?_⟩
    · replace there : Function.update s'.pc t none u = some (.find key, p') := there
      by_cases same : u = t
      · subst same
        rw [Function.update_self] at there
        cases there
      · rw [Function.update_of_ne same] at there
        have pending' := pending_of_snoc pending (Ne.symm same)
        exact threads u i key p' there pending'
          (addedBefore_of_snoc added (Nat.le_of_lt (lt_of_getElem? pending'.1)))
    · rcases answered_snoc answered with before | ⟨-, same, pending⟩
      · exact answers i j u key a' before
          (addedBefore_of_snoc added (Nat.le_of_lt (lt_of_getElem? before.2.1)))
      · cases same
        have mine := ok.threads t
        rw [here] at mine
        obtain ⟨⟨i', pending'⟩, -⟩ := mine
        obtain ⟨rfl, rfl⟩ := pending_unique pending pending'
        exact threads t i key (.pure a) here pending
          (addedBefore_of_snoc added (Nat.le_of_lt (lt_of_getElem? pending.1))) _ ok.inv (keeps_refl _)

/-- Every state of every run holds a search tree with the keys that were added, and no thread is
stuck; undisturbed finds report the keys that were added before. -/
theorem adds_are_found (T V : Type) [DecidableEq T] (null : V) :
    (∀ (h : History T (Call V) (Answer V)) (s : Threads T V),
      Runs exec Starts (fun _ _ _ => True) (start null) h s →
        (∃ t, Good s.shared t ∧ t.keys.Pairwise (· < ·) ∧
          ∀ i j u key value a, Answered h i j u (.add key value) a → key ∈ t.keys) ∧
        ∀ u c a p, s.pc u = some (c, .act a p) → ∃ next, exec a s.shared = some next) ∧
    ∀ (h : History T (Call V) (Answer V)) (s : Threads T V),
      Runs exec Starts Undisturbed (start null) h s →
        ∀ i j u key a, Answered h i j u (.find key) a → AddedBefore h i key →
          ∃ value, a = .found .FOUND value := by
  constructor
  · intro h s run
    have ok := run_ok run
    obtain ⟨t, good⟩ := ok.inv
    refine ⟨⟨t, good, keys_sorted good.ordered, fun i j u key value a answered => ?_⟩,
      fun u c a p here => ?_⟩
    · exact Held.mem (ok.answers i j u (.add key value) a answered) good.toShape
    · have mine := ok.threads u
      rw [here] at mine
      obtain ⟨r, m', done, -⟩ := mine.2 _ ok.inv (keeps_refl _) trivial
      exact ⟨(r, m'), done⟩
  · intro h s run i j u key a answered added
    have empty : Finds [] (⟨start null, fun _ => none⟩ : Threads T V) :=
      ⟨fun _ _ _ _ here => (by cases here), fun _ _ _ _ _ answered => (by cases answered.2.1)⟩
    have begin : Runs exec Starts Undisturbed (start null) []
        (⟨start null, fun _ => none⟩ : Threads T V) := .refl
    have ok₀ : Ok exec (rules V) Post [] (⟨start null, fun _ => none⟩ : Threads T V) := run_ok begin
    exact (steps_finds run ok₀ empty).answers i j u key a answered added

/-! ### A busy node -/

/-- The thread takes its next action. -/
def advance (t : T) (s : Threads T V) : Option (Threads T V) :=
  match s.pc t with
  | some (c, .act a k) => (exec a s.shared).map fun x =>
      { shared := x.2, pc := Function.update s.pc t (some (c, k x.1)) }
  | _ => none

def advances (t : T) : Nat → Threads T V → Option (Threads T V)
  | 0, s => some s
  | n + 1, s => (advance t s).bind (advances t n)

theorem steps_advances {t : T} {n : Nat} {s' s'' : Threads T V}
    (steps : Steps exec Starts Allowed h₀ s₀ h s')
    (allowed : ∀ i < n, ∀ s₁, advances t i s' = some s₁ → Allowed h s₁ t)
    (go : advances t n s' = some s'') : Steps exec Starts Allowed h₀ s₀ h s'' := by
  induction n generalizing s' with
  | zero =>
    cases go
    exact steps
  | succ n ih =>
    obtain ⟨s₁, first, go⟩ := Option.bind_eq_some_iff.mp go
    have now : Allowed h s' t := allowed 0 (Nat.succ_pos n) s' rfl
    have next : ∀ i < n, ∀ s₂, advances t i s₁ = some s₂ → Allowed h s₂ t := by
      intro i less s₂ later
      refine allowed (i + 1) (Nat.succ_lt_succ less) s₂ ?_
      rw [advances, first, Option.bind_some, later]
    refine ih ?_ next go
    unfold advance at first
    cases here : s'.pc t with
    | none =>
      rw [here] at first
      cases first
    | some x =>
      obtain ⟨c, p⟩ := x
      rw [here] at first
      cases p with
      | pure a => cases first
      | stop => cases first
      | act a k =>
        obtain ⟨⟨r, m⟩, done, rfl⟩ := Option.map_eq_some_iff.mp first
        exact .run t steps here now done

/-- No node under the sentinel is busy. -/
def calm (m : Mem V) : Bool :=
  m.tree.tail.all fun p => (m.ops[p.op]?).all fun o => decide (GET_FLAG o = .NONE)

omit [DecidableEq T] in
theorem undisturbed_of_calm {t : T} (quiet : calm s.shared = true) : Undisturbed h s t := by
  rintro i key n p - - - other ⟨q, o, node, op, busy⟩
  obtain ⟨n, rfl⟩ : ∃ m, n = m + 1 := ⟨n - 1, by omega⟩
  rw [← List.getElem?_tail] at node
  have flag := List.all_eq_true.mp quiet q (List.mem_of_getElem? node)
  rw [op] at flag
  exact busy (of_decide_eq_true flag)

/-- One thread adds the key 1, and another one finds it afterwards. -/
def addThenFind : History Bool (Call Nat) (Answer Nat) :=
  [.call false (.add 1 10), .ret false .added, .call true (.find 1),
    .ret true (.found .FOUND (some 10))]

theorem adds_are_found_one : ∃ s : Threads Bool Nat,
    Runs exec Starts Undisturbed (start 0) addThenFind s ∧
      Answered addThenFind 2 3 true (.find 1) (.found .FOUND (some 10)) ∧
      AddedBefore addThenFind 2 1 ∧ ∃ value, Answer.found .FOUND (some 10) = .found .FOUND value := by
  have quietly : ∀ {t : Bool} {n : Nat} {h : History Bool (Call Nat) (Answer Nat)}
      {s : Threads Bool Nat}, (∀ i < n, (advances t i s).all (fun s => calm s.shared) = true) →
        ∀ i < n, ∀ s₁, advances t i s = some s₁ → Undisturbed h s₁ t := by
    intro t n h s quiet i less s₁ later
    have now := quiet i less
    rw [later] at now
    exact undisturbed_of_calm now
  have begin : Steps exec Starts Undisturbed []
      (⟨start 0, fun _ => none⟩ : Threads Bool Nat) [] ⟨start 0, fun _ => none⟩ := .refl
  have called := Steps.call false begin rfl (⟨5, rfl⟩ : Starts (.add 1 10) _)
  have added := Steps.ret false
    (steps_advances (n := 9) (t := false) called (quietly (by decide +kernel)) rfl) rfl
  have looking := Steps.call true added rfl (⟨5, rfl⟩ : Starts (.find 1) _)
  have found : Runs exec Starts Undisturbed (start 0) addThenFind _ := Steps.ret true
    (steps_advances (n := 6) (t := true) looking (quietly (by decide +kernel)) rfl) rfl
  have answered : Answered addThenFind 2 3 true (.find 1) (.found .FOUND (some 10)) :=
    ⟨by decide, rfl, rfl, fun m e low high => absurd high (by omega)⟩
  have before : AddedBefore addThenFind 2 1 :=
    ⟨0, 1, false, 10, .added, ⟨by decide, rfl, rfl, fun m e low high => absurd high (by omega)⟩,
      by decide⟩
  exact ⟨_, found, answered, before,
    (adds_are_found Bool Nat 0).2 _ _ found 2 3 true 1 _ answered before⟩

/-- The key 1 is added; another thread, about to add 2, has put its operation into the node of 1 when
the first thread looks for 1 and does not find it. -/
theorem add_hides_key : ¬∀ (h : History Bool (Call Nat) (Answer Nat)) (s : Threads Bool Nat),
    Runs exec Starts (fun _ _ _ => True) (start 0) h s →
      ∀ i j u key a, Answered h i j u (.find key) a → AddedBefore h i key →
        ∃ value, a = .found .FOUND value := by
  intro all
  have begin : Steps exec Starts (fun _ _ _ => True) []
      (⟨start 0, fun _ => none⟩ : Threads Bool Nat) [] ⟨start 0, fun _ => none⟩ := .refl
  have called := Steps.call false begin rfl (⟨5, rfl⟩ : Starts (.add 1 10) _)
  have added := Steps.ret false (steps_advances (n := 9) (t := false) called (fun _ _ _ _ => trivial) rfl) rfl
  have second := Steps.call true added rfl (⟨5, rfl⟩ : Starts (.add 2 20) _)
  have installed := steps_advances (n := 10) (t := true) second (fun _ _ _ _ => trivial) rfl
  have looking := Steps.call false installed rfl (⟨5, rfl⟩ : Starts (.find 1) _)
  have missed := Steps.ret false (steps_advances (n := 7) (t := false) looking (fun _ _ _ _ => trivial) rfl) rfl
  obtain ⟨value, no⟩ := all _ _ missed 3 4 false 1 (.found .NOTFOUND_R none)
    ⟨by decide, rfl, rfl, fun m e low high => absurd high (by omega)⟩
    ⟨0, 1, false, 10, .added, ⟨by decide, rfl, rfl, fun m e low high => absurd high (by omega)⟩,
      by decide⟩
  cases no

end DeepDB.Concurrency.Nblocking4
