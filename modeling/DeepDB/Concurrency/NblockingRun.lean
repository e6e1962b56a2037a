import DeepDB.Concurrency.NblockingStep

/-!
The lock-free tree over whole runs: it simulates the atomic map, its keys stay, and its values are
those that were inserted.
-/

namespace DeepDB.Concurrency.Nblocking
open Linearizability SearchTree

variable {T V : Type} [DecidableEq T] {tb : Nat} {s s' : State T V}
  {t t' : Tree Nat Int (Nat × Option V)} {h h' : History T (MapOp Int V) (MapResult V)}

theorem start_inv (T V : Type) (tb : Nat) : Inv tb (start tb : State T V) (.nil tb) where
  good :=
    { repr := by
        show (Function.update (fun _ => none) tb (some none) : Nat → Option (Option Nat)) tb = _
        exact Function.update_self _ _ _
      root := rfl
      cells := List.nodup_singleton _
      pointers := List.nodup_nil
      values := List.nodup_nil
      ordered := trivial }
  threads := fun _ => trivial
  apart := fun _ _ _ _ _ hb => by cases hb

theorem running_of_exec {new : Block} {m : Mem V} {pc : Pc V} {r : Mem V × Pc V}
    (hexec : exec new m pc = some r) : pc.Running := by
  cases pc with
  | idle => cases hexec
  | inserted => cases hexec
  | found => cases hexec
  | _ => trivial

theorem status_enter {op : MapOp Int V} {pc : Pc V} (henter : enter tb op = some pc) :
    status pc = .pending op ∧ (∀ m t, Good tb m t → ThreadOk m t pc) ∧ pc.block = none := by
  cases op with
  | insert x v =>
    cases henter
    exact ⟨rfl, fun m t hg => ⟨hg.root ▸ onPath_root x t, fun _ hq => by cases hq⟩, rfl⟩
  | lookup x =>
    cases henter
    exact ⟨rfl, fun m t hg => hg.root ▸ onPath_root x t, rfl⟩
  | delete x => cases henter

theorem status_answer {pc : Pc V} {r : MapResult V} (hanswer : answer pc = some r) :
    status pc = .done r := by
  cases pc with
  | inserted x =>
    cases hanswer
    rfl
  | found x v =>
    cases hanswer
    rfl
  | _ => cases hanswer

/-- Where the values of the tree and those that are about to get there come from. -/
def Sourced (h : History T (MapOp Int V) (MapResult V)) (s : State T V)
    (t : Tree Nat Int (Nat × Option V)) : Prop :=
  (∀ n k value w, (n, k, value, w) ∈ t.nodes → ∃ u, Event.call u (.insert k w) ∈ h) ∧
    ∀ u x v, status (s.pc u) = .pending (.insert x v) → Event.call u (.insert x v) ∈ h

/-- One step of the system is a step of the atomic map, or none. -/
theorem step_inv (inv : Inv tb s t) {label : Option (Event T (MapOp Int V) (MapResult V))}
    (hstep : Step tb s label s') :
    ∃ t', Inv tb s' t' ∧ Keeps s.mem s'.mem t t' ∧
      (∀ h, Sourced h s t → Sourced (h ++ label.toList) s' t') ∧
      ((label = none ∧ contents t' = contents t ∧
          (fun u => status (s'.pc u)) = fun u => status (s.pc u)) ∨
        Atomic MapOp.apply (contents t) (fun u => status (s.pc u)) label (contents t')
          fun u => status (s'.pc u)) := by
  cases hstep with
  | call u idle henter =>
    rename_i op pc
    obtain ⟨hstatus, ok, block⟩ := status_enter henter
    refine ⟨t, inv_move inv u (ok _ _ inv.good) (fun b hb => by rw [block] at hb; cases hb),
      keeps_refl _ _, fun h src => ⟨fun n k value w hn => ?_, fun w x v hw => ?_⟩, Or.inr ?_⟩
    · obtain ⟨w, hw⟩ := src.1 n k value w hn
      exact ⟨w, List.mem_append_left _ hw⟩
    · replace hw : status (Function.update s.pc u pc w) = _ := hw
      by_cases same : w = u
      · subst same
        rw [Function.update_self, hstatus] at hw
        cases hw
        exact List.mem_append_right _ List.mem_cons_self
      · rw [Function.update_of_ne same] at hw
        exact List.mem_append_left _ (src.2 w x v hw)
    · rw [status_update status, hstatus]
      exact .call u op (by rw [idle]; rfl)
  | run u fresh hexec =>
    rename_i new mem pc
    obtain ⟨m', pc', t', hexec', inv', keeps, effect⟩ :=
      exec_inv inv u fresh (running_of_exec hexec)
    obtain ⟨rfl, rfl⟩ := Prod.mk.inj (Option.some.inj (hexec'.symm.trans hexec))
    refine ⟨t', inv', keeps, fun h src => ?_, ?_⟩
    · rw [Option.toList_none, List.append_nil]
      have pending : ∀ w x v, status (Function.update s.pc u pc' w) = .pending (.insert x v) →
          (w = u → status pc' = .pending (.insert x v) → status (s.pc u) = status pc') →
          Event.call w (.insert x v) ∈ h := by
        intro w x v hw carry
        by_cases same : w = u
        · subst same
          rw [Function.update_self] at hw
          exact src.2 w x v ((carry rfl hw).trans hw)
        · rw [Function.update_of_ne same] at hw
          exact src.2 w x v hw
      cases effect with
      | quiet hsame => exact ⟨src.1, fun w x v hw => pending w x v hw fun _ _ => hsame.symm⟩
      | wrote x v hpending _ hnodes =>
        refine ⟨fun n k value w hn => ?_, fun w x v hw => pending w x v hw fun _ h => by cases h⟩
        rcases hnodes n k value w hn with ⟨n', hn'⟩ | ⟨rfl, rfl⟩
        · exact src.1 n' k value w hn'
        · exact ⟨u, src.2 u k w hpending⟩
      | read x _ => exact ⟨src.1, fun w x v hw => pending w x v hw fun _ h => by cases h⟩
    · rw [status_update status]
      cases effect with
      | quiet hsame =>
        refine Or.inl ⟨rfl, rfl, ?_⟩
        rw [hsame]
        exact Function.update_eq_self u _
      | wrote x v hpending hcontents _ =>
        rw [hcontents]
        exact Or.inr (.effect u (MapOp.insert x v) hpending)
      | read x hpending => exact Or.inr (.effect u (MapOp.lookup x) hpending)
  | ret u hanswer =>
    rename_i r
    refine ⟨t, inv_move inv u trivial (fun _ hb => by cases hb), keeps_refl _ _,
      fun h src => ⟨fun n k value w hn => ?_, fun w x v hw => ?_⟩, Or.inr ?_⟩
    · obtain ⟨w, hw⟩ := src.1 n k value w hn
      exact ⟨w, List.mem_append_left _ hw⟩
    · replace hw : status (Function.update s.pc u .idle w) = _ := hw
      by_cases same : w = u
      · subst same
        rw [Function.update_self] at hw
        cases hw
      · rw [Function.update_of_ne same] at hw
        exact List.mem_append_left _ (src.2 w x v hw)
    · rw [status_update status]
      exact .ret u r (status_answer hanswer)

theorem simulates_map :
    Simulation (system T V tb) MapOp.apply (fun _ => none) fun s a st =>
      ∃ t, Inv tb s t ∧ a = contents t ∧ st = fun u => status (s.pc u) where
  start := by
    rintro s rfl
    exact ⟨.nil tb, start_inv T V tb, rfl, rfl⟩
  step := by
    rintro s label s' a st ⟨t, inv, rfl, rfl⟩ hstep
    obtain ⟨t', inv', -, -, ⟨none, same, sameStatus⟩ | hatomic⟩ := step_inv inv hstep
    · exact Or.inl ⟨none, t', inv', same.symm, sameStatus.symm⟩
    · exact Or.inr ⟨_, _, hatomic, t', inv', rfl, rfl⟩

/-- Nothing leaves the tree on the way from one state to a later one. -/
theorem steps_inv {s s' : (system T V tb).State} (inv : Inv tb s t) (steps : Steps (system T V tb) s h s') :
    ∃ t', Inv tb s' t' ∧ (∀ k ∈ t.keys, k ∈ t'.keys) ∧ (∀ a ∈ t.cells, a ∈ t'.cells) ∧
      (∀ a ∈ t.cells, ∀ p, s.mem.ptr a = some (some p) → s'.mem.ptr a = some (some p)) ∧
      ∀ h₀, Sourced h₀ s t → Sourced (h₀ ++ h) s' t' := by
  induction steps with
  | refl => exact ⟨t, inv, fun _ hk => hk, fun _ ha => ha, fun _ _ _ hp => hp, fun h₀ src => by
      rwa [List.append_nil]⟩
  | step _ hstep ih =>
    obtain ⟨t₁, inv₁, keys, cells, installed, sourced⟩ := ih
    obtain ⟨t', inv', keeps, sourced', -⟩ := step_inv inv₁ hstep
    refine ⟨t', inv', fun k hk => keeps_keys keeps (keys k hk),
      fun a ha => keeps.cells a (cells a ha),
      fun a ha p hp => keeps.installed a (cells a ha) p (installed a ha p hp), fun h₀ src => ?_⟩
    rw [← List.append_assoc]
    exact sourced' _ (sourced h₀ src)

theorem nblocking_linearizable (run : Run (system T V tb) h s) :
    Linearizable MapOp.apply (fun _ => none) h ∧
    ∃ t, Good tb s.mem t ∧ t.keys.Pairwise (· < ·) ∧
      (∀ n k value w, (n, k, value, w) ∈ t.nodes → ∃ u, Event.call u (.insert k w) ∈ h) ∧
      (∀ u new, Fresh s.mem new → (s.pc u).Running → ∃ next, exec new s.mem (s.pc u) = some next) ∧
      (∀ u new, Proceeds s t u new) ∧
      ∀ h' s', Steps (system T V tb) s h' s' → ∃ t', Good tb s'.mem t' ∧
        (∀ k ∈ t.keys, k ∈ t'.keys) ∧
        ∀ a ∈ t.cells, ∀ p, s.mem.ptr a = some (some p) → s'.mem.ptr a = some (some p) := by
  refine ⟨(linearizable_of_simulation simulates_map run).2, ?_⟩
  obtain ⟨s₀, rfl, steps⟩ := run
  obtain ⟨t, inv, -, -, -, sourced⟩ := steps_inv (start_inv T V tb) steps
  have src := sourced [] ⟨fun _ _ _ _ hn => (by cases hn), fun _ _ _ hw => by cases hw⟩
  refine ⟨t, inv.good, keys_sorted inv.good.ordered, src.1, fun u new fresh running => ?_,
    inv_proceeds inv, fun h' s' later => ?_⟩
  · obtain ⟨m', pc', t', hexec, -⟩ := exec_inv inv u fresh running
    exact ⟨_, hexec⟩
  · obtain ⟨t', inv', keys, -, installed, -⟩ := steps_inv inv later
    exact ⟨t', inv'.good, keys, installed⟩

/-! ### A race -/

instance (m : Mem V) (new : Block) : Decidable (Fresh m new) :=
  inferInstanceAs (Decidable (_ ∧ _ ∧ _ ∧ _ ∧ _))

/-- A thread calls, or takes its next step with the addresses it is given. -/
inductive Turn (T V : Type) where
  | call (u : T) (op : MapOp Int V)
  | run (u : T) (new : Block)

def take (tb : Nat) : Turn T V → State T V →
    Option (Option (Event T (MapOp Int V) (MapResult V)) × State T V)
  | .call u op, s =>
    match s.pc u, enter tb op with
    | .idle, some pc => some (some (.call u op), { s with pc := Function.update s.pc u pc })
    | _, _ => none
  | .run u new, s =>
    if Fresh s.mem new then
      (exec new s.mem (s.pc u)).map fun x =>
        (none, { mem := x.1, pc := Function.update s.pc u x.2 })
    else none

theorem take_step (x : Turn T V) (s : State T V)
    (label : Option (Event T (MapOp Int V) (MapResult V))) (s' : State T V)
    (go : take tb x s = some (label, s')) : (system T V tb).Step s label s' := by
  cases x with
  | call u op =>
    rw [take] at go
    split at go
    · rename_i idle henter
      cases go
      exact Step.call u idle henter
    · cases go
  | run u new =>
    rw [take] at go
    split at go
    · rename_i fresh
      obtain ⟨⟨mem, pc⟩, hexec, same⟩ := Option.map_eq_some_iff.mp go
      cases same
      exact Step.run u fresh hexec
    · cases go

/-- Two inserts have loaded NULL from the root; the second compare-and-swap fails. -/
theorem nblocking_linearizable_race :
    ∃ s : State Bool Nat, s.pc true = .release 2 (some 20) 0 (some 0) ⟨1, 1, 3, 4⟩ ∧
      Linearizable (MapOp.apply (K := Int) (V := Nat)) (fun _ => none)
        [Event.call false (.insert 1 (some 10)), Event.call true (.insert 2 (some 20))] ∧
      ∃ t, Good 0 s.mem t ∧ ∀ u new, Proceeds s t u new := by
  have empty : Steps (system Bool Nat 0) (start 0) [] (start 0) := .refl
  have swaps := empty.schedule take_step
    [.call false (.insert 1 (some 10)), .call true (.insert 2 (some 20)), .run false ⟨0, 0, 1, 2⟩,
      .run true ⟨0, 0, 1, 2⟩, .run false ⟨0, 0, 1, 2⟩, .run true ⟨1, 1, 3, 4⟩,
      .run false ⟨2, 2, 5, 6⟩, .run true ⟨2, 2, 5, 6⟩] rfl
  obtain ⟨linear, t, good, -, -, -, proceeds, -⟩ := nblocking_linearizable ⟨_, rfl, swaps⟩
  exact ⟨_, rfl, linear, t, good, proceeds⟩

end DeepDB.Concurrency.Nblocking
