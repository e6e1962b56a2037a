import DeepDB.Concurrency.HandOverHandStep

/-!
The tree with hand-over-hand locking over whole runs: it simulates the atomic map, and whatever a
thread points to is in the tree.
-/

namespace DeepDB.Concurrency.HandOverHand
open Linearizability SearchTree

variable {T V : Type} {tb : Nat} {s s' : State T V}
  {t t' : Tree Nat Int (Option V)} {h h' : History T (MapOp Int V) (MapResult V)}

/-! ### Pointers -/

/-- The boxes that a thread has pointers to. -/
def Pc.boxes : Pc V → List Nat
  | .top _ tgt _ => [tgt]
  | .next _ old tgt _ => [old, tgt]
  | .drop _ old tgt _ => [old, tgt]
  | .push _ tgp => [tgp]
  | .pushNext _ tgp _ tgq => [tgp, tgq]
  | .pushed _ tgp _ tgq => [tgp, tgq]
  | .pushLeft _ tgp _ tgq tgl => [tgp, tgq, tgl]
  | .pushFree _ tgp _ tgq tgl => [tgp, tgq, tgl]
  | .pushDrop _ old tgp => [old, tgp]
  | .unlock b _ => [b]
  | _ => []

/-- The nodes that a thread will read or free through a pointer it has. The `p` of an insert or a
delete is loaded again first. -/
def Pc.nodes : Pc V → List Nat
  | .top (.lookup _) _ (some p) => [p]
  | .pushNext _ _ p _ => [p]
  | .pushed _ _ p _ => [p]
  | .pushLeft _ _ p _ _ => [p]
  | .pushFree _ _ p _ _ => [p]
  | _ => []

theorem threadOk_boxes {m : Mem T V} {u : T} (good : Good tb m t) {pc : Pc V}
    (ok : ThreadOk m t u pc) : ∀ b ∈ pc.boxes, b ∈ t.cells := by
  cases pc with
  | idle => exact fun _ hb => absurd hb List.not_mem_nil
  | enter op => exact fun _ hb => absurd hb List.not_mem_nil
  | done r => exact fun _ hb => absurd hb List.not_mem_nil
  | top op tgt p => exact List.forall_mem_singleton.mpr ok.1.1
  | unlock b r => exact List.forall_mem_singleton.mpr ok.1
  | push x tgp => exact List.forall_mem_singleton.mpr ok.1.1
  | drop op old tgt p => exact List.forall_mem_cons.mpr ⟨ok.1.1, List.forall_mem_singleton.mpr ok.2.1.1⟩
  | pushDrop x old tgp =>
    exact List.forall_mem_cons.mpr ⟨ok.1.1, List.forall_mem_singleton.mpr ok.2.1.1⟩
  | pushed x tgp p tgq =>
    exact List.forall_mem_cons.mpr ⟨ok.1.1, List.forall_mem_singleton.mpr ok.2.1.1⟩
  | pushFree x tgp p tgq tgl =>
    exact List.forall_mem_cons.mpr ⟨ok.1.1,
      List.forall_mem_cons.mpr ⟨ok.2.1.1, List.forall_mem_singleton.mpr ok.2.2.1.1⟩⟩
  | next op old tgt p =>
    obtain ⟨hold, path, p', x, hx, dir⟩ := ok
    obtain ⟨-, -, left, right, -⟩ := children good path hx
    refine List.forall_mem_cons.mpr ⟨hold.1, List.forall_mem_singleton.mpr ?_⟩
    rcases dir with ⟨-, rfl⟩ | ⟨-, rfl⟩
    · exact left
    · exact right
  | pushNext x tgp p tgq =>
    obtain ⟨hold, path, y, hy, -, rfl⟩ := ok
    obtain ⟨-, -, -, right, -⟩ := children good path hy
    exact List.forall_mem_cons.mpr ⟨hold.1, List.forall_mem_singleton.mpr right⟩
  | pushLeft x tgp p tgq tgl =>
    obtain ⟨hold, hold', path, -, y, hy, -, -, rfl⟩ := ok
    obtain ⟨-, -, left, -⟩ := children good path hy
    exact List.forall_mem_cons.mpr ⟨hold.1,
      List.forall_mem_cons.mpr ⟨hold'.1, List.forall_mem_singleton.mpr left⟩⟩

theorem threadOk_nodes {m : Mem T V} {u : T} (good : Good tb m t) {pc : Pc V}
    (ok : ThreadOk m t u pc) : ∀ p ∈ pc.nodes, p ∈ t.pointers := by
  cases pc with
  | top op tgt p =>
    cases op with
    | insert x v => exact fun _ hp => absurd hp List.not_mem_nil
    | delete x => exact fun _ hp => absurd hp List.not_mem_nil
    | lookup x =>
      cases p with
      | none => exact fun _ hp => absurd hp List.not_mem_nil
      | some p =>
        exact List.forall_mem_singleton.mpr (pointer_of_cell good ok.1.1 (ok.2.2 x rfl))
  | pushNext x tgp p tgq =>
    obtain ⟨hold, -, y, hy, -⟩ := ok
    exact List.forall_mem_singleton.mpr (pointer_of_cell good hold.1 hy.1)
  | pushed x tgp p tgq =>
    obtain ⟨hold, -, -, y, hy, -⟩ := ok
    exact List.forall_mem_singleton.mpr (pointer_of_cell good hold.1 hy.1)
  | pushLeft x tgp p tgq tgl =>
    obtain ⟨hold, -, -, -, y, hy, -⟩ := ok
    exact List.forall_mem_singleton.mpr (pointer_of_cell good hold.1 hy.1)
  | pushFree x tgp p tgq tgl =>
    obtain ⟨hold, -, -, -, -, y, hy, -⟩ := ok
    exact List.forall_mem_singleton.mpr (pointer_of_cell good hold.1 hy.1)
  | _ => exact fun _ hp => absurd hp List.not_mem_nil

/-! ### Runs -/

theorem start_inv (T V : Type) (tb : Nat) : Inv tb (start tb : State T V) (.nil tb) where
  good :=
    { repr := by
        refine ⟨none, ?_⟩
        show (Function.update (fun _ => none) tb (some ⟨none, none⟩) : Nat → Option (Box T)) tb = _
        exact Function.update_self _ _ _
      root := rfl
      cells := List.nodup_singleton _
      pointers := List.nodup_nil
      ordered := trivial }
  threads := fun _ => trivial

variable [DecidableEq T]

/-- One step of the system is a step of the atomic map, or none. -/
theorem step_inv (inv : Inv tb s t) {label : Option (Event T (MapOp Int V) (MapResult V))}
    (hstep : Step tb s label s') :
    ∃ t', Inv tb s' t' ∧
      ((label = none ∧ contents t' = contents t ∧
          (fun u => status (s'.pc u)) = fun u => status (s.pc u)) ∨
        Atomic MapOp.apply (contents t) (fun u => status (s.pc u)) label (contents t')
          fun u => status (s'.pc u)) := by
  cases hstep with
  | call u op idle =>
    refine ⟨t, inv_update inv u inv.good (keeps_refl u _ _) trivial, Or.inr ?_⟩
    rw [status_update status]
    exact .call u op (by rw [idle]; rfl)
  | run u fresh hexec =>
    rename_i new mem pc
    rcases exec_inv inv u fresh with blocked | ⟨m', pc', t', done, inv', effect⟩
    · cases blocked.symm.trans hexec
    · obtain ⟨rfl, rfl⟩ := Prod.mk.inj (Except.ok.inj (done.symm.trans hexec))
      refine ⟨t', inv', ?_⟩
      rw [status_update status]
      rcases effect with ⟨same, contents'⟩ | ⟨op, pending, contents', done⟩
      · refine Or.inl ⟨rfl, contents', ?_⟩
        rw [same]
        exact Function.update_eq_self u _
      · rw [contents', done]
        exact Or.inr (.effect u op pending)
  | ret u r done =>
    refine ⟨t, inv_update inv u inv.good (keeps_refl u _ _) trivial, Or.inr ?_⟩
    rw [status_update status]
    exact .ret u r (by rw [done]; rfl)

theorem simulates_map :
    Simulation (system T V tb) MapOp.apply (fun _ => none) fun s a st =>
      ∃ t, Inv tb s t ∧ a = contents t ∧ st = fun u => status (s.pc u) where
  start := by
    rintro s rfl
    exact ⟨.nil tb, start_inv T V tb, rfl, rfl⟩
  step := by
    rintro s label s' a st ⟨t, inv, rfl, rfl⟩ hstep
    obtain ⟨t', inv', ⟨none, same, sameStatus⟩ | hatomic⟩ := step_inv inv hstep
    · exact Or.inl ⟨none, t', inv', same.symm, sameStatus.symm⟩
    · exact Or.inr ⟨_, _, hatomic, t', inv', rfl, rfl⟩

theorem handOverHand_linearizable (run : Run (system T V tb) h s) :
    Linearizable MapOp.apply (fun _ => none) h ∧
    ∃ t, Good tb s.mem t ∧ t.keys.Pairwise (· < ·) ∧
      (∀ u, ∀ b ∈ (s.pc u).boxes, b ∈ t.cells) ∧
      (∀ u, ∀ p ∈ (s.pc u).nodes, p ∈ t.pointers) ∧
      ∀ u new, Fresh s.mem new → exec tb u new s.mem (s.pc u) ≠ .error .fault := by
  obtain ⟨⟨a, st, t, inv, -, -⟩, linear⟩ := linearizable_of_simulation simulates_map run
  refine ⟨linear, t, inv.good, keys_sorted inv.good.ordered,
    fun u => threadOk_boxes inv.good (inv.threads u),
    fun u => threadOk_nodes inv.good (inv.threads u), fun u new fresh fault => ?_⟩
  rcases exec_inv inv u fresh with blocked | ⟨m', pc', t', done, -⟩
  · cases blocked.symm.trans fault
  · cases done.symm.trans fault

/-! ### A delete and a lookup -/

instance (m : Mem T V) (new : Block) : Decidable (Fresh m new) :=
  inferInstanceAs (Decidable (_ ∧ _ ∧ _ ∧ _))

/-- A thread calls, takes its next step with the addresses it is given, or returns. -/
inductive Turn (T V : Type) where
  | call (u : T) (op : MapOp Int V)
  | run (u : T) (new : Block)
  | ret (u : T)

def take (tb : Nat) : Turn T V → State T V →
    Option (Option (Event T (MapOp Int V) (MapResult V)) × State T V)
  | .call u op, s =>
    match s.pc u with
    | .idle => some (some (.call u op), { s with pc := Function.update s.pc u (.enter op) })
    | _ => none
  | .run u new, s =>
    if Fresh s.mem new then
      match exec tb u new s.mem (s.pc u) with
      | .ok (mem, pc) => some (none, { mem, pc := Function.update s.pc u pc })
      | .error _ => none
    else none
  | .ret u, s =>
    match s.pc u with
    | .done r => some (some (.ret u r), { s with pc := Function.update s.pc u .idle })
    | _ => none

theorem take_step (x : Turn T V) (s : State T V)
    (label : Option (Event T (MapOp Int V) (MapResult V))) (s' : State T V)
    (go : take tb x s = some (label, s')) : (system T V tb).Step s label s' := by
  cases x with
  | call u op =>
    rw [take] at go
    split at go
    · rename_i idle
      cases go
      exact Step.call u op idle
    · cases go
  | run u new =>
    rw [take] at go
    split at go
    · rename_i fresh
      split at go
      · rename_i mem pc hexec
        cases go
        exact Step.run u fresh hexec
      · cases go
    · cases go
  | ret u =>
    rw [take] at go
    split at go
    · rename_i r done
      cases go
      exact Step.ret u r done
    · cases go

/-- One thread has inserted 2, 1 and 3. The other one deletes 2 and has turned its node to the left,
below the node of 3; it has three locks and is about to free the node. The first one has found 3
meanwhile. -/
theorem handOverHand_linearizable_rotates :
    ∃ s : State Bool Nat, s.pc true = .pushFree 2 2 0 5 1 ∧
      Linearizable (MapOp.apply (K := Int) (V := Nat)) (fun _ => none)
        [Event.call false (.insert 2 (some 20)), Event.ret false .done,
          Event.call false (.insert 1 (some 10)), Event.ret false .done,
          Event.call false (.insert 3 (some 30)), Event.ret false .done,
          Event.call true (.delete 2), Event.call false (.lookup 3),
          Event.ret false (.value (some 30))] ∧
      ∃ t, Good 0 s.mem t ∧ ∀ u, ∀ b ∈ (s.pc u).boxes, b ∈ t.cells := by
  have empty : Steps (system Bool Nat 0) (start 0) [] (start 0) := .refl
  have inserts := empty.schedule take_step
    (.call false (.insert 2 (some 20)) :: List.replicate 2 (.run false ⟨0, 1, 2⟩) ++
      [.run false ⟨1, 3, 4⟩, .ret false, .call false (.insert 1 (some 10))] ++
      List.replicate 5 (.run false ⟨1, 3, 4⟩) ++
      [.run false ⟨2, 5, 6⟩, .ret false, .call false (.insert 3 (some 30))] ++
      List.replicate 5 (.run false ⟨2, 5, 6⟩) ++ [.run false ⟨3, 7, 8⟩, .ret false]) rfl
  have deletes := inserts.schedule take_step
    (.call true (.delete 2) :: List.replicate 6 (.run true ⟨3, 7, 8⟩) ++
      .call false (.lookup 3) :: List.replicate 3 (.run false ⟨3, 7, 8⟩) ++
      .ret false :: List.replicate 4 (.run true ⟨3, 7, 8⟩)) rfl
  obtain ⟨linear, t, good, -, boxes, -⟩ := handOverHand_linearizable ⟨_, rfl, deletes⟩
  exact ⟨_, rfl, linear, t, good, boxes⟩

end DeepDB.Concurrency.HandOverHand
