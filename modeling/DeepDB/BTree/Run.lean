import DeepDB.BTree.Insert
import Mathlib.Data.Finset.Card
import Mathlib.Data.Finset.Dedup

/-!
Runs of the relation library. A client holds one relation and one cursor and calls the operations
in any order; `Model` is what it may think it holds, a sorted map and a position in it. Each call
simulates the model's step as long as the map has fewer than `2 ^ 61` keys.
-/

namespace DeepDB.BTree
open SortedAssoc Multiway BTree.Tree

variable {R : Type}

/-! ### The client's calls -/

structure State (R : Type) where
  rel : Relation R
  cursor : Cursor

inductive Op (R : Type) where
  | put (key : Key) (record : R)
  | moveToKey (key : Key)
  | moveToFirst
  | moveToNext
  | getKey
  | getRecord
  deriving DecidableEq

/-- What a call returns; `invalid` when the client's test of the cursor keeps it from the call. -/
inductive Result (R : Type) where
  | done
  | found (b : Bool)
  | key (k : Key)
  | record (r : R)
  | invalid
  deriving DecidableEq

def start : Option (State R) := do
  let rel := RL_NewRelation
  return ⟨rel, ← RL_NewCursor rel⟩

def step (s : State R) : Op R → Option (State R × Result R)
  | .put key record => do
    let (rel, cursor) ← RL_PutRecord s.rel s.cursor key record
    return (⟨rel, cursor⟩, .done)
  | .moveToKey key => do
    let (cursor, b) ← RL_MoveToKey s.rel.nodes s.cursor key
    return ({ s with cursor }, .found b)
  | .moveToFirst => do
    let (cursor, b) ← RL_MoveToFirst s.rel
    return ({ s with cursor }, .found b)
  | .moveToNext => do
    let cursor ← RL_MoveToNext s.rel.nodes s.cursor
    return ({ s with cursor }, .done)
  | .getKey => do
    if ← RL_CursorIsValid s.rel.nodes s.cursor then
      let (cursor, k) ← RL_GetKey s.rel.nodes s.cursor
      return ({ s with cursor }, .key k)
    else return (s, .invalid)
  | .getRecord => do
    if ← RL_CursorIsValid s.rel.nodes s.cursor then
      let (cursor, r) ← RL_GetRecord s.rel.nodes s.cursor
      return ({ s with cursor }, .record r)
    else return (s, .invalid)

/-- The state after a sequence of calls; none once a call has failed. -/
def run (ops : List (Op R)) : Option (State R) := do
  ops.foldlM (fun s op => (step s op).map Prod.fst) (← start)

theorem run_snoc (ops : List (Op R)) (op : Op R) :
    run (ops ++ [op]) = (run ops).bind fun s => (step s op).map Prod.fst := by
  cases hs : (start : Option (State R)) <;> simp [run, hs, List.foldlM_append]

/-! ### The sorted map with a position -/

structure Model (R : Type) where
  entries : List (Key × R)
  pos : Nat

namespace Model

def empty : Model R := ⟨[], 0⟩

def step (m : Model R) : Op R → Model R
  | .put key record => ⟨put key record m.entries, rank key m.entries + 1⟩
  | .moveToKey key => { m with pos := rank key m.entries }
  | .moveToFirst => { m with pos := 0 }
  | .moveToNext => { m with pos := min (m.pos + 1) m.entries.length }
  | .getKey | .getRecord => m

def result (m : Model R) : Op R → Result R
  | .put _ _ | .moveToNext => .done
  | .moveToKey key => .found (decide (key ∈ m.entries.map Prod.fst))
  | .moveToFirst => .found (decide (0 < m.entries.length))
  | .getKey => (m.entries[m.pos]?).elim .invalid fun e => .key e.1
  | .getRecord => (m.entries[m.pos]?).elim .invalid fun e => .record e.2

def run (ops : List (Op R)) : Model R := ops.foldl step empty

@[simp] theorem run_nil : (run [] : Model R) = empty := rfl

@[simp] theorem run_snoc (ops : List (Op R)) (op : Op R) :
    run (ops ++ [op]) = (run ops).step op := by
  simp [run]

theorem length_le_step (m : Model R) (op : Op R) :
    m.entries.length ≤ (m.step op).entries.length := by
  cases op with
  | put key record => exact length_le_put key record m.entries
  | _ => exact Nat.le_refl _

end Model

/-! ### Simulation -/

/-- The relation holds the model's entries and the cursor denotes its position. -/
def Simulates (s : State R) (m : Model R) : Prop :=
  ∃ d t, Holds s.rel d t ∧ contents d t = m.entries ∧ PathAt d t s.cursor m.pos

theorem holds_new (R : Type) : Holds (RL_NewRelation : Relation R) 0 (leaf 0 true true []) :=
  ⟨rfl, List.nodup_singleton 0, ⟨⟨rfl, rfl⟩, sorted_nil, by simp [Within], by simp, by simp⟩,
    by simp [MAX_TREE_DEPTH], rfl, rfl, rfl⟩

theorem start_simulates (R : Type) : ∃ s : State R, start = some s ∧ Simulates s Model.empty :=
  ⟨_, rfl, 0, leaf 0 true true [], holds_new R, rfl, Nat.le_refl _, rfl⟩

theorem isValid_simulates {s : State R} {m : Model R} (h : Simulates s m) :
    RL_CursorIsValid s.rel.nodes s.cursor = some (decide (m.pos < m.entries.length)) := by
  obtain ⟨d, t, hrel, hcontents, hπ⟩ := h
  rw [RL_CursorIsValid, isValid_spec hrel.repr hrel.good hπ, hcontents]

/-- A call that is not a put does what the model does. -/
theorem step_simulates_of_ne_put {s : State R} {m : Model R} (h : Simulates s m) {op : Op R}
    (noPut : ∀ key record, op ≠ .put key record) :
    ∃ s', step s op = some (s', m.result op) ∧ Simulates s' (m.step op) := by
  have valid := isValid_simulates h
  obtain ⟨d, t, hrel, hcontents, hπ⟩ := h
  have hm := hrel.repr
  have hg := hrel.good
  cases op with
  | put key record => exact absurd rfl (noPut key record)
  | moveToKey key =>
    obtain ⟨π', hmove, hπ'⟩ := RL_MoveToKey_spec hm hg hrel.shallow hπ key
    rw [hcontents] at hmove hπ'
    exact ⟨⟨s.rel, π'⟩, by simp [step, hmove, Model.result], d, t, hrel, hcontents, hπ'⟩
  | moveToFirst =>
    obtain ⟨π', hfirst, hπ'⟩ := moveToFirst_spec hm [] (by simpa using hrel.shallow)
    rw [List.append_nil] at hfirst
    have valid' := isValid_spec hm hg hπ'
    rw [hcontents] at valid'
    refine ⟨⟨s.rel, π'⟩, ?_, d, t, hrel, hcontents, hπ'⟩
    simp [step, RL_MoveToFirst, hrel.root, hfirst, valid', Model.result]
  | moveToNext =>
    obtain ⟨π', hnext, hπ'⟩ := RL_MoveToNext_spec hm hg hrel.shallow hπ
    rw [hcontents] at hπ'
    exact ⟨⟨s.rel, π'⟩, by simp [step, hnext, Model.result], d, t, hrel, hcontents, hπ'⟩
  | getKey =>
    cases hx : m.entries[m.pos]? with
    | none =>
      have outside := Nat.not_lt.mpr (List.getElem?_eq_none_iff.mp hx)
      exact ⟨s, by simp [step, valid, outside, Model.result], d, t, hrel, hcontents, hπ⟩
    | some x =>
      obtain ⟨π', hget, hπ'⟩ := RL_GetKey_spec hm hg hrel.shallow hπ (hcontents ▸ hx)
      obtain ⟨inside, rfl⟩ := List.getElem?_eq_some_iff.mp hx
      exact ⟨⟨s.rel, π'⟩, by simp [step, valid, inside, hget, Model.result], d, t, hrel,
        hcontents, hπ'⟩
  | getRecord =>
    cases hx : m.entries[m.pos]? with
    | none =>
      have outside := Nat.not_lt.mpr (List.getElem?_eq_none_iff.mp hx)
      exact ⟨s, by simp [step, valid, outside, Model.result], d, t, hrel, hcontents, hπ⟩
    | some x =>
      obtain ⟨π', hget, hπ'⟩ := RL_GetRecord_spec hm hg hrel.shallow hπ (hcontents ▸ hx)
      obtain ⟨inside, rfl⟩ := List.getElem?_eq_some_iff.mp hx
      exact ⟨⟨s.rel, π'⟩, by simp [step, valid, inside, hget, Model.result], d, t, hrel,
        hcontents, hπ'⟩

/-- Each call does what the model does, or it is a put that makes too many records. -/
theorem step_simulates {s : State R} {m : Model R} (h : Simulates s m) (op : Op R) :
    (∃ s', step s op = some (s', m.result op) ∧ Simulates s' (m.step op)) ∨
      (step s op = none ∧ 2 ^ 61 ≤ (m.step op).entries.length) := by
  cases op with
  | put key record =>
    obtain ⟨d, t, hrel, hcontents, hπ⟩ := h
    rcases RL_PutRecord_spec key record hrel hπ with
      ⟨rel', d', t', π', hput, hrel', hcontents', hπ'⟩ | ⟨hput, -, many⟩
    · refine Or.inl ⟨⟨rel', π'⟩, by simp [step, hput, Model.result], d', t', hrel', ?_, ?_⟩
      · rw [hcontents', hcontents]
        rfl
      · rw [hcontents] at hπ'
        exact hπ'
    · rw [hcontents] at many
      exact Or.inr ⟨by simp [step, hput], many⟩
  | _ => exact Or.inl (step_simulates_of_ne_put h fun _ _ no => by cases no)

/-- A run that has not failed is where the model's run is. -/
theorem run_simulates {ops : List (Op R)} {s : State R} (h : run ops = some s) :
    Simulates s (Model.run ops) := by
  induction ops using List.reverseRecOn generalizing s with
  | nil =>
    obtain ⟨s₀, hs₀, hsim⟩ := start_simulates R
    obtain rfl : s₀ = s := by simpa [run, hs₀] using h
    exact hsim
  | append_singleton ops op ih =>
    rw [run_snoc] at h
    obtain ⟨s₁, hs₁, hs⟩ := Option.bind_eq_some_iff.mp h
    rw [Model.run_snoc]
    rcases step_simulates (ih hs₁) op with ⟨s', hstep, hsim⟩ | ⟨hstep, -⟩
    · obtain rfl : s' = s := by simpa [hstep] using hs
      exact hsim
    · simp [hstep] at hs

/-- With fewer than `2 ^ 61` keys no call fails. -/
theorem run_isSome (ops : List (Op R)) (few : (Model.run ops).entries.length < 2 ^ 61) :
    ∃ s, run ops = some s := by
  induction ops using List.reverseRecOn with
  | nil =>
    obtain ⟨s, hs, -⟩ := start_simulates R
    exact ⟨s, by simp [run, hs]⟩
  | append_singleton ops op ih =>
    rw [Model.run_snoc] at few
    obtain ⟨s, hs⟩ := ih ((Model.length_le_step _ op).trans_lt few)
    rcases step_simulates (run_simulates hs) op with ⟨s', hstep, -⟩ | ⟨-, many⟩
    · exact ⟨s', by simp [run_snoc, hs, hstep]⟩
    · omega

/-- From the cursor of a run, the only one on its relation, `goToKey` takes the path that a search
from the root takes. -/
theorem goToKey_of_run {ops : List (Op R)} {s : State R} (h : run ops = some s) (key : Key) :
    ∃ path, moveToKey s.rel.nodes s.rel.root key [] = some path ∧
      goToKey s.rel.nodes s.cursor key = some path := by
  obtain ⟨d, t, hrel, -, hπ⟩ := run_simulates h
  rw [hrel.root]
  exact goToKey_eq hrel.repr hrel.good hπ key hrel.shallow

/-- The cursor is behind the key 7, and the search for 5 ends at the entry after the key 3. -/
theorem goToKey_two_keys : ∃ s : State Nat, run [.put 3 30, .put 7 70] = some s ∧
    ∃ path, moveToKey s.rel.nodes s.rel.root 5 [] = some path ∧
      goToKey s.rel.nodes s.cursor 5 = some path :=
  ⟨_, rfl, goToKey_of_run (show run [.put 3 30, .put 7 70] = some _ from rfl) 5⟩

/-! ### What has been put -/

/-- The record of the last put of `key`. -/
def lastPut (key : Key) (ops : List (Op R)) : Option R :=
  ops.reverse.findSome? fun
    | .put k record => if k = key then some record else none
    | _ => none

def putKeys (ops : List (Op R)) : Finset Key :=
  (ops.filterMap fun
    | .put k _ => some k
    | _ => none).toFinset

theorem sorted_run (ops : List (Op R)) : Sorted (Model.run ops).entries := by
  induction ops using List.reverseRecOn with
  | nil => exact sorted_nil
  | append_singleton ops op ih =>
    rw [Model.run_snoc]
    cases op with
    | put key record => exact sorted_put ih
    | _ => exact ih

theorem lookup_run (key : Key) (ops : List (Op R)) :
    lookup key (Model.run ops).entries = lastPut key ops := by
  induction ops using List.reverseRecOn with
  | nil => rfl
  | append_singleton ops op ih =>
    rw [Model.run_snoc]
    cases op with
    | put k record =>
      by_cases hk : k = key
      · subst hk
        simp [Model.step, lookup_put_self, lastPut]
      · simp only [lastPut] at ih
        simp [Model.step, lookup_put_of_ne _ _ (Ne.symm hk), lastPut, hk, ih]
    | _ =>
      simp only [lastPut] at ih
      simp [Model.step, lastPut, ih]

theorem keys_run (ops : List (Op R)) :
    ((Model.run ops).entries.map Prod.fst).toFinset = putKeys ops := by
  induction ops using List.reverseRecOn with
  | nil => rfl
  | append_singleton ops op ih =>
    rw [Model.run_snoc]
    ext k
    cases op with
    | put key record =>
      have old := Finset.ext_iff.mp ih k
      simp only [List.mem_toFinset, putKeys] at old ⊢
      simp [Model.step, mem_keys_put, old, or_comm]
    | _ =>
      have old := Finset.ext_iff.mp ih k
      simp only [putKeys] at old ⊢
      simpa [Model.step] using old

theorem length_run (ops : List (Op R)) :
    (Model.run ops).entries.length = (putKeys ops).card := by
  have nodup : ((Model.run ops).entries.map Prod.fst).Nodup :=
    (sorted_run ops).imp fun h => Nat.ne_of_lt h
  rw [← keys_run, List.toFinset_card_of_nodup nodup, List.length_map]

end DeepDB.BTree
