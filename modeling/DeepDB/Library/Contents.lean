import DeepDB.Library.Backward

/-!
What a relation of the built copy holds after any calls: each key with the record of its last put.
-/

namespace DeepDB.Library
open SortedAssoc Multiway
open BTree hiding findChildIndexFrom findChildIndex moveToKeyIn moveToKey isNodeParent
  ascendToParent goToKey moveToNext skipLeafEnd RL_MoveToNext RL_GetKey RL_GetRecord RL_MoveToKey
  RL_MoveToFirst RL_NewRelation RL_NewCursor RL_CursorIsValid RL_IsEmpty RL_NumRecords splitnode
  putEntry RL_PutRecord State Result step run run_snoc lastPut
open BTree.Tree

variable {R : Type}

/-- The record of the last put of `key` into the relation that the client holds. -/
def lastPut (key : Key) (calls : List (Call R)) : Option R :=
  calls.foldl (fun found call => match call with
    | .newRelation => none
    | .put k record => if k = key then some record else found
    | _ => found) none

theorem drop_step {α : Type} {l rest : List α} {i : Nat} {x : α} (ahead : l.drop i = x :: rest) :
    l[i]? = some x ∧ i < l.length ∧ l.drop (i + 1) = rest := by
  have here : l[i]? = some x := by
    rw [← List.head?_drop, ahead]
    rfl
  refine ⟨here, (List.getElem?_eq_some_iff.mp here).1, ?_⟩
  rw [← List.tail_drop, ahead]
  rfl

theorem leafEntries_new : leafEntries (RL_NewRelation : Relation R).nodes MAX_TREE_DEPTH
    (RL_NewRelation : Relation R).root = some [] :=
  leafEntries_holds (holds_new R)

theorem newCursor_rel {rel : Relation R} {s : State R} {result : Result R}
    (h : newCursor rel = some (s, result)) : s.rel = rel := by
  rw [newCursor] at h
  obtain ⟨π, -, same⟩ := Option.bind_eq_some_iff.mp h
  obtain ⟨rfl, -⟩ := Prod.mk.inj (Option.some.inj same)
  rfl

/-- Only a put changes the relation. -/
theorem step_rel {s s' : State R} {call : Call R} {result : Result R}
    (h : step s call = some (s', result)) (old : call ≠ .newRelation)
    (read : ∀ key record, call ≠ .put key record) : s'.rel = s.rel := by
  cases call with
  | newRelation => exact absurd rfl old
  | put key record => exact absurd rfl (read key record)
  | numRecords =>
    obtain ⟨rfl, -⟩ := Prod.mk.inj (Option.some.inj h)
    rfl
  | _ =>
    obtain ⟨x, -, same⟩ := Option.bind_eq_some_iff.mp h
    obtain ⟨rfl, -⟩ := Prod.mk.inj (Option.some.inj same)
    rfl

theorem put_leaves {s s' : State R} {key : Key} {record : R} {result : Result R} {pos : Nat}
    {entries : List (Key × R)} (at_ : At s.rel s.cursor pos)
    (leaves : leafEntries s.rel.nodes MAX_TREE_DEPTH s.rel.root = some entries)
    (h : step s (.put key record) = some (s', result)) :
    leafEntries s'.rel.nodes MAX_TREE_DEPTH s'.rel.root = some (put key record entries) := by
  obtain ⟨rel, d, t, same, hrel, hπ⟩ := at_
  rw [same, leafEntries_holds hrel] at leaves
  rw [step, same, RL_PutRecord_forget hrel hπ] at h
  rcases RL_PutRecord_spec key record hrel hπ with
    ⟨rel', d', t', π', hput, hrel', contents', -⟩ | ⟨failed, -⟩
  · rw [hput] at h
    obtain ⟨rfl, -⟩ := Prod.mk.inj (Option.some.inj h)
    rw [leafEntries_holds hrel', contents', Option.some.inj leaves]
  · rw [failed] at h
    cases h

theorem lastPut_snoc (key : Key) (calls : List (Call R)) (call : Call R) :
    lastPut key (calls ++ [call]) = match call with
      | .newRelation => none
      | .put k record => if k = key then some record else lastPut key calls
      | _ => lastPut key calls := by
  rw [lastPut, List.foldl_append]
  rfl

theorem lastPut_mem {key : Key} {calls : List (Call R)} {record : R}
    (h : lastPut key calls = some record) : Call.put key record ∈ calls := by
  induction calls using List.reverseRecOn with
  | nil => cases h
  | append_singleton calls call ih =>
    rw [lastPut_snoc] at h
    apply List.mem_append.mpr
    cases call with
    | newRelation => cases h
    | put k record' =>
      by_cases same : k = key
      · simp only [same, if_pos, Option.some.injEq] at h
        rw [same, h]
        exact Or.inr List.mem_cons_self
      · simp only [if_neg same] at h
        exact Or.inl (ih h)
    | _ => exact Or.inl (ih h)

/-- After every run of calls. -/
theorem run_holding {calls : List (Call R)} {s : State R} (h : run calls = some s) :
    ∃ entries, leafEntries s.rel.nodes MAX_TREE_DEPTH s.rel.root = some entries ∧
      Sorted entries ∧ ∀ k, lookup k entries = lastPut k calls := by
  induction calls using List.reverseRecOn generalizing s with
  | nil =>
    obtain ⟨s₀, -, made, -, -⟩ := start_refines R
    obtain rfl : s₀ = s := by simpa [run, made] using h
    refine ⟨[], ?_, sorted_nil, fun _ => rfl⟩
    rw [newCursor_rel made, leafEntries_new]
  | append_singleton calls call ih =>
    rw [run_snoc] at h
    obtain ⟨s₁, hs₁, hs⟩ := Option.bind_eq_some_iff.mp h
    obtain ⟨⟨s₂, result⟩, stepped, rfl⟩ := Option.map_eq_some_iff.mp hs
    obtain ⟨entries, leaves, sorted, found⟩ := ih hs₁
    obtain ⟨pos, at_⟩ := run_at hs₁
    simp only [lastPut_snoc]
    cases call with
    | newRelation =>
      refine ⟨[], ?_, sorted_nil, fun _ => rfl⟩
      rw [newCursor_rel stepped, leafEntries_new]
    | put key record =>
      refine ⟨put key record entries, put_leaves at_ leaves stepped, sorted_put sorted, fun k => ?_⟩
      by_cases same : key = k
      · subst same
        simp only [lookup_put_self, if_pos]
      · simp only [lookup_put_of_ne _ _ (Ne.symm same), if_neg same, found k]
    | _ =>
      have same := step_rel stepped (by simp) (by simp)
      refine ⟨entries, ?_, sorted, found⟩
      rw [same, leaves]

/-! ### What a cursor reads -/

theorem RL_IsEmpty_contents {rel : Relation R} {d : Nat} {t : Tree R d} (hrel : Holds rel d t) :
    RL_IsEmpty (forgetRel rel) = some (contents d t).isEmpty := by
  have hnode := repr_ptr hrel.repr
  rw [← hrel.root] at hnode
  have empty : RL_IsEmpty (forgetRel rel) = some ((toNode t).numKeys == 0) := by
    simp [RL_IsEmpty, forgetRel, hnode]
  rw [empty]
  have hg := hrel.good
  cases d with
  | zero =>
    obtain ⟨p, F, L, recs, rfl⟩ := exists_leaf t
    rw [numKeys_leaf, contents_leaf]
    cases recs <;> rfl
  | succ d =>
    obtain ⟨p, F, L, t, ts, rfl⟩ := exists_node t
    obtain ⟨-, siblings, -, filled, -⟩ := hg
    obtain ⟨x, hx⟩ : ∃ x, Good d false x t := siblings_mem siblings t List.mem_cons_self
    have some : contents (d + 1) (node p F L t ts) ≠ [] := by
      rw [contents_node, gather]
      exact List.append_ne_nil_of_left_ne_nil (good_nonempty hx) _
    have keys : ((ts.length : Int) == 0) = false := by
      rw [beq_eq_false_iff_ne]
      omega
    rw [numKeys_node, keys, List.isEmpty_eq_false_iff.mpr some]


section
variable {rel : Relation R} {π : Cursor} {pos : Nat} {entries : List (Key × R)} {e : Key × R}

/-- The tree that the cursor is on. -/
theorem at_tree (leaves : leafEntries rel.nodes MAX_TREE_DEPTH rel.root = some entries)
    (at_ : At rel π pos) : ∃ (rel' : Relation R) (d : Nat) (t : Tree R d),
      rel = forgetRel rel' ∧ Holds rel' d t ∧ contents d t = entries ∧ PathAt d t π pos := by
  obtain ⟨rel', d, t, same, hrel, hπ⟩ := at_
  rw [same, leafEntries_holds hrel] at leaves
  exact ⟨rel', d, t, same, hrel, Option.some.inj leaves, hπ⟩

/-- A cursor is only on a relation with sorted leaves. -/
theorem at_leaves (at_ : At rel π pos) :
    ∃ entries, leafEntries rel.nodes MAX_TREE_DEPTH rel.root = some entries ∧ Sorted entries := by
  obtain ⟨rel', d, t, rfl, hrel, -⟩ := at_
  exact ⟨contents d t, leafEntries_holds hrel, good_sorted hrel.good⟩

theorem at_le (leaves : leafEntries rel.nodes MAX_TREE_DEPTH rel.root = some entries)
    (at_ : At rel π pos) : pos ≤ entries.length := by
  obtain ⟨rel', d, t, -, -, rfl, hπ⟩ := at_tree leaves at_
  exact pathAt_le hπ

theorem RL_CursorIsValid_at (leaves : leafEntries rel.nodes MAX_TREE_DEPTH rel.root = some entries)
    (at_ : At rel π pos) : RL_CursorIsValid rel π = some (decide (pos < entries.length)) := by
  obtain ⟨rel', d, t, rfl, hrel, rfl, hπ⟩ := at_tree leaves at_
  rw [RL_CursorIsValid, isValid_forgetRel hrel hπ, isValid_spec hrel.repr hrel.good hπ]

theorem RL_GetKey_at (leaves : leafEntries rel.nodes MAX_TREE_DEPTH rel.root = some entries)
    (at_ : At rel π pos) (here : entries[pos]? = some e) :
    ∃ π', RL_GetKey rel π = some (π', e.1) ∧ At rel π' pos := by
  obtain ⟨rel', d, t, rfl, hrel, rfl, hπ⟩ := at_tree leaves at_
  obtain ⟨π', get, hπ'⟩ := RL_GetKey_spec hrel.repr hrel.good hrel.shallow hπ here
  exact ⟨π', (RL_GetKey_forget hrel hπ).trans get, rel', d, t, rfl, hrel, hπ'⟩

/-- Behind the last entry the assertion fails. -/
theorem RL_GetKey_end (leaves : leafEntries rel.nodes MAX_TREE_DEPTH rel.root = some entries)
    (at_ : At rel π entries.length) : RL_GetKey rel π = none := by
  obtain ⟨rel', d, t, rfl, hrel, rfl, hπ⟩ := at_tree leaves at_
  rw [RL_GetKey_forget hrel hπ, BTree.RL_GetKey, isValid_spec hrel.repr hrel.good hπ]
  simp

theorem RL_GetRecord_at (leaves : leafEntries rel.nodes MAX_TREE_DEPTH rel.root = some entries)
    (at_ : At rel π pos) (here : entries[pos]? = some e) :
    ∃ π', RL_GetRecord rel π = some (π', e.2) ∧ At rel π' pos := by
  obtain ⟨rel', d, t, rfl, hrel, rfl, hπ⟩ := at_tree leaves at_
  obtain ⟨π', get, hπ'⟩ := RL_GetRecord_spec hrel.repr hrel.good hrel.shallow hπ here
  exact ⟨π', (RL_GetRecord_forget hrel hπ).trans get, rel', d, t, rfl, hrel, hπ'⟩

theorem RL_MoveToNext_at (leaves : leafEntries rel.nodes MAX_TREE_DEPTH rel.root = some entries)
    (at_ : At rel π pos) (inside : pos < entries.length) :
    ∃ π', RL_MoveToNext rel π = some π' ∧ At rel π' (pos + 1) := by
  obtain ⟨rel', d, t, rfl, hrel, rfl, hπ⟩ := at_tree leaves at_
  obtain ⟨π', next, hπ'⟩ := RL_MoveToNext_spec hrel.repr hrel.good hrel.shallow hπ
  rw [Nat.min_eq_left inside] at hπ'
  exact ⟨π', (RL_MoveToNext_forget hrel hπ).trans next, rel', d, t, rfl, hrel, hπ'⟩

theorem RL_MoveToKey_at (leaves : leafEntries rel.nodes MAX_TREE_DEPTH rel.root = some entries)
    (at_ : At rel π pos) (key : Key) : ∃ π',
      RL_MoveToKey rel π key = some (π', decide (key ∈ entries.map Prod.fst)) ∧
        At rel π' (rank key entries) := by
  obtain ⟨rel', d, t, rfl, hrel, rfl, hπ⟩ := at_tree leaves at_
  obtain ⟨π', move, hπ'⟩ := RL_MoveToKey_spec hrel.repr hrel.good hrel.shallow hπ key
  exact ⟨π', (RL_MoveToKey_forget hrel hπ key).trans move, rel', d, t, rfl, hrel, hπ'⟩

/-- With `2 ^ 61` records a put of a new key may fail. -/
theorem RL_PutRecord_at (leaves : leafEntries rel.nodes MAX_TREE_DEPTH rel.root = some entries)
    (at_ : At rel π pos) (key : Key) (record : R) :
    (∃ rel' π' pos', RL_PutRecord rel π key record = some (rel', π') ∧ At rel' π' pos' ∧
      leafEntries rel'.nodes MAX_TREE_DEPTH rel'.root = some (put key record entries)) ∨
    RL_PutRecord rel π key record = none ∧ 2 ^ 61 ≤ (put key record entries).length := by
  obtain ⟨rel', d, t, rfl, hrel, rfl, hπ⟩ := at_tree leaves at_
  rw [RL_PutRecord_forget hrel hπ]
  rcases RL_PutRecord_spec key record hrel hπ with
    ⟨rel₁, d₁, t₁, π₁, hput, hrel₁, contents₁, hπ₁⟩ | ⟨failed, -, many⟩
  · refine Or.inl ⟨forgetRel rel₁, π₁, _, ?_, ⟨rel₁, d₁, t₁, rfl, hrel₁, hπ₁⟩, ?_⟩
    · rw [hput]
      rfl
    · rw [leafEntries_holds hrel₁, contents₁]
  · rw [failed]
    exact Or.inr ⟨rfl, many⟩

theorem RL_MoveToFirst_at (leaves : leafEntries rel.nodes MAX_TREE_DEPTH rel.root = some entries)
    (at_ : At rel π pos) : ∃ π', RL_NewCursor rel = some π' ∧
      RL_MoveToFirst rel = some (π', decide (0 < entries.length)) ∧ At rel π' 0 := by
  obtain ⟨rel', d, t, rfl, hrel, rfl, -⟩ := at_tree leaves at_
  obtain ⟨π', first, hπ'⟩ := moveToFirst_spec hrel.repr [] (by simpa using hrel.shallow)
  rw [List.append_nil, ← hrel.root] at first
  refine ⟨π', (RL_NewCursor_forget rel').trans first, ?_, rel', d, t, rfl, hrel, hπ'⟩
  rw [RL_MoveToFirst_forget hrel]
  simp [BTree.RL_MoveToFirst, first, isValid_spec hrel.repr hrel.good hπ']

theorem RL_IsEmpty_at (leaves : leafEntries rel.nodes MAX_TREE_DEPTH rel.root = some entries)
    (at_ : At rel π pos) : RL_IsEmpty rel = some entries.isEmpty := by
  obtain ⟨rel', d, t, rfl, hrel, rfl, -⟩ := at_tree leaves at_
  exact RL_IsEmpty_contents hrel

end

end DeepDB.Library
