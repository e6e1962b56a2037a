import DeepDB.BTree.Run

/-!
The library as its header describes it: a relation is a sorted map from keys to records, whatever
was called before and wherever the cursor rests.
-/

namespace DeepDB.BTree
open SortedAssoc Multiway BTree.Tree

variable {R : Type}

/-! ### The leaves from left to right -/

def leafEntries (nodes : Nodes R) : Nat → Ptr → Option (List (Key × R))
  | 0, _ => none
  | levels + 1, p => do
    let n ← nodes[p]?
    if n.isLeaf then
      n.entries.mapM fun e => match e.ptr with
        | .record r => some (e.key, r)
        | .child _ => none
    else
      let first ← leafEntries nodes levels (← n.ptr0)
      let rest ← n.entries.mapM fun e => match e.ptr with
        | .child q => leafEntries nodes levels q
        | .record _ => none
      return first ++ rest.flatten

theorem mapM_map_some {α β γ : Type} {f : β → Option γ} {g : α → β} {h : α → γ} {l : List α}
    (each : ∀ x ∈ l, f (g x) = some (h x)) : (l.map g).mapM f = some (l.map h) := by
  induction l with
  | nil => rfl
  | cons x l ih =>
    have hx := each x List.mem_cons_self
    have hl := ih fun y hy => each y (List.mem_cons_of_mem _ hy)
    simp [List.mapM_cons, hx, hl]

theorem leafEntries_repr {d : Nat} {nodes : Nodes R} {t : Tree R d} (hm : Repr nodes d t)
    {levels : Nat} (deep : d < levels) : leafEntries nodes levels (ptr t) = some (contents d t) := by
  induction d generalizing levels with
  | zero =>
    obtain ⟨levels, rfl⟩ : ∃ n, levels = n + 1 := ⟨levels - 1, by omega⟩
    obtain ⟨p, F, L, recs, rfl⟩ := exists_leaf t
    have all := mapM_map_some (l := recs) (h := id)
      (f := fun e : Entry R => match e.ptr with
        | .record r => some (e.key, r)
        | .child _ => none)
      (g := fun x => ⟨x.1, .record x.2⟩) fun _ _ => rfl
    rw [List.map_id] at all
    rw [leafEntries, repr_ptr hm, Option.bind_eq_bind, Option.bind_some, if_pos (by simp)]
    exact all
  | succ d ih =>
    obtain ⟨levels, rfl⟩ : ∃ n, levels = n + 1 := ⟨levels - 1, by omega⟩
    obtain ⟨p, F, L, t, ts, rfl⟩ := exists_node t
    have first : leafEntries nodes levels (ptr t) = some (contents d t) :=
      ih (hm.2 t List.mem_cons_self) (by omega)
    have rest := mapM_map_some (l := ts) (h := fun x => contents d x.2)
      (f := fun e : Entry R => match e.ptr with
        | .child q => leafEntries nodes levels q
        | .record _ => none)
      (g := fun x => ⟨x.1, .child (ptr x.2)⟩) fun x hx =>
        ih (hm.2 x.2 (List.mem_cons_of_mem _ (List.mem_map_of_mem hx))) (by omega)
    rw [leafEntries, repr_ptr hm, Option.bind_eq_bind, Option.bind_some, if_neg (by simp)]
    simp only [toNode_node, first, rest, Option.bind_eq_bind, Option.bind_some, Option.pure_def]
    rw [contents_node, gather, List.flatMap_def]

/-! ### The key under the cursor -/

/-- The cursor is at the least stored key that satisfies `P`, and invalid if there is none. -/
def AtLeast (s : State R) (stored : Finset Key) (P : Key → Prop) : Prop :=
  ∃ valid, RL_CursorIsValid s.rel.nodes s.cursor = some valid ∧
    (valid = false ↔ ∀ k ∈ stored, ¬ P k) ∧
    (valid = true → ∃ cursor k, RL_GetKey s.rel.nodes s.cursor = some (cursor, k) ∧
      k ∈ stored ∧ P k ∧ ∀ k' ∈ stored, P k' → k ≤ k')

/-- A position is at the least key that satisfies `P` when `P` fails before it and holds from it
on. -/
theorem atLeast_simulates {s : State R} {m : Model R} (h : Simulates s m) (sorted : Sorted m.entries)
    {P : Key → Prop} (before : ∀ x ∈ m.entries.take m.pos, ¬ P x.1)
    (after : ∀ x ∈ m.entries.drop m.pos, P x.1) :
    AtLeast s (m.entries.map Prod.fst).toFinset P := by
  have hvalid := isValid_simulates h
  have stored : ∀ k, k ∈ (m.entries.map Prod.fst).toFinset → P k →
      ∃ x ∈ m.entries.drop m.pos, x.1 = k := by
    intro k hk hP
    obtain ⟨x, hx, rfl⟩ := List.mem_map.mp (List.mem_toFinset.mp hk)
    rw [← List.take_append_drop m.pos m.entries] at hx
    rcases List.mem_append.mp hx with hx | hx
    · exact absurd hP (before x hx)
    · exact ⟨x, hx, rfl⟩
  refine ⟨_, hvalid, ?_, ?_⟩
  · rw [decide_eq_false_iff_not, Nat.not_lt, ← List.drop_eq_nil_iff]
    constructor
    · intro none k hk hP
      obtain ⟨x, hx, -⟩ := stored k hk hP
      rw [none] at hx
      cases hx
    · intro none
      refine List.eq_nil_iff_forall_not_mem.mpr fun x hx => ?_
      exact none x.1 (List.mem_toFinset.mpr (List.mem_map_of_mem (List.mem_of_mem_drop hx)))
        (after x hx)
  · intro valid
    have inside := of_decide_eq_true valid
    have hdrop : m.entries.drop m.pos = m.entries[m.pos] :: m.entries.drop (m.pos + 1) :=
      List.drop_eq_getElem_cons inside
    have hsorted : Sorted (m.entries.drop m.pos) := by
      rw [← List.take_append_drop m.pos m.entries] at sorted
      exact (sorted_append.mp sorted).2.1
    rw [hdrop] at hsorted after stored
    have hx : m.entries[m.pos]? = some m.entries[m.pos] := List.getElem?_eq_getElem inside
    obtain ⟨d, t, hrel, hcontents, hπ⟩ := h
    obtain ⟨π', hget, -⟩ :=
      RL_GetKey_spec hrel.repr hrel.good hrel.shallow hπ (by rw [hcontents]; exact hx)
    refine ⟨π', _, hget, List.mem_toFinset.mpr (List.mem_map_of_mem (List.getElem_mem inside)),
      after _ List.mem_cons_self, fun k hk hP => ?_⟩
    obtain ⟨x, hx, rfl⟩ := stored k hk hP
    rcases List.mem_cons.mp hx with rfl | hx
    · exact le_refl _
    · exact ((sorted_cons.mp hsorted).1 x hx).le

/-! ### Every run -/

/-- After any calls with fewer than `2 ^ 61` keys: the leaves hold each key with the record of its
last put, in order; a move to a key says whether it is stored and goes to the least key that is not
below it; a put leaves the cursor at the least key above it. -/
theorem relation_sortedMap (ops : List (Op R)) (few : (putKeys ops).card < 2 ^ 61) :
    ∃ s, run ops = some s ∧
      (∃ entries, leafEntries s.rel.nodes MAX_TREE_DEPTH s.rel.root = some entries ∧
        Sorted entries ∧ ∀ k r, (k, r) ∈ entries ↔ lastPut k ops = some r) ∧
      RL_NumRecords s.rel = (putKeys ops).card ∧
      (∀ k, ∃ s' b, step s (.moveToKey k) = some (s', .found b) ∧
        (b = true ↔ k ∈ putKeys ops) ∧ AtLeast s' (putKeys ops) (k ≤ ·)) ∧
      ∀ ops' k r, ops = ops' ++ [.put k r] → AtLeast s (putKeys ops) (k < ·) := by
  obtain ⟨s, hs⟩ := run_isSome ops (by rwa [length_run])
  have hsim := run_simulates hs
  have sorted := sorted_run ops
  refine ⟨s, hs, ?_, ?_, ?_, ?_⟩
  · obtain ⟨d, t, hrel, hcontents, -⟩ := hsim
    refine ⟨(Model.run ops).entries, ?_, sorted, fun k r => ?_⟩
    · rw [hrel.root, leafEntries_repr hrel.repr hrel.shallow, hcontents]
    · rw [← lookup_run]
      exact ⟨lookup_of_mem sorted, mem_of_lookup⟩
  · obtain ⟨d, t, hrel, hcontents, -⟩ := hsim
    rw [RL_NumRecords, hrel.count, hcontents, length_run]
  · intro k
    obtain ⟨s', hstep, hsim'⟩ | ⟨-, many⟩ := step_simulates hsim (.moveToKey k)
    · refine ⟨s', _, hstep, ?_, ?_⟩
      · rw [decide_eq_true_iff, ← keys_run, List.mem_toFinset]
      · obtain ⟨below, above⟩ := rank_split (k := k) sorted
        rw [← keys_run]
        exact atLeast_simulates hsim' sorted (fun x hx => Nat.not_le.mpr (below x hx)) above
    · rw [Model.step, length_run] at many
      omega
  · rintro ops' k r rfl
    rw [← keys_run]
    rw [Model.run_snoc] at hsim sorted ⊢
    obtain ⟨below, above⟩ := put_split (v := r) (k := k) (sorted_run ops')
    exact atLeast_simulates hsim sorted (fun x hx => Nat.not_lt.mpr (below x hx)) above

theorem relation_sortedMap_puts :
    ∃ s, run [Op.put 5 0, .put 2 1, .moveToKey 3, .put 5 2] = some s ∧
      RL_NumRecords s.rel = 2 ∧ ∃ s', step s (.moveToKey 4) = some (s', .found false) := by
  obtain ⟨s, hs, -, hnum, hmove, -⟩ :=
    relation_sortedMap [Op.put 5 0, .put 2 1, .moveToKey 3, .put 5 2] (by decide)
  obtain ⟨s', b, hstep, hb, -⟩ := hmove 4
  have absent : 4 ∉ putKeys [Op.put 5 0, .put 2 1, .moveToKey 3, .put 5 2] := by decide
  obtain rfl : b = false := by simpa [absent] using hb
  exact ⟨s, hs, hnum, s', hstep⟩

end DeepDB.BTree
