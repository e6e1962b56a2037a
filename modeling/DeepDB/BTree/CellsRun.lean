import DeepDB.BTree.CellsPut

/-!
Runs of the relation library on arrays of cells. Every access of a run is inside the arrays and
every read is of an entry in use, as long as no step backward has to go below a `ptr0`: that step
reads `entries[-1]`.
-/

namespace DeepDB.BTree.Cells
open Traced SortedAssoc Multiway BTree.Tree

variable {R : Type}

/-! ### The client's calls -/

structure State (R : Type) where
  rel : Relation R
  cursor : Cursor

/-- The calls of `Op`, and the step backward. -/
inductive Call (R : Type) where
  | op (op : Op R)
  | moveToPrevious

def start : Traced Access (State R) := do
  let rel := RL_NewRelation
  let cursor ← RL_NewCursor rel
  return ⟨rel, cursor⟩

def step (s : State R) : Call R → Traced Access (State R)
  | .op (.put key record) => do
    let (rel, cursor) ← RL_PutRecord s.rel s.cursor key record
    return ⟨rel, cursor⟩
  | .op (.moveToKey key) => do
    let (cursor, _) ← RL_MoveToKey s.rel.nodes s.cursor key
    return { s with cursor }
  | .op .moveToFirst => do
    let (cursor, _) ← RL_MoveToFirst s.rel
    return { s with cursor }
  | .op .moveToNext => do
    let cursor ← RL_MoveToNext s.rel.nodes s.cursor
    return { s with cursor }
  | .op .getKey => do
    let valid ← isValid s.rel.nodes s.cursor
    if valid then
      let (cursor, _) ← RL_GetKey s.rel.nodes s.cursor
      return { s with cursor }
    else return s
  | .op .getRecord => do
    let valid ← isValid s.rel.nodes s.cursor
    if valid then
      let (cursor, _) ← RL_GetRecord s.rel.nodes s.cursor
      return { s with cursor }
    else return s
  | .moveToPrevious => do
    let cursor ← RL_MoveToPrevious s.rel.nodes s.cursor
    return { s with cursor }

/-- A sequence of calls, with the log of all accesses. -/
def run (calls : List (Call R)) : Traced Access (State R) := do
  let s ← start
  calls.foldlM step s

theorem run_snoc (calls : List (Call R)) (call : Call R) :
    run (calls ++ [call]) = run calls >>= fun s => step s call := by
  simp [run]

/-! ### Insertions that fail

The put of a key may make the tree too deep for the cursor. It fails only after all splits, in the
search from the new root, and makes no bad access on the way. -/

variable {d : Nat} {root : Bool} {r : Range Key} {mem : Nodes R} {nodes nodes' : BTree.Nodes R}
  {rel' : BTree.Relation R} {entry : Entry R} {key : Key} {v : R} {up π : Cursor}

theorem agrees_moveToKeyIn {t : Tree R d} (shows : ShowsAll mem nodes) (hm : Repr nodes d t)
    (hg : Good d root r t) (key : Key) (room : Nat) (up : Cursor) :
    Agrees Access.InBounds Eq (moveToKeyIn mem key room (ptr t) up)
      (BTree.moveToKeyIn nodes key room (ptr t) up) := by
  induction d generalizing root r room up with
  | zero =>
    cases room with
    | zero => exact agrees_none
    | succ room =>
      obtain ⟨π, hπ, -⟩ := moveToKeyIn_spec hm hg key (room + 1) (Nat.succ_pos _) up
      exact (refines_moveToKeyIn shows key (room + 1) (ptr t) up).agrees (by rw [hπ]; rfl)
  | succ d ih =>
    cases room with
    | zero => exact agrees_none
    | succ room =>
      obtain ⟨p, F, L, t, ts, rfl⟩ := exists_node t
      obtain ⟨pre, f, post, hj, below, above⟩ := exists_focus key t ts hg.2.1
      have hi := findChildIndex_join (p := p) (F := F) (L := L) hj hg.2.2.2.1 below above
      have hc := childAt_join (p := p) (F := F) (L := L) hj
      obtain ⟨c, hmem, h⟩ := shows.get (repr_ptr hm)
      obtain ⟨_, index, rfl⟩ := refines_findChildIndex h key _ hi
      obtain ⟨_, child, rfl⟩ := refines_childAt h _ _ hc
      rw [moveToKeyIn, BTree.moveToKeyIn, repr_ptr hm, Option.bind_eq_bind, Option.bind_some,
        if_neg (by simp), hi, Option.bind_eq_bind, Option.bind_some, hc, Option.bind_eq_bind,
        Option.bind_some]
      refine (returns_ofOption hmem).agrees ?_
      rw [if_neg (by simp [h.isLeaf])]
      refine index.agrees (child.agrees ?_)
      exact ih (hm.2 f (mem_of_join hj)) (good_focus hg hj) room _

/-- On every memory that shows the nodes the insertion has the result that it has on the nodes. -/
def PutAgrees (rel' : BTree.Relation R) (entry : Entry R) (key : Key) (cursor : Cursor) : Prop :=
  ∀ rel, ShowsRelation rel rel' → Agrees Access.InBounds ShowsPut (putEntry rel entry key cursor)
    (BTree.putEntry rel' entry key cursor)

theorem putAgrees_of_isSome {cursor : Cursor}
    (h : (BTree.putEntry rel' entry key cursor).isSome) : PutAgrees rel' entry key cursor :=
  fun _ hr => (refines_putEntry hr entry key cursor).agrees h

theorem putAgrees_split {p : Ptr} {i : Int} {n : BTree.BtNode R} {entry' : Entry R}
    (hn : rel'.nodes[p]? = some n) (full : ¬ n.numKeys < FANOUT)
    (absent : n.isLeaf = true → BTree.keyAtCursor n i entry.key = some false)
    (split : BTree.splitnode rel'.nodes p entry n.isLeaf = some (nodes, entry'))
    (rest : PutAgrees { rel' with nodes } entry' key up) :
    PutAgrees rel' entry key ((p, i) :: up) := by
  intro rel hr
  obtain ⟨c, hc, h⟩ := hr.nodes.get hn
  have full' : ¬ c.numKeys < FANOUT := fun room => full (by rw [← h.numKeys_int]; exact_mod_cast room)
  obtain ⟨⟨mem, e⟩, hsplit, shows, same⟩ := refines_splitnode hr.nodes p entry n.isLeaf _ split
  obtain rfl : e = entry' := same
  have after := rest { rel with nodes := mem } ⟨shows, hr.root, hr.numRecords, hr.depth⟩
  rw [putEntry, BTree.putEntry, hn, Option.bind_eq_bind, Option.bind_some]
  refine (returns_ofOption hc).agrees ?_
  rw [h.isLeaf]
  cases hleaf : n.isLeaf with
  | true =>
    obtain ⟨_, found, rfl⟩ := refines_keyAtCursor h i entry.key _ (absent hleaf)
    rw [hleaf] at split hsplit
    rw [if_pos rfl, if_pos rfl, absent hleaf, Option.bind_eq_bind, Option.bind_some,
      if_neg Bool.false_ne_true, if_neg full, split, Option.bind_eq_bind, Option.bind_some]
    refine found.agrees ?_
    rw [if_neg Bool.false_ne_true, if_neg full']
    exact hsplit.agrees after
  | false =>
    rw [hleaf] at split hsplit
    rw [if_neg Bool.false_ne_true, if_neg Bool.false_ne_true, if_neg full, if_neg full', split,
      Option.bind_eq_bind, Option.bind_some]
    exact hsplit.agrees after

theorem putAgrees_root {t t₁ t₂ : Tree R d} {k : Key} (hrel : Holds rel' d t)
    (h : Divided rel'.nodes nodes' Range.full key v t t₁ t₂ k) :
    PutAgrees { rel' with nodes := nodes' } ⟨k, .child (ptr t₂)⟩ key [] := by
  intro rel hr
  obtain ⟨hm, hg⟩ := root_node h
  have made : toNode (node nodes'.length true true t₁ [(k, t₂)]) =
      { (BTree.createNewNode false true true : BTree.BtNode R) with
        ptr0 := some rel'.root, entries := [⟨k, .child (ptr t₂)⟩] } := by
    rw [hrel.root, ← h.ptr]
    rfl
  rw [made] at hm
  have search := agrees_moveToKeyIn (shows_newRoot hr _) hm hg key MAX_TREE_DEPTH []
  have length : rel.nodes.length = nodes'.length := hr.nodes.length
  rw [ptr_node, ← length] at search
  rw [putEntry, BTree.putEntry]
  refine (writeRoot_returns rel.root _).agrees ?_
  rw [← length]
  refine agrees_bind search ?_
  intro cursor _ same
  obtain rfl := same
  exact agrees_pure ⟨⟨shows_newRoot hr _, rfl, by rw [hr.numRecords], by rw [hr.depth]⟩, rfl⟩

/-- In a subtree the insertion agrees, or it comes to a division and agrees if the rest does. -/
theorem putAgrees_subtree {t : Tree R d} (hm : Repr rel'.nodes d t) (nodup : (ptrs d t).Nodup)
    (hg : Good d root r t) (hk : r.Mem key) (hπ : SearchPath key d t π) (up : Cursor)
    (hroom : d + up.length < MAX_TREE_DEPTH) :
    PutAgrees rel' ⟨key, .record v⟩ key (π ++ up) ∨
      ∃ nodes' t₁ t₂ k, Divided rel'.nodes nodes' r key v t t₁ t₂ k ∧
        (PutAgrees { rel' with nodes := nodes' } ⟨k, .child (ptr t₂)⟩ key up →
          PutAgrees rel' ⟨key, .record v⟩ key (π ++ up)) := by
  induction d generalizing root r π up with
  | zero =>
    obtain ⟨p, F, L, recs, rfl⟩ := exists_leaf t
    obtain rfl := hπ
    by_cases inside : key ∈ recs.map Prod.fst ∨ recs.length < FANOUT
    · obtain ⟨nodes', t', π', m, hput, -⟩ := put_leaf_inside (v := v) hm hg hk inside up
      exact Or.inl (putAgrees_of_isSome (by rw [List.singleton_append, hput]; rfl))
    · obtain ⟨absent, full⟩ := not_or.mp inside
      obtain ⟨nodes', t₁, t₂, k, split, divided⟩ :=
        split_leaf (v := v) hm hg hk absent (Nat.le_antisymm hg.2.2.2.1 (Nat.not_lt.mp full))
      refine Or.inr ⟨nodes', t₁, t₂, k, divided, fun rest => ?_⟩
      refine putAgrees_split (repr_ptr hm) ?_ (fun _ => ?_) split rest
      · rw [numKeys_leaf]
        exact_mod_cast full
      · rw [keyAtCursor_leaf hg.2.1, decide_eq_false absent]
  | succ d ih =>
    obtain ⟨p, F, L, t, ts, rfl⟩ := exists_node t
    obtain ⟨pre, f, post, π, hj, ⟨below, above⟩, hf, rfl⟩ := hπ
    have hmf := hm.2 f (mem_of_join hj)
    obtain ⟨rfl, rfl⟩ := Prod.mk.inj hj
    have hkf := focusRange_mem hk below above
    have hnd := nodup
    rw [ptrs_join] at hnd
    have deeper : d + ((p, (pre.length : Int) - 1) :: up).length < MAX_TREE_DEPTH := by
      rw [List.length_cons]
      omega
    rw [List.append_assoc, List.singleton_append]
    rcases ih hmf (List.nodup_append.mp (List.nodup_append.mp hnd).1).2.1
      (siblings_focus hg.2.1) hkf hf _ deeper with agrees | ⟨nodes', f₁, f₂, k, hdiv, rest⟩
    · exact Or.inl agrees
    · have hwide := widened_child hm nodup hg hkf hdiv
      by_cases room : (join pre f post).2.length < FANOUT
      · obtain ⟨nodes'', t'', π'', m, hput, -⟩ := put_room hm hg hwide room hroom
        exact Or.inl (rest (putAgrees_of_isSome (by rw [hput]; rfl)))
      · have full : (join pre f post).2.length = FANOUT :=
          Nat.le_antisymm hg.2.2.1 (Nat.not_lt.mp room)
        obtain ⟨nodes'', t₁, t₂, k', split, divided⟩ := split_node hm hg hwide full
        refine Or.inr ⟨nodes'', t₁, t₂, k', divided, fun rest' => rest ?_⟩
        refine putAgrees_split (hwide.node.trans (repr_ptr hm)) ?_ (fun no => ?_) split rest'
        · rw [numKeys_node]
          exact_mod_cast room
        · exact absurd no (by simp)

theorem agrees_RL_PutRecord {rel : Relation R} (hr : ShowsRelation rel rel') {t : Tree R d}
    (hrel : Holds rel' d t) {pos : Nat} (hπ : PathAt d t π pos) (key : Key) (record : R) :
    Agrees Access.InBounds ShowsPut (RL_PutRecord rel π key record)
      (BTree.RL_PutRecord rel' π key record) := by
  obtain ⟨π₁, hgo, hsearch⟩ := goToKey_spec hrel.repr hrel.good hπ key hrel.shallow
  rcases putEntry_spec key record hrel hsearch with
    ⟨rel₂, d', t', π₂, hput, hrel₂, -, hsearch'⟩ | ⟨hput, -⟩
  · have hpath := searchPath_pathAt hrel₂.good (Range.mem_full key) hsearch'
    obtain ⟨π₃, hnext, -⟩ := RL_MoveToNext_spec hrel₂.repr hrel₂.good hrel₂.shallow hpath
    refine (refines_RL_PutRecord hr π key record).agrees ?_
    simp [BTree.RL_PutRecord, hgo, hput, hnext]
  · obtain ⟨π₁, go, rfl⟩ := refines_goToKey hr.nodes π key _ hgo
    have put : PutAgrees rel' ⟨key, .record record⟩ key π₁ := by
      have inside := putAgrees_subtree (v := record) hrel.repr hrel.nodup hrel.good
        (Range.mem_full key) hsearch [] (by simpa using hrel.shallow)
      rw [List.append_nil] at inside
      rcases inside with agrees | ⟨nodes', t₁, t₂, k, hdiv, rest⟩
      · exact agrees
      · exact rest (putAgrees_root hrel hdiv)
    have fails := put rel hr
    rw [hput] at fails
    rw [RL_PutRecord, BTree.RL_PutRecord, hgo, Option.bind_eq_bind, Option.bind_some, hput]
    exact go.agrees fails.fails

/-! ### Steps -/

structure ShowsState (s : State R) (s' : BTree.State R) : Prop where
  rel : ShowsRelation s.rel s'.rel
  cursor : s.cursor = s'.cursor

variable {s s₂ : State R} {s' : BTree.State R} {m : Model R}

theorem refines_step (hs : ShowsState s s') (op : Op R) :
    Refines Access.InBounds (fun s x => ShowsState s x.1) (step s (.op op)) (BTree.step s' op) := by
  obtain ⟨rel, cursor⟩ := s
  obtain ⟨rel', cursor'⟩ := s'
  obtain ⟨hr, same⟩ := hs
  obtain rfl : cursor = cursor' := same
  cases op with
  | put key record =>
    refine refines_bind (refines_RL_PutRecord hr cursor key record) ?_
    rintro ⟨rel, cursor⟩ ⟨rel', _⟩ ⟨hr, rfl⟩
    exact refines_pure ⟨hr, rfl⟩
  | moveToKey key =>
    refine refines_bind (refines_RL_MoveToKey hr.nodes cursor key) ?_
    rintro ⟨cursor, b⟩ _ rfl
    exact refines_pure ⟨hr, rfl⟩
  | moveToFirst =>
    refine refines_bind (refines_RL_MoveToFirst hr) ?_
    rintro ⟨cursor, b⟩ _ rfl
    exact refines_pure ⟨hr, rfl⟩
  | moveToNext =>
    refine refines_bind (refines_RL_MoveToNext hr.nodes cursor) ?_
    rintro cursor _ rfl
    exact refines_pure ⟨hr, rfl⟩
  | getKey =>
    refine refines_bind (refines_isValid hr.nodes cursor) ?_
    rintro valid _ rfl
    split
    · refine refines_bind (refines_RL_GetKey hr.nodes cursor) ?_
      rintro ⟨cursor, k⟩ _ rfl
      exact refines_pure ⟨hr, rfl⟩
    · exact refines_pure ⟨hr, rfl⟩
  | getRecord =>
    refine refines_bind (refines_isValid hr.nodes cursor) ?_
    rintro valid _ rfl
    split
    · refine refines_bind (refines_RL_GetRecord hr.nodes cursor) ?_
      rintro ⟨cursor, v⟩ _ rfl
      exact refines_pure ⟨hr, rfl⟩
    · exact refines_pure ⟨hr, rfl⟩

theorem agrees_step (hs : ShowsState s s') (h : Simulates s' m) (op : Op R) :
    Agrees Access.InBounds (fun s x => ShowsState s x.1) (step s (.op op)) (BTree.step s' op) := by
  by_cases noPut : ∀ key record, op ≠ .put key record
  · obtain ⟨s₁, hstep, -⟩ := step_simulates_of_ne_put h noPut
    exact (refines_step hs op).agrees (by rw [hstep]; rfl)
  · simp only [not_forall, not_not] at noPut
    obtain ⟨key, record, rfl⟩ := noPut
    obtain ⟨rel, cursor⟩ := s
    obtain ⟨rel', cursor'⟩ := s'
    obtain ⟨hr, same⟩ := hs
    obtain rfl : cursor = cursor' := same
    obtain ⟨d, t, hrel, -, hπ⟩ := h
    refine agrees_bind (agrees_RL_PutRecord hr hrel hπ key record) ?_
    rintro ⟨rel, cursor⟩ ⟨rel', _⟩ ⟨hr, rfl⟩
    exact agrees_pure ⟨hr, rfl⟩

/-- The arrays hold a relation and a cursor that the library can have. -/
def Held (s : State R) : Prop := ∃ s' m, ShowsState s s' ∧ Simulates s' m

theorem step_op_held (h : Held s) (op : Op R) :
    Only Access.InBounds (step s (.op op)) ∧
      ∀ s₂, (step s (.op op)).value = some s₂ → Held s₂ := by
  obtain ⟨s', m, hs, hsim⟩ := h
  obtain ⟨only, values⟩ := agrees_step hs hsim op
  refine ⟨only, fun s₂ hs₂ => ?_⟩
  rw [hs₂] at values
  rcases step_simulates hsim op with ⟨s₁, hstep, hsim'⟩ | ⟨hstep, -⟩
  · rw [hstep] at values
    cases values with
    | some shows => exact ⟨s₁, _, shows, hsim'⟩
  · rw [hstep] at values
    cases values

/-- The step backward is safe exactly where it has not to go below a `ptr0`. -/
theorem moveToPrevious_held (h : Held s) (clear : stepsIntoPtr0 s.cursor = false) :
    Only Access.InBounds (step s .moveToPrevious) ∧
      ∀ s₂, (step s .moveToPrevious).value = some s₂ → Held s₂ := by
  obtain ⟨s', m, hs, d, t, hrel, hcontents, hπ⟩ := h
  rw [hs.cursor] at clear
  rcases RL_MoveToPrevious_spec hrel.repr hrel.good hrel.shallow hπ with
    ⟨into, -⟩ | ⟨-, π', hprev, hπ'⟩
  · rw [clear] at into
    cases into
  · obtain ⟨π', ⟨only, value⟩, rfl⟩ := refines_RL_MoveToPrevious hs.rel.nodes s'.cursor _ hprev
    have returns : Returns Access.InBounds (step s .moveToPrevious) { s with cursor := π' } := by
      rw [step, hs.cursor]
      exact returns_bind ⟨only, value⟩ (returns_pure _)
    refine ⟨returns.1, fun s₂ hs₂ => ?_⟩
    obtain rfl := Option.some.inj (returns.2.symm.trans hs₂)
    exact ⟨{ s' with cursor := π' }, { m with pos := m.pos - 1 }, ⟨hs.rel, rfl⟩, d, t, hrel,
      hcontents, hπ'⟩

theorem moveToPrevious_out (h : Held s) (into : stepsIntoPtr0 s.cursor = true) :
    ¬ Only Access.InBounds (step s .moveToPrevious) := by
  obtain ⟨s', m, hs, d, t, hrel, hcontents, hπ⟩ := h
  rw [hs.cursor] at into
  rcases RL_MoveToPrevious_spec hrel.repr hrel.good hrel.shallow hπ with ⟨-, later, -⟩ | ⟨clear, -⟩
  · intro only
    have hm := hs.rel.nodes
    obtain ⟨hzero, q, up, n, ascends, hq, hleaf⟩ :=
      ascendFirst_stepsIntoPtr0 hrel.repr hrel.good hπ into
    have notFirst := isFirst_spec hrel.repr hrel.good hπ
    rw [decide_eq_false (Nat.pos_iff_ne_zero.mp later)] at notFirst
    obtain ⟨_, first, rfl⟩ := refines_isFirst hm _ _ notFirst
    obtain ⟨_, climbs, rfl⟩ := refines_ascendFirst hm _ _ ascends
    obtain ⟨c, hc, h⟩ := hm.get hq
    have index : Returns Access.InBounds (entryIndex s'.cursor) 0 := returns_ofOption hzero
    rw [step, hs.cursor, only_bind, RL_MoveToPrevious, only_bind_returns index] at only
    have prev : Only Access.InBounds (moveToPrev s.rel.nodes s'.cursor) :=
      (only_bind.mp only.1).1
    rw [moveToPrev, only_bind_returns first, if_neg Bool.false_ne_true, stepPrev,
      only_bind_returns climbs] at prev
    have get : Returns Access.InBounds (getNode s.rel.nodes q) c := returns_ofOption hc
    dsimp only at prev
    rw [only_bind_returns get, h.isLeaf, hleaf, if_neg Bool.false_ne_true,
      only_bind, entryChild, only_bind, readEntry, only_bind, only_emit] at prev
    exact absurd prev.1.1.1.1 (by decide)
  · rw [clear] at into
    cases into

/-! ### Runs -/

theorem start_held (R : Type) :
    Only Access.InBounds (start : Traced Access (State R)) ∧
      ∀ s : State R, start.value = some s → Held s := by
  obtain ⟨s', hstart, hsim⟩ := start_simulates R
  have shows : ShowsRelation (RL_NewRelation : Relation R) BTree.RL_NewRelation :=
    ⟨List.Forall₂.cons (shows_createNewNode true true true) List.Forall₂.nil, rfl, rfl, rfl⟩
  have refines : Refines Access.InBounds ShowsState start (BTree.start (R := R)) := by
    refine refines_bind (refines_moveToFirst shows.nodes 0 []) ?_
    intro cursor _ same
    obtain rfl := same
    exact refines_pure ⟨shows, rfl⟩
  obtain ⟨s₀, returns, shows₀⟩ := refines s' hstart
  refine ⟨returns.1, fun s hs => ?_⟩
  obtain rfl := Option.some.inj (returns.2.symm.trans hs)
  exact ⟨s', _, shows₀, hsim⟩

theorem run_nil : (run [] : Traced Access (State R)) = start := by
  simp [run]

/-- A run without a bad access is in a state that the library can have. -/
theorem run_held {calls : List (Call R)} (only : Only Access.InBounds (run calls))
    (hs : (run calls).value = some s) : Held s := by
  induction calls using List.reverseRecOn generalizing s with
  | nil =>
    rw [run_nil] at hs
    exact (start_held R).2 s hs
  | append_singleton calls call ih =>
    rw [run_snoc, only_bind] at only
    rw [run_snoc, bind_value] at hs
    obtain ⟨s₁, hs₁, hs⟩ := Option.bind_eq_some_iff.mp hs
    have held := ih only.1 hs₁
    cases call with
    | op op => exact (step_op_held held op).2 s hs
    | moveToPrevious =>
      cases into : stepsIntoPtr0 s₁.cursor with
      | false => exact (moveToPrevious_held held into).2 s hs
      | true => exact absurd (only.2 s₁ hs₁) (moveToPrevious_out held into)

/-- The accesses of a run through one cursor are all inside the arrays, and its reads of entries in
use, exactly if none of its steps backward goes below a `ptr0`. -/
theorem run_inBounds_iff (calls : List (Call R)) :
    Only Access.InBounds (run calls) ↔
      ∀ before, before ++ [.moveToPrevious] <+: calls → ∀ s, (run before).value = some s →
        stepsIntoPtr0 s.cursor = false := by
  induction calls using List.reverseRecOn with
  | nil =>
    rw [run_nil]
    refine iff_of_true (start_held R).1 fun before prefixed => ?_
    exact absurd (List.prefix_nil.mp prefixed) (List.append_ne_nil_of_right_ne_nil _ (by simp))
  | append_singleton calls call ih =>
    rw [run_snoc, only_bind]
    constructor
    · rintro ⟨only, last⟩ before prefixed s hs
      rcases List.prefix_concat_iff.mp prefixed with same | prefixed
      · obtain ⟨rfl, last'⟩ := List.append_inj' same rfl
        obtain rfl := (List.cons.inj last').1
        have held := run_held only hs
        by_contra into
        exact moveToPrevious_out held (by simpa using into) (last s hs)
      · exact ih.mp only before prefixed s hs
    · intro clear
      have only := ih.mpr fun before prefixed =>
        clear before (prefixed.trans (List.prefix_append _ _))
      refine ⟨only, fun s hs => ?_⟩
      have held := run_held only hs
      cases call with
      | op op => exact (step_op_held held op).1
      | moveToPrevious =>
        exact (moveToPrevious_held held (clear calls (List.prefix_refl _) s hs)).1

/-- Sixteen keys are in two leaves; the cursor goes to the first key of the second one and back. -/
def backIntoFirstLeaf : List (Call Nat) :=
  (List.range 16).map (fun k => .op (.put k k)) ++ [.op (.moveToKey 8), .moveToPrevious]

theorem backIntoFirstLeaf_reads : (run backIntoFirstLeaf).events.getLast? = some (.read (-1) 1) := by
  decide +kernel

theorem backIntoFirstLeaf_out : ¬ Only Access.InBounds (run backIntoFirstLeaf) := by
  intro only
  exact absurd (only _ (List.mem_of_getLast? backIntoFirstLeaf_reads)).1 (by decide)

end DeepDB.BTree.Cells
