import DeepDB.KV.Store

/-!
What the functions of the key-value store do to the memory. The records of a node's relation are its
layer: moving a cursor keeps all layers, and a put of a record changes one. A search in a layer comes
to the border node of the slice, or finds that there is none.
-/

namespace DeepDB.KV
open SortedAssoc
open Trie (Key keysliceLength Ptr NULL)
open BTree (leafEntries MAX_TREE_DEPTH)
open Library

variable {m m' : Memory} {node p : Ptr} {keySlice : UInt64} {entries : List (Nat × Ptr)}

/-- The border nodes of a node's relation, by their slices. -/
def Memory.layer (m : Memory) (node : Ptr) : Option (List (Nat × Ptr)) := do
  let n ← m.kvNode node
  leafEntries n.tree.nodes MAX_TREE_DEPTH n.tree.root

/-- Every cursor is on its relation. -/
def Memory.Valid (m : Memory) : Prop :=
  ∀ p n, m.kvNode p = some n → ∃ pos, At n.tree n.cursor pos

/-- At most cursors have moved. -/
structure Moved (m m' : Memory) : Prop where
  valid : m'.Valid
  layer : m'.layer = m.layer
  borderNode : m'.borderNode = m.borderNode
  next : m'.next = m.next

theorem Moved.refl (valid : m.Valid) : Moved m m := ⟨valid, rfl, rfl, rfl⟩

theorem Moved.trans {m'' : Memory} (first : Moved m m') (second : Moved m' m'') : Moved m m'' :=
  ⟨second.valid, second.layer.trans first.layer, second.borderNode.trans first.borderNode,
    second.next.trans first.next⟩

/-! ### Nodes -/

theorem layer_eq_some : m.layer node = some entries ↔ ∃ n, m.kvNode node = some n ∧
    leafEntries n.tree.nodes MAX_TREE_DEPTH n.tree.root = some entries := by
  unfold Memory.layer
  exact Option.bind_eq_some_iff

theorem layer_of_node (valid : m.Valid) {n : KVNode} (here : m.kvNode node = some n) :
    ∃ entries, m.layer node = some entries ∧ Sorted entries := by
  obtain ⟨pos, at_⟩ := valid node n here
  obtain ⟨entries, leaves, sorted⟩ := at_leaves at_
  exact ⟨entries, layer_eq_some.mpr ⟨n, here, leaves⟩, sorted⟩

theorem layer_sorted (valid : m.Valid) (layer : m.layer node = some entries) : Sorted entries := by
  obtain ⟨n, here, -⟩ := layer_eq_some.mp layer
  obtain ⟨entries', layer', sorted⟩ := layer_of_node valid here
  rw [layer] at layer'
  cases layer'
  exact sorted

theorem layer_none (no : m.kvNode node = none) : m.layer node = none := by
  unfold Memory.layer
  rw [no]
  rfl

theorem Memory.Valid.setKVNode (valid : m.Valid) {n : KVNode} {pos : Nat}
    (at_ : At n.tree n.cursor pos) : (m.setKVNode p n).Valid := by
  intro q n' here
  unfold Memory.setKVNode at here
  simp only at here
  split at here
  · cases here
    exact ⟨pos, at_⟩
  · exact valid q n' here

/-- A node is written. -/
theorem layer_setKVNode (n : KVNode) : (m.setKVNode p n).layer
    = Function.update m.layer p (leafEntries n.tree.nodes MAX_TREE_DEPTH n.tree.root) := by
  funext q
  unfold Memory.layer Memory.setKVNode
  by_cases same : q = p
  · subst same
    simp
  · simp [same]

/-- Only the cursor of a node is written. -/
theorem moved_setKVNode (valid : m.Valid) {n n' : KVNode} {pos : Nat} (here : m.kvNode p = some n)
    (tree : n'.tree = n.tree) (at_ : At n'.tree n'.cursor pos) : Moved m (m.setKVNode p n') where
  valid := valid.setKVNode at_
  layer := by
    rw [layer_setKVNode, tree]
    have same : m.layer p = leafEntries n.tree.nodes MAX_TREE_DEPTH n.tree.root := by
      unfold Memory.layer
      rw [here]
      rfl
    rw [← same, Function.update_eq_self]
  borderNode := rfl
  next := rfl

/-! ### Searching -/

/-- A search for a slice goes on with its border node, if there is one. -/
theorem search_spec {α : Type} (valid : m.Valid) (layer : m.layer node = some entries)
    (keySlice : UInt64) (found : Ptr → Memory → Option α) (absent : Memory → Option α) :
    ∃ m', Moved m m' ∧ (do
        let (btreeStatus, m) ← moveToKey node keySlice m
        if btreeStatus then
          let (borderNode, m) ← getRecord node m
          found borderNode m
        else absent m)
      = match lookup keySlice.toNat entries with
        | some borderNode => found borderNode m'
        | none => absent m' := by
  obtain ⟨n, here, leaves⟩ := layer_eq_some.mp layer
  obtain ⟨pos, at_⟩ := valid node n here
  obtain ⟨cursor, move, at_key⟩ := RL_MoveToKey_at leaves at_ keySlice.toNat
  have moved : Moved m (m.setKVNode node { n with cursor }) := moved_setKVNode valid here rfl at_key
  have run : moveToKey node keySlice m = some (decide (keySlice.toNat ∈ entries.map Prod.fst),
      m.setKVNode node { n with cursor }) := by
    unfold moveToKey
    rw [here, Option.bind_eq_bind, Option.bind_some, move]
    rfl
  rw [run]
  cases looked : lookup keySlice.toNat entries with
  | none =>
    refine ⟨_, moved, ?_⟩
    rw [Option.bind_eq_bind, Option.bind_some]
    simp only [decide_eq_true_eq, if_neg (lookup_eq_none.mp looked)]
  | some borderNode =>
    have member := mem_of_lookup looked
    have entry := getElem?_rank_of_mem (layer_sorted valid layer) member
    obtain ⟨cursor', get, at_'⟩ := RL_GetRecord_at leaves at_key entry
    have here' : (m.setKVNode node { n with cursor }).kvNode node = some { n with cursor } := if_pos rfl
    have moved' : Moved (m.setKVNode node { n with cursor })
        ((m.setKVNode node { n with cursor }).setKVNode node { n with cursor := cursor' }) :=
      moved_setKVNode moved.valid here' rfl at_'
    refine ⟨_, moved.trans moved', ?_⟩
    have record : getRecord node (m.setKVNode node { n with cursor }) = some (borderNode,
        (m.setKVNode node { n with cursor }).setKVNode node { n with cursor := cursor' }) := by
      unfold getRecord
      rw [here', Option.bind_eq_bind, Option.bind_some]
      simp only [get]
      rfl
    rw [Option.bind_eq_bind, Option.bind_some]
    simp only [decide_eq_true_eq, if_pos (List.mem_map_of_mem (f := Prod.fst) member), record]
    rfl

theorem moveToKey_none (no : m.layer node = none) (valid : m.Valid) : moveToKey node keySlice m = none := by
  unfold moveToKey
  cases here : m.kvNode node with
  | none => rfl
  | some n =>
    obtain ⟨entries, layer, -⟩ := layer_of_node valid here
    rw [no] at layer
    cases layer

/-! ### Writing -/

/-- With `2 ^ 61` records in a layer a new one may fail. -/
theorem putRecord_spec (valid : m.Valid) (layer : m.layer node = some entries) (keySlice : UInt64)
    (p : Ptr) :
    (∃ m', putRecord node keySlice p m = some m' ∧ m'.Valid ∧
      m'.layer = Function.update m.layer node (some (put keySlice.toNat p entries)) ∧
      m'.borderNode = m.borderNode ∧ m'.next = m.next) ∨
    putRecord node keySlice p m = none ∧ 2 ^ 61 ≤ (put keySlice.toNat p entries).length := by
  obtain ⟨n, here, leaves⟩ := layer_eq_some.mp layer
  obtain ⟨pos, at_⟩ := valid node n here
  have call : putRecord node keySlice p m = (RL_PutRecord n.tree n.cursor keySlice.toNat p).bind
      fun x => some (m.setKVNode node ⟨x.1, x.2⟩) := by
    unfold putRecord
    rw [here]
    rfl
  rcases RL_PutRecord_at leaves at_ keySlice.toNat p with
    ⟨tree, cursor, pos', run, at_', leaves'⟩ | ⟨failed, many⟩
  · refine Or.inl ⟨m.setKVNode node ⟨tree, cursor⟩, ?_, valid.setKVNode at_', ?_, rfl, rfl⟩
    · rw [call, run]
      rfl
    · rw [layer_setKVNode, leaves']
  · rw [call, failed]
    exact Or.inr ⟨rfl, many⟩

theorem putRecord_none (no : m.layer node = none) (valid : m.Valid) :
    putRecord node keySlice p m = none := by
  unfold putRecord
  cases here : m.kvNode node with
  | none => rfl
  | some n =>
    obtain ⟨entries, layer, -⟩ := layer_of_node valid here
    rw [no] at layer
    cases layer

theorem putRecord_valid (valid : m.Valid) (h : putRecord node keySlice p m = some m') : m'.Valid := by
  cases layer : m.layer node with
  | none =>
    rw [putRecord_none layer valid] at h
    cases h
  | some entries =>
    rcases putRecord_spec valid layer keySlice p with ⟨m1, run, valid1, -⟩ | ⟨failed, -⟩
    · rw [run] at h
      cases h
      exact valid1
    · rw [failed] at h
      cases h

theorem newKVNode_spec (valid : m.Valid) : ∃ m', newKVNode m = some (m.next, m') ∧ m'.Valid ∧
    m'.layer = Function.update m.layer m.next (some []) ∧ m'.borderNode = m.borderNode ∧
    m'.next = m.next + 1 := by
  obtain ⟨s, s', made, -, refines⟩ := start_refines Ptr
  rw [newCursor] at made
  obtain ⟨cursor, run, same⟩ := Option.bind_eq_some_iff.mp made
  obtain ⟨rfl, -⟩ := Prod.mk.inj (Option.some.inj same)
  obtain ⟨⟨rel, cursor_eq⟩, d, t, pos, hrel, hπ⟩ := refines
  rw [← cursor_eq] at hπ
  refine ⟨{ m.setKVNode m.next ⟨RL_NewRelation, cursor⟩ with next := m.next + 1 }, ?_, ?_, ?_, rfl, rfl⟩
  · unfold newKVNode
    simp only [run, Option.bind_eq_bind, Option.bind_some]
    rfl
  · exact valid.setKVNode (n := ⟨RL_NewRelation, cursor⟩) ⟨_, d, t, rel, hrel, hπ⟩
  · have written := layer_setKVNode (m := m) (p := m.next) ⟨RL_NewRelation, cursor⟩
    rw [leafEntries_new] at written
    exact written

theorem newKVStore_spec (valid : m.Valid) : ∃ m', KV_NewKVStore m = some (⟨m.next, 0⟩, m') ∧ m'.Valid ∧
    m'.layer = Function.update m.layer m.next (some []) ∧ m'.borderNode = m.borderNode ∧
    m'.next = m.next + 1 := by
  obtain ⟨m', made, rest⟩ := newKVNode_spec valid
  refine ⟨m', ?_, rest⟩
  unfold KV_NewKVStore
  rw [made]
  rfl

theorem newBorderNode_valid (valid : m.Valid) (bn : BorderNode) : (newBorderNode m bn).2.Valid := valid

theorem newKVNode_valid (valid : m.Valid) (h : newKVNode m = some (p, m')) : m'.Valid := by
  obtain ⟨m1, made, valid1, -⟩ := newKVNode_spec valid
  rw [made] at h
  cases h
  exact valid1

theorem putNew_valid {key : KVKey} {value : Ptr} (valid : m.Valid)
    (h : putNew node keySlice key value m = some m') : m'.Valid := by
  obtain ⟨bn, -, h⟩ := Option.bind_eq_some_iff.mp h
  exact putRecord_valid (newBorderNode_valid valid bn) h

/-- A new border node is put into a layer. -/
theorem putNew_spec (keySlice : UInt64) {key : KVKey} {value : Ptr} {bn : BorderNode} (valid : m.Valid)
    (layer : m.layer node = some entries) (set : BN_SetValue BN_NewBorderNode key value = some bn) :
    (∃ m', putNew node keySlice key value m = some m' ∧ m'.Valid ∧
      m'.layer = Function.update m.layer node (some (put keySlice.toNat m.next entries)) ∧
      m'.borderNode = Function.update m.borderNode m.next (some bn) ∧ m'.next = m.next + 1) ∨
    putNew node keySlice key value m = none ∧ 2 ^ 61 ≤ (put keySlice.toNat m.next entries).length := by
  have call : putNew node keySlice key value m
      = putRecord node keySlice m.next (newBorderNode m bn).2 := by
    unfold putNew
    rw [set]
    rfl
  have layer' : (newBorderNode m bn).2.layer node = some entries := layer
  rw [call]
  rcases putRecord_spec (newBorderNode_valid valid bn) layer' keySlice m.next with
    ⟨m', run, valid', layers, borders, next⟩ | failed
  · refine Or.inl ⟨m', run, valid', layers, ?_, next⟩
    rw [borders]
    funext q
    unfold newBorderNode Memory.setBorderNode
    by_cases same : q = m.next
    · subst same
      simp
    · simp [same]
  · exact Or.inr failed

end DeepDB.KV
