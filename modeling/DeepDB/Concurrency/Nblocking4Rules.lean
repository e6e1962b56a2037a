import DeepDB.Concurrency.Nblocking4Memory

/-!
What the threads keep while they add and find. An installed operation on a child pointer has put its
node there, or the node waits for it on the way of the search for its key. Nodes and links stay, a
node gets operations that it never had, its children change only under an operation on them, and
such an operation goes when it is done.
-/

namespace DeepDB.Concurrency.Nblocking4
open RelyGuarantee SearchTree

variable {V : Type} {m m' m'' : Mem V} {t : Tree Nat Int V} {n a w : Nat} {p q : Node V}
  {is_left : Bool} {expected old : Ref} {key : Int} {value : V}

/-! ### The invariant -/

/-- The node `w` waits for the place of `expected`. -/
def Waits (m : Mem V) (t : Tree Nat Int V) (a : Nat) (expected : Ref) (w : Nat) : Prop :=
  m.ptr[a]? = some expected ∧ w ∉ t.pointers ∧ w ≠ 0 ∧ ∃ q, m.tree[w]? = some q ∧
    cell m q.left none ∧ cell m q.right none ∧ OnPath q.key t a

def OpOk (m : Mem V) (t : Tree Nat Int V) (p : Node V) : Prop :=
  m.ops[p.op]? = some .none ∨
    ∃ is_left expected w, m.ops[p.op]? = some (.childCas is_left expected (.node w)) ∧
      expected.pointer = none ∧
      (m.ptr[p.child is_left]? = some (.node w) ∨ Waits m t (p.child is_left) expected w)

structure Good (m : Mem V) (t : Tree Nat Int V) : Prop extends Shape m t where
  ops : ∀ (n : Nat) (p : Node V), m.tree[n]? = some p → OpOk m t p

/-! ### What is kept -/

/-- A node keeps its children as long as it keeps an operation that is none, and an operation on a
child until that is changed. -/
structure OpKept (m m' : Mem V) (p : Node V) (op : Nat) : Prop where
  fresh : op = p.op ∨ m.ops.length ≤ op
  quiet : op = p.op → m.ops[p.op]? = some .none → ∀ is_left,
    m'.ptr[p.child is_left]? = m.ptr[p.child is_left]?
  done : ∀ is_left expected w, m.ops[p.op]? = some (.childCas is_left expected (.node w)) →
    op = p.op ∨ m'.ptr[p.child is_left]? = some (.node w)

structure Keeps (m m' : Mem V) : Prop where
  nodes : ∀ (n : Nat) (p : Node V), m.tree[n]? = some p →
    ∃ op, m'.tree[n]? = some { p with op } ∧ OpKept m m' p op
  links : ∀ (a n : Nat), m.ptr[a]? = some (.node n) → m'.ptr[a]? = some (.node n)
  ops : m.ops <+: m'.ops

theorem ops_later {i : Nat} {o : Operation V} (ops : m.ops <+: m'.ops) (here : m.ops[i]? = some o) :
    m'.ops[i]? = some o := by
  obtain ⟨rest, same⟩ := ops
  rw [← same]
  exact (List.getElem?_append_left (List.getElem?_eq_some_iff.mp here).1).trans here

theorem op_lt {i : Nat} {o : Operation V} (here : m.ops[i]? = some o) : i < m.ops.length :=
  (List.getElem?_eq_some_iff.mp here).1

theorem keeps_refl (m : Mem V) : Keeps m m where
  nodes := fun _ p here => ⟨p.op, here, .inl rfl, fun _ _ _ => rfl, fun _ _ _ _ => .inl rfl⟩
  links := fun _ _ h => h
  ops := List.prefix_rfl

theorem keeps_trans (first : Keeps m m') (second : Keeps m' m'') : Keeps m m'' where
  nodes := by
    intro n p here
    obtain ⟨op, here', kept⟩ := first.nodes n p here
    obtain ⟨op', here'', kept'⟩ := second.nodes n _ here'
    refine ⟨op', here'', ?_, ?_, ?_⟩
    · rcases kept'.fresh with rfl | new
      · exact kept.fresh
      · exact .inr (Nat.le_trans first.ops.length_le new)
    · intro same none is_left
      have middle : op = p.op := by
        rcases kept.fresh with old | new
        · exact old
        · have bound := op_lt none
          rcases kept'.fresh with same' | new'
          · exact same'.symm.trans same
          · have := first.ops.length_le
            omega
      subst middle
      rw [← kept.quiet rfl none is_left]
      exact kept'.quiet same (ops_later first.ops none) is_left
    · intro is_left expected w op_eq
      rcases kept.done is_left expected w op_eq with rfl | swung
      · exact kept'.done is_left expected w (ops_later first.ops op_eq)
      · exact .inr (second.links _ _ swung)
  links := fun a n h => second.links a n (first.links a n h)
  ops := first.ops.trans second.ops

theorem Keeps.node (keeps : Keeps m m') (here : m.tree[n]? = some p) :
    ∃ p', m'.tree[n]? = some p' ∧ p'.key = p.key := by
  obtain ⟨op, here', -⟩ := keeps.nodes n p here
  exact ⟨_, here', rfl⟩

/-- A node that has an operation of before had it then; under none it has kept its children. -/
theorem Keeps.op {p' : Node V} {id : Nat} (keeps : Keeps m m') (here : m.tree[n]? = some p)
    (here' : m'.tree[n]? = some p') (bound : id < m.ops.length) (same : p'.op = id) :
    p.op = id ∧ (m.ops[id]? = some .none → ∀ is_left,
      m'.ptr[p'.child is_left]? = m.ptr[p.child is_left]?) := by
  obtain ⟨op, stored, kept⟩ := keeps.nodes n p here
  rw [here'] at stored
  cases stored
  have same : op = id := same
  subst same
  have old : op = p.op := kept.fresh.resolve_right (Nat.not_le.mpr bound)
  exact ⟨old.symm, fun none is_left => kept.quiet old (old ▸ none) is_left⟩

/-- The rules of the threads. -/
def rules (V : Type) : Rules (Mem V) where
  Inv m := ∃ t, Good m t
  Keeps := Keeps
  refl := keeps_refl
  trans := keeps_trans

theorem Way.later (way : Way m key a) (keeps : Keeps m m') : Way m' key a := by
  induction way with
  | root => exact .root
  | @left a n p _ full here less ih =>
    obtain ⟨op, here', -⟩ := keeps.nodes n p here
    exact Way.left (p := { p with op }) ih (keeps.links a n full) here' less
  | @right a n p _ full here more ih =>
    obtain ⟨op, here', -⟩ := keeps.nodes n p here
    exact Way.right (p := { p with op }) ih (keeps.links a n full) here' more

/-- The key is in the tree. -/
def Held (m : Mem V) (key : Int) : Prop :=
  ∃ a n p, Way m key a ∧ m.ptr[a]? = some (.node n) ∧ m.tree[n]? = some p ∧ p.key = key

theorem Held.later (held : Held m key) (keeps : Keeps m m') : Held m' key := by
  obtain ⟨a, n, p, way, full, here, same⟩ := held
  obtain ⟨op, here', -⟩ := keeps.nodes _ _ here
  exact ⟨a, n, _, way.later keeps, keeps.links _ _ full, here', same⟩

theorem Held.mem (held : Held m key) (shape : Shape m t) : key ∈ t.keys := by
  obtain ⟨a, n, p, way, full, here, same⟩ := held
  obtain ⟨p', here', inside⟩ := way.pointer full shape
  rw [here] at here'
  cases here'
  exact List.mem_map.mpr ⟨_, inside, same⟩

/-- The search for a key of the tree does not come to an empty pointer. -/
theorem Held.full (held : Held m key) (shape : Shape m t) (way : Way m key a) {r : Ref}
    (here : m.ptr[a]? = some r) : r.pointer ≠ none := by
  intro empty
  obtain ⟨c, rfl, goes⟩ :=
    path_nil shape.repr cell_unique (way.onPath shape) (empty ▸ cell_of here)
  obtain ⟨⟨n, k, v⟩, inside, same⟩ := List.mem_map.mp (held.mem shape)
  have found := find_of_mem shape.ordered (same ▸ inside : (n, key, v) ∈ _)
  rw [find_plug goes] at found
  cases found

/-! ### Steps -/

theorem OpOk.later (ok : OpOk m t p) (ops : m.ops <+: m'.ops)
    (ptr : ∀ (a : Nat) (r : Ref), m.ptr[a]? = some r → m'.ptr[a]? = some r)
    (nodes : ∀ (n : Nat) (p : Node V), m.tree[n]? = some p → ∃ op, m'.tree[n]? = some { p with op }) : OpOk m' t p := by
  have cells : ∀ {a : Nat} {o : Option Nat}, cell m a o → cell m' a o := by
    intro a o h
    obtain ⟨r, here, rfl⟩ := Option.map_eq_some_iff.mp h
    exact cell_of (ptr a r here)
  rcases ok with none | ⟨b, e, w, op, null, state⟩
  · exact .inl (ops_later ops none)
  · refine .inr ⟨b, e, w, ops_later ops op, null, ?_⟩
    rcases state with swung | ⟨still, new, other, q, here, left, right, path⟩
    · exact .inl (ptr _ _ swung)
    · obtain ⟨op', here'⟩ := nodes w q here
      exact .inr ⟨ptr _ _ still, new, other, _, here', cells left, cells right, path⟩

/-- The operation is taken out of its node when it is done. -/
theorem clear_ok (good : Good m t) (here : m.tree[n]? = some p)
    (op : m.ops[p.op]? = some (.childCas is_left expected (.node w)))
    (swung : m.ptr[p.child is_left]? = some (.node w)) :
    Good (m.putOp n .none) t ∧ Keeps m (m.putOp n .none) := by
  have ops : m.ops <+: (m.putOp n .none).ops := List.prefix_append _ _
  have nodes : ∀ (k : Nat) (p : Node V), m.tree[k]? = some p → ∃ op, (m.putOp n .none).tree[k]? = some { p with op } := by
    intro k p' stored
    rw [tree_putOp, stored, Option.map_some]
    by_cases same : n = k
    · exact ⟨m.ops.length, by rw [if_pos same]⟩
    · exact ⟨p'.op, by rw [if_neg same]⟩
  refine ⟨⟨good.toShape.putOp n .none, fun k p' stored => ?_⟩, ⟨fun k p' stored => ?_, fun _ _ h => h,
    ops⟩⟩
  · rw [tree_putOp] at stored
    obtain ⟨p', stored', rfl⟩ := Option.map_eq_some_iff.mp stored
    by_cases same : n = k
    · rw [if_pos same]
      exact .inl List.getElem?_concat_length
    · rw [if_neg same]
      exact (good.ops k p' stored').later ops (fun _ _ h => h) nodes
  · rw [tree_putOp, stored, Option.map_some]
    by_cases same : n = k
    · subst same
      rw [here] at stored
      cases stored
      rw [if_pos rfl]
      refine ⟨m.ops.length, rfl, .inr (Nat.le_refl _), fun _ none => ?_, fun b e w' op' => ?_⟩
      · rw [op] at none
        cases none
      · rw [op] at op'
        cases op'
        exact .inr swung
    · rw [if_neg same]
      exact ⟨p'.op, rfl, .inl rfl, fun _ _ _ => rfl, fun _ _ _ _ => .inl rfl⟩

/-- An operation on an empty child, to which the search for the key of its new node comes. -/
theorem install_ok (value : V) (good : Good m t) (here : m.tree[n]? = some p) (none : m.ops[p.op]? = some .none)
    (still : m.ptr[p.child is_left]? = some old) (null : old.pointer = .none)
    (path : OnPath key t (p.child is_left)) :
    Good ((m.newNode key value).putOp n (.childCas is_left old (.node m.tree.length))) t ∧
      Keeps m ((m.newNode key value).putOp n (.childCas is_left old (.node m.tree.length))) := by
  obtain ⟨new, other⟩ := good.toShape.fresh
  have shape := (good.toShape.newNode key value).putOp n (.childCas is_left old (.node m.tree.length))
  have length : (m.newNode key value).ops.length = m.ops.length + 1 := List.length_append
  have ops : m.ops <+: ((m.newNode key value).putOp n
      (.childCas is_left old (.node m.tree.length))).ops :=
    (List.prefix_append _ _).trans (List.prefix_append _ _)
  have ptr : ∀ (a : Nat) (r : Ref), m.ptr[a]? = some r → ((m.newNode key value).putOp n
      (.childCas is_left old (.node m.tree.length))).ptr[a]? = some r := fun a r h =>
    @ptr_newNode V m a key value r h
  have inside : n < m.tree.length := (List.getElem?_eq_some_iff.mp here).1
  have nodes : ∀ (k : Nat) (p : Node V), m.tree[k]? = some p → ((m.newNode key value).putOp n
      (.childCas is_left old (.node m.tree.length))).tree[k]?
        = some { p with op := if n = k then m.ops.length + 1 else p.op } := by
    intro k p' stored
    rw [tree_putOp, tree_newNode stored, Option.map_some, length]
    split <;> rfl
  refine ⟨⟨shape, fun k p' stored => ?_⟩, ⟨fun k p' stored => ?_, ?_, ops⟩⟩
  · rw [tree_putOp] at stored
    obtain ⟨p', stored', rfl⟩ := Option.map_eq_some_iff.mp stored
    clear stored
    rcases tree_newNode_cases stored' with stored | ⟨rfl, rfl⟩
    · by_cases same : n = k
      · subst same
        rw [here] at stored
        cases stored
        rw [if_pos rfl]
        refine .inr ⟨is_left, old, m.tree.length, List.getElem?_concat_length, null, .inr ⟨ptr _ _ still,
          new, other, ⟨key, value, m.ops.length, m.ptr.length, m.ptr.length + 1⟩, ?_, ?_, ?_, path⟩⟩
        · rw [tree_putOp]
          have added : (m.newNode key value).tree[m.tree.length]?
              = some ⟨key, value, m.ops.length, m.ptr.length, m.ptr.length + 1⟩ :=
            List.getElem?_concat_length
          rw [added, Option.map_some, if_neg (Nat.ne_of_lt inside)]
        · unfold cell Mem.putOp Mem.setOp Mem.modify Mem.newNode
          simp [Ref.pointer]
        · unfold cell Mem.putOp Mem.setOp Mem.modify Mem.newNode
          simp [Ref.pointer]
      · rw [if_neg same]
        exact (good.ops k p' stored).later ops ptr fun k p stored => ⟨_, nodes k p stored⟩
    · rw [if_neg (Nat.ne_of_lt inside)]
      refine .inl ?_
      show ((m.ops ++ [.none]) ++ [_])[m.ops.length]? = _
      rw [List.getElem?_append_left (by simp)]
      exact List.getElem?_concat_length
  · refine ⟨_, nodes k p' stored, ?_⟩
    by_cases same : n = k
    · subst same
      rw [here] at stored
      cases stored
      rw [if_pos rfl]
      refine ⟨.inr (Nat.le_succ _), fun same => ?_, fun b e w' op => ?_⟩
      · have := op_lt none
        omega
      · rw [none] at op
        cases op
    · rw [if_neg same]
      refine ⟨.inl rfl, fun _ _ b => ?_, fun _ _ _ _ => .inl rfl⟩
      obtain ⟨r, child⟩ := good.toShape.child stored b
      rw [child]
      exact ptr _ _ child
  · exact fun a n' full => ptr _ _ full

/-- The node of an operation is put where it waits for. -/
theorem swing_ok (good : Good m t) (here : m.tree[n]? = some p)
    (op : m.ops[p.op]? = some (.childCas is_left expected (.node w)))
    (still : m.ptr[p.child is_left]? = some expected) :
    (∃ t', Good { m with ptr := m.ptr.set (p.child is_left) (.node w) } t') ∧
      Keeps m { m with ptr := m.ptr.set (p.child is_left) (.node w) } := by
  obtain ⟨null, new, other, q, stored, left, right, path⟩ : expected.pointer = none ∧ w ∉ t.pointers ∧
      w ≠ 0 ∧ ∃ q, m.tree[w]? = some q ∧ cell m q.left none ∧ cell m q.right none ∧
        OnPath q.key t (p.child is_left) := by
    rcases good.ops n p here with none | ⟨b, e, w', op', null, state⟩
    · rw [op] at none
      cases none
    · rw [op] at op'
      cases op'
      refine ⟨null, ?_⟩
      rcases state with swung | ⟨-, waits⟩
      · rw [still] at swung
        cases swung
        cases null
      · exact waits
  have unique : ∀ (k : Nat) (p' : Node V) (b : Bool), m.tree[k]? = some p' → p'.child b = p.child is_left → p' = p ∧ b = is_left := by
    intro k p' b stored' same
    rw [good.sides k p' stored', good.sides n p here] at same
    obtain ⟨rfl, rfl⟩ := childOf_inj same
    rw [here] at stored'
    cases stored'
    exact ⟨rfl, rfl⟩
  have empty : cell m (p.child is_left) none := null ▸ cell_of still
  have kept : ∀ {a : Nat}, a ≠ p.child is_left →
      (m.ptr.set (p.child is_left) (.node w))[a]? = m.ptr[a]? := fun ne =>
    List.getElem?_set_ne (Ne.symm ne)
  have bound := (List.getElem?_eq_some_iff.mp still).1
  obtain ⟨c, rfl, goes⟩ := path_nil good.repr cell_unique path empty
  have inTree : p.child is_left ∈ (plug c (.nil (p.child is_left)) : Tree Nat Int V).cells :=
    mem_cells_plug.mpr (.inl List.mem_cons_self)
  refine ⟨⟨_, good.toShape.grow goes stored left right new other, fun k p' stored' => ?_⟩,
    ⟨fun k p' stored' => ⟨p'.op, stored', .inl rfl, fun _ none b => ?_, fun _ _ _ _ => .inl rfl⟩,
      fun a n' full => ?_, List.prefix_rfl⟩⟩
  · rcases good.ops k p' stored' with none | ⟨b, e, w', op', null', state⟩
    · exact .inl none
    · refine .inr ⟨b, e, w', op', null', ?_⟩
      show (m.ptr.set _ _)[_]? = _ ∨ _
      by_cases same : p'.child b = p.child is_left
      · obtain ⟨rfl, rfl⟩ := unique k p' b stored' same
        rw [op] at op'
        cases op'
        exact .inl (List.getElem?_set_self bound)
      · rw [kept same]
        refine state.imp_right ?_
        rintro ⟨still', new', other', q', node', left', right', path'⟩
        have ne : w' ≠ w := by
          rintro rfl
          rw [stored] at node'
          cases node'
          exact same (path_unique good.repr cell_unique path' path (null' ▸ cell_of still') empty)
        have apart (b : Bool) : q'.child b ≠ p.child is_left := by
          rw [good.sides w' q' node']
          exact fun here => good.toShape.outside new' other' b (here ▸ inTree)
        refine ⟨(kept same).trans still', ?_, other', q', node', ?_, ?_, ?_⟩
        · intro member
          obtain ⟨x, inside, rfl⟩ := List.mem_map.mp member
          rcases mem_nodes_plug.mp inside with self | rest
          · exact ne (congrArg Prod.fst (List.mem_singleton.mp self))
          · exact new' (List.mem_map.mpr ⟨x, mem_nodes_plug.mpr (.inr rest), rfl⟩)
        · exact (congrArg _ (kept (apart true))).trans left'
        · exact (congrArg _ (kept (apart false))).trans right'
        · exact onPath_replace path' fun _ h => .inl h
  · show (m.ptr.set _ _)[_]? = _
    refine kept fun same => ?_
    obtain ⟨rfl, rfl⟩ := unique k p' b stored' same
    rw [op] at none
    cases none
  · show (m.ptr.set _ _)[_]? = _
    rw [kept, full]
    rintro rfl
    rw [still] at full
    cases full
    cases null

end DeepDB.Concurrency.Nblocking4
