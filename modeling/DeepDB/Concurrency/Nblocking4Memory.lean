import DeepDB.Concurrency.Nblocking4
import DeepDB.Lib.SearchTree
import Mathlib.Order.Lattice
import Mathlib.Algebra.Order.Ring.Int

/-!
The search tree in memory: it hangs at the right of the sentinel, whose own key is not looked at.
Nodes and their atomic pointers are allocated together, so the pointers of a node follow from its
address. Putting an operation into a node and allocating a node keep the tree.
-/

namespace DeepDB.Concurrency.Nblocking4
open SearchTree

variable {V : Type} {m m' : Mem V} {t : Tree Nat Int V} {n a w : Nat} {p q : Node V}

def Ref.pointer : Ref → Option Nat
  | .node n => some n
  | _ => none

def cell (m : Mem V) (a : Nat) (o : Option Nat) : Prop := m.ptr[a]?.map Ref.pointer = some o

def node (m : Mem V) (n : Nat) (key : Int) (value : V) (l r : Nat) : Prop :=
  ∃ op, m.tree[n]? = some ⟨key, value, op, l, r⟩

/-- The address of a child pointer. -/
def childOf (n : Nat) (is_left : Bool) : Nat := if is_left then 2 * n + 1 else 2 * n + 2

structure Shape (m : Mem V) (t : Tree Nat Int V) : Prop where
  repr : Repr (cell m) (node m) t
  root : t.root = childOf 0 false
  cells : t.cells.Nodup
  pointers : t.pointers.Nodup
  ordered : Ordered t
  base : m.ptr[base_root]? = some (.node 0)
  sentinel : ∃ p, m.tree[0]? = some p
  zero : 0 ∉ t.pointers
  sides : ∀ n p, m.tree[n]? = some p → ∀ is_left, p.child is_left = childOf n is_left
  lengths : m.ptr.length = 2 * m.tree.length + 1

/-! ### Addresses -/

theorem childOf_inj {n n' : Nat} {b b' : Bool} (same : childOf n b = childOf n' b') :
    n = n' ∧ b = b' := by
  unfold childOf at same
  cases b <;> cases b' <;> simp at same ⊢ <;> omega

theorem childOf_ne_base (n : Nat) (b : Bool) : childOf n b ≠ base_root := by
  unfold childOf base_root
  cases b <;> simp

theorem cell_unique (a : Nat) (o o' : Option Nat) (h : cell m a o) (h' : cell m a o') : o = o' :=
  Option.some.inj (h.symm.trans h')

theorem cell_of {r : Ref} (here : m.ptr[a]? = some r) : cell m a r.pointer := by
  unfold cell
  rw [here, Option.map_some]

theorem cell_some (h : cell m a (some n)) : m.ptr[a]? = some (.node n) := by
  unfold cell at h
  obtain ⟨r, here, pointer⟩ := Option.map_eq_some_iff.mp h
  cases r with
  | node n' =>
    cases pointer
    exact here
  | NULL => cases pointer
  | tagged => cases pointer

theorem node_of (here : m.tree[n]? = some p) : node m n p.key p.value p.left p.right := ⟨p.op, here⟩

theorem Shape.child (shape : Shape m t) (here : m.tree[n]? = some p) (is_left : Bool) :
    ∃ r, m.ptr[p.child is_left]? = some r := by
  have inside : n < m.tree.length := (List.getElem?_eq_some_iff.mp here).1
  have length := shape.lengths
  refine ⟨_, List.getElem?_eq_getElem ?_⟩
  rw [shape.sides n p here, childOf]
  split <;> omega

/-- The pointers of the tree belong to the sentinel and to its nodes. -/
theorem mem_cells (repr : Repr (cell m) (node m) t)
    (sides : ∀ n p, m.tree[n]? = some p → ∀ is_left, p.child is_left = childOf n is_left)
    (member : a ∈ t.cells) : a = t.root ∨ ∃ n ∈ t.pointers, ∃ b, a = childOf n b := by
  induction t with
  | nil => exact .inl (List.mem_singleton.mp member)
  | node b n key value l r ihl ihr =>
    obtain ⟨-, ⟨op, here⟩, hl, hr⟩ := repr
    have self : n ∈ (SearchTree.Tree.node b n key value l r).pointers := by
      simp [Tree.pointers, Tree.nodes]
    have left : l.root = childOf n true := sides n _ here true
    have right : r.root = childOf n false := sides n _ here false
    rcases List.mem_cons.mp member with rfl | member
    · exact .inl rfl
    · refine .inr ?_
      rcases List.mem_append.mp member with member | member
      · rcases ihl hl member with rfl | ⟨n', inside, b', rfl⟩
        · exact ⟨n, self, true, left⟩
        · exact ⟨n', by simp [Tree.pointers, Tree.nodes] at inside ⊢; exact .inl inside, b', rfl⟩
      · rcases ihr hr member with rfl | ⟨n', inside, b', rfl⟩
        · exact ⟨n, self, false, right⟩
        · exact ⟨n', by simp [Tree.pointers, Tree.nodes] at inside ⊢; exact .inr (.inr inside), b', rfl⟩

/-- The pointers of a node that is not in the tree are not in the tree. -/
theorem Shape.outside (shape : Shape m t) (new : w ∉ t.pointers) (other : w ≠ 0) (b : Bool) :
    childOf w b ∉ t.cells := by
  intro member
  rcases mem_cells shape.repr shape.sides member with same | ⟨n, inside, b', same⟩
  · rw [shape.root] at same
    exact other (childOf_inj same).1
  · obtain ⟨rfl, -⟩ := childOf_inj same
    exact new inside

/-! ### Operations and new nodes -/

theorem tree_putOp (m : Mem V) (n k : Nat) (new : Operation V) : (m.putOp n new).tree[k]?
    = m.tree[k]?.map fun p => if n = k then { p with op := m.ops.length } else p := by
  show (m.tree.modify n _)[k]? = _
  rw [List.getElem?_modify]
  cases m.tree[k]? with
  | none => rfl
  | some p =>
    by_cases same : n = k <;> simp [same]

theorem node_putOp {k : Nat} {key : Int} {value : V} {l r : Nat} {new : Operation V}
    (h : node m k key value l r) : node (m.putOp n new) k key value l r := by
  obtain ⟨op, here⟩ := h
  unfold node
  rw [tree_putOp, here, Option.map_some]
  by_cases same : n = k
  · exact ⟨m.ops.length, by rw [if_pos same]⟩
  · exact ⟨op, by rw [if_neg same]⟩

theorem Shape.putOp (shape : Shape m t) (n : Nat) (new : Operation V) : Shape (m.putOp n new) t where
  repr := repr_frame shape.repr (fun _ _ _ h => h) fun _ _ _ _ h => node_putOp h
  root := shape.root
  cells := shape.cells
  pointers := shape.pointers
  ordered := shape.ordered
  base := shape.base
  sentinel := by
    obtain ⟨p, here⟩ := shape.sentinel
    rw [tree_putOp, here]
    exact ⟨_, rfl⟩
  zero := shape.zero
  sides := by
    intro k p' here is_left
    rw [tree_putOp] at here
    obtain ⟨p, stored, rfl⟩ := Option.map_eq_some_iff.mp here
    rw [← shape.sides k p stored]
    split <;> rfl
  lengths := by
    show m.ptr.length = 2 * (m.tree.modify n _).length + 1
    rw [List.length_modify, shape.lengths]

theorem tree_newNode {key : Int} {value : V} (here : m.tree[n]? = some p) :
    (m.newNode key value).tree[n]? = some p :=
  (List.getElem?_append_left (List.getElem?_eq_some_iff.mp here).1).trans here

theorem ptr_newNode {key : Int} {value : V} {r : Ref} (here : m.ptr[a]? = some r) :
    (m.newNode key value).ptr[a]? = some r :=
  (List.getElem?_append_left (List.getElem?_eq_some_iff.mp here).1).trans here

theorem tree_newNode_cases {key : Int} {value : V} (here : (m.newNode key value).tree[n]? = some p) :
    m.tree[n]? = some p ∨ n = m.tree.length ∧
      p = ⟨key, value, m.ops.length, m.ptr.length, m.ptr.length + 1⟩ := by
  unfold Mem.newNode at here
  simp only at here
  rcases Nat.lt_or_ge n m.tree.length with old | new
  · rw [List.getElem?_append_left old] at here
    exact .inl here
  · rw [List.getElem?_append_right new, List.getElem?_singleton] at here
    split at here
    · rename_i zero
      cases here
      exact .inr ⟨by omega, rfl⟩
    · cases here

theorem Shape.newNode (shape : Shape m t) (key : Int) (value : V) : Shape (m.newNode key value) t where
  repr := by
    refine repr_frame shape.repr (fun a _ o h => ?_) fun _ _ _ _ ⟨op, h⟩ => ⟨op, tree_newNode h⟩
    obtain ⟨r, here, rfl⟩ := Option.map_eq_some_iff.mp h
    exact cell_of (ptr_newNode here)
  root := shape.root
  cells := shape.cells
  pointers := shape.pointers
  ordered := shape.ordered
  base := ptr_newNode shape.base
  sentinel := by
    obtain ⟨p, here⟩ := shape.sentinel
    exact ⟨p, tree_newNode here⟩
  zero := shape.zero
  sides := by
    intro n p here is_left
    rcases tree_newNode_cases here with old | ⟨rfl, rfl⟩
    · exact shape.sides n p old is_left
    · have := shape.lengths
      cases is_left <;> simp [Node.child, childOf] <;> omega
  lengths := by
    have := shape.lengths
    simp [Mem.newNode]
    omega

/-- No tree has the address of a new node. -/
theorem Shape.fresh (shape : Shape m t) : m.tree.length ∉ t.pointers ∧ m.tree.length ≠ 0 := by
  constructor
  · intro member
    obtain ⟨⟨n, key, value⟩, inside, same⟩ := List.mem_map.mp member
    obtain ⟨c, a, l, r, rfl⟩ := exists_plug_node inside
    obtain ⟨op, here⟩ := (repr_plug shape.repr).2.1
    have := (List.getElem?_eq_some_iff.mp here).1
    exact absurd same (Nat.ne_of_lt this)
  · intro zero
    obtain ⟨p, here⟩ := shape.sentinel
    have := (List.getElem?_eq_some_iff.mp here).1
    omega

/-! ### Actions -/

section
variable {is_left : Bool} {r : Ref} {o : Operation V}

theorem exec_loadNode (full : m.ptr[a]? = some (.node n)) : exec (.loadNode a) m = some (n, m) := by
  simp only [exec, full]
  rfl

theorem exec_loadChild (here : m.tree[n]? = some p) (child : m.ptr[p.child is_left]? = some r) :
    exec (.loadChild n is_left) m = some ((p.child is_left, r), m) := by
  simp only [exec, here, Option.bind_eq_bind, Option.bind_some, child]
  rfl

theorem exec_loadOp (here : m.tree[n]? = some p) (op : m.ops[p.op]? = some o) :
    exec (.loadOp n) m = some ((p.op, o), m) := by
  simp only [exec, here, Option.bind_eq_bind, Option.bind_some, op]
  rfl

theorem exec_loadKey (here : m.tree[n]? = some p) : exec (.loadKey n) m = some (p.key, m) := by
  simp only [exec, here]
  rfl

theorem exec_loadValue (here : m.tree[n]? = some p) : exec (.loadValue n) m = some (p.value, m) := by
  simp only [exec, here]
  rfl

theorem exec_casChild (expected update : Ref) (here : m.tree[n]? = some p) (child : m.ptr[p.child is_left]? = some r) :
    exec (.casChild n is_left expected update) m = some (if r = expected
      then (true, { m with ptr := m.ptr.set (p.child is_left) update }) else (false, m)) := by
  simp only [exec, here, child, Option.bind_eq_bind, Option.bind_some]
  split <;> rfl

theorem exec_casOp (id : Nat) (new : Operation V) (here : m.tree[n]? = some p) :
    exec (.casOp n id new) m = some (if p.op = id
      then (some (m.ops.length, new), m.putOp n new) else (none, m)) := by
  simp only [exec, here, Option.bind_eq_bind, Option.bind_some]
  split <;> rfl

theorem exec_casOpNode (id : Nat) (is_left : Bool) (r : Ref) (key : Int) (value : V)
    (here : m.tree[n]? = some p) :
    exec (.casOpNode n id is_left r key value) m = some (if p.op = id
      then (some (m.ops.length + 1, .childCas is_left r (.node m.tree.length)),
        (m.newNode key value).putOp n (.childCas is_left r (.node m.tree.length)))
      else (none, m)) := by
  simp only [exec, here, Option.bind_eq_bind, Option.bind_some]
  split <;> rfl

end

/-! ### Growth -/

/-- A node without children is put into an empty cell to which the search for its key comes. -/
theorem Shape.grow {c : List (Frame Nat Int V)} (shape : Shape m (plug c (.nil a)))
    (goes : Goes q.key c) (here : m.tree[w]? = some q) (left : cell m q.left none)
    (right : cell m q.right none) (new : w ∉ (plug c (.nil a : Tree Nat Int V)).pointers)
    (other : w ≠ 0) :
    Shape { m with ptr := m.ptr.set a (.node w) }
      (plug c (.node a w q.key q.value (.nil q.left) (.nil q.right))) := by
  have hleft : q.left = childOf w true := shape.sides w q here true
  have hright : q.right = childOf w false := shape.sides w q here false
  have inTree : a ∈ (plug c (.nil a : Tree Nat Int V)).cells :=
    mem_cells_plug.mpr (.inl List.mem_cons_self)
  have outside (b : Bool) : childOf w b ∉ (plug c (.nil a : Tree Nat Int V)).cells :=
    shape.outside new other b
  have apart (b : Bool) : childOf w b ≠ a := fun same => outside b (same ▸ inTree)
  have kept {b : Nat} {o : Option Nat} (ne : b ≠ a) (h : cell m b o) :
      cell { m with ptr := m.ptr.set a (.node w) } b o := by
    unfold cell at h ⊢
    simp only
    rwa [List.getElem?_set_ne (Ne.symm ne)]
  have bound : a < m.ptr.length := by
    have empty : cell m a none := repr_plug shape.repr
    obtain ⟨r, stored, -⟩ := Option.map_eq_some_iff.mp empty
    exact (List.getElem?_eq_some_iff.mp stored).1
  have around := List.nodup_append.mp ((cells_plug c (.nil a)).nodup_iff.mp shape.cells)
  have sameRoot : (plug c (.node a w q.key q.value (.nil q.left) (.nil q.right))).root
      = (plug c (.nil a)).root := root_plug rfl
  refine { repr := ?_, root := sameRoot.trans shape.root, cells := ?_, pointers := ?_,
           ordered := ?_, base := ?_, sentinel := shape.sentinel, zero := ?_, sides := shape.sides,
           lengths := ?_ }
  · refine repr_replace shape.repr rfl ⟨?_, node_of here, ?_, ?_⟩ (fun b hb o h => ?_)
      fun _ _ _ _ h => h
    · show Option.map _ ((m.ptr.set a (.node w))[a]?) = _
      rw [List.getElem?_set_self bound]
      rfl
    · exact kept (hleft ▸ apart true) left
    · exact kept (hright ▸ apart false) right
    · exact kept (fun same => around.2.2 a List.mem_cons_self b hb same.symm) h
  · refine cells_replace shape.cells ?_ fun b hb => ?_
    · have sides : q.left ≠ q.right := by
        rw [hleft, hright]
        exact fun same => by cases (childOf_inj same).2
      simp [Tree.cells, Ne.symm (hleft ▸ apart true), Ne.symm (hright ▸ apart false), sides]
    · have cases' : b = a ∨ b = q.left ∨ b = q.right := by simpa [Tree.cells] using hb
      rcases cases' with rfl | rfl | rfl
      · exact .inl List.mem_cons_self
      · exact .inr (hleft ▸ outside true)
      · exact .inr (hright ▸ outside false)
  · refine nodes_replace Prod.fst shape.pointers (List.nodup_singleton _) fun n hn => ?_
    obtain rfl := List.mem_singleton.mp hn
    exact .inr new
  · refine ordered_replace shape.ordered ?_ fun k hk => ?_
    · exact ⟨fun _ hk => absurd hk List.not_mem_nil, fun _ hk => absurd hk List.not_mem_nil,
        trivial, trivial⟩
    · obtain rfl : k = q.key := by simpa using hk
      exact goes
  · refine (List.getElem?_set_ne ?_).trans shape.base
    rcases mem_cells shape.repr shape.sides inTree with same | ⟨n, -, b, rfl⟩
    · rw [same, shape.root]
      exact childOf_ne_base 0 false
    · exact childOf_ne_base n b
  · intro member
    obtain ⟨⟨n, key, value⟩, inside, zero⟩ := List.mem_map.mp member
    rcases mem_nodes_plug.mp inside with self | rest
    · obtain same := List.mem_singleton.mp self
      cases same
      exact other zero
    · exact shape.zero (List.mem_map.mpr ⟨_, mem_nodes_plug.mpr (.inr rest), zero⟩)
  · simp [shape.lengths]

/-! ### Searches -/

/-- The search for a key comes to this atomic pointer. -/
inductive Way (m : Mem V) (key : Int) : Nat → Prop where
  | root : Way m key (childOf 0 false)
  | left {a n : Nat} {p : Node V} : Way m key a → m.ptr[a]? = some (.node n) →
      m.tree[n]? = some p → key < p.key → Way m key p.left
  | right {a n : Nat} {p : Node V} : Way m key a → m.ptr[a]? = some (.node n) →
      m.tree[n]? = some p → p.key < key → Way m key p.right

variable {key : Int}

theorem Way.onPath (way : Way m key a) (shape : Shape m t) : OnPath key t a := by
  induction way with
  | root => exact shape.root ▸ onPath_root key t
  | left _ full here less ih =>
    obtain ⟨c, k, v, l, r, rfl, goes, op, stored⟩ := path_node shape.repr cell_unique ih (cell_of full)
    rw [here] at stored
    cases stored
    exact onPath_plug goes (.inr (.inl ⟨less, onPath_root key l⟩))
  | right _ full here more ih =>
    obtain ⟨c, k, v, l, r, rfl, goes, op, stored⟩ := path_node shape.repr cell_unique ih (cell_of full)
    rw [here] at stored
    cases stored
    exact onPath_plug goes (.inr (.inr ⟨more, onPath_root key r⟩))

/-- A node to which a search comes is in the tree. -/
theorem Way.pointer (way : Way m key a) (full : m.ptr[a]? = some (.node n)) (shape : Shape m t) :
    ∃ p, m.tree[n]? = some p ∧ (n, p.key, p.value) ∈ t.nodes := by
  obtain ⟨c, k, v, l, r, rfl, -, op, stored⟩ :=
    path_node shape.repr cell_unique (way.onPath shape) (cell_of full)
  refine ⟨_, stored, mem_nodes_plug.mpr (.inl ?_)⟩
  exact List.mem_append_right _ List.mem_cons_self

end DeepDB.Concurrency.Nblocking4
