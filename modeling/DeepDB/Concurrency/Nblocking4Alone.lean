import DeepDB.Concurrency.Nblocking4Memory

/-!
One thread alone, on a tree without operations. `find` goes down the path of its key and leaves what
the last steps wrote, `add` puts a node at the end of the path.
-/

namespace DeepDB.Concurrency.Nblocking4
open RelyGuarantee SearchTree

variable {V : Type} {m m' : Mem V} {s t : Tree Nat Int V} {n a w room rounds : Nat} {p q : Node V}
  {key : Int} {value : V} {c : List (Frame Nat Int V)} {f : Frame Nat Int V} {out : Found V}
  {pred : Option (Nat × Nat)}

/-- The tree in memory, in any order. -/
structure Layout (m : Mem V) (t : Tree Nat Int V) : Prop where
  repr : Repr (cell m) (node m) t
  root : t.root = childOf 0 false
  cells : t.cells.Nodup
  pointers : t.pointers.Nodup
  base : m.ptr[base_root]? = some (.node 0)
  sentinel : ∃ p, m.tree[0]? = some p
  zero : 0 ∉ t.pointers
  sides : ∀ n p, m.tree[n]? = some p → ∀ is_left, p.child is_left = childOf n is_left
  lengths : m.ptr.length = 2 * m.tree.length + 1

/-- No node of the tree has an operation, but those that are named, and the empty children of the
nodes are tagged. -/
structure Settled (busy : List Nat) (m : Mem V) (t : Tree Nat Int V) : Prop extends Layout m t where
  quiet : ∀ (n : Nat) (p : Node V), n ∉ busy → n = 0 ∨ n ∈ t.pointers → m.tree[n]? = some p →
    m.ops[p.op]? = some .none
  tagged : ∀ n ∈ t.pointers, ∀ p : Node V, m.tree[n]? = some p → ∀ is_left,
    m.ptr[p.child is_left]? ≠ some .NULL
  unused : m.ptr[childOf 0 true]? = some .NULL

structure Calm (m : Mem V) (t : Tree Nat Int V) : Prop extends Settled [] m t where
  ordered : Ordered t

theorem Shape.layout (shape : Shape m t) : Layout m t :=
  ⟨shape.repr, shape.root, shape.cells, shape.pointers, shape.base, shape.sentinel, shape.zero,
    shape.sides, shape.lengths⟩

theorem Layout.shape (layout : Layout m t) (ordered : Ordered t) : Shape m t :=
  ⟨layout.repr, layout.root, layout.cells, layout.pointers, ordered, layout.base, layout.sentinel,
    layout.zero, layout.sides, layout.lengths⟩

/-- The left pointer of the sentinel is not in the tree. -/
theorem Layout.unused (layout : Layout m t) : childOf 0 true ∉ t.cells := by
  intro member
  rcases mem_cells layout.repr layout.sides member with same | ⟨n, inside, b, same⟩
  · rw [layout.root] at same
    cases (childOf_inj same).2
  · obtain ⟨rfl, -⟩ := childOf_inj same
    exact layout.zero inside

theorem Calm.none (calm : Calm m t) (member : n = 0 ∨ n ∈ t.pointers) (here : m.tree[n]? = some p) :
    m.ops[p.op]? = some .none :=
  calm.quiet n p List.not_mem_nil member here

/-! ### The path of a search -/

/-- The operation of a node. -/
def opOf (m : Mem V) (n : Nat) : Nat := (m.tree[n]?.map Node.op).getD 0

/-- What one round of the inner loop writes. -/
def enterFrame (m : Mem V) (f : Frame Nat Int V) (out : Found V) : Found V :=
  match f with
  | .left a n _ _ _ => { out.go a (opOf m n) with result := .NOTFOUND_L }
  | .right a n _ _ _ => { out.go a (opOf m n) with result := .NOTFOUND_R }

/-- What the rounds down to the hole of a context write. -/
def follow (m : Mem V) (c : List (Frame Nat Int V)) (out : Found V) : Found V :=
  c.foldr (enterFrame m) out

theorem opOf_eq (here : m.tree[n]? = some p) : opOf m n = p.op := by
  unfold opOf
  rw [here]
  rfl

/-- What is loaded from an atomic pointer. -/
def refAt (m : Mem V) (a : Nat) : Ref := m.ptr[a]?.getD .NULL

theorem ptr_refAt {o : Option Nat} (here : cell m a o) : m.ptr[a]? = some (refAt m a) := by
  obtain ⟨r, stored, -⟩ := Option.map_eq_some_iff.mp here
  unfold refAt
  rw [stored, Option.getD_some]

theorem refAt_node (here : cell m a (some n)) : refAt m a = .node n := by
  unfold refAt
  rw [cell_some here, Option.getD_some]

theorem refAt_empty (here : cell m a none) : (refAt m a).pointer = none := by
  have stored := cell_of (ptr_refAt here)
  exact cell_unique a _ _ stored here

theorem ptr_root (repr : Repr (cell m) (node m) s) : m.ptr[s.root]? = some (refAt m s.root) := by
  cases s with
  | nil => exact ptr_refAt repr
  | node => exact ptr_refAt repr.1

/-- A round of the inner loop at a node without an operation. -/
theorem run_descend_node {k : Int} {v : V} {l r : Tree Nat Int V}
    (repr : Repr (cell m) (node m) (.node a n k v l r)) (here : m.tree[n]? = some p)
    (none : m.ops[p.op]? = some .none) :
    (descend key (room + 1) out a (refAt m a)).run exec m
      = if key < k then (descend key room { out.go a p.op with result := .NOTFOUND_L } l.root
            (refAt m l.root)).run exec m
        else if k < key then (descend key room { out.go a p.op with result := .NOTFOUND_R } r.root
            (refAt m r.root)).run exec m
        else some ({ out.go a p.op with result := .FOUND, value := some v }, m) := by
  obtain ⟨full, ⟨op, stored⟩, hl, hr⟩ := repr
  rw [here] at stored
  cases stored
  rw [refAt_node full, descend]
  refine (Prog.run_perform_of (exec_loadOp here none)).trans ?_
  rw [if_neg (show ¬(GET_FLAG ((op, .none) : Nat × Operation V).2 ≠ .NONE) from not_not.mpr rfl)]
  refine (Prog.run_perform_of (exec_loadKey here)).trans ?_
  simp only
  split
  · have child : m.ptr[(⟨k, v, op, l.root, r.root⟩ : Node V).child true]? = some _ := ptr_root hl
    exact Prog.run_perform_of (exec_loadChild here child)
  · split
    · have child : m.ptr[(⟨k, v, op, l.root, r.root⟩ : Node V).child false]? = some _ := ptr_root hr
      exact Prog.run_perform_of (exec_loadChild here child)
    · exact Prog.run_perform_of (exec_loadValue here)

theorem run_descend_empty (empty : cell m a none) :
    (descend key (room + 1) out a (refAt m a)).run exec m = some (out, m) := by
  have null := refAt_empty empty
  cases here : refAt m a with
  | node n =>
    rw [here] at null
    cases null
  | NULL => rfl
  | tagged => rfl

/-- The rounds down to a subtree to which the search comes. -/
theorem run_follow (out : Found V) (room : Nat) (repr : Repr (cell m) (node m) (plug c s)) (goes : Goes key c)
    (quiet : ∀ n ∈ (plug c s).pointers, ∀ p : Node V, m.tree[n]? = some p → m.ops[p.op]? = some .none) :
    (descend key (room + c.length) out (plug c s).root (refAt m (plug c s).root)).run exec m
      = (descend key room (follow m c out) s.root (refAt m s.root)).run exec m := by
  induction c generalizing s room with
  | nil => rfl
  | cons f c ih =>
    obtain ⟨goes, around⟩ := goes_cons.mp goes
    have count : room + (f :: c).length = room + 1 + c.length := by
      rw [List.length_cons]
      omega
    rw [count]
    refine (ih (room + 1) (s := f.fill s) repr around quiet).trans ?_
    have inside := repr_plug (s := f.fill s) repr
    cases f with
    | left a n k v r =>
      obtain ⟨op, here⟩ := inside.2.1
      have member : n ∈ (plug (.left a n k v r :: c) s).pointers :=
        List.mem_map.mpr ⟨(n, k, v), mem_nodes_plug.mpr (.inr List.mem_cons_self), rfl⟩
      refine (run_descend_node inside here (quiet n member _ here)).trans ?_
      have less : key < k := goes
      rw [if_pos less, follow, follow, List.foldr_cons, enterFrame,
        opOf_eq here]
    | right a n k v l =>
      obtain ⟨op, here⟩ := inside.2.1
      have member : n ∈ (plug (.right a n k v l :: c) s).pointers :=
        List.mem_map.mpr ⟨(n, k, v), mem_nodes_plug.mpr (.inr List.mem_cons_self), rfl⟩
      refine (run_descend_node inside here (quiet n member _ here)).trans ?_
      have more : k < key := goes
      rw [if_neg (lt_asymm more), if_pos more, follow, follow, List.foldr_cons, enterFrame,
        opOf_eq here]

/-! ### `find` -/

/-- What `find` has written when it enters its inner loop under the node at `a`. -/
def entered (m : Mem V) (pred : Option (Nat × Nat)) (a n : Nat) : Found V :=
  ⟨.NOTFOUND_R, pred, a, opOf m n, none⟩

theorem run_find (pred : Option (Nat × Nat)) (room rounds : Nat) (full : m.ptr[a]? = some (.node n)) (here : m.tree[n]? = some p)
    (none : m.ops[p.op]? = some .none) (child : p.right = (plug c s).root)
    (repr : Repr (cell m) (node m) (plug c s)) (goes : Goes key c)
    (quiet : ∀ n ∈ (plug c s).pointers, ∀ p : Node V, m.tree[n]? = some p → m.ops[p.op]? = some .none) :
    (find key pred a (room + c.length) (rounds + 1)).run exec m
      = (descend key room (follow m c (entered m pred a n)) s.root (refAt m s.root)).run exec m := by
  rw [find]
  refine (Prog.run_perform_of (exec_loadNode full)).trans ?_
  refine (Prog.run_perform_of (exec_loadOp here none)).trans ?_
  rw [if_neg (show ¬(GET_FLAG ((p.op, .none) : Nat × Operation V).2 ≠ .NONE) from not_not.mpr rfl)]
  have start : m.ptr[p.child false]? = some (refAt m (plug c s).root) := by
    show m.ptr[p.right]? = _
    rw [child]
    exact ptr_root repr
  refine (Prog.run_perform_of (exec_loadChild here start)).trans ?_
  rw [← run_follow (entered m pred a n) room repr goes quiet, entered, opOf_eq here]
  show Prog.run exec (descend key (room + c.length) _ p.right _) m = _
  rw [child]

/-- Where the search is when it comes to the hole. -/
theorem follow_curr (pred : Option (Nat × Nat)) (full : m.ptr[a]? = some (.node n)) (here : m.tree[n]? = some p)
    (child : p.right = (plug c s).root) (repr : Repr (cell m) (node m) (plug c s)) :
    let out := follow m c (entered m pred a n)
    ∃ n' p', m.ptr[out.curr]? = some (.node n') ∧ m.tree[n']? = some p' ∧ out.curr_op = p'.op ∧
      p'.child (out.result = .NOTFOUND_L) = s.root ∧ out.result ≠ .FOUND ∧
      (c = [] ∧ n' = n ∨ n' ∈ (nodesAround c).map Prod.fst) := by
  cases c with
  | nil => exact ⟨n, p, full, here, opOf_eq here, child, by simp [follow, entered], .inl ⟨rfl, rfl⟩⟩
  | cons f c =>
    have inside := repr_plug (s := f.fill s) repr
    cases f with
    | left b n' k v r =>
      obtain ⟨op, stored⟩ := inside.2.1
      exact ⟨n', _, cell_some inside.1, stored, opOf_eq stored, rfl, by simp [follow, enterFrame],
        .inr List.mem_cons_self⟩
    | right b n' k v l =>
      obtain ⟨op, stored⟩ := inside.2.1
      exact ⟨n', _, cell_some inside.1, stored, opOf_eq stored, rfl, by simp [follow, enterFrame],
        .inr List.mem_cons_self⟩

/-- `find` from the sentinel. -/
theorem Calm.run_find (calm : Calm m (plug c s)) (goes : Goes key c) :
    (find key pred base_root (room + c.length) (rounds + 1)).run exec m
      = (descend key room (follow m c (entered m pred base_root 0)) s.root (refAt m s.root)).run exec m := by
  obtain ⟨p, here⟩ := calm.sentinel
  have child : p.right = (plug c s).root := (calm.sides 0 p here false).trans calm.root.symm
  exact Nblocking4.run_find pred room rounds calm.base here (calm.none (.inl rfl) here) child calm.repr goes
    fun n member p stored => calm.none (.inr member) stored

theorem Calm.run_find_empty (calm : Calm m (plug c (.nil a))) (goes : Goes key c)
    (fits : c.length < room) (starts : 0 < rounds) :
    (find key pred base_root room rounds).run exec m
      = some (follow m c (entered m pred base_root 0), m) := by
  obtain ⟨room, rfl⟩ := Nat.exists_eq_add_of_lt fits
  obtain ⟨rounds, rfl⟩ := Nat.exists_eq_add_of_lt starts
  rw [show c.length + room + 1 = room + 1 + c.length by omega, Nat.zero_add, calm.run_find goes]
  exact run_descend_empty (repr_plug calm.repr)

theorem Calm.run_find_node {v : V} {l r : Tree Nat Int V}
    (calm : Calm m (plug c (.node a n key v l r))) (goes : Goes key c)
    (fits : c.length < room) (starts : 0 < rounds) :
    (find key pred base_root room rounds).run exec m
      = some ({ (follow m c (entered m pred base_root 0)).go a (opOf m n) with
          result := .FOUND, value := some v }, m) := by
  obtain ⟨room, rfl⟩ := Nat.exists_eq_add_of_lt fits
  obtain ⟨rounds, rfl⟩ := Nat.exists_eq_add_of_lt starts
  rw [show c.length + room + 1 = room + 1 + c.length by omega, Nat.zero_add, calm.run_find goes]
  have inside := repr_plug calm.repr
  obtain ⟨op, here⟩ := inside.2.1
  have member : n ∈ (plug c (.node a n key v l r)).pointers :=
    List.mem_map.mpr ⟨(n, key, v), mem_nodes_plug.mpr (.inl (by simp [Tree.nodes])), rfl⟩
  refine (run_descend_node inside here (calm.none (.inr member) here)).trans ?_
  rw [if_neg (lt_irrefl key), if_neg (lt_irrefl key), opOf_eq here]

/-- Where `find` from the sentinel is when it comes to the hole. -/
theorem Calm.curr (calm : Calm m (plug c s)) (pred : Option (Nat × Nat)) :
    let out := follow m c (entered m pred base_root 0)
    ∃ n p, m.ptr[out.curr]? = some (.node n) ∧ m.tree[n]? = some p ∧ out.curr_op = p.op ∧
      p.child (out.result = .NOTFOUND_L) = s.root ∧ out.result ≠ .FOUND ∧
      (n = 0 ∨ n ∈ (nodesAround c).map Prod.fst) := by
  obtain ⟨p, here⟩ := calm.sentinel
  have child : p.right = (plug c s).root := (calm.sides 0 p here false).trans calm.root.symm
  obtain ⟨n', p', full, stored, op, side, missed, place⟩ :=
    follow_curr pred calm.base here child calm.repr
  exact ⟨n', p', full, stored, op, side, missed, place.imp_left And.right⟩

end DeepDB.Concurrency.Nblocking4
