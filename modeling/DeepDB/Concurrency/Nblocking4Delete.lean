import DeepDB.Concurrency.Nblocking4Alone

/-!
`add` and `delete` of one thread alone, on a tree without operations. `add` puts a node at the end of
the path of its key. `delete` takes out a node that has no right child. A node with two children gets
the key and the value of the leftmost node of its right subtree, which is taken out, as long as that
is a leaf and not the right child itself.
-/

namespace DeepDB.Concurrency.Nblocking4
open RelyGuarantee SearchTree

variable {V : Type} {m m' : Mem V} {s t l r : Tree Nat Int V} {n a w room rounds id : Nat}
  {p q : Node V} {key : Int} {value v : V} {c : List (Frame Nat Int V)} {is_left : Bool}
  {expected update : Ref}

/-! ### The memory -/

/-- A change of operations. -/
theorem Layout.ops (layout : Layout m t) (ptr : m'.ptr = m.ptr)
    (tree : ∀ k : Nat, ∃ op, m'.tree[k]? = m.tree[k]?.map fun p : Node V => { p with op }) : Layout m' t where
  repr := by
    refine repr_frame layout.repr (fun b _ o h => ?_) fun x _ b b' ⟨op, h⟩ => ?_
    · unfold cell
      rw [ptr]
      exact h
    · obtain ⟨op', same⟩ := tree x.1
      rw [h] at same
      exact ⟨op', same⟩
  root := layout.root
  cells := layout.cells
  pointers := layout.pointers
  base := ptr ▸ layout.base
  sentinel := by
    obtain ⟨p, here⟩ := layout.sentinel
    obtain ⟨op, same⟩ := tree 0
    rw [here] at same
    exact ⟨_, same⟩
  zero := layout.zero
  sides := by
    intro k p' here is_left
    obtain ⟨op, same⟩ := tree k
    rw [here] at same
    obtain ⟨p, stored, rfl⟩ := Option.map_eq_some_iff.mp same.symm
    exact layout.sides k p stored is_left
  lengths := by
    have length : m'.tree.length = m.tree.length := by
      refine Nat.le_antisymm ?_ ?_
      · obtain ⟨op, same⟩ := tree m.tree.length
        rw [List.getElem?_eq_none (Nat.le_refl _)] at same
        exact List.getElem?_eq_none_iff.mp same
      · obtain ⟨op, same⟩ := tree m'.tree.length
        rw [List.getElem?_eq_none (Nat.le_refl _)] at same
        exact List.getElem?_eq_none_iff.mp (Option.map_eq_none_iff.mp same.symm)
    rw [ptr, length]
    exact layout.lengths

theorem Settled.ops {busy busy' : List Nat} (settled : Settled busy m t) (ptr : m'.ptr = m.ptr)
    (tree : ∀ k : Nat, ∃ op, m'.tree[k]? = m.tree[k]?.map fun p : Node V => { p with op })
    (quiet : ∀ (k : Nat) (p : Node V), k ∉ busy' → k = 0 ∨ k ∈ t.pointers → m'.tree[k]? = some p →
      m'.ops[p.op]? = some .none) : Settled busy' m' t where
  toLayout := settled.toLayout.ops ptr tree
  quiet := quiet
  tagged := by
    intro k member p' here is_left
    obtain ⟨op, same⟩ := tree k
    rw [here] at same
    obtain ⟨p, stored, rfl⟩ := Option.map_eq_some_iff.mp same.symm
    rw [ptr]
    exact settled.tagged k member p stored is_left
  unused := ptr ▸ settled.unused

theorem tree_putOp_op (m : Mem V) (n : Nat) (new : Operation V) (k : Nat) :
    ∃ op : Nat, (m.putOp n new).tree[k]? = m.tree[k]?.map fun p => { p with op } := by
  by_cases same : n = k
  · refine ⟨m.ops.length, ?_⟩
    rw [tree_putOp]
    simp only [if_pos same]
  · cases here : m.tree[k]? with
    | none => exact ⟨0, by rw [tree_putOp, here]; rfl⟩
    | some p => exact ⟨p.op, by rw [tree_putOp, here]; simp only [Option.map_some, if_neg same]⟩

/-- A node gets an operation. -/
theorem Settled.putOp {busy : List Nat} (settled : Settled busy m t) (n : Nat) (new : Operation V) :
    Settled (n :: busy) (m.putOp n new) t := by
  refine settled.ops rfl (tree_putOp_op m n new) fun k p' free member here => ?_
  rw [List.mem_cons, not_or] at free
  rw [tree_putOp] at here
  obtain ⟨p, stored, rfl⟩ := Option.map_eq_some_iff.mp here
  rw [if_neg (Ne.symm free.1)]
  have none := settled.quiet k p free.2 member stored
  exact (List.getElem?_append_left (List.getElem?_eq_some_iff.mp none).1).trans none

/-- A node loses its operation. -/
theorem Settled.clear {busy : List Nat} (settled : Settled (n :: busy) m t) :
    Settled busy (m.putOp n .none) t := by
  refine settled.ops rfl (tree_putOp_op m n .none) fun k p' free member here => ?_
  rw [tree_putOp] at here
  obtain ⟨p, stored, rfl⟩ := Option.map_eq_some_iff.mp here
  by_cases same : n = k
  · rw [if_pos same]
    exact List.getElem?_concat_length
  · rw [if_neg same]
    have none := settled.quiet k p (by simp [Ne.symm same, free]) member stored
    exact (List.getElem?_append_left (List.getElem?_eq_some_iff.mp none).1).trans none

theorem Settled.mono {busy busy' : List Nat} (settled : Settled busy m t) (more : busy ⊆ busy') :
    Settled busy' m t :=
  { settled with quiet := fun k p free => settled.quiet k p fun member => free (more member) }

/-! ### `add` -/

theorem run_helpChildCAS (here : m.tree[n]? = some p) (child : m.ptr[p.child is_left]? = some expected) :
    (helpChildCAS (p.op, .childCas is_left expected update) n).run exec m
      = some ((), ({ m with ptr := m.ptr.set (p.child is_left) update } : Mem V).putOp n .none) := by
  have swung := exec_casChild expected update here child
  rw [if_pos rfl] at swung
  have here' : ({ m with ptr := m.ptr.set (p.child is_left) update } : Mem V).tree[n]? = some p := here
  have cleared := exec_casOp p.op .none here'
  rw [if_pos rfl] at cleared
  exact (Prog.run_perform_of swung).trans ((Prog.run_perform_of cleared).trans rfl)

/-- A key that is there is not added. -/
theorem Calm.run_add_old (calm : Calm m (plug c (.node a n key v l r))) (goes : Goes key c)
    (fits : c.length < room) (starts : 0 < rounds) :
    (add key value room rounds).run exec m = some ((), m) := by
  obtain ⟨rounds, rfl⟩ := Nat.exists_eq_add_of_lt starts
  rw [add]
  refine (Prog.run_bind_of (calm.run_find_node goes fits (Nat.zero_lt_of_lt fits))).trans ?_
  refine (Prog.run_perform_of (exec_loadNode (n := n) (cell_some (repr_plug calm.repr).1))).trans ?_
  rw [if_pos rfl]
  rfl

/-- The memory after `add` has put a new node into the child of `n`. -/
def Mem.addNode (m : Mem V) (n : Nat) (is_left : Bool) (old : Ref) (key : Int) (value : V) : Mem V :=
  let installed := (m.newNode key value).putOp n (.childCas is_left old (.node m.tree.length))
  ({ installed with ptr := installed.ptr.set (childOf n is_left) (.node m.tree.length) } : Mem V).putOp n
    .none

/-- What is in the memory after an `add`: the new node and the old ones. -/
theorem tree_addNode {k : Nat} {old : Ref} (here : (m.addNode n is_left old key value).tree[k]? = some p) :
    p.op = m.ops.length + 2 ∨
      k = m.tree.length ∧ p.op = m.ops.length ∧ p.left = m.ptr.length ∧ p.right = m.ptr.length + 1 ∨
      m.tree[k]? = some p := by
  unfold Mem.addNode at here
  simp only at here
  rw [tree_putOp] at here
  obtain ⟨p', installed, rfl⟩ := Option.map_eq_some_iff.mp here
  clear here
  by_cases same : n = k
  · rw [if_pos same]
    refine .inl ?_
    simp [Mem.putOp, Mem.newNode]
  · rw [if_neg same]
    replace installed : ((m.newNode key value).putOp n (.childCas is_left old (.node m.tree.length))).tree[k]?
        = some p' := installed
    rw [tree_putOp] at installed
    obtain ⟨p'', grown, rfl⟩ := Option.map_eq_some_iff.mp installed
    clear installed
    rw [if_neg same]
    rcases tree_newNode_cases grown with before | ⟨new, rfl⟩
    · exact .inr (.inr before)
    · exact .inr (.inl ⟨new, rfl, rfl, rfl⟩)

theorem Calm.addNode {old : Ref} (calm : Calm m (plug c (.nil (childOf n is_left)))) (goes : Goes key c)
    (here : m.tree[n]? = some p) : Calm (m.addNode n is_left old key value)
      (plug c (.node (childOf n is_left) m.tree.length key value (.nil m.ptr.length)
        (.nil (m.ptr.length + 1)))) := by
  have shape := calm.toLayout.shape calm.ordered
  obtain ⟨new, other⟩ := shape.fresh
  have inside : n < m.tree.length := (List.getElem?_eq_some_iff.mp here).1
  have ptr : ∀ {k : Nat}, k ≠ childOf n is_left → (m.addNode n is_left old key value).ptr[k]?
      = (m.ptr ++ [.tagged, .tagged])[k]? := fun apart => List.getElem?_set_ne (Ne.symm apart)
  have stored : ((m.newNode key value).putOp n (.childCas is_left old (.node m.tree.length))).tree[m.tree.length]?
      = some ⟨key, value, m.ops.length, m.ptr.length, m.ptr.length + 1⟩ := by
    have last : (m.newNode key value).tree[m.tree.length]?
        = some ⟨key, value, m.ops.length, m.ptr.length, m.ptr.length + 1⟩ := List.getElem?_concat_length
    rw [tree_putOp, last, Option.map_some, if_neg (Nat.ne_of_lt inside)]
  have empty (i : Nat) (h : i < 2) : (m.ptr ++ [.tagged, .tagged])[m.ptr.length + i]?
      = some Ref.tagged := by
    rw [List.getElem?_append_right (Nat.le_add_right _ _), Nat.add_sub_cancel_left]
    match i, h with
    | 0, _ => rfl
    | 1, _ => rfl
  have left : cell ((m.newNode key value).putOp n (.childCas is_left old (.node m.tree.length)))
      m.ptr.length .none := cell_of (r := .tagged) (empty 0 (by omega))
  have right : cell ((m.newNode key value).putOp n (.childCas is_left old (.node m.tree.length)))
      (m.ptr.length + 1) .none := cell_of (r := .tagged) (empty 1 (by omega))
  have inTree {k : Nat} (member : k ∈ (plug c (.node (childOf n is_left) m.tree.length key value
      (.nil m.ptr.length) (.nil (m.ptr.length + 1)))).pointers) : k = m.tree.length ∨
      k ∈ (plug c (.nil (childOf n is_left) : Tree Nat Int V)).pointers := by
    rcases mem_pointers_plug.mp member with self | around
    · exact .inl (List.mem_singleton.mp self)
    · exact .inr (mem_pointers_plug.mpr (.inr around))
  have grown := ((shape.newNode key value).putOp n (.childCas is_left old (.node m.tree.length))).grow
    goes stored left right new other
  have shape' : Shape (m.addNode n is_left old key value) _ := grown.putOp n .none
  refine { toLayout := shape'.layout, ordered := shape'.ordered, quiet := ?_,
           tagged := ?_, unused := ?_ }
  · intro k q _ place here
    have ops : (m.addNode n is_left old key value).ops
      = m.ops ++ [.none, .childCas is_left old (.node m.tree.length), .none] := by
      simp [Mem.addNode, Mem.putOp, Mem.newNode]
    rw [ops]
    rcases tree_addNode here with last | ⟨-, first, -⟩ | before
    · rw [last, List.getElem?_append_right (Nat.le_add_right _ _), Nat.add_sub_cancel_left]
      rfl
    · rw [first, List.getElem?_append_right (Nat.le_refl _), Nat.sub_self]
      rfl
    · have old := calm.none (n := k) ?_ before
      · exact (List.getElem?_append_left (List.getElem?_eq_some_iff.mp old).1).trans old
      · exact place.imp_right fun inside => (inTree inside).resolve_left
          (Nat.ne_of_lt (List.getElem?_eq_some_iff.mp before).1)
  · intro k inside q here b null
    rw [shape'.sides k q here b] at null
    by_cases same : childOf k b = childOf n is_left
    · rw [same] at null
      replace null : (List.set _ _ _)[_]? = some Ref.NULL := null
      rw [List.getElem?_set] at null
      split at null
      · split at null <;> cases null
      · contradiction
    · rw [ptr same] at null
      rcases Nat.lt_or_ge (childOf k b) m.ptr.length with low | high
      · rw [List.getElem?_append_left low] at null
        have old : k < m.tree.length := by
          have := shape.lengths
          unfold childOf at low
          split at low <;> omega
        have before : m.tree[k]? = some m.tree[k] := List.getElem?_eq_getElem old
        refine calm.tagged k ((inTree inside).resolve_left (Nat.ne_of_lt old)) _ before b ?_
        rw [calm.sides k _ before b]
        exact null
      · rw [List.getElem?_append_right high] at null
        exact absurd (List.mem_of_getElem? null) (by simp)
  · rw [ptr fun same => calm.toLayout.unused (same ▸ mem_cells_plug.mpr (.inl List.mem_cons_self))]
    exact (List.getElem?_append_left (List.getElem?_eq_some_iff.mp calm.unused).1).trans calm.unused

/-- A key that is not there is added where the search for it ends. -/
theorem Calm.run_add_new (value : V) (calm : Calm m (plug c (.nil a))) (goes : Goes key c)
    (fits : c.length < room) (starts : 0 < rounds) :
    ∃ m' w b b', (add key value room rounds).run exec m = some ((), m') ∧
      Calm m' (plug c (.node a w key value (.nil b) (.nil b'))) := by
  obtain ⟨n, p, full, here, op, side, missed, place⟩ := calm.curr .none
  obtain ⟨rounds, rfl⟩ := Nat.exists_eq_add_of_lt starts
  have shape := calm.toLayout.shape calm.ordered
  have member : n = 0 ∨ n ∈ (plug c (.nil a : Tree Nat Int V)).pointers := by
    refine place.imp_right fun inside => ?_
    obtain ⟨x, around, rfl⟩ := List.mem_map.mp inside
    exact List.mem_map.mpr ⟨x, mem_nodes_plug.mpr (.inr around), rfl⟩
  have none : m.ops[p.op]? = some .none := calm.none member here
  generalize sideIs : decide ((follow m c (entered m .none base_root 0)).result = .NOTFOUND_L) = b at side
  obtain ⟨left, hl⟩ := shape.child here true
  obtain ⟨right, hr⟩ := shape.child here false
  have child : m.ptr[p.child b]? = some (if b then left else right) := by
    cases b
    · exact hr
    · exact hl
  refine ⟨m.addNode n b (if b then left else right) key value, m.tree.length, m.ptr.length,
    m.ptr.length + 1, ?_, ?_⟩
  · rw [Nat.zero_add, add]
    refine (Prog.run_bind_of (calm.run_find_empty goes fits (Nat.zero_lt_of_lt fits))).trans ?_
    refine (Prog.run_perform_of (exec_loadNode full)).trans ?_
    rw [if_neg missed]
    refine (Prog.run_perform_of (exec_loadChild here hl)).trans ?_
    refine (Prog.run_perform_of (exec_loadChild here hr)).trans ?_
    have installs : exec (.casOpNode n (follow m c (entered m .none base_root 0)).curr_op b
        (if b then left else right) key value) m = some (some (m.ops.length + 1,
          .childCas b (if b then left else right) (.node m.tree.length)),
          (m.newNode key value).putOp n (.childCas b (if b then left else right) (.node m.tree.length))) := by
      rw [exec_casOpNode _ _ _ _ _ here, if_pos op.symm]
    have test : (if (follow m c (entered m .none base_root 0)).result = .NOTFOUND_L then left else right)
        = if b then left else right := by
      rw [← sideIs]
      simp
    simp only [sideIs, test]
    refine (Prog.run_perform_of installs).trans ?_
    have length : (m.newNode key value).ops.length = m.ops.length + 1 := List.length_append
    have stored : ((m.newNode key value).putOp n (.childCas b (if b then left else right)
        (.node m.tree.length))).tree[n]? = some { p with op := m.ops.length + 1 } := by
      rw [tree_putOp, tree_newNode here, Option.map_some, if_pos rfl, length]
    unfold Mem.addNode
    rw [← calm.sides n p here b]
    have still := @ptr_newNode V m (p.child b) key value _ child
    exact run_helpChildCAS stored still
  · have place : a = childOf n b := side.symm.trans (calm.sides n p here b)
    subst place
    exact calm.addNode goes here

/-! ### A node without a right child -/

theorem Layout.base_ne (layout : Layout m t) (member : a ∈ t.cells) : a ≠ base_root := by
  rcases mem_cells layout.repr layout.sides member with rfl | ⟨n, -, b, rfl⟩
  · rw [layout.root]
    exact childOf_ne_base 0 false
  · exact childOf_ne_base n b

theorem Layout.child_mem (layout : Layout m t) (inside : n ∈ t.pointers) (here : m.tree[n]? = some p)
    (is_left : Bool) : p.child is_left ∈ t.cells := by
  obtain ⟨⟨n', k, v⟩, member, rfl⟩ := List.mem_map.mp inside
  obtain ⟨c, a, l, r, rfl⟩ := exists_plug_node member
  obtain ⟨op, stored⟩ := (repr_plug layout.repr).2.1
  rw [here] at stored
  cases stored
  refine mem_cells_plug.mpr (.inl ?_)
  cases is_left
  · exact List.mem_cons_of_mem _ (List.mem_append_right _ (root_mem_cells r))
  · exact List.mem_cons_of_mem _ (List.mem_append_left _ (root_mem_cells l))

/-- The left subtree of a node without a right child is moved to the place of the node. -/
theorem Layout.move {k : Int} {b : Nat} (layout : Layout m (plug c (.node a n k v l (.nil b)))) :
    Layout { m with ptr := m.ptr.set a (refAt m l.root) } (plug c (moveTo a l)) := by
  have inside := repr_plug layout.repr
  have cells := hole_cells layout.cells
  have pointers := hole_nodes Prod.fst layout.pointers
  have inTree : a ∈ (plug c (.node a n k v l (.nil b))).cells :=
    mem_cells_plug.mpr (.inl List.mem_cons_self)
  have bound : a < m.ptr.length := by
    obtain ⟨r, stored, -⟩ := Option.map_eq_some_iff.mp inside.1
    exact (List.getElem?_eq_some_iff.mp stored).1
  have kept : ∀ {d : Nat} {o : Option Nat}, d ≠ a → cell m d o →
      cell { m with ptr := m.ptr.set a (refAt m l.root) } d o := by
    intro d o ne h
    unfold cell at h ⊢
    simp only
    rwa [List.getElem?_set_ne (Ne.symm ne)]
  have moved : cell { m with ptr := m.ptr.set a (refAt m l.root) } a (refAt m l.root).pointer := by
    refine cell_of ?_
    exact List.getElem?_set_self bound
  have apart : ∀ d ∈ l.cells, d ≠ a := fun d hd same =>
    (List.nodup_cons.mp cells).1 (same ▸ List.mem_append_left _ hd)
  refine { repr := ?_, root := ?_, cells := ?_, pointers := ?_, base := ?_,
           sentinel := layout.sentinel, zero := ?_, sides := layout.sides, lengths := ?_ }
  · refine repr_replace layout.repr (root_moveTo a l) ?_ (fun d hd o h => ?_) fun _ _ _ _ h => h
    · cases l with
      | nil d =>
        rw [show (refAt m (SearchTree.Tree.nil d : Tree Nat Int V).root).pointer = none from
          refAt_empty inside.2.2.1] at moved
        exact moved
      | node d n' k' v' l' r' =>
        obtain ⟨full, held, hl, hr⟩ := inside.2.2.1
        rw [show (refAt m (SearchTree.Tree.node d n' k' v' l' r').root).pointer = some n' from
          congrArg _ (refAt_node full)] at moved
        refine ⟨moved, held, ?_, ?_⟩
        · exact repr_frame hl (fun e he o h => kept (apart e (List.mem_cons_of_mem _
            (List.mem_append_left _ he))) h) fun _ _ _ _ h => h
        · exact repr_frame hr (fun e he o h => kept (apart e (List.mem_cons_of_mem _
            (List.mem_append_right _ he))) h) fun _ _ _ _ h => h
    · exact kept (fun same => around_cells layout.cells List.mem_cons_self hd same.symm) h
  · exact (root_plug (root_moveTo a l)).trans layout.root
  · obtain ⟨below, eq⟩ := cells_eq l
    have own : l.cells = l.root :: below := by
      rw [← eq l.root, moveTo_root]
    have part : below.Sublist (l.cells ++ (SearchTree.Tree.nil b : Tree Nat Int V).cells) := by
      rw [own]
      exact ((List.sublist_cons_self _ _).trans (List.sublist_append_left _ _))
    refine cells_replace layout.cells ?_ fun d hd => .inl ?_
    · rw [eq]
      refine List.nodup_cons.mpr ⟨fun member => ?_, (List.nodup_cons.mp cells).2.sublist part⟩
      exact (List.nodup_cons.mp cells).1 (part.subset member)
    · rw [eq] at hd
      rcases List.mem_cons.mp hd with rfl | hd
      · exact List.mem_cons_self
      · exact List.mem_cons_of_mem _ (part.subset hd)
  · refine nodes_replace Prod.fst layout.pointers ?_ fun d hd => .inl ?_
    · rw [nodes_moveTo]
      exact pointers.sublist ((List.sublist_append_left _ _).map _)
    · rw [nodes_moveTo] at hd
      exact ((List.sublist_append_left _ _).map _).subset hd
  · exact (List.getElem?_set_ne (layout.base_ne inTree)).trans layout.base
  · intro member
    refine layout.zero (mem_pointers_plug.mpr ?_)
    refine (mem_pointers_plug.mp member).imp_left fun h => ?_
    unfold Tree.pointers at h
    rw [nodes_moveTo] at h
    exact ((List.sublist_append_left _ _).map _).subset h
  · simp [layout.lengths]

theorem Settled.move {busy : List Nat} {k : Int} {b : Nat}
    (settled : Settled (n :: busy) m (plug c (.node a n k v l (.nil b)))) :
    Settled busy { m with ptr := m.ptr.set a (refAt m l.root) } (plug c (moveTo a l)) := by
  have inTree : a ∈ (plug c (.node a n k v l (.nil b))).cells :=
    mem_cells_plug.mpr (.inl List.mem_cons_self)
  have pointers := hole_nodes Prod.fst settled.pointers
  have self : n ∈ (plug c (.node a n k v l (.nil b))).pointers :=
    mem_pointers_plug.mpr (.inl (by simp [Tree.pointers, Tree.nodes]))
  have fewer : ∀ {d : Nat}, d ∈ (plug c (moveTo a l)).pointers →
      d ∈ (plug c (.node a n k v l (.nil b))).pointers ∧ d ≠ n := by
    intro d member
    rcases mem_pointers_plug.mp member with moved | around
    · unfold Tree.pointers at moved
      rw [nodes_moveTo] at moved
      refine ⟨mem_pointers_plug.mpr (.inl (((List.sublist_append_left _ _).map _).subset moved)), ?_⟩
      rintro rfl
      have split : ((l.nodes ++ [(d, k, v)]).map Prod.fst).Nodup := pointers
      rw [List.map_append] at split
      exact (List.nodup_append.mp split).2.2 d moved d List.mem_cons_self rfl
    · refine ⟨mem_pointers_plug.mpr (.inr around), ?_⟩
      rintro rfl
      obtain ⟨x, member, same⟩ := List.mem_map.mp around
      exact around_nodes Prod.fst settled.pointers
        (List.mem_append_right _ List.mem_cons_self : (d, k, v) ∈ _) member same.symm
  refine { toLayout := settled.toLayout.move, quiet := ?_, tagged := ?_, unused := ?_ }
  · intro d p free member here
    refine settled.quiet d p ?_ (member.imp_right fun h => (fewer h).1) here
    rw [List.mem_cons, not_or]
    refine ⟨?_, free⟩
    rcases member with rfl | inside
    · rintro rfl
      exact settled.zero self
    · exact (fewer inside).2
  · intro d member p here is_left
    replace here : m.tree[d]? = some p := here
    have old := settled.tagged d (fewer member).1 p here is_left
    show (m.ptr.set a _)[_]? ≠ _
    rw [List.getElem?_set]
    split
    · obtain ⟨op, stored⟩ := (repr_plug settled.repr).2.1
      split
      · intro null
        refine settled.tagged n self _ stored true ?_
        show m.ptr[l.root]? = _
        rw [ptr_root (repr_plug settled.repr).2.2.1]
        exact null
      · exact fun h => by cases h
    · exact old
  · refine (List.getElem?_set_ne ?_).trans settled.unused
    rintro rfl
    exact settled.toLayout.unused inTree

/-- The memory after `n'` has got `r` for its child `n`. -/
def Mem.splice (m : Mem V) (n' : Nat) (is_left : Bool) (n : Nat) (r : Ref) : Mem V :=
  let installed := m.putOp n' (.childCas is_left (.node n) r)
  ({ installed with ptr := installed.ptr.set (childOf n' is_left) r } : Mem V).putOp n' .none

/-- `helpMarked` puts the left child of the node in its place. -/
theorem run_helpMarked {n' : Nat} {p' : Node V} {r x : Ref} (here' : m.tree[n']? = some p')
    (here : m.tree[n]? = some p) (left : m.ptr[p.child true]? = some r)
    (left' : m.ptr[p'.child true]? = some x) (side : decide (x = .node n) = is_left)
    (place : p'.child is_left = childOf n' is_left) (full : m.ptr[childOf n' is_left]? = some (.node n)) :
    (helpMarked n' p'.op n).run exec m = some ((), m.splice n' is_left n r) := by
  unfold helpMarked
  refine (Prog.run_perform_of (exec_loadChild here left)).trans ?_
  refine (Prog.run_perform_of (exec_loadChild here' left')).trans ?_
  have installs := exec_casOp p'.op (.childCas is_left (.node n) r) here'
  rw [if_pos rfl] at installs
  simp only [side]
  refine (Prog.run_perform_of installs).trans ?_
  have stored : (m.putOp n' (.childCas is_left (.node n) r)).tree[n']?
      = some { p' with op := m.ops.length } := by
    rw [tree_putOp, here', Option.map_some, if_pos rfl]
  unfold Mem.splice
  rw [← place]
  rw [← place] at full
  exact run_helpChildCAS stored full

/-- The pointer that `helpMarked` finds for the node. -/
theorem Settled.side {busy : List Nat} {n' : Nat} {p' : Node V} {x : Ref} (settled : Settled busy m t)
    (here' : m.tree[n']? = some p') (inside : n' = 0 ∨ n' ∈ t.pointers) (member : p'.child is_left ∈ t.cells)
    (full : cell m (p'.child is_left) (some n)) (left' : m.ptr[p'.child true]? = some x) :
    decide (x = .node n) = is_left := by
  cases is_left with
  | true =>
    rw [cell_some full] at left'
    cases left'
    exact decide_eq_true rfl
  | false =>
    refine decide_eq_false ?_
    rintro rfl
    rcases inside with rfl | inside
    · have unused := settled.unused
      rw [← settled.sides 0 p' here' true, left'] at unused
      cases unused
    · have same := cell_of_pointer cell_unique settled.repr settled.pointers
        (settled.toLayout.child_mem inside here' true) member (cell_of left') full
      rw [settled.sides n' p' here', settled.sides n' p' here'] at same
      cases (childOf_inj same).2

/-- The marked node is taken out. -/
theorem Settled.splice {n' : Nat} {k : Int} {b : Nat}
    (settled : Settled [n] m (plug c (.node (childOf n' is_left) n k v l (.nil b)))) :
    Settled [] (m.splice n' is_left n (refAt m l.root)) (plug c (moveTo (childOf n' is_left) l)) := by
  have installed := settled.putOp n' (.childCas is_left (.node n) (refAt m l.root))
  have both : Settled [n, n'] _ _ := installed.mono fun k member => by simpa [or_comm] using member
  exact both.move.clear

/-- A key that is not there is not deleted. -/
theorem Calm.run_delete_new (calm : Calm m (plug c (.nil a))) (goes : Goes key c)
    (fits : c.length < room) (starts : 0 < rounds) :
    (delete key room rounds).run exec m = some ((), m) := by
  obtain ⟨rounds, rfl⟩ := Nat.exists_eq_add_of_lt starts
  obtain ⟨n, p, -, -, -, -, missed, -⟩ := calm.curr .none
  rw [delete]
  refine (Prog.run_bind_of (calm.run_find_empty goes fits (Nat.zero_lt_of_lt fits))).trans ?_
  rw [if_pos missed]
  rfl

theorem Calm.tagged_root (calm : Calm m t) (inside : n ∈ t.pointers) (here : m.tree[n]? = some p)
    (empty : cell m (p.child is_left) .none) : m.ptr[p.child is_left]? = some .tagged := by
  obtain ⟨r, stored, pointer⟩ := Option.map_eq_some_iff.mp empty
  cases r with
  | NULL => exact absurd stored (calm.tagged n inside p here is_left)
  | tagged => exact stored
  | node => cases pointer

theorem Calm.run_delete_bare {b : Nat} (calm : Calm m (plug c (.node a n key v l (.nil b))))
    (goes : Goes key c) (fits : c.length < room) (starts : 0 < rounds) :
    ∃ m', (delete key room rounds).run exec m = some ((), m') ∧ Calm m' (plug c (moveTo a l)) := by
  obtain ⟨rounds, rfl⟩ := Nat.exists_eq_add_of_lt starts
  obtain ⟨n', p', full', here', op', place, missed, around⟩ := calm.curr .none
  obtain ⟨full, ⟨op, here⟩, hl, hr⟩ := repr_plug calm.repr
  have self : n ∈ (plug c (.node a n key v l (.nil b))).pointers :=
    mem_pointers_plug.mpr (.inl (by simp [Tree.pointers, Tree.nodes]))
  have inside : n' = 0 ∨ n' ∈ (plug c (.node a n key v l (.nil b))).pointers :=
    around.imp_right fun h => mem_pointers_plug.mpr (.inr h)
  have apart : n ≠ n' := by
    rintro rfl
    rcases around with rfl | around
    · exact calm.zero self
    · obtain ⟨x, member, same⟩ := List.mem_map.mp around
      exact around_nodes Prod.fst calm.pointers
        (List.mem_append_right _ List.mem_cons_self : (n, key, v) ∈ _) member same.symm
  generalize side : decide ((follow m c (entered m .none base_root 0)).result = .NOTFOUND_L) = is_left
    at place
  replace place : p'.child is_left = a := place
  have a_eq : a = childOf n' is_left := place.symm.trans (calm.sides n' p' here' is_left)
  have cellOf : p'.child is_left ∈ (plug c (.node a n key v l (.nil b))).cells := by
    rw [place]
    exact mem_cells_plug.mpr (.inl List.mem_cons_self)
  obtain ⟨x, left'⟩ := (calm.toLayout.shape calm.ordered).child here' true
  have toLeft := calm.toSettled.side here' inside cellOf (place ▸ full) left'
  have left : m.ptr[(⟨key, v, op, l.root, b⟩ : Node V).child true]? = some (refAt m l.root) := ptr_root hl
  have right : m.ptr[(⟨key, v, op, l.root, b⟩ : Node V).child false]? = some .tagged :=
    calm.tagged_root self here hr
  have marks := exec_casOp op .mark here
  rw [if_pos rfl] at marks
  subst a_eq
  refine ⟨(m.putOp n .mark).splice n' is_left n (refAt m l.root), ?_, ?_⟩
  · rw [Nat.zero_add, delete]
    refine (Prog.run_bind_of (calm.run_find_node goes fits (Nat.zero_lt_of_lt fits))).trans ?_
    rw [if_neg (not_not.mpr rfl)]
    refine (Prog.run_perform_of (exec_loadNode (cell_some full))).trans ?_
    refine (Prog.run_perform_of (exec_loadChild here left)).trans ?_
    refine (Prog.run_perform_of (exec_loadChild here right)).trans ?_
    simp only [IS_NULL, Bool.true_or, reduceIte, Found.go, opOf_eq here]
    refine (Prog.run_perform_of marks).trans ?_
    refine (Prog.run_perform_of (exec_loadNode (m := m.putOp n .mark) full')).trans ?_
    have stored' : (m.putOp n .mark).tree[n']? = some p' := by
      rw [tree_putOp, here', Option.map_some, if_neg apart]
    have stored : (m.putOp n .mark).tree[n]? = some ⟨key, v, m.ops.length, l.root, b⟩ := by
      rw [tree_putOp, here, Option.map_some, if_pos rfl]
      rfl
    rw [op']
    exact run_helpMarked stored' stored left left' toLeft (calm.sides n' p' here' is_left) (cell_some full)
  · have spliced := (calm.toSettled.putOp n .mark).splice
    obtain ⟨goesIn, own⟩ := ordered_plug calm.ordered
    refine { spliced with ordered := ordered_replace calm.ordered (ordered_moveTo.mpr own.2.2.1) ?_ }
    intro k hk
    rw [keys_moveTo] at hk
    exact goesIn k (mem_keys_node.mpr (.inl hk))

/-! ### A node with two children -/

def Mem.setState (m : Mem V) (op : Nat) (new : Operation V) : Mem V := { m with ops := m.ops.set op new }

def Mem.rekey (m : Mem V) (n : Nat) (key : Int) (value : V) : Mem V :=
  (m.modify n fun p => { p with key }).modify n fun p => { p with value }

theorem tree_rekey (m : Mem V) (n : Nat) (key : Int) (value : V) (k : Nat) :
    (m.rekey n key value).tree[k]? = m.tree[k]?.map fun p => if n = k then { p with key, value } else p := by
  show ((m.tree.modify n _).modify n _)[k]? = _
  rw [List.getElem?_modify, List.getElem?_modify]
  cases m.tree[k]? with
  | none => rfl
  | some p =>
    by_cases same : n = k <;> simp [same]

theorem tree_setOp (m : Mem V) (n op k : Nat) :
    (m.setOp n op).tree[k]? = m.tree[k]?.map fun p => if n = k then { p with op } else p := by
  show (m.tree.modify n _)[k]? = _
  rw [List.getElem?_modify]
  cases m.tree[k]? with
  | none => rfl
  | some p =>
    by_cases same : n = k <;> simp [same]

section
variable {dest dest_op : Nat} {remove_key replace_key : Int} {replace_value : V} {o : Operation V}
  {state : OperationState}

theorem exec_loadState (reloc : m.ops[id]? = some (.relocate state dest dest_op remove_key replace_key
    replace_value)) : exec (.loadState id) m = some (state, m) := by
  simp only [exec, reloc]
  rfl

theorem exec_casState {new : OperationState} (reloc : m.ops[id]? = some (.relocate state dest dest_op
    remove_key replace_key replace_value)) : exec (.casState id state new) m
      = some (true, m.setState id (.relocate new dest dest_op remove_key replace_key replace_value)) := by
  simp only [exec, reloc, if_pos]
  rfl

theorem exec_casDest (here : m.tree[n]? = some p) (reloc : m.ops[id]? = some (.relocate state dest p.op
    remove_key replace_key replace_value)) : exec (.casDest n id) m = some (true, m.setOp n id) := by
  simp only [exec, reloc, here, Option.bind_eq_bind, Option.bind_some, if_pos]
  rfl

theorem exec_storeKey (here : m.tree[n]? = some p) :
    exec (.storeKey n key) m = some ((), m.modify n fun p => { p with key }) := by
  simp only [exec, here]
  rfl

theorem exec_storeValue (here : m.tree[n]? = some p) :
    exec (.storeValue n value) m = some ((), m.modify n fun p => { p with value }) := by
  simp only [exec, here]
  rfl

theorem run_decideState (here : m.tree[n]? = some p) (op : m.ops[p.op]? = some o)
    (reloc : m.ops[id]? = some (.relocate .ONGOING dest p.op remove_key replace_key replace_value)) :
    (decideState id n .ONGOING).run exec m = some (.SUCCESSFUL, (m.setOp n id).setState id
      (.relocate .SUCCESSFUL dest p.op remove_key replace_key replace_value)) := by
  unfold decideState
  rw [if_pos rfl]
  refine (Prog.run_perform_of (exec_loadOp here op)).trans ?_
  refine (Prog.run_perform_of (exec_casDest here reloc)).trans ?_
  simp only [Bool.true_or, if_true]
  exact (Prog.run_perform_of (exec_casState (m := m.setOp n id) reloc)).trans rfl

theorem run_storeDest (key : Int) (value : V) (here : m.tree[n]? = some p) :
    (storeDest p.op n key value).run exec m = some ((), (m.rekey n key value).putOp n .none) := by
  unfold storeDest
  refine (Prog.run_perform_of (exec_storeKey here)).trans ?_
  have here' : (m.modify n fun p => { p with key }).tree[n]? = some { p with key } := by
    show (m.tree.modify n _)[n]? = _
    rw [List.getElem?_modify, here]
    simp
  refine (Prog.run_perform_of (exec_storeValue here')).trans ?_
  have stored : (m.rekey n key value).tree[n]? = some { p with key, value } := by
    rw [tree_rekey, here, Option.map_some, if_pos rfl]
  have clears := exec_casOp p.op .none stored
  rw [if_pos rfl] at clears
  exact (Prog.run_perform_of clears).trans rfl

/-- The memory when the node `n` has got the key and the value of the node `w`, which is marked. -/
def Mem.relocate (m : Mem V) (n w dest dest_op : Nat) (remove_key replace_key : Int)
    (replace_value : V) : Mem V :=
  let op (state : OperationState) := Operation.relocate state dest dest_op remove_key replace_key replace_value
  ((((((m.putOp w (op .ONGOING)).setOp n m.ops.length).setState m.ops.length (op .SUCCESSFUL)).rekey n
    replace_key replace_value).putOp n .none).putOp w .mark)

theorem tree_relocate (m : Mem V) (n w dest dest_op : Nat) (remove_key replace_key : Int)
    (replace_value : V) {k : Nat} (other : n ≠ k) :
    (m.relocate n w dest dest_op remove_key replace_key replace_value).tree[k]?
      = m.tree[k]?.map fun p => if w = k then { p with op := m.ops.length + 2 } else p := by
  unfold Mem.relocate
  simp only
  rw [tree_putOp, tree_putOp, tree_rekey]
  show Option.map _ (Option.map _ (Option.map _ (((m.putOp w _).setOp n _).tree[k]?))) = _
  rw [tree_setOp, tree_putOp]
  simp only [Option.map_map, if_neg other]
  congr 1
  funext p
  by_cases same : w = k
  · simp [same, Mem.putOp, Mem.rekey, Mem.modify, Mem.setState, Mem.setOp]
  · simp [same]

theorem run_helpRelocate {n' w : Nat} {p' q : Node V} {r x : Ref} (here : m.tree[n]? = some p)
    (op : m.ops[p.op]? = some .none) (stored : m.tree[w]? = some q) (here' : m.tree[n']? = some p')
    (apart : n ≠ w) (apart' : n ≠ n') (other : w ≠ n') (full : m.ptr[dest]? = some (.node n))
    (left : m.ptr[q.child true]? = some r) (left' : m.ptr[p'.child true]? = some x)
    (side : decide (x = .node w) = is_left) (place : p'.child is_left = childOf n' is_left)
    (hole : m.ptr[childOf n' is_left]? = some (.node w)) (key replace_key : Int) (replace_value : V) :
    (helpRelocate (m.ops.length, .relocate .ONGOING dest p.op key replace_key replace_value) n' p'.op
        w).run exec (m.putOp w (.relocate .ONGOING dest p.op key replace_key replace_value))
      = some (true, (m.relocate n w dest p.op key replace_key replace_value).splice n' is_left w r) := by
  have here₁ : (m.putOp w (.relocate .ONGOING dest p.op key replace_key replace_value)).tree[n]?
      = some p := by
    rw [tree_putOp, here, Option.map_some, if_neg (Ne.symm apart)]
  have op₁ : (m.putOp w (.relocate .ONGOING dest p.op key replace_key replace_value)).ops[p.op]?
      = some .none := (List.getElem?_append_left (List.getElem?_eq_some_iff.mp op).1).trans op
  have reloc : (m.putOp w (.relocate .ONGOING dest p.op key replace_key replace_value)).ops[m.ops.length]?
      = some (.relocate .ONGOING dest p.op key replace_key replace_value) := List.getElem?_concat_length
  unfold helpRelocate
  simp only
  refine (Prog.run_perform_of (exec_loadState reloc)).trans ?_
  refine (Prog.run_perform_of (exec_loadNode (m := m.putOp w _) full)).trans ?_
  refine (Prog.run_bind_of (run_decideState here₁ op₁ reloc)).trans ?_
  have here₃ : ∀ {k : Nat} {y : Node V}, m.tree[k]? = some y →
      (((m.putOp w (.relocate .ONGOING dest p.op key replace_key replace_value)).setOp n
        m.ops.length).setState m.ops.length (.relocate .SUCCESSFUL dest p.op key replace_key
          replace_value)).tree[k]? = some (if n = k ∨ w = k then { y with op := m.ops.length } else y) := by
    intro k y here
    show ((m.putOp w _).setOp n _).tree[k]? = _
    rw [tree_setOp, tree_putOp, here]
    by_cases same : n = k <;> by_cases same' : w = k <;> simp [same, same']
  have stores := run_storeDest replace_key replace_value (p := { p with op := m.ops.length })
    ((here₃ here).trans (by rw [if_pos (.inl rfl)]))
  simp only [decide_true, if_true, if_neg apart, if_neg apart']
  refine (Prog.run_bind_of stores).trans ?_
  have here₅ : (((((m.putOp w (.relocate .ONGOING dest p.op key replace_key replace_value)).setOp n
      m.ops.length).setState m.ops.length (.relocate .SUCCESSFUL dest p.op key replace_key
        replace_value)).rekey n replace_key replace_value).putOp n .none).tree[w]?
        = some { q with op := m.ops.length } := by
    rw [tree_putOp, tree_rekey, here₃ stored]
    simp [apart]
  have marks := exec_casOp m.ops.length .mark here₅
  rw [if_pos rfl] at marks
  refine (Prog.run_perform_of marks).trans ?_
  have pred := (tree_relocate m n w dest p.op key replace_key replace_value apart').trans (congrArg _ here')
  have curr := (tree_relocate m n w dest p.op key replace_key replace_value apart).trans (congrArg _ stored)
  rw [Option.map_some, if_neg other] at pred
  rw [Option.map_some, if_pos rfl] at curr
  exact (Prog.run_bind_of (run_helpMarked pred curr left left' side place hole)).trans rfl

theorem Settled.setOp {busy : List Nat} (settled : Settled busy m t) (n op : Nat) :
    Settled (n :: busy) (m.setOp n op) t := by
  refine settled.ops rfl (fun k => ?_) fun k p' free member here => ?_
  · rw [tree_setOp]
    by_cases same : n = k
    · exact ⟨op, by simp [same]⟩
    · cases here : m.tree[k]? with
      | none => exact ⟨0, rfl⟩
      | some p => exact ⟨p.op, by simp [same]⟩
  · rw [List.mem_cons, not_or] at free
    rw [tree_setOp] at here
    obtain ⟨p, stored, rfl⟩ := Option.map_eq_some_iff.mp here
    rw [if_neg (Ne.symm free.1)]
    exact settled.quiet k p free.2 member stored

theorem Settled.setState {busy : List Nat} (settled : Settled busy m t) (new : Operation V)
    (old : m.ops[id]? = some o) (busyOp : o ≠ .none) : Settled busy (m.setState id new) t := by
  refine settled.ops rfl (fun k => ?_) fun k p free member here => ?_
  · cases here : m.tree[k]? with
    | none => exact ⟨0, here⟩
    | some p => exact ⟨p.op, here⟩
  · have quiet := settled.quiet k p free member here
    refine (List.getElem?_set_ne ?_).trans quiet
    rintro rfl
    rw [quiet] at old
    cases old
    exact busyOp rfl

theorem Settled.rekey {busy : List Nat} {k : Int} (settled : Settled busy m (plug c (.node a n k v l r)))
    (key : Int) (value : V) : Settled busy (m.rekey n key value) (plug c (.node a n key value l r)) := by
  have inside := repr_plug settled.repr
  have split : ((l.nodes ++ (n, k, v) :: r.nodes).map Prod.fst).Nodup :=
    hole_nodes Prod.fst settled.pointers
  rw [List.map_append, List.map_cons, List.nodup_append, List.nodup_cons] at split
  have pointers : (plug c (.node a n key value l r)).pointers.Perm
      (plug c (.node a n k v l r)).pointers :=
    map_nodes_same Prod.fst (by simp [Tree.nodes])
  have other : ∀ {x : Nat × Int × V} {e e' : Nat}, x.1 ≠ n → node m x.1 x.2.1 x.2.2 e e' →
      node (m.rekey n key value) x.1 x.2.1 x.2.2 e e' := by
    rintro x e e' ne ⟨op, here⟩
    refine ⟨op, ?_⟩
    rw [tree_rekey, here, Option.map_some, if_neg (Ne.symm ne)]
  refine { repr := ?_, root := ?_, cells := ?_,
           pointers := pointers.nodup_iff.mpr settled.pointers, base := settled.base, sentinel := ?_,
           zero := fun member => settled.zero (pointers.mem_iff.mp member), sides := ?_, lengths := ?_,
           quiet := ?_, tagged := ?_, unused := settled.unused }
  · refine repr_replace settled.repr rfl ⟨inside.1, ?_, ?_, ?_⟩ (fun _ _ _ h => h) fun x member _ _ h => ?_
    · obtain ⟨op, here⟩ := inside.2.1
      refine ⟨op, ?_⟩
      rw [tree_rekey, here, Option.map_some, if_pos rfl]
    · exact repr_frame inside.2.2.1 (fun _ _ _ h => h) fun x member _ _ h => other (fun same =>
        split.2.2 x.1 (List.mem_map_of_mem member) n List.mem_cons_self same) h
    · exact repr_frame inside.2.2.2 (fun _ _ _ h => h) fun x member _ _ h => other (fun same =>
        split.2.1.1 (List.mem_map.mpr ⟨x, member, same⟩)) h
    · refine other (fun same => ?_) h
      exact around_nodes Prod.fst settled.pointers
        (List.mem_append_right _ List.mem_cons_self : (n, k, v) ∈ _) member same.symm
  · have same : (SearchTree.Tree.node a n key value l r).root = (SearchTree.Tree.node a n k v l r).root := rfl
    exact (root_plug same).trans settled.root
  · have before := (cells_plug c (.node a n k v l r)).nodup_iff.mp settled.cells
    exact (cells_plug c (.node a n key value l r)).nodup_iff.mpr before
  · obtain ⟨p, here⟩ := settled.sentinel
    exact ⟨_, (tree_rekey m n key value 0).trans (congrArg _ here)⟩
  · intro d p' here b
    rw [tree_rekey] at here
    obtain ⟨p, stored, rfl⟩ := Option.map_eq_some_iff.mp here
    rw [← settled.sides d p stored b]
    split <;> rfl
  · show m.ptr.length = 2 * ((m.tree.modify n _).modify n _).length + 1
    rw [List.length_modify, List.length_modify, settled.lengths]
  · intro d p' free member here
    rw [tree_rekey] at here
    obtain ⟨p, stored, rfl⟩ := Option.map_eq_some_iff.mp here
    have quiet := settled.quiet d p free (member.imp_right pointers.mem_iff.mp) stored
    split <;> exact quiet
  · intro d member p' here b
    rw [tree_rekey] at here
    obtain ⟨p, stored, rfl⟩ := Option.map_eq_some_iff.mp here
    have tagged := settled.tagged d (pointers.mem_iff.mp member) p stored b
    split <;> exact tagged

theorem Settled.relocate {k : Int} (settled : Settled [] m (plug c (.node a n k v l r)))
    (w dest dest_op : Nat) (remove_key replace_key : Int) (replace_value : V) :
    Settled [w] (m.relocate n w dest dest_op remove_key replace_key replace_value)
      (plug c (.node a n replace_key replace_value l r)) := by
  have installed := (settled.putOp w (.relocate .ONGOING dest dest_op remove_key replace_key
    replace_value)).setOp n m.ops.length
  have decided := installed.setState (.relocate .SUCCESSFUL dest dest_op remove_key replace_key
    replace_value) (List.getElem?_concat_length) (fun h => by cases h)
  exact ((decided.rekey replace_key replace_value).clear.putOp w .mark).mono (by simp)

end

theorem refAt_full (repr : Repr (cell m) (node m) t) (full : t.nodes ≠ []) :
    ∃ n, refAt m t.root = .node n := by
  cases t with
  | nil a => exact absurd rfl full
  | node a n key value l r => exact ⟨n, refAt_node repr.1⟩

/-- A node with two children gets the key and the value of the least node above it. -/
theorem Calm.run_delete_least {b w e e' : Nat} {rk : Int} {rv : V} {d : List (Frame Nat Int V)}
    (calm : Calm m (plug c (.node a n key v l (plug d (.node b w rk rv (.nil e) (.nil e'))))))
    (goes : Goes key c) (lefts : Lefts d) (inner : d ≠ []) (both : l.nodes ≠ [])
    (fits : c.length < room) (fits' : d.length + 1 < room) (starts : 0 < rounds) :
    ∃ m', (delete key room rounds).run exec m = some ((), m') ∧
      Calm m' (plug c (.node a n rk rv l (plug d (.nil b)))) := by
  obtain ⟨rounds, rfl⟩ := Nat.exists_eq_add_of_lt starts
  obtain ⟨full, ⟨op, here⟩, hl, hr⟩ := repr_plug calm.repr
  obtain ⟨hole, ⟨opw, stored⟩, he, -⟩ := repr_plug hr
  obtain ⟨n', p', full', here', op', place, missed, around⟩ :=
    follow_curr (some ((follow m c (entered m .none base_root 0)).curr,
      (follow m c (entered m .none base_root 0)).curr_op)) (cell_some full) here rfl hr
  replace around := around.resolve_left fun h => inner h.1
  -- the nodes are in the tree, and different
  have below : ∀ {x : Nat}, x ∈ (plug d (.node b w rk rv (.nil e) (.nil e')) : Tree Nat Int V).pointers →
      x ∈ (plug c (.node a n key v l (plug d (.node b w rk rv (.nil e) (.nil e'))))).pointers ∧ n ≠ x := by
    intro x member
    have split : ((l.nodes ++ (n, key, v) :: (plug d (.node b w rk rv (.nil e) (.nil e'))).nodes).map
      Prod.fst).Nodup := hole_nodes Prod.fst calm.pointers
    rw [List.map_append, List.map_cons, List.nodup_append, List.nodup_cons] at split
    refine ⟨mem_pointers_plug.mpr (.inl ?_), fun same => split.2.1.1 (same ▸ member)⟩
    simp only [Tree.pointers, Tree.nodes, List.map_append, List.map_cons]
    exact List.mem_append_right _ (List.mem_cons_of_mem _ member)
  have selfIn : n ∈ (plug c (.node a n key v l (plug d (.node b w rk rv (.nil e) (.nil e'))))).pointers :=
    mem_pointers_plug.mpr (.inl (by simp [Tree.pointers, Tree.nodes]))
  obtain ⟨leastIn, apart⟩ := below (x := w) (mem_pointers_plug.mpr (.inl (by
    simp [Tree.pointers, Tree.nodes])))
  obtain ⟨predIn, apart'⟩ := below (x := n') (mem_pointers_plug.mpr (.inr around))
  have other : w ≠ n' := by
    obtain ⟨x, member, same⟩ := List.mem_map.mp around
    have distinct : ((plug d (.node b w rk rv (.nil e) (.nil e'))).nodes.map Prod.fst).Nodup := by
      have split : ((l.nodes ++ (n, key, v) :: (plug d (.node b w rk rv (.nil e) (.nil e'))).nodes).map
        Prod.fst).Nodup := hole_nodes Prod.fst calm.pointers
      rw [List.map_append, List.map_cons, List.nodup_append, List.nodup_cons] at split
      exact split.2.1.2
    rw [← same]
    exact around_nodes Prod.fst distinct (List.mem_append_right _ List.mem_cons_self : (w, rk, rv) ∈ _) member
  generalize side : decide ((follow m d (entered m (some ((follow m c (entered m .none base_root 0)).curr,
    (follow m c (entered m .none base_root 0)).curr_op)) a n)).result = .NOTFOUND_L) = is_left at place
  replace place : p'.child is_left = b := place
  have b_eq : b = childOf n' is_left := place.symm.trans (calm.sides n' p' here' is_left)
  have inTree : b ∈ (plug c (.node a n key v l (plug d (.node b w rk rv (.nil e) (.nil e'))))).cells := by
    refine mem_cells_plug.mpr (.inl (List.mem_cons_of_mem _ (List.mem_append_right _ ?_)))
    exact mem_cells_plug.mpr (.inl List.mem_cons_self)
  have none := calm.none (.inr selfIn) here
  have noneLeast := calm.none (.inr leastIn) stored
  obtain ⟨x, left'⟩ := (calm.toLayout.shape calm.ordered).child here' true
  subst b_eq
  have toLeft := calm.toSettled.side here' (.inr predIn) (by rw [place]; exact inTree)
    (by rw [place]; exact hole) left'
  have left : m.ptr[(⟨rk, rv, opw, e, e'⟩ : Node V).child true]? = some (refAt m e) := ptr_refAt he
  obtain ⟨y, fullLeft⟩ := refAt_full hl both
  obtain ⟨z, fullRight⟩ := refAt_full hr (List.ne_nil_of_mem
    (mem_nodes_plug.mpr (.inl (List.mem_append_right _ List.mem_cons_self : (w, rk, rv) ∈ _))))
  have leftChild : m.ptr[(⟨key, v, op, l.root, (plug d (.node (childOf n' is_left) w rk rv (.nil e)
    (.nil e'))).root⟩ : Node V).child true]? = some (refAt m l.root) := ptr_root hl
  have rightChild : m.ptr[(⟨key, v, op, l.root, (plug d (.node (childOf n' is_left) w rk rv (.nil e)
    (.nil e'))).root⟩ : Node V).child false]? = some (refAt m (plug d (.node (childOf n' is_left) w rk rv
      (.nil e) (.nil e'))).root) := ptr_root hr
  rw [fullLeft] at leftChild
  rw [fullRight] at rightChild
  -- the second search
  have lefts' : Lefts (.left (childOf n' is_left) w rk rv (.nil e') :: d) := by
    intro f hf
    rcases List.mem_cons.mp hf with rfl | hf
    · exact ⟨_, w, rk, rv, .nil e', rfl⟩
    · exact lefts f hf
  have goesIn : Goes key (.left (childOf n' is_left) w rk rv (.nil e') :: d) :=
    goes_of_lefts (s := .nil e) lefts' (ordered_plug calm.ordered).2.2.1
  obtain ⟨room', rfl⟩ := Nat.exists_eq_add_of_lt fits'
  have search := (Nblocking4.run_find (s := .nil e) (some ((follow m c (entered m .none base_root 0)).curr,
    (follow m c (entered m .none base_root 0)).curr_op)) (room' + 1) (d.length + 1 + room')
    (cell_some full) here none rfl hr goesIn fun x member q held =>
      calm.none (.inr (below member).1) held).trans (run_descend_empty he)
  rw [List.length_cons, show room' + 1 + (d.length + 1) = d.length + 1 + room' + 1 by omega] at search
  have stays := exec_casOp opw (.relocate .ONGOING a op key rk rv) stored
  rw [if_pos rfl] at stays
  refine ⟨(m.relocate n w a op key rk rv).splice n' is_left w (refAt m e), ?_, ?_⟩
  · rw [Nat.zero_add, delete]
    refine (Prog.run_bind_of (calm.run_find_node goes fits (Nat.zero_lt_of_lt fits))).trans ?_
    rw [if_neg (not_not.mpr rfl)]
    refine (Prog.run_perform_of (exec_loadNode (cell_some full))).trans ?_
    refine (Prog.run_perform_of (exec_loadChild here leftChild)).trans ?_
    refine (Prog.run_perform_of (exec_loadChild here rightChild)).trans ?_
    simp only [IS_NULL, Bool.or_self, Bool.false_eq_true, reduceIte, Found.go, opOf_eq here]
    refine (Prog.run_bind_of search).trans ?_
    have last (out : Found V) : follow m (.left (childOf n' is_left) w rk rv (.nil e') :: d) out
      = { (follow m d out).go (childOf n' is_left) opw with result := .NOTFOUND_L } := by
      have opLeast : opOf m w = opw := opOf_eq stored
      rw [← opLeast]
      rfl
    simp only [last, Found.go, reduceCtorEq, reduceIte]
    refine (Prog.run_perform_of (exec_loadOp here none)).trans ?_
    rw [if_neg (not_not.mpr rfl)]
    refine (Prog.run_perform_of (exec_loadNode (cell_some hole))).trans ?_
    refine (Prog.run_perform_of (exec_loadNode full')).trans ?_
    refine (Prog.run_perform_of (exec_loadKey stored)).trans ?_
    refine (Prog.run_perform_of (exec_loadValue stored)).trans ?_
    refine (Prog.run_perform_of stays).trans ?_
    have relocated := run_helpRelocate here none stored here' apart apart' other (cell_some full) left left'
      toLeft (calm.sides n' p' here' is_left) (cell_some hole) key rk rv
    rw [← op'] at relocated
    exact (Prog.run_bind_of relocated).trans rfl
  · have split : plug c (.node a n rk rv l (plug d (.node (childOf n' is_left) w rk rv (.nil e) (.nil e'))))
        = plug (d ++ .right a n rk rv l :: c) (.node (childOf n' is_left) w rk rv (.nil e) (.nil e')) := by
      rw [plug_append]
      rfl
    have split' : plug c (.node a n rk rv l (plug d (.nil (childOf n' is_left))))
        = plug (d ++ .right a n rk rv l :: c) (.nil (childOf n' is_left)) := by
      rw [plug_append]
      rfl
    have moved := calm.toSettled.relocate w a op key rk rv
    rw [split] at moved
    have spliced := moved.splice
    refine { toSettled := ?_, ordered := ordered_least lefts calm.ordered }
    rw [split']
    exact spliced

end DeepDB.Concurrency.Nblocking4
