import DeepDB.Concurrency.HandOverHandInvariant

/-!
What the critical sections do to the tree: a node in an empty box, a value, a turn to the left and
the removal of a node that has no right child. Each changes boxes whose locks the thread has and the
nodes in them.
-/

namespace DeepDB.Concurrency.HandOverHand
open Linearizability SearchTree

variable {T V : Type} {tb : Nat} {m m' : Mem T V} {u : T}

/-! ### Changes of the memory -/

/-- All but the boxes `B` and the nodes `P` is as before. -/
structure Outside (B P : List Nat) (m m' : Mem T V) : Prop where
  box : ∀ a, a ∉ B → m'.box a = m.box a
  node : ∀ p, p ∉ P → m'.node p = m.node p

theorem outside_refl (m : Mem T V) : Outside [] [] m m := ⟨fun _ _ => rfl, fun _ _ => rfl⟩

theorem outside_setBox {B P : List Nat} (h : Outside B P m m') (b : Nat) (x : Option (Box T)) :
    Outside (b :: B) P m (m'.setBox b x) where
  box := by
    intro a ha
    rw [List.mem_cons, not_or] at ha
    exact (Function.update_of_ne ha.1 _ _).trans (h.box a ha.2)
  node := h.node

theorem outside_setNode {B P : List Nat} (h : Outside B P m m') (p : Nat) (x : Option (Node V)) :
    Outside B (p :: P) m (m'.setNode p x) where
  box := h.box
  node := by
    intro q hq
    rw [List.mem_cons, not_or] at hq
    exact (Function.update_of_ne hq.1 _ _).trans (h.node q hq.2)

variable {B P : List Nat} {c : List (Frame Nat Int (Option V))} {s s' t : Tree Nat Int (Option V)}

theorem repr_outside (h : Repr (cell m) (node m) t) (out : Outside B P m m')
    (cells : ∀ a ∈ t.cells, a ∉ B) (nodes : ∀ p ∈ t.pointers, p ∉ P) :
    Repr (cell m') (node m') t := by
  refine repr_frame h (fun a ha o hc => ?_) fun x hx l r hn => ?_
  · obtain ⟨lock, hbox⟩ := hc
    exact ⟨lock, (out.box a (cells a ha)).trans hbox⟩
  · exact (out.node x.1 (nodes x.1 (List.mem_map_of_mem hx))).trans hn

theorem good_replace (h : Good tb m (plug c s)) (out : Outside B P m m')
    (hB : ∀ a ∈ B, a ∈ s.cells ∨ a ∉ (plug c s).cells)
    (hP : ∀ p ∈ P, p ∈ s.pointers ∨ p ∉ (plug c s).pointers) (hroot : s'.root = s.root)
    (own : Repr (cell m') (node m') s') (cells : s'.cells.Nodup)
    (freshCells : ∀ a ∈ s'.cells, a ∈ s.cells ∨ a ∉ (plug c s).cells) (pointers : s'.pointers.Nodup)
    (freshPointers : ∀ p ∈ s'.pointers, p ∈ s.pointers ∨ p ∉ (plug c s).pointers)
    (ordered : Ordered s') (keys : ∀ k ∈ s'.keys, Goes k c) : Good tb m' (plug c s') where
  repr := by
    refine repr_replace h.repr hroot own (fun a ha o hc => ?_) fun x hx l r hn => ?_
    · obtain ⟨lock, hbox⟩ := hc
      refine ⟨lock, (out.box a fun hmem => ?_).trans hbox⟩
      rcases hB a hmem with hs | hs
      · exact around_cells h.cells hs ha rfl
      · exact hs (mem_cells_plug.mpr (Or.inr ha))
    · refine (out.node x.1 fun hmem => ?_).trans hn
      rcases hP x.1 hmem with hs | hs
      · obtain ⟨y, hy, same⟩ := List.mem_map.mp hs
        exact around_nodes Prod.fst h.pointers hy hx same
      · exact hs (List.mem_map_of_mem (mem_nodes_plug.mpr (Or.inr hx)))
  root := (root_plug hroot).trans h.root
  cells := cells_replace h.cells cells freshCells
  pointers := nodes_replace Prod.fst h.pointers pointers freshPointers
  ordered := ordered_replace h.ordered ordered keys

theorem pointer_of_cell (h : Good tb m t) {a p : Nat} (ha : a ∈ t.cells)
    (full : cell m a (some p)) : p ∈ t.pointers := by
  rw [← map_slots]
  exact List.mem_map_of_mem (mem_slots cell_unique h.repr ha full)

/-- What is in the boxes of `u` does not concern the others. -/
theorem keeps_replace (h : Good tb m (plug c s)) (out : Outside B P m m')
    (hB : ∀ a ∈ B, Held m (plug c s) u a ∨ a ∉ (plug c s).cells)
    (hP : ∀ p ∈ P, (∃ a, Held m (plug c s) u a ∧ cell m a (some p)) ∨ p ∉ (plug c s).pointers)
    (cells : ∀ a ∈ s.cells, ¬ Held m (plug c s) u a → a ∈ s'.cells)
    (path : ∀ k a, ¬ Held m (plug c s) u a → OnPath k s a → OnPath k s' a) :
    Keeps u m m' (plug c s) (plug c s') := by
  intro w b hne hold
  have notMine : ¬ Held m (plug c s) u b := fun mine => hne (held_unique hold mine)
  refine ⟨?_, out.box b fun hmem => ?_, fun p hp => out.node p fun hmem => ?_, fun k hk => ?_⟩
  · have hb := hold.1
    rw [mem_cells_plug] at hb ⊢
    exact hb.imp_left fun hs => cells b hs notMine
  · exact (hB b hmem).elim notMine fun outside => outside hold.1
  · rcases hP p hmem with ⟨a, ha, hc⟩ | outside
    · obtain rfl := cell_of_pointer cell_unique h.repr h.pointers ha.1 hold.1 hc hp
      exact notMine ha
    · exact outside (pointer_of_cell h hold.1 hp)
  · exact onPath_replace hk fun _ => path k b notMine

/-! ### A new node -/

/-- The node that `insert` puts into the empty box `tgt`. -/
def grown (tgt : Nat) (x : Int) (v : Option V) (new : Block) : Tree Nat Int (Option V) :=
  .node tgt new.node x v (.nil new.left) (.nil new.right)

/-- The memory after `insert` at an empty box. -/
def grow (m : Mem T V) (tgt : Nat) (lock : Option T) (x : Int) (v : Option V) (new : Block) :
    Mem T V :=
  (((m.setBox new.left (some ⟨none, none⟩)).setBox new.right (some ⟨none, none⟩)).setBox tgt
    (some ⟨some new.node, lock⟩)).setNode new.node (some ⟨x, v, new.left, new.right⟩)

section
variable {tgt : Nat} {x : Int} {v : Option V} {new : Block} {lock : Option T}

theorem fresh_outside (h : Good tb m t) (fresh : Fresh m new) :
    new.node ∉ t.pointers ∧ new.left ∉ t.cells ∧ new.right ∉ t.cells := by
  obtain ⟨hnode, hleft, hright, -⟩ := fresh
  refine ⟨fun hn => ?_, fun ha => ?_, fun ha => ?_⟩
  · obtain ⟨⟨n, k, value⟩, hn, same⟩ := List.mem_map.mp hn
    obtain ⟨c, a, l, r, rfl⟩ := exists_plug_node hn
    have stored : m.node n = some _ := (repr_plug h.repr).2.1
    rw [show n = new.node from same, hnode] at stored
    cases stored
  · obtain ⟨o, lock, hbox⟩ := good_box h ha
    rw [hleft] at hbox
    cases hbox
  · obtain ⟨o, lock, hbox⟩ := good_box h ha
    rw [hright] at hbox
    cases hbox

theorem grow_outside : Outside [tgt, new.right, new.left] [new.node] m (grow m tgt lock x v new) :=
  outside_setNode (outside_setBox (outside_setBox (outside_setBox (outside_refl m) _ _) _ _) _ _) _ _

theorem grow_good (h : Good tb m (plug c (.nil tgt))) (hg : Goes x c) (fresh : Fresh m new) :
    Good tb (grow m tgt lock x v new) (plug c (grown tgt x v new)) := by
  obtain ⟨hnode, hleft, hright⟩ := fresh_outside h fresh
  have htgt : tgt ∈ (plug c (.nil tgt : Tree Nat Int (Option V))).cells :=
    mem_cells_plug.mpr (Or.inl List.mem_cons_self)
  have hl : new.left ≠ tgt := by
    rintro same
    exact hleft (same ▸ htgt)
  have hr : new.right ≠ tgt := by
    rintro same
    exact hright (same ▸ htgt)
  have sides := fresh.2.2.2
  have mem : ∀ a, a = tgt ∨ a = new.left ∨ a = new.right →
      a ∈ (.nil tgt : Tree Nat Int (Option V)).cells ∨
        a ∉ (plug c (.nil tgt : Tree Nat Int (Option V))).cells := by
    rintro a (rfl | rfl | rfl)
    · exact Or.inl List.mem_cons_self
    · exact Or.inr hleft
    · exact Or.inr hright
  refine good_replace h grow_outside (fun a ha => mem a ?_) (fun p hp => ?_) rfl
    ⟨⟨lock, ?_⟩, ?_, ⟨none, ?_⟩, ⟨none, ?_⟩⟩ ?_ (fun a ha => mem a ?_) (List.nodup_singleton _)
    (fun p hp => ?_) ?_ fun k hk => ?_
  · have := List.mem_cons.mp ha
    simpa [or_comm, or_left_comm] using this
  · obtain rfl := List.mem_singleton.mp hp
    exact Or.inr hnode
  · exact Function.update_self _ _ _
  · exact Function.update_self _ _ _
  · refine (Function.update_of_ne hl _ _).trans ?_
    exact (Function.update_of_ne sides _ _).trans (Function.update_self _ _ _)
  · exact (Function.update_of_ne hr _ _).trans (Function.update_self _ _ _)
  · simp [grown, Tree.cells, hl.symm, hr.symm, sides]
  · simpa [grown, Tree.cells] using ha
  · obtain rfl := List.mem_singleton.mp hp
    exact Or.inr hnode
  · exact ⟨fun _ hk => absurd hk List.not_mem_nil, fun _ hk => absurd hk List.not_mem_nil,
      trivial, trivial⟩
  · obtain rfl : k = x := by simpa [grown] using hk
    exact hg

theorem grow_keeps (h : Good tb m (plug c (.nil tgt))) (hold : Held m (plug c (.nil tgt)) u tgt)
    (fresh : Fresh m new) :
    Keeps u m (grow m tgt lock x v new) (plug c (.nil tgt)) (plug c (grown tgt x v new)) := by
  obtain ⟨hnode, hleft, hright⟩ := fresh_outside h fresh
  refine keeps_replace h grow_outside (fun a ha => ?_) (fun p hp => ?_) (fun a ha _ => ?_)
    fun k a _ ha => Or.inl ha
  · have cases' : a = tgt ∨ a = new.right ∨ a = new.left := by simpa using ha
    rcases cases' with rfl | rfl | rfl
    · exact Or.inl hold
    · exact Or.inr hright
    · exact Or.inr hleft
  · obtain rfl := List.mem_singleton.mp hp
    exact Or.inr hnode
  · obtain rfl := List.mem_singleton.mp ha
    exact List.mem_cons_self

theorem grow_contents (hg : Goes x c) :
    contents (plug c (grown tgt x v new)) =
      Function.update (contents (plug c (.nil tgt))) x v := by
  funext k
  by_cases same : k = x
  · subst same
    rw [Function.update_self, contents, find_plug hg]
    simp [grown, SearchTree.find]
  · have unseen : SearchTree.find k (grown tgt x v new) = none := by
      rcases lt_or_gt_of_ne same with hlt | hgt
      · exact if_pos hlt
      · exact (if_neg (lt_asymm hgt)).trans (if_pos hgt)
    have around : SearchTree.find k (plug c (grown tgt x v new)) =
        SearchTree.find k (plug c (.nil tgt)) := find_around fun _ => unseen
    rw [Function.update_of_ne same, contents, contents, around]

end

/-! ### A new value -/

section
variable {tgt p : Nat} {x : Int} {w : Option V} {l r : Tree Nat Int (Option V)}

theorem node_pointers (h : Good tb m (plug c (.node tgt p x w l r))) :
    p ∉ l.pointers ∧ p ∉ r.pointers ∧ l.pointers.Nodup ∧ r.pointers.Nodup := by
  have hole := hole_nodes Prod.fst h.pointers
  simp only [Tree.nodes, List.map_append, List.map_cons] at hole
  obtain ⟨hl, hr, apart⟩ := List.nodup_append.mp hole
  obtain ⟨hp, hr⟩ := List.nodup_cons.mp hr
  exact ⟨fun hmem => apart p hmem p List.mem_cons_self rfl, hp, hl, hr⟩

theorem value_good (h : Good tb m (plug c (.node tgt p x w l r))) (v : Option V) :
    Good tb (m.setNode p (some ⟨x, v, l.root, r.root⟩)) (plug c (.node tgt p x v l r)) := by
  obtain ⟨hcell, -, hl, hr⟩ := repr_plug h.repr
  obtain ⟨pl, pr, -, -⟩ := node_pointers h
  obtain ⟨goes, ordered⟩ := ordered_plug h.ordered
  have out := outside_setNode (outside_refl m) p (some ⟨x, v, l.root, r.root⟩)
  have same : (SearchTree.Tree.node tgt p x v l r).pointers = (SearchTree.Tree.node tgt p x w l r).pointers := by
    simp [Tree.pointers, Tree.nodes]
  have cells : (SearchTree.Tree.node tgt p x w l r).cells.Nodup := hole_cells h.cells
  refine good_replace h out (fun _ ha => absurd ha List.not_mem_nil) (fun q hq => Or.inl ?_) rfl
    ⟨hcell, Function.update_self _ _ _, ?_, ?_⟩ cells (fun _ ha => Or.inl ha)
    (same ▸ hole_nodes Prod.fst h.pointers) (fun q hq => Or.inl (same ▸ hq)) ordered
    fun k hk => goes k ?_
  · obtain rfl := List.mem_singleton.mp hq
    simp [Tree.pointers, Tree.nodes]
  · refine repr_outside hl out (fun _ _ => List.not_mem_nil) fun q hq hmem => ?_
    obtain rfl := List.mem_singleton.mp hmem
    exact pl hq
  · refine repr_outside hr out (fun _ _ => List.not_mem_nil) fun q hq hmem => ?_
    obtain rfl := List.mem_singleton.mp hmem
    exact pr hq
  · simpa using hk

theorem value_keeps (h : Good tb m (plug c (.node tgt p x w l r)))
    (hold : Held m (plug c (.node tgt p x w l r)) u tgt) (v : Option V) :
    Keeps u m (m.setNode p (some ⟨x, v, l.root, r.root⟩)) (plug c (.node tgt p x w l r))
      (plug c (.node tgt p x v l r)) := by
  refine keeps_replace h (outside_setNode (outside_refl m) _ _)
    (fun _ ha => absurd ha List.not_mem_nil) (fun q hq => ?_) (fun _ ha _ => ha) fun _ _ _ ha => ha
  obtain rfl := List.mem_singleton.mp hq
  exact Or.inl ⟨tgt, hold, (repr_plug h.repr).1⟩

theorem value_contents (h : Ordered (plug c (.node tgt p x w l r))) (v : Option V) :
    contents (plug c (.node tgt p x v l r)) =
      Function.update (contents (plug c (.node tgt p x w l r))) x v := by
  have hg : Goes x c := (ordered_plug h).1 x (mem_keys_node.mpr (Or.inr (Or.inl rfl)))
  funext k
  by_cases same : k = x
  · subst same
    rw [Function.update_self, contents, find_plug hg]
    simp [SearchTree.find]
  · have around : SearchTree.find k (plug c (.node tgt p x v l r)) =
        SearchTree.find k (plug c (.node tgt p x w l r)) := by
      refine find_around fun _ => ?_
      simp only [SearchTree.find]
      rcases lt_or_gt_of_ne same with hlt | hgt
      · rw [if_pos hlt, if_pos hlt]
      · rw [if_neg (lt_asymm hgt), if_neg (lt_asymm hgt), if_pos hgt, if_pos hgt]
    rw [Function.update_of_ne same, contents, contents, around]

end

/-! ### A turn to the left -/

section
variable {tgp tgq p q : Nat} {x y : Int} {v w : Option V} {L M C : Tree Nat Int (Option V)}

/-- Before the turn. -/
def leaning (tgp tgq p q : Nat) (x y : Int) (v w : Option V) (L M C : Tree Nat Int (Option V)) :
    Tree Nat Int (Option V) :=
  .node tgp p x v L (.node tgq q y w M C)

/-- The right child `q` has come up, and `p` has gone down into the box `tgq`. -/
def turned (tgp tgq p q : Nat) (x y : Int) (v w : Option V) (L M C : Tree Nat Int (Option V)) :
    Tree Nat Int (Option V) :=
  .node tgp q y w (.node tgq p x v L M) C

/-- The memory after `turn_left`. -/
def turn (m : Mem T V) (tgp tgq p q : Nat) (lockp lockq : Option T) (nodep nodeq : Node V) :
    Mem T V :=
  (((m.setNode p (some { nodep with right := nodeq.left })).setNode q
    (some { nodeq with left := tgq })).setBox tgp (some ⟨some q, lockp⟩)).setBox tgq
    (some ⟨some p, lockq⟩)

theorem turnLeft_spec {lockp lockq : Option T} {nodep nodeq : Node V}
    (hp : m.box tgp = some ⟨some p, lockp⟩) (hq : m.box tgq = some ⟨some q, lockq⟩)
    (np : m.node p = some nodep) (nq : m.node q = some nodeq) (boxes : tgp ≠ tgq) (nodes : p ≠ q) :
    turnLeft m tgp tgq = .ok (turn m tgp tgq p q lockp lockq nodep nodeq) := by
  have again : readNode (m.setNode p (some { nodep with right := nodeq.left })) q = .ok nodeq :=
    readNode_ok ((setNode_ne nodes.symm _).trans nq)
  have boxAgain : readBox (((m.setNode p (some { nodep with right := nodeq.left })).setNode q
      (some { nodeq with left := tgq })).setBox tgp (some ⟨some q, lockp⟩)) tgq =
        .ok ⟨some q, lockq⟩ :=
    readBox_ok ((setBox_ne boxes.symm _).trans hq)
  simp only [turnLeft, readBox_ok hq, readBox_ok hp, deref, readNode_ok nq, readNode_ok np, bind,
    Except.bind, again, boxAgain]
  rfl

theorem leaning_cells (h : (plug c (leaning tgp tgq p q x y v w L M C)).cells.Nodup) :
    tgp ≠ tgq ∧ (∀ a, a ∈ L.cells ∨ a ∈ M.cells ∨ a ∈ C.cells → a ≠ tgp ∧ a ≠ tgq) ∧
      (turned tgp tgq p q x y v w L M C).cells.Perm
        (leaning tgp tgq p q x y v w L M C).cells := by
  have hole := hole_cells h
  simp only [leaning, Tree.cells] at hole
  obtain ⟨htgp, hole⟩ := List.nodup_cons.mp hole
  simp only [List.mem_append, List.mem_cons, not_or] at htgp
  have middle := List.perm_middle.nodup_iff.mp hole
  obtain ⟨htgq, -⟩ := List.nodup_cons.mp middle
  simp only [List.mem_append, not_or] at htgq
  refine ⟨htgp.2.1, fun a ha => ⟨?_, ?_⟩, ?_⟩
  · rintro rfl
    exact ha.elim htgp.1 fun ha => ha.elim htgp.2.2.1 htgp.2.2.2
  · rintro rfl
    exact ha.elim htgq.1 fun ha => ha.elim htgq.2.1 htgq.2.2
  · simp only [leaning, turned, Tree.cells, List.cons_append, List.append_assoc]
    exact (List.perm_middle.symm).cons tgp

theorem leaning_pointers (h : (plug c (leaning tgp tgq p q x y v w L M C)).pointers.Nodup) :
    p ≠ q ∧ (∀ n, n ∈ L.pointers ∨ n ∈ M.pointers ∨ n ∈ C.pointers → n ≠ p ∧ n ≠ q) ∧
      (turned tgp tgq p q x y v w L M C).pointers = (leaning tgp tgq p q x y v w L M C).pointers := by
  have hole := hole_nodes Prod.fst h
  simp only [leaning, Tree.nodes, List.map_append, List.map_cons] at hole
  obtain ⟨hp, rest⟩ := List.nodup_cons.mp (List.perm_middle.nodup_iff.mp hole)
  have reorder : (L.nodes.map Prod.fst ++ (M.nodes.map Prod.fst ++ q :: C.nodes.map Prod.fst)).Perm
      (q :: (L.nodes.map Prod.fst ++ (M.nodes.map Prod.fst ++ C.nodes.map Prod.fst))) := by
    rw [← List.append_assoc, ← List.append_assoc]
    exact List.perm_middle
  obtain ⟨hq, -⟩ := List.nodup_cons.mp (reorder.nodup_iff.mp rest)
  simp only [List.mem_append, List.mem_cons, not_or] at hp hq
  refine ⟨hp.2.2.1, fun n hn => ⟨?_, ?_⟩, ?_⟩
  · rintro rfl
    exact hn.elim hp.1 fun hn => hn.elim hp.2.1 hp.2.2.2
  · rintro rfl
    exact hn.elim hq.1 fun hn => hn.elim hq.2.1 hq.2.2
  · simp [leaning, turned, Tree.pointers, Tree.nodes]

theorem leaning_ordered (h : Ordered (leaning tgp tgq p q x y v w L M C)) :
    x < y ∧ Ordered (turned tgp tgq p q x y v w L M C) := by
  obtain ⟨hL, hR, oL, hM, hC, oM, oC⟩ := h
  have hxy : x < y := hR y (mem_keys_node.mpr (Or.inr (Or.inl rfl)))
  refine ⟨hxy, fun k hk => ?_, hC, ⟨hL, fun k hk => hR k (mem_keys_node.mpr (Or.inl hk)), oL, oM⟩, oC⟩
  rcases mem_keys_node.mp hk with hk | rfl | hk
  · exact (hL k hk).trans hxy
  · exact hxy
  · exact hM k hk

theorem turned_find (hxy : x < y) (k : Int) :
    SearchTree.find k (turned tgp tgq p q x y v w L M C) =
      SearchTree.find k (leaning tgp tgq p q x y v w L M C) := by
  simp only [turned, leaning, SearchTree.find]
  by_cases hlt : k < x
  · rw [if_pos (hlt.trans hxy), if_pos hlt, if_pos hlt]
  · rw [if_neg hlt, if_neg hlt]
    by_cases hgt : x < k
    · rw [if_pos hgt, if_pos hgt]
    · have hky : k < y := lt_of_le_of_lt (not_lt.mp hgt) hxy
      rw [if_neg hgt, if_neg hgt, if_pos hky]

theorem turn_outside {lockp lockq : Option T} {nodep nodeq : Node V} :
    Outside [tgq, tgp] [q, p] m (turn m tgp tgq p q lockp lockq nodep nodeq) :=
  outside_setBox (outside_setBox (outside_setNode (outside_setNode (outside_refl m) _ _) _ _) _ _) _ _

theorem turn_good (h : Good tb m (plug c (leaning tgp tgq p q x y v w L M C)))
    (lockp lockq : Option T) :
    Good tb (turn m tgp tgq p q lockp lockq ⟨x, v, L.root, tgq⟩ ⟨y, w, M.root, C.root⟩)
      (plug c (turned tgp tgq p q x y v w L M C)) := by
  obtain ⟨boxes, apart, cells⟩ := leaning_cells h.cells
  obtain ⟨nodes, apartNodes, pointers⟩ := leaning_pointers h.pointers
  obtain ⟨goes, ordered⟩ := ordered_plug h.ordered
  obtain ⟨hxy, ordered'⟩ := leaning_ordered ordered
  obtain ⟨-, -, hL, -, -, hM, hC⟩ := repr_plug h.repr
  have inside : ∀ t : Tree Nat Int (Option V), Repr (cell m) (node m) t →
      (∀ a ∈ t.cells, a ∈ L.cells ∨ a ∈ M.cells ∨ a ∈ C.cells) →
      (∀ n ∈ t.pointers, n ∈ L.pointers ∨ n ∈ M.pointers ∨ n ∈ C.pointers) →
      Repr (cell (turn m tgp tgq p q lockp lockq ⟨x, v, L.root, tgq⟩ ⟨y, w, M.root, C.root⟩))
        (node (turn m tgp tgq p q lockp lockq ⟨x, v, L.root, tgq⟩ ⟨y, w, M.root, C.root⟩)) t := by
    intro t ht hcells hnodes
    refine repr_outside ht turn_outside (fun a ha hmem => ?_) fun n hn hmem => ?_
    · obtain ⟨h₁, h₂⟩ := apart a (hcells a ha)
      simp [h₁, h₂] at hmem
    · obtain ⟨h₁, h₂⟩ := apartNodes n (hnodes n hn)
      simp [h₁, h₂] at hmem
  refine good_replace h turn_outside (fun a ha => Or.inl ?_) (fun n hn => Or.inl ?_) rfl
    ⟨⟨lockp, ?_⟩, ?_, ⟨⟨lockq, ?_⟩, ?_, inside L hL ?_ ?_, inside M hM ?_ ?_⟩, inside C hC ?_ ?_⟩
    (cells.nodup_iff.mpr (hole_cells h.cells)) (fun a ha => Or.inl (cells.mem_iff.mp ha))
    (pointers ▸ hole_nodes Prod.fst h.pointers) (fun n hn => Or.inl (pointers ▸ hn)) ordered'
    fun k hk => goes k ?_
  · have cases' : a = tgq ∨ a = tgp := by simpa using ha
    rcases cases' with rfl | rfl <;> simp [leaning, Tree.cells]
  · have cases' : n = q ∨ n = p := by simpa using hn
    rcases cases' with rfl | rfl <;> simp [leaning, Tree.pointers, Tree.nodes]
  · exact (Function.update_of_ne boxes _ _).trans (Function.update_self _ _ _)
  · exact Function.update_self _ _ _
  · exact Function.update_self _ _ _
  · exact (Function.update_of_ne nodes _ _).trans (Function.update_self _ _ _)
  · exact fun a ha => Or.inl ha
  · exact fun n hn => Or.inl hn
  · exact fun a ha => Or.inr (Or.inl ha)
  · exact fun n hn => Or.inr (Or.inl hn)
  · exact fun a ha => Or.inr (Or.inr ha)
  · exact fun n hn => Or.inr (Or.inr hn)
  · have same : (turned tgp tgq p q x y v w L M C).keys = (leaning tgp tgq p q x y v w L M C).keys := by
      simp [leaning, turned, Tree.keys, Tree.nodes]
    exact same ▸ hk

theorem turn_keeps (h : Good tb m (plug c (leaning tgp tgq p q x y v w L M C)))
    (holdp : Held m (plug c (leaning tgp tgq p q x y v w L M C)) u tgp)
    (holdq : Held m (plug c (leaning tgp tgq p q x y v w L M C)) u tgq)
    (lockp lockq : Option T) (nodep nodeq : Node V) :
    Keeps u m (turn m tgp tgq p q lockp lockq nodep nodeq)
      (plug c (leaning tgp tgq p q x y v w L M C)) (plug c (turned tgp tgq p q x y v w L M C)) := by
  obtain ⟨-, -, cells⟩ := leaning_cells h.cells
  obtain ⟨hxy, -⟩ := leaning_ordered (ordered_plug h.ordered).2
  obtain ⟨hcellp, -, -, hcellq, -⟩ := repr_plug h.repr
  refine keeps_replace h turn_outside (fun a ha => Or.inl ?_) (fun n hn => Or.inl ?_)
    (fun a ha _ => cells.mem_iff.mpr ha) fun k a free ha => ?_
  · have cases' : a = tgq ∨ a = tgp := by simpa using ha
    rcases cases' with rfl | rfl
    · exact holdq
    · exact holdp
  · have cases' : n = q ∨ n = p := by simpa using hn
    rcases cases' with rfl | rfl
    · exact ⟨tgq, holdq, hcellq⟩
    · exact ⟨tgp, holdp, hcellp⟩
  · rcases ha with rfl | ⟨hlt, ha⟩ | ⟨hgt, rfl | ⟨hlt, ha⟩ | ⟨hgt', ha⟩⟩
    · exact Or.inl rfl
    · exact Or.inr (Or.inl ⟨hlt.trans hxy, Or.inr (Or.inl ⟨hlt, ha⟩)⟩)
    · exact absurd holdq free
    · exact Or.inr (Or.inl ⟨hlt, Or.inr (Or.inr ⟨hgt, ha⟩)⟩)
    · exact Or.inr (Or.inr ⟨hgt', ha⟩)

theorem turn_contents (h : Ordered (plug c (leaning tgp tgq p q x y v w L M C))) :
    contents (plug c (turned tgp tgq p q x y v w L M C)) =
      contents (plug c (leaning tgp tgq p q x y v w L M C)) := by
  obtain ⟨hxy, -⟩ := leaning_ordered (ordered_plug h).2
  funext k
  rw [contents, contents, find_around fun _ => turned_find hxy k]

end

/-! ### A removal -/

section
variable {tgp tgq p : Nat} {x : Int} {v : Option V} {L : Tree Nat Int (Option V)}

/-- The memory after the removal of the node `p`, with its box and the box of its left child made
one. -/
def removal (m : Mem T V) (tgp tgq tgl p : Nat) (o : Option Nat) (lock : Option T) : Mem T V :=
  (((m.setBox tgp (some ⟨o, lock⟩)).setNode p none).setBox tgq none).setBox tgl none

theorem removal_outside {tgl : Nat} {o : Option Nat} {lock : Option T} :
    Outside [tgl, tgq, tgp] [p] m (removal m tgp tgq tgl p o lock) :=
  outside_setBox (outside_setBox (outside_setNode (outside_setBox (outside_refl m) _ _) _ _) _ _) _ _

theorem last_cells (h : (plug c (.node tgp p x v L (.nil tgq))).cells.Nodup) :
    tgp ≠ tgq ∧ tgp ∉ L.cells ∧ tgq ∉ L.cells ∧ L.cells.Nodup := by
  have hole : (SearchTree.Tree.node tgp p x v L (.nil tgq)).cells.Nodup := hole_cells h
  simp only [Tree.cells] at hole
  obtain ⟨htgp, hole⟩ := List.nodup_cons.mp hole
  simp only [List.mem_append, List.mem_singleton, not_or] at htgp
  obtain ⟨hL, -, apart⟩ := List.nodup_append.mp hole
  exact ⟨htgp.2, htgp.1, fun hmem => apart tgq hmem tgq List.mem_cons_self rfl, hL⟩

/-- The cells below the root stay where they are when the tree moves. -/
theorem moveTo_cells (L : Tree Nat Int (Option V)) (a : Nat) :
    ∃ below, L.cells = L.root :: below ∧ (moveTo a L).cells = a :: below := by
  obtain ⟨below, hcells⟩ := cells_eq L
  have own := hcells L.root
  rw [moveTo_root] at own
  exact ⟨below, own, hcells a⟩

theorem removal_good (h : Good tb m (plug c (.node tgp p x v L (.nil tgq)))) {o : Option Nat}
    (hL : cell m L.root o) (lock : Option T) :
    Good tb (removal m tgp tgq L.root p o lock) (plug c (moveTo tgp L)) := by
  obtain ⟨boxes, htgp, htgq, distinct⟩ := last_cells h.cells
  obtain ⟨hp, -, distinctNodes, -⟩ := node_pointers h
  obtain ⟨goes, ordered⟩ := ordered_plug h.ordered
  obtain ⟨-, -, reprL, -⟩ := repr_plug h.repr
  obtain ⟨below, own, moved⟩ := moveTo_cells L tgp
  have rootL : tgp ≠ L.root := fun same => htgp (same ▸ root_mem_cells L)
  have hcell : cell (removal m tgp tgq L.root p o lock) tgp o :=
    ⟨lock, (setBox_ne rootL _).trans ((setBox_ne boxes _).trans (Function.update_self _ _ _))⟩
  have inside : ∀ t : Tree Nat Int (Option V), Repr (cell m) (node m) t →
      (∀ a ∈ t.cells, a ∈ L.cells ∧ a ≠ L.root) → (∀ n ∈ t.pointers, n ∈ L.pointers) →
      Repr (cell (removal m tgp tgq L.root p o lock)) (node (removal m tgp tgq L.root p o lock))
        t := by
    intro t ht hcells hnodes
    refine repr_outside ht removal_outside (fun a ha hmem => ?_) fun n hn hmem => ?_
    · obtain ⟨hin, hroot⟩ := hcells a ha
      have cases' : a = L.root ∨ a = tgq ∨ a = tgp := by simpa using hmem
      rcases cases' with same | rfl | rfl
      · exact hroot same
      · exact htgq hin
      · exact htgp hin
    · obtain rfl := List.mem_singleton.mp hmem
      exact hp (hnodes n hn)
  refine good_replace h removal_outside (fun a ha => Or.inl ?_) (fun n hn => Or.inl ?_)
    (root_moveTo tgp L) ?_ ?_ (fun a ha => Or.inl ?_) ?_ (fun n hn => Or.inl ?_)
    (ordered_moveTo.mpr ordered.2.2.1) fun k hk => goes k ?_
  · have cases' : a = L.root ∨ a = tgq ∨ a = tgp := by simpa using ha
    rcases cases' with rfl | rfl | rfl
    · exact List.mem_cons_of_mem _ (List.mem_append_left _ (root_mem_cells L))
    · exact List.mem_cons_of_mem _ (List.mem_append_right _ List.mem_cons_self)
    · exact List.mem_cons_self
  · obtain rfl := List.mem_singleton.mp hn
    simp [Tree.pointers, Tree.nodes]
  · cases L with
    | nil a =>
      obtain rfl := cell_unique _ _ _ reprL hL
      exact hcell
    | node a n key value l r =>
      obtain ⟨hn, hnode, hl, hr⟩ := reprL
      obtain rfl := cell_unique _ _ _ hn hL
      have apart := List.nodup_cons.mp distinct
      rw [List.mem_append, not_or] at apart
      have ne : n ≠ p := by
        rintro rfl
        exact hp (by simp [Tree.pointers, Tree.nodes])
      refine ⟨hcell, (removal_outside.node n (by simpa using ne)).trans hnode,
        inside l hl (fun b hb => ⟨?_, ?_⟩) ?_, inside r hr (fun b hb => ⟨?_, ?_⟩) ?_⟩
      · exact List.mem_cons_of_mem _ (List.mem_append_left _ hb)
      · rintro rfl
        exact apart.1.1 hb
      · exact fun n hn => by
          simp only [Tree.pointers, Tree.nodes, List.map_append, List.mem_append] at hn ⊢
          exact Or.inl hn
      · exact List.mem_cons_of_mem _ (List.mem_append_right _ hb)
      · rintro rfl
        exact apart.1.2 hb
      · exact fun n hn => by
          simp only [Tree.pointers, Tree.nodes, List.map_append, List.map_cons, List.mem_append,
            List.mem_cons] at hn ⊢
          exact Or.inr (Or.inr hn)
  · rw [moved]
    rw [own] at distinct htgp
    exact List.nodup_cons.mpr ⟨fun hmem => htgp (List.mem_cons_of_mem _ hmem),
      (List.nodup_cons.mp distinct).2⟩
  · rw [moved] at ha
    rcases List.mem_cons.mp ha with rfl | ha
    · exact List.mem_cons_self
    · refine List.mem_cons_of_mem _ (List.mem_append_left _ ?_)
      rw [own]
      exact List.mem_cons_of_mem _ ha
  · rw [Tree.pointers, nodes_moveTo]
    exact distinctNodes
  · rw [Tree.pointers, nodes_moveTo] at hn
    simp only [Tree.pointers, Tree.nodes, List.map_append, List.mem_append]
    exact Or.inl hn
  · rw [keys_moveTo] at hk
    exact mem_keys_node.mpr (Or.inl hk)

theorem removal_keeps (h : Good tb m (plug c (.node tgp p x v L (.nil tgq)))) {o : Option Nat}
    (holdp : Held m (plug c (.node tgp p x v L (.nil tgq))) u tgp)
    (holdq : Held m (plug c (.node tgp p x v L (.nil tgq))) u tgq)
    (holdl : Held m (plug c (.node tgp p x v L (.nil tgq))) u L.root) (lock : Option T) :
    Keeps u m (removal m tgp tgq L.root p o lock) (plug c (.node tgp p x v L (.nil tgq)))
      (plug c (moveTo tgp L)) := by
  obtain ⟨below, own, moved⟩ := moveTo_cells L tgp
  refine keeps_replace h removal_outside (fun a ha => Or.inl ?_) (fun n hn => Or.inl ?_)
    (fun a ha free => ?_) fun k a free ha => ?_
  · have cases' : a = L.root ∨ a = tgq ∨ a = tgp := by simpa using ha
    rcases cases' with rfl | rfl | rfl
    · exact holdl
    · exact holdq
    · exact holdp
  · obtain rfl := List.mem_singleton.mp hn
    exact ⟨tgp, holdp, (repr_plug h.repr).1⟩
  · rw [moved]
    rcases List.mem_cons.mp ha with rfl | ha
    · exact List.mem_cons_self
    · rcases List.mem_append.mp ha with ha | ha
      · rw [own] at ha
        rcases List.mem_cons.mp ha with rfl | ha
        · exact absurd holdl free
        · exact List.mem_cons_of_mem _ ha
      · obtain rfl := List.mem_singleton.mp ha
        exact absurd holdq free
  · rcases ha with rfl | ⟨hlt, ha⟩ | ⟨hgt, rfl⟩
    · exact absurd holdp free
    · refine onPath_moveTo ha ?_
      rintro rfl
      exact free holdl
    · exact absurd holdq free

theorem removal_contents (h : Ordered (plug c (.node tgp p x v L (.nil tgq)))) :
    contents (plug c (moveTo tgp L)) =
      Function.update (contents (plug c (.node tgp p x v L (.nil tgq)))) x none := by
  obtain ⟨goes, below, -, -, -⟩ := ordered_plug h
  have absent : ∀ k, ¬ k < x → SearchTree.find k L = none := by
    intro k hk
    cases hfind : SearchTree.find k L with
    | none => rfl
    | some v => exact absurd (below k (mem_keys_of_find hfind)) hk
  funext k
  by_cases same : k = x
  · subst same
    have hg : Goes k c := goes k (mem_keys_node.mpr (Or.inr (Or.inl rfl)))
    rw [Function.update_self, contents, find_plug hg, find_moveTo, absent k (lt_irrefl k)]
    rfl
  · have around : SearchTree.find k (plug c (moveTo tgp L)) =
        SearchTree.find k (plug c (.node tgp p x v L (.nil tgq))) := by
      refine find_around fun _ => ?_
      rw [find_moveTo]
      rcases lt_or_gt_of_ne same with hlt | hgt
      · exact (if_pos hlt).symm
      · rw [absent k (lt_asymm hgt)]
        exact ((if_neg (lt_asymm hgt)).trans (if_pos hgt)).symm
    rw [Function.update_of_ne same, contents, contents, around]

end

end DeepDB.Concurrency.HandOverHand
