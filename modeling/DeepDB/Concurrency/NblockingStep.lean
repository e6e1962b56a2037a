import DeepDB.Concurrency.NblockingInvariant

/-!
What each step of the lock-free tree does. An insert takes effect at its compare-and-swap or at the
store of the value, a lookup where it loads NULL or the value; no other step changes the map.
-/

namespace DeepDB.Concurrency.Nblocking
open Linearizability SearchTree

variable {T V : Type} {tb : Nat} {m m' : Mem V} {t t' : Tree Nat Int (Nat × Option V)}

/-! ### Allocation and release -/

theorem alloc_same (h : Good tb m t) {new : Block} (fresh : Fresh m new)
    (made : Node) (v : Option V) :
    SameTree m
      { tree := Function.update m.tree new.node (some made)
        ptr := Function.update (Function.update m.ptr new.left (some none)) new.right (some none)
        val := Function.update m.val new.value (some v) } t := by
  obtain ⟨hnode, hvalue, hleft, hright⟩ := fresh_outside h fresh
  refine ⟨fun a ha => ?_, fun n hn => ?_, fun c hc => ?_⟩
  · refine (Function.update_of_ne ?_ _ _).trans (Function.update_of_ne ?_ _ _)
    · rintro rfl
      exact hright ha
    · rintro rfl
      exact hleft ha
  · refine Function.update_of_ne ?_ _ _
    rintro rfl
    exact hnode hn
  · refine Function.update_of_ne ?_ _ _
    rintro rfl
    exact hvalue hc

theorem release_same {x : Int} {v : Option V} {b : Block} (hb : Private m t x v b) :
    SameTree m
      { tree := Function.update m.tree b.node none
        ptr := Function.update (Function.update m.ptr b.left none) b.right none
        val := Function.update m.val b.value none } t := by
  refine ⟨fun a ha => ?_, fun n hn => ?_, fun c hc => ?_⟩
  · refine (Function.update_of_ne ?_ _ _).trans (Function.update_of_ne ?_ _ _)
    · rintro rfl
      exact hb.cells.2 ha
    · rintro rfl
      exact hb.cells.1 ha
  · refine Function.update_of_ne ?_ _ _
    rintro rfl
    exact hb.node hn
  · refine Function.update_of_ne ?_ _ _
    rintro rfl
    exact hb.values hc

/-- What lies apart from the words written stays as it is. -/
theorem private_update {x : Int} {v : Option V} {b b₀ : Block} (hb : Private m t x v b)
    (apart : b₀.Apart b) (tree : Option Node) (left right : Option (Option Nat))
    (val : Option (Option V)) :
    Private
      { tree := Function.update m.tree b₀.node tree
        ptr := Function.update (Function.update m.ptr b₀.left left) b₀.right right
        val := Function.update m.val b₀.value val } t x v b := by
  obtain ⟨hnode, hvalue, hll, hlr, hrl, hrr⟩ := apart
  refine { hb with tree := ?_, value := ?_, left := ?_, right := ?_ }
  · exact (Function.update_of_ne (Ne.symm hnode) _ _).trans hb.tree
  · exact (Function.update_of_ne (Ne.symm hvalue) _ _).trans hb.value
  · refine (Function.update_of_ne (Ne.symm hrl) _ _).trans ?_
    exact (Function.update_of_ne (Ne.symm hll) _ _).trans hb.left
  · refine (Function.update_of_ne (Ne.symm hrr) _ _).trans ?_
    exact (Function.update_of_ne (Ne.symm hlr) _ _).trans hb.right

theorem fresh_apart {new b : Block} {x : Int} {v : Option V} (fresh : Fresh m new)
    (hb : Private m t x v b) : new.Apart b := by
  obtain ⟨htree, hval, hleft, hright, -⟩ := fresh
  refine ⟨?_, ?_, ?_, ?_, ?_, ?_⟩ <;> intro same
  · rw [same, hb.tree] at htree
    cases htree
  · rw [same, hb.value] at hval
    cases hval
  · rw [same, hb.left] at hleft
    cases hleft
  · rw [same, hb.right] at hleft
    cases hleft
  · rw [same, hb.left] at hright
    cases hright
  · rw [same, hb.right] at hright
    cases hright

theorem private_new (h : Good tb m t) {new : Block} (fresh : Fresh m new) (x : Int)
    (v : Option V) :
    Private
      { tree := Function.update m.tree new.node (some ⟨x, new.value, new.left, new.right⟩)
        ptr := Function.update (Function.update m.ptr new.left (some none)) new.right (some none)
        val := Function.update m.val new.value (some v) } t x v new := by
  obtain ⟨hnode, hvalue, hleft, hright⟩ := fresh_outside h fresh
  have sides := fresh.2.2.2.2
  exact
    { tree := Function.update_self _ _ _
      value := Function.update_self _ _ _
      left := (Function.update_of_ne sides _ _).trans (Function.update_self _ _ _)
      right := Function.update_self _ _ _
      sides := sides
      node := hnode
      values := hvalue
      cells := ⟨hleft, hright⟩ }

/-! ### The compare-and-swap that succeeds -/

section
variable {c : List (Frame Nat Int (Nat × Option V))} {temp : Nat} {x : Int} {v : Option V}
  {b : Block}

/-- The new node in the cell that was empty. -/
def grown (temp : Nat) (x : Int) (v : Option V) (b : Block) : Tree Nat Int (Nat × Option V) :=
  .node temp b.node x (b.value, v) (.nil b.left) (.nil b.right)

theorem grown_good (h : Good tb m (plug c (.nil temp))) (hg : Goes x c)
    (hb : Private m (plug c (.nil temp)) x v b) :
    Good tb { m with ptr := Function.update m.ptr temp (some (some b.node)) }
      (plug c (grown temp x v b)) := by
  have htemp : temp ∈ (plug c (.nil temp : Tree Nat Int (Nat × Option V))).cells :=
    mem_cells_plug.mpr (Or.inl List.mem_cons_self)
  have hleft : b.left ≠ temp := by
    rintro rfl
    exact hb.cells.1 htemp
  have hright : b.right ≠ temp := by
    rintro rfl
    exact hb.cells.2 htemp
  have around := List.nodup_append.mp ((cells_plug c (.nil temp)).nodup_iff.mp h.cells)
  have hroot : (plug c (grown temp x v b)).root = (plug c (.nil temp)).root := root_plug rfl
  refine { repr := ?_, root := hroot.trans h.root, cells := ?_, pointers := ?_,
           values := ?_, ordered := ?_ }
  · refine repr_replace h.repr rfl ⟨?_, ⟨hb.tree, hb.value⟩, ?_, ?_⟩ (fun a ha o hc => ?_)
      (fun _ _ _ _ hn => hn)
    · exact Function.update_self _ _ _
    · exact (Function.update_of_ne hleft _ _).trans hb.left
    · exact (Function.update_of_ne hright _ _).trans hb.right
    · refine (Function.update_of_ne ?_ _ _).trans hc
      rintro rfl
      exact around.2.2 a List.mem_cons_self a ha rfl
  · refine cells_replace h.cells ?_ fun a ha => ?_
    · simp [grown, Tree.cells, Ne.symm hleft, Ne.symm hright, hb.sides]
    · have cases' : a = temp ∨ a = b.left ∨ a = b.right := by
        simpa [grown, Tree.cells] using ha
      rcases cases' with rfl | rfl | rfl
      · exact Or.inl List.mem_cons_self
      · exact Or.inr hb.cells.1
      · exact Or.inr hb.cells.2
  · refine nodes_replace Prod.fst h.pointers (List.nodup_singleton _) fun n hn => ?_
    obtain rfl := List.mem_singleton.mp hn
    exact Or.inr hb.node
  · refine nodes_replace valueCell h.values (List.nodup_singleton _) fun n hn => ?_
    obtain rfl := List.mem_singleton.mp hn
    exact Or.inr hb.values
  · refine ordered_replace h.ordered ?_ fun k hk => ?_
    · exact ⟨fun _ hk => absurd hk List.not_mem_nil, fun _ hk => absurd hk List.not_mem_nil,
        trivial, trivial⟩
    · obtain rfl : k = x := by simpa [grown] using hk
      exact hg

theorem grown_keeps (h : Good tb m (plug c (.nil temp)))
    (hb : Private m (plug c (.nil temp)) x v b) :
    Keeps m { m with ptr := Function.update m.ptr temp (some (some b.node)) }
      (plug c (.nil temp)) (plug c (grown temp x v b)) where
  path := fun k a hp => onPath_replace hp fun _ ha => Or.inl ha
  nodes := by
    intro n k value w hn
    rcases mem_nodes_plug.mp hn with hn | hn
    · cases hn
    · exact ⟨w, mem_nodes_plug.mpr (Or.inr hn)⟩
  stale := by
    intro a q _ hq hne
    by_cases same : a = temp
    · subst same
      show Function.update m.ptr a _ a ≠ _
      rw [Function.update_self]
      intro hq'
      obtain rfl := Option.some.inj (Option.some.inj hq')
      exact hb.node hq
    · show Function.update m.ptr temp _ a ≠ _
      rwa [Function.update_of_ne same]
  cells := by
    intro a ha
    rw [mem_cells_plug] at ha ⊢
    refine ha.imp_left fun ha => ?_
    obtain rfl := List.mem_singleton.mp ha
    exact List.mem_cons_self
  installed := by
    intro a _ q hq
    refine (Function.update_of_ne ?_ _ _).trans hq
    rintro rfl
    cases cell_unique _ _ _ (repr_plug h.repr) hq

theorem grown_contents (hg : Goes x c) (k : Int) :
    contents (plug c (grown temp x v b)) k =
      Function.update (contents (plug c (.nil temp))) x v k := by
  by_cases same : k = x
  · subst same
    rw [Function.update_self, contents, find_plug hg]
    simp [grown, SearchTree.find]
  · have unseen : SearchTree.find k (grown temp x v b) = none := by
      rcases lt_or_gt_of_ne same with hlt | hgt
      · exact if_pos hlt
      · exact (if_neg (lt_asymm hgt)).trans (if_pos hgt)
    have around : SearchTree.find k (plug c (grown temp x v b)) =
        SearchTree.find k (plug c (.nil temp)) := find_around fun _ => unseen
    rw [Function.update_of_ne same, contents, contents, around]

theorem private_grown {b₀ : Block} {x₀ : Int} {v₀ : Option V} (apart : b.Apart b₀)
    (h₀ : Private m (plug c (.nil temp)) x₀ v₀ b₀) :
    Private { m with ptr := Function.update m.ptr temp (some (some b.node)) }
      (plug c (grown temp x v b)) x₀ v₀ b₀ := by
  obtain ⟨hnode, hvalue, hll, hlr, hrl, hrr⟩ := apart
  have htemp : temp ∈ (plug c (.nil temp : Tree Nat Int (Nat × Option V))).cells :=
    mem_cells_plug.mpr (Or.inl List.mem_cons_self)
  have outside : ∀ a, a ≠ b.left → a ≠ b.right →
      a ∉ (plug c (.nil temp : Tree Nat Int (Nat × Option V))).cells →
      a ∉ (plug c (grown temp x v b)).cells := by
    intro a hl hr hout ha
    rcases mem_cells_plug.mp ha with ha | ha
    · have cases' : a = temp ∨ a = b.left ∨ a = b.right := by
        simpa [grown, Tree.cells] using ha
      rcases cases' with rfl | same | same
      · exact hout htemp
      · exact hl same
      · exact hr same
    · exact hout (mem_cells_plug.mpr (Or.inr ha))
  have field : ∀ {f : Nat × Int × Nat × Option V → Nat} {n : Nat},
      n ≠ f (b.node, x, b.value, v) →
      n ∉ (plug c (.nil temp : Tree Nat Int (Nat × Option V))).nodes.map f →
      n ∉ (plug c (grown temp x v b)).nodes.map f := by
    intro f n hne hout hn
    obtain ⟨y, hy, rfl⟩ := List.mem_map.mp hn
    rcases mem_nodes_plug.mp hy with hy | hy
    · obtain rfl := List.mem_singleton.mp hy
      exact hne rfl
    · exact hout (List.mem_map.mpr ⟨y, mem_nodes_plug.mpr (Or.inr hy), rfl⟩)
  refine { h₀ with left := ?_, right := ?_, node := field (Ne.symm hnode) h₀.node,
                   values := field (Ne.symm hvalue) h₀.values,
                   cells := ⟨outside _ (Ne.symm hll) (Ne.symm hrl) h₀.cells.1,
                     outside _ (Ne.symm hlr) (Ne.symm hrr) h₀.cells.2⟩ }
  · refine (Function.update_of_ne ?_ _ _).trans h₀.left
    intro same
    exact h₀.cells.1 (same ▸ htemp)
  · refine (Function.update_of_ne ?_ _ _).trans h₀.right
    intro same
    exact h₀.cells.2 (same ▸ htemp)

end

/-! ### The store of a value -/

section
variable {c : List (Frame Nat Int (Nat × Option V))} {a n value : Nat} {x : Int}
  {w : Option V} {l r : Tree Nat Int (Nat × Option V)}

theorem stored_good (h : Good tb m (plug c (.node a n x (value, w) l r))) (v : Option V) :
    Good tb { m with val := Function.update m.val value (some v) }
      (plug c (.node a n x (value, v) l r)) := by
  have keep : ∀ y : Nat × Int × Nat × Option V, y.2.2.1 ≠ value → ∀ l' r',
      node m y.1 y.2.1 y.2.2 l' r' →
      node { m with val := Function.update m.val value (some v) } y.1 y.2.1 y.2.2 l' r' :=
    fun y hne l' r' hn => ⟨hn.1, (Function.update_of_ne hne _ _).trans hn.2⟩
  have own := repr_plug h.repr
  have distinct := ((nodes_plug c _).map valueCell).nodup_iff.mp h.values
  rw [List.map_append, List.nodup_append] at distinct
  obtain ⟨hown, -, apart⟩ := distinct
  simp only [Tree.nodes, List.map_append, List.map_cons] at hown apart
  obtain ⟨-, hr, hlr⟩ := List.nodup_append.mp hown
  have inLeft : ∀ y ∈ l.nodes, y.2.2.1 ≠ value := fun y hy =>
    hlr _ (List.mem_map.mpr ⟨y, hy, rfl⟩) _ List.mem_cons_self
  have inRight : ∀ y ∈ r.nodes, y.2.2.1 ≠ value := fun y hy same =>
    (List.nodup_cons.mp hr).1 (List.mem_map.mpr ⟨y, hy, same⟩)
  have inContext : ∀ y ∈ nodesAround c, y.2.2.1 ≠ value := fun y hy same =>
    apart value (List.mem_append_right _ List.mem_cons_self) _
      (List.mem_map.mpr ⟨y, hy, rfl⟩) same.symm
  have hroot : (plug c (.node a n x (value, v) l r)).root =
      (plug c (.node a n x (value, w) l r)).root := root_plug rfl
  refine { repr := ?_, root := hroot.trans h.root, cells := ?_, pointers := ?_,
           values := ?_, ordered := ?_ }
  · refine repr_replace h.repr rfl ⟨own.1, ⟨own.2.1.1, Function.update_self _ _ _⟩, ?_, ?_⟩
      (fun _ _ _ hc => hc) (fun y hy l' r' hn => keep y (inContext y hy) l' r' hn)
    · exact repr_frame own.2.2.1 (fun _ _ _ hc => hc) fun y hy => keep y (inLeft y hy)
    · exact repr_frame own.2.2.2 (fun _ _ _ hc => hc) fun y hy => keep y (inRight y hy)
  · exact cells_replace h.cells
      (List.nodup_append.mp ((cells_plug c _).nodup_iff.mp h.cells)).1 fun _ ha => Or.inl ha
  · exact (map_nodes_same Prod.fst (by simp [Tree.nodes])).nodup_iff.mpr h.pointers
  · exact (map_nodes_same valueCell (by simp [Tree.nodes, valueCell])).nodup_iff.mpr h.values
  · obtain ⟨goes, ordered⟩ := ordered_plug h.ordered
    refine ordered_replace h.ordered ordered fun k hk => goes k ?_
    simpa using hk

theorem stored_keeps (v : Option V) :
    Keeps m { m with val := Function.update m.val value (some v) }
      (plug c (.node a n x (value, w) l r)) (plug c (.node a n x (value, v) l r)) where
  path := fun _ _ hp => onPath_replace hp fun _ ha => ha
  nodes := by
    intro n' k value' w' hn
    rcases mem_nodes_plug.mp hn with hn | hn
    · rcases List.mem_append.mp hn with hn | hn
      · exact ⟨w', mem_nodes_plug.mpr (Or.inl (List.mem_append_left _ hn))⟩
      · rcases List.mem_cons.mp hn with same | hn
        · cases same
          exact ⟨v, mem_nodes_plug.mpr (Or.inl (List.mem_append_right _ List.mem_cons_self))⟩
        · exact ⟨w', mem_nodes_plug.mpr (Or.inl (List.mem_append_right _
            (List.mem_cons_of_mem _ hn)))⟩
    · exact ⟨w', mem_nodes_plug.mpr (Or.inr hn)⟩
  stale := fun _ _ _ _ hne => hne
  cells := by
    intro y hy
    rw [mem_cells_plug] at hy ⊢
    exact hy
  installed := fun _ _ _ hq => hq

theorem private_stored {b : Block} {x₀ : Int} {v₀ : Option V} (v : Option V)
    (h₀ : Private m (plug c (.node a n x (value, w) l r)) x₀ v₀ b) :
    Private { m with val := Function.update m.val value (some v) }
      (plug c (.node a n x (value, v) l r)) x₀ v₀ b := by
  have inside : value ∈ values (plug c (.node a n x (value, w) l r)) :=
    List.mem_map.mpr ⟨(n, x, value, w), mem_nodes_plug.mpr (Or.inl
      (List.mem_append_right _ List.mem_cons_self)), rfl⟩
  have pointers : (Tree.pointers (plug c (.node a n x (value, v) l r))).Perm
      (Tree.pointers (plug c (.node a n x (value, w) l r))) :=
    map_nodes_same Prod.fst (by simp [Tree.nodes])
  have same : (values (plug c (.node a n x (value, v) l r))).Perm
      (values (plug c (.node a n x (value, w) l r))) :=
    map_nodes_same valueCell (by simp [Tree.nodes, valueCell])
  have cells : ∀ y, y ∈ (plug c (.node a n x (value, v) l r)).cells →
      y ∈ (plug c (.node a n x (value, w) l r)).cells := by
    intro y hy
    rw [mem_cells_plug] at hy ⊢
    exact hy
  refine { h₀ with value := ?_, node := fun hn => h₀.node (pointers.mem_iff.mp hn),
                   values := fun hc => h₀.values (same.mem_iff.mp hc),
                   cells := ⟨fun ha => h₀.cells.1 (cells _ ha), fun ha => h₀.cells.2 (cells _ ha)⟩ }
  refine (Function.update_of_ne ?_ _ _).trans h₀.value
  intro hv
  exact h₀.values (hv ▸ inside)

theorem stored_contents (h : Ordered (plug c (.node a n x (value, w) l r))) (v : Option V)
    (k : Int) :
    contents (plug c (.node a n x (value, v) l r)) k =
      Function.update (contents (plug c (.node a n x (value, w) l r))) x v k := by
  have hg : Goes x c := (ordered_plug h).1 x (mem_keys_node.mpr (Or.inr (Or.inl rfl)))
  by_cases same : k = x
  · subst same
    rw [Function.update_self, contents, find_plug hg]
    simp [SearchTree.find]
  · have around : SearchTree.find k (plug c (.node a n x (value, v) l r)) =
        SearchTree.find k (plug c (.node a n x (value, w) l r)) := by
      refine find_around fun _ => ?_
      simp only [SearchTree.find]
      rcases lt_or_gt_of_ne same with hlt | hgt
      · rw [if_pos hlt, if_pos hlt]
      · rw [if_neg (lt_asymm hgt), if_neg (lt_asymm hgt), if_pos hgt, if_pos hgt]
    rw [Function.update_of_ne same, contents, contents, around]

end

/-! ### One step -/

def status : Pc V → Status (MapOp Int V) (MapResult V)
  | .idle => .idle
  | .load x v _ _ => .pending (.insert x v)
  | .alloc x v _ _ => .pending (.insert x v)
  | .cas x v _ _ _ => .pending (.insert x v)
  | .release x v _ _ _ => .pending (.insert x v)
  | .store x v _ => .pending (.insert x v)
  | .inserted _ => .done .done
  | .find x _ => .pending (.lookup x)
  | .fetch x _ => .pending (.lookup x)
  | .found _ v => .done (.value v)

/-- What a step does to the map: nothing, the insert or the lookup of its thread. -/
inductive Effect (pc : Pc V) (t : Tree Nat Int (Nat × Option V)) :
    Pc V → Tree Nat Int (Nat × Option V) → Prop where
  | quiet {pc' : Pc V} : status pc' = status pc → Effect pc t pc' t
  | wrote {t' : Tree Nat Int (Nat × Option V)} (x : Int) (v : Option V) :
      status pc = .pending (.insert x v) →
      contents t' = Function.update (contents t) x v →
      (∀ n k value w, (n, k, value, w) ∈ t'.nodes →
        (∃ n', (n', k, value, w) ∈ t.nodes) ∨ (k = x ∧ w = v)) →
      Effect pc t (.inserted x) t'
  | read (x : Int) : status pc = .pending (.lookup x) → Effect pc t (.found x (contents t x)) t

/-- The parts of the invariant after a step of thread `u`. -/
theorem inv_update [DecidableEq T] {s : State T V} (h : Inv tb s t) (u : T) {pc' : Pc V}
    (good : Good tb m' t') (keeps : Keeps s.mem m' t t') (own : ThreadOk m' t' pc')
    (others : ∀ x v b, (∀ b₀, (s.pc u).block = some b₀ → b₀.Apart b) →
      Private s.mem t x v b → Private m' t' x v b)
    (block : ∀ b, pc'.block = some b → ∀ x v b₀, Private s.mem t x v b₀ →
      (∀ b₁, (s.pc u).block = some b₁ → b₁.Apart b₀) → b.Apart b₀) :
    Inv tb { mem := m', pc := Function.update s.pc u pc' } t' := by
  have held : ∀ w b, (s.pc w).block = some b → ∃ x v, Private s.mem t x v b := by
    intro w b hb
    have ok := h.threads w
    revert hb ok
    cases s.pc w with
    | cas x v temp ref b =>
      intro hb ok
      cases hb
      exact ⟨x, v, ok.2⟩
    | release x v temp ref b =>
      intro hb ok
      cases hb
      exact ⟨x, v, ok.2⟩
    | _ => intro hb; cases hb
  have mine : ∀ w b b₀, w ≠ u → pc'.block = some b → (s.pc w).block = some b₀ → b.Apart b₀ := by
    intro w b b₀ hne hb hb₀
    obtain ⟨x, v, hp⟩ := held w b₀ hb₀
    exact block b hb x v b₀ hp fun b₁ hb₁ => h.apart u w b₁ b₀ (Ne.symm hne) hb₁ hb₀
  refine ⟨good, fun w => ?_, fun w w' b b' hne hb hb' => ?_⟩
  · show ThreadOk m' t' (Function.update s.pc u pc' w)
    by_cases same : w = u
    · subst same
      rwa [Function.update_self]
    · rw [Function.update_of_ne same]
      refine threadOk_keeps keeps (h.threads w) fun x v b hb => others x v b fun b₀ hb₀ => ?_
      exact h.apart u w b₀ b (Ne.symm same) hb₀ hb
  · replace hb : (Function.update s.pc u pc' w).block = some b := hb
    replace hb' : (Function.update s.pc u pc' w').block = some b' := hb'
    by_cases same : w = u
    · subst same
      rw [Function.update_self] at hb
      rw [Function.update_of_ne (Ne.symm hne)] at hb'
      exact mine w' b b' (Ne.symm hne) hb hb'
    · rw [Function.update_of_ne same] at hb
      by_cases same' : w' = u
      · subst same'
        rw [Function.update_self] at hb'
        obtain ⟨hnode, hvalue, hll, hlr, hrl, hrr⟩ := mine w b' b same hb' hb
        exact ⟨hnode.symm, hvalue.symm, hll.symm, hrl.symm, hlr.symm, hrr.symm⟩
      · rw [Function.update_of_ne same'] at hb'
        exact h.apart w w' b b' hne hb hb'

theorem keeps_refl (m : Mem V) (t : Tree Nat Int (Nat × Option V)) : Keeps m m t t :=
  ⟨fun _ _ hp => hp, fun _ _ _ w hn => ⟨w, hn⟩, fun _ _ _ _ hne => hne, fun _ ha => ha,
    fun _ _ _ hq => hq⟩

/-- A step that writes nothing. -/
theorem inv_move [DecidableEq T] {s : State T V} (h : Inv tb s t) (u : T) {pc' : Pc V}
    (own : ThreadOk s.mem t pc')
    (block : ∀ b, pc'.block = some b → (s.pc u).block = some b) :
    Inv tb { s with pc := Function.update s.pc u pc' } t :=
  inv_update h u h.good (keeps_refl _ _) own (fun _ _ _ _ hp => hp)
    fun b hb _ _ _ _ apart => apart b (block b hb)

/-- A thread at a node in the way of its key goes on to the child on the way. -/
theorem path_down (h : Good tb m t) {x : Int} {a n : Nat} (hp : OnPath x t a)
    (full : m.ptr a = some (some n)) :
    ∃ p w, m.tree n = some p ∧ (n, p.key, p.value, w) ∈ t.nodes ∧
      (x < p.key → OnPath x t p.left) ∧ (p.key < x → OnPath x t p.right) := by
  obtain ⟨c, key, ⟨value, w⟩, l, r, rfl, hg, htree, -⟩ := path_node h.repr cell_unique hp full
  refine ⟨_, w, htree, ?_, fun hlt => ?_, fun hlt => ?_⟩
  · exact mem_nodes_plug.mpr (Or.inl (List.mem_append_right _ List.mem_cons_self))
  · exact onPath_plug hg (Or.inr (Or.inl ⟨hlt, onPath_root x l⟩))
  · exact onPath_plug hg (Or.inr (Or.inr ⟨hlt, onPath_root x r⟩))

theorem path_cell (h : Good tb m t) {x : Int} {a : Nat} (hp : OnPath x t a) :
    ∃ o, m.ptr a = some o ∧ ∀ q, o = some q → q ∈ t.pointers :=
  good_cell h (onPath_cells hp)

/-- Every step of a running thread has a value, keeps the invariant and has an effect of its own
operation only. -/
theorem exec_inv [DecidableEq T] {s : State T V} (h : Inv tb s t) (u : T) {new : Block}
    (fresh : Fresh s.mem new) (running : (s.pc u).Running) :
    ∃ m' pc' t', exec new s.mem (s.pc u) = some (m', pc') ∧
      Inv tb { mem := m', pc := Function.update s.pc u pc' } t' ∧ Keeps s.mem m' t t' ∧
      Effect (s.pc u) t pc' t' := by
  have ok := h.threads u
  have good := h.good
  cases hpc : s.pc u with
  | idle => rw [hpc] at running; exact running.elim
  | inserted x => rw [hpc] at running; exact running.elim
  | found x v => rw [hpc] at running; exact running.elim
  | load x v temp ref =>
    rw [hpc] at ok
    obtain ⟨o, ho, -⟩ := path_cell good ok.1
    cases o with
    | none =>
      refine ⟨s.mem, .alloc x v temp ref, t, ?_, inv_move h u ?_ (fun _ hb => by cases hb),
        keeps_refl _ _, .quiet rfl⟩
      · simp only [exec, ho, Option.bind_eq_bind, Option.bind_some]
      · refine ⟨ok.1, fun q hq => ⟨ok.2 q hq, ?_⟩⟩
        rw [ho]
        exact fun same => by cases same
    | some n =>
      obtain ⟨p, w, hn, hmem, left, right⟩ := path_down good ok.1 ho
      simp only [exec, ho, hn, Option.bind_eq_bind, Option.bind_some]
      by_cases hlt : x < p.key
      · rw [if_pos hlt]
        exact ⟨_, _, t, rfl, inv_move h u ⟨left hlt, ok.2⟩ (fun _ hb => by cases hb),
          keeps_refl _ _, .quiet rfl⟩
      · by_cases hgt : p.key < x
        · rw [if_neg hlt, if_pos hgt]
          exact ⟨_, _, t, rfl, inv_move h u ⟨right hgt, ok.2⟩ (fun _ hb => by cases hb),
            keeps_refl _ _, .quiet rfl⟩
        · rw [if_neg hlt, if_neg hgt]
          obtain rfl : x = p.key := by omega
          exact ⟨_, _, t, rfl, inv_move h u ⟨n, w, hmem⟩ (fun _ hb => by cases hb),
            keeps_refl _ _, .quiet rfl⟩
  | alloc x v temp ref =>
    rw [hpc] at ok
    have same := alloc_same good fresh ⟨x, new.value, new.left, new.right⟩ v
    refine ⟨_, _, t, rfl, inv_update h u (good_frame good same) (keeps_frame same) ?_ ?_ ?_,
      keeps_frame same, .quiet rfl⟩
    · refine ⟨⟨ok.1, fun q hq => ⟨(ok.2 q hq).1, ?_⟩⟩, private_new good fresh x v⟩
      exact (keeps_frame same).stale _ _ (onPath_cells ok.1) (ok.2 q hq).1 (ok.2 q hq).2
    · exact fun x₀ v₀ b _ hb => private_update hb (fresh_apart fresh hb) _ _ _ _
    · intro b hb x₀ v₀ b₀ hp _
      cases hb
      exact fresh_apart fresh hp
  | cas x v temp ref b =>
    rw [hpc] at ok
    obtain ⟨⟨hpath, stale⟩, hb⟩ := ok
    obtain ⟨o, ho, known⟩ := path_cell good hpath
    simp only [exec, ho, Option.bind_eq_bind, Option.bind_some]
    by_cases expected : o = ref
    · rw [if_pos expected]
      -- an expected node is another cell's
      have empty : o = none := by
        cases o with
        | none => rfl
        | some q => exact absurd ho (stale q expected.symm).2
      subst empty
      obtain ⟨c, rfl, hg⟩ := path_nil good.repr cell_unique hpath ho
      refine ⟨_, _, plug c (grown temp x v b), rfl,
        inv_update h u (grown_good good hg hb) (grown_keeps good hb) ?_ ?_
          (fun _ hb => by cases hb), grown_keeps good hb, .wrote x v rfl ?_ ?_⟩
      · exact mem_keys_plug.mpr (Or.inl (mem_keys_node.mpr (Or.inr (Or.inl rfl))))
      · exact fun x₀ v₀ b₀ apart h₀ => private_grown (apart b (by rw [hpc]; rfl)) h₀
      · exact funext fun k => grown_contents hg k
      · intro n k value w hn
        rcases mem_nodes_plug.mp hn with hn | hn
        · obtain same := List.mem_singleton.mp hn
          cases same
          exact Or.inr ⟨rfl, rfl⟩
        · exact Or.inl ⟨n, mem_nodes_plug.mpr (Or.inr hn)⟩
    · rw [if_neg expected]
      exact ⟨_, _, t, rfl, inv_move h u ⟨⟨hpath, known⟩, hb⟩ (fun _ hb => by rw [hpc]; exact hb),
        keeps_refl _ _, .quiet rfl⟩
  | release x v temp ref b =>
    rw [hpc] at ok
    have same := release_same ok.2
    refine ⟨_, _, t, rfl, inv_update h u (good_frame good same) (keeps_frame same) ok.1 ?_
      (fun _ hb => by cases hb), keeps_frame same, .quiet rfl⟩
    exact fun x₀ v₀ b₀ apart h₀ => private_update h₀ (apart b (by rw [hpc]; rfl)) _ _ _ _
  | store x v value =>
    rw [hpc] at ok
    obtain ⟨n, w, hn⟩ := ok
    obtain ⟨c, a, l, r, rfl⟩ := exists_plug_node hn
    have hval : s.mem.val value = some w := (repr_plug good.repr).2.1.2
    refine ⟨_, _, plug c (.node a n x (value, v) l r), ?_,
      inv_update h u (stored_good good v) (stored_keeps v) ?_
        (fun _ _ _ _ hp => private_stored v hp) (fun _ hb => by cases hb), stored_keeps v,
      .wrote x v rfl (funext fun k => stored_contents good.ordered v k) ?_⟩
    · simp only [exec, hval, Option.bind_eq_bind, Option.bind_some]
    · exact mem_keys_plug.mpr (Or.inl (mem_keys_node.mpr (Or.inr (Or.inl rfl))))
    · intro n' k value' w' hn'
      rcases mem_nodes_plug.mp hn' with hn' | hn'
      · rcases List.mem_append.mp hn' with hn' | hn'
        · exact Or.inl ⟨n', mem_nodes_plug.mpr (Or.inl (List.mem_append_left _ hn'))⟩
        · rcases List.mem_cons.mp hn' with same | hn'
          · cases same
            exact Or.inr ⟨rfl, rfl⟩
          · exact Or.inl ⟨n', mem_nodes_plug.mpr (Or.inl (List.mem_append_right _
              (List.mem_cons_of_mem _ hn')))⟩
      · exact Or.inl ⟨n', mem_nodes_plug.mpr (Or.inr hn')⟩
  | find x ap =>
    rw [hpc] at ok
    obtain ⟨o, ho, -⟩ := path_cell good ok
    cases o with
    | none =>
      simp only [exec, ho, Option.bind_eq_bind, Option.bind_some]
      have absent : contents t x = none := by
        obtain ⟨c, rfl, hg⟩ := path_nil good.repr cell_unique ok ho
        rw [contents, find_plug hg]
        rfl
      refine ⟨_, _, t, rfl, inv_move h u trivial (fun _ hb => by cases hb), keeps_refl _ _, ?_⟩
      exact absent ▸ .read x rfl
    | some n =>
      obtain ⟨p, w, hn, hmem, left, right⟩ := path_down good ok ho
      simp only [exec, ho, hn, Option.bind_eq_bind, Option.bind_some]
      by_cases hlt : x < p.key
      · rw [if_pos hlt]
        exact ⟨_, _, t, rfl, inv_move h u (left hlt) (fun _ hb => by cases hb),
          keeps_refl _ _, .quiet rfl⟩
      · by_cases hgt : p.key < x
        · rw [if_neg hlt, if_pos hgt]
          exact ⟨_, _, t, rfl, inv_move h u (right hgt) (fun _ hb => by cases hb),
            keeps_refl _ _, .quiet rfl⟩
        · rw [if_neg hlt, if_neg hgt]
          obtain rfl : x = p.key := by omega
          exact ⟨_, _, t, rfl, inv_move h u ⟨n, w, hmem⟩ (fun _ hb => by cases hb),
            keeps_refl _ _, .quiet rfl⟩
  | fetch x value =>
    rw [hpc] at ok
    obtain ⟨n, w, hn⟩ := ok
    obtain ⟨l, r, -, hval⟩ := repr_node good.repr hn
    have present : contents t x = w := by
      rw [contents, find_of_mem good.ordered hn]
      rfl
    refine ⟨s.mem, .found x (contents t x), t, ?_, inv_move h u trivial (fun _ hb => by cases hb),
      keeps_refl _ _, .read x rfl⟩
    rw [present]
    simp only [exec, hval, Option.bind_eq_bind, Option.bind_some]

/-! ### An insert at its compare-and-swap -/

/-- From the place where an insert stands it gets to its key. A compare-and-swap puts the new node
into an empty cell or fails; after a failure the insert loads the same cell again and goes on from
the node that stands there. -/
structure Proceeds (s : State T V) (t : Tree Nat Int (Nat × Option V)) (u : T) (new : Block) :
    Prop where
  load : ∀ x v temp ref, s.pc u = .load x v temp ref → OnPath x t temp ∧
    ∀ p, s.mem.ptr temp = some (some p) → ∃ tp, s.mem.tree p = some tp ∧ p ∈ t.pointers ∧
      exec new s.mem (s.pc u) = some (s.mem,
        if x < tp.key then .load x v tp.left ref
        else if tp.key < x then .load x v tp.right ref
        else .store x v tp.value)
  cas : ∀ x v temp ref b, s.pc u = .cas x v temp ref b → OnPath x t temp ∧
    ∃ o, s.mem.ptr temp = some o ∧ (o = ref → o = none) ∧
      (o ≠ ref → exec new s.mem (s.pc u) = some (s.mem, .release x v temp o b))
  release : ∀ x v temp ref b, s.pc u = .release x v temp ref b → OnPath x t temp ∧
    ∃ m, exec new s.mem (s.pc u) = some (m, .load x v temp ref) ∧ m.ptr temp = s.mem.ptr temp
  inserted : ∀ x, s.pc u = .inserted x → x ∈ t.keys

theorem inv_proceeds {s : State T V} (inv : Inv tb s t) (u : T) (new : Block) : Proceeds s t u new := by
  have ok := inv.threads u
  refine ⟨fun x v temp ref hpc => ?_, fun x v temp ref b hpc => ?_, fun x v temp ref b hpc => ?_,
    fun x hpc => ?_⟩
  · rw [hpc] at ok
    refine ⟨ok.1, fun p hp => ?_⟩
    obtain ⟨tp, w, htp, hmem, -⟩ := path_down inv.good ok.1 hp
    refine ⟨tp, htp, List.mem_map.mpr ⟨_, hmem, rfl⟩, ?_⟩
    rw [hpc]
    simp only [exec, hp, htp, Option.bind_eq_bind, Option.bind_some]
    split
    · rfl
    · split <;> rfl
  · rw [hpc] at ok
    obtain ⟨⟨hpath, stale⟩, -⟩ := ok
    obtain ⟨o, ho, -⟩ := path_cell inv.good hpath
    refine ⟨hpath, o, ho, fun same => ?_, fun hne => ?_⟩
    · cases o with
      | none => rfl
      | some q => exact absurd ho (stale q same.symm).2
    · rw [hpc]
      simp only [exec, ho, Option.bind_eq_bind, Option.bind_some, if_neg hne]
  · rw [hpc] at ok
    refine ⟨ok.1.1, _, by rw [hpc]; rfl, ?_⟩
    exact (release_same ok.2).ptr temp (onPath_cells ok.1.1)
  · rw [hpc] at ok
    exact ok

end DeepDB.Concurrency.Nblocking
