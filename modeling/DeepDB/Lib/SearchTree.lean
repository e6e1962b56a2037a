import Mathlib.Order.Defs.LinearOrder
import Mathlib.Data.List.Nodup
import Mathlib.Data.List.Perm.Basic
import Mathlib.Data.List.Pairwise
import Mathlib.Order.Lattice

/-!
Binary search trees in a memory. Every subtree stands in a cell; the cell is empty or points to the
node at the root of the subtree. `plug` puts a subtree into a context: what happens in one cell
leaves the context alone, and a search for a key that comes to the cell does so afterwards.
-/

namespace DeepDB.SearchTree

/-- A tree with the addresses of its cells and nodes. -/
inductive Tree (A K V : Type) where
  | nil (a : A)
  | node (a n : A) (key : K) (value : V) (l r : Tree A K V)

variable {A K V : Type}

namespace Tree

/-- The cell of the tree. -/
def root : Tree A K V → A
  | nil a => a
  | node a _ _ _ _ _ => a

def cells : Tree A K V → List A
  | nil a => [a]
  | node a _ _ _ l r => a :: (cells l ++ cells r)

/-- The nodes in the order of the keys. -/
def nodes : Tree A K V → List (A × K × V)
  | nil _ => []
  | node _ n key value l r => nodes l ++ (n, key, value) :: nodes r

def keys (t : Tree A K V) : List K := t.nodes.map fun x => x.2.1

def pointers (t : Tree A K V) : List A := t.nodes.map Prod.fst

end Tree

open SearchTree.Tree

/-- The same tree in another cell. -/
def moveTo (a : A) : Tree A K V → Tree A K V
  | .nil _ => .nil a
  | .node _ n key value l r => .node a n key value l r

@[simp] theorem root_moveTo (a : A) (t : Tree A K V) : (moveTo a t).root = a := by
  cases t <;> rfl

@[simp] theorem nodes_moveTo (a : A) (t : Tree A K V) : (moveTo a t).nodes = t.nodes := by
  cases t <;> rfl

@[simp] theorem keys_moveTo (a : A) (t : Tree A K V) : (moveTo a t).keys = t.keys := by
  cases t <;> rfl

theorem cells_eq (t : Tree A K V) : ∃ below, ∀ a, (moveTo a t).cells = a :: below := by
  cases t with
  | nil => exact ⟨[], fun _ => rfl⟩
  | node a n key value l r => exact ⟨l.cells ++ r.cells, fun _ => rfl⟩

@[simp] theorem moveTo_root (t : Tree A K V) : moveTo t.root t = t := by cases t <;> rfl

theorem root_mem_cells (t : Tree A K V) : t.root ∈ t.cells := by
  cases t <;> exact List.mem_cons_self

@[simp] theorem keys_nil (a : A) : (nil a : Tree A K V).keys = [] := rfl

@[simp] theorem mem_keys_node {a n : A} {key k : K} {value : V} {l r : Tree A K V} :
    k ∈ (node a n key value l r).keys ↔ k ∈ l.keys ∨ k = key ∨ k ∈ r.keys := by
  simp [keys, nodes]

/-! ### Contexts -/

/-- One node with a hole for a child. -/
inductive Frame (A K V : Type) where
  | left (a n : A) (key : K) (value : V) (r : Tree A K V)
  | right (a n : A) (key : K) (value : V) (l : Tree A K V)

def Frame.fill : Frame A K V → Tree A K V → Tree A K V
  | .left a n key value r, s => .node a n key value s r
  | .right a n key value l, s => .node a n key value l s

/-- The frames are stored innermost first. -/
def plug : List (Frame A K V) → Tree A K V → Tree A K V
  | [], s => s
  | f :: c, s => plug c (f.fill s)

def Frame.cells : Frame A K V → List A
  | .left a _ _ _ r => a :: r.cells
  | .right a _ _ _ l => a :: l.cells

def Frame.nodes : Frame A K V → List (A × K × V)
  | .left _ n key value r => (n, key, value) :: r.nodes
  | .right _ n key value l => (n, key, value) :: l.nodes

def Frame.other : Frame A K V → Tree A K V
  | .left _ _ _ _ r => r
  | .right _ _ _ _ l => l

/-- The cells of the context, without the hole. -/
def cellsAround (c : List (Frame A K V)) : List A := c.flatMap Frame.cells

def nodesAround (c : List (Frame A K V)) : List (A × K × V) := c.flatMap Frame.nodes

theorem cellsAround_cons (f : Frame A K V) (c : List (Frame A K V)) :
    cellsAround (f :: c) = f.cells ++ cellsAround c := rfl

theorem nodesAround_cons (f : Frame A K V) (c : List (Frame A K V)) :
    nodesAround (f :: c) = f.nodes ++ nodesAround c := rfl

theorem plug_append (c d : List (Frame A K V)) (s : Tree A K V) :
    plug (c ++ d) s = plug d (plug c s) := by
  induction c generalizing s with
  | nil => rfl
  | cons f c ih => exact ih (f.fill s)

theorem root_plug {c : List (Frame A K V)} {s s' : Tree A K V} (h : s'.root = s.root) :
    (plug c s').root = (plug c s).root := by
  induction c generalizing s s' with
  | nil => exact h
  | cons f c ih =>
    refine ih ?_
    cases f <;> rfl

theorem cells_plug (c : List (Frame A K V)) (s : Tree A K V) :
    (plug c s).cells.Perm (s.cells ++ cellsAround c) := by
  induction c generalizing s with
  | nil => simp [plug, cellsAround]
  | cons f c ih =>
    refine (ih (f.fill s)).trans ?_
    rw [cellsAround_cons, ← List.append_assoc]
    refine List.Perm.append_right _ ?_
    cases f with
    | left a n key value r => exact List.perm_middle.symm
    | right a n key value l =>
      have swap : (l.cells ++ s.cells).Perm (s.cells ++ l.cells) := List.perm_append_comm
      exact (swap.cons a).trans List.perm_middle.symm

theorem nodes_plug (c : List (Frame A K V)) (s : Tree A K V) :
    (plug c s).nodes.Perm (s.nodes ++ nodesAround c) := by
  induction c generalizing s with
  | nil => simp [plug, nodesAround]
  | cons f c ih =>
    refine (ih (f.fill s)).trans ?_
    rw [nodesAround_cons, ← List.append_assoc]
    refine List.Perm.append_right _ ?_
    cases f with
    | left a n key value r => exact List.Perm.refl _
    | right a n key value l =>
      have swap : (l.nodes ++ (n, key, value) :: s.nodes).Perm ((n, key, value) :: s.nodes ++ l.nodes) :=
        List.perm_append_comm
      exact swap.trans List.perm_middle.symm

theorem mem_cells_plug {c : List (Frame A K V)} {s : Tree A K V} {a : A} :
    a ∈ (plug c s).cells ↔ a ∈ s.cells ∨ a ∈ cellsAround c := by
  rw [(cells_plug c s).mem_iff, List.mem_append]

theorem mem_nodes_plug {c : List (Frame A K V)} {s : Tree A K V} {x : A × K × V} :
    x ∈ (plug c s).nodes ↔ x ∈ s.nodes ∨ x ∈ nodesAround c := by
  rw [(nodes_plug c s).mem_iff, List.mem_append]

theorem mem_pointers_plug {c : List (Frame A K V)} {s : Tree A K V} {n : A} :
    n ∈ (plug c s).pointers ↔ n ∈ s.pointers ∨ n ∈ (nodesAround c).map Prod.fst := by
  rw [pointers, ((nodes_plug c s).map _).mem_iff, List.map_append, List.mem_append, pointers]

theorem mem_keys_plug {c : List (Frame A K V)} {s : Tree A K V} {k : K} :
    k ∈ (plug c s).keys ↔ k ∈ s.keys ∨ k ∈ (nodesAround c).map fun x => x.2.1 := by
  rw [keys, ((nodes_plug c s).map _).mem_iff, List.map_append, List.mem_append, keys]

theorem length_plug (c : List (Frame A K V)) (s : Tree A K V) :
    c.length + s.nodes.length ≤ (plug c s).nodes.length := by
  rw [(nodes_plug c s).length_eq, List.length_append, Nat.add_comm]
  refine Nat.add_le_add_left ?_ _
  induction c with
  | nil => exact Nat.zero_le _
  | cons f c ih =>
    rw [nodesAround_cons, List.length_append, List.length_cons, Nat.add_comm]
    refine Nat.add_le_add ?_ ih
    cases f <;> exact Nat.succ_pos _

/-- A subtree that takes the place of another one brings its own cells. -/
theorem cells_replace {c : List (Frame A K V)} {s s' : Tree A K V} (h : (plug c s).cells.Nodup)
    (own : s'.cells.Nodup) (fresh : ∀ a ∈ s'.cells, a ∈ s.cells ∨ a ∉ (plug c s).cells) :
    (plug c s').cells.Nodup := by
  rw [(cells_plug c s').nodup_iff, List.nodup_append]
  obtain ⟨-, around, apart⟩ := List.nodup_append.mp ((cells_plug c s).nodup_iff.mp h)
  refine ⟨own, around, fun a ha b hb => ?_⟩
  rcases fresh a ha with hs | hnew
  · exact apart a hs b hb
  · rintro rfl
    exact hnew (mem_cells_plug.mpr (Or.inr hb))

theorem nodes_replace {B : Type} {c : List (Frame A K V)} {s s' : Tree A K V}
    (f : A × K × V → B) (h : ((plug c s).nodes.map f).Nodup) (own : (s'.nodes.map f).Nodup)
    (fresh : ∀ b ∈ s'.nodes.map f, b ∈ s.nodes.map f ∨ b ∉ (plug c s).nodes.map f) :
    ((plug c s').nodes.map f).Nodup := by
  have perm := fun s => (nodes_plug c s).map f
  rw [(perm s').nodup_iff, List.map_append, List.nodup_append]
  have old := (perm s).nodup_iff.mp h
  rw [List.map_append] at old
  obtain ⟨-, around, apart⟩ := List.nodup_append.mp old
  refine ⟨own, around, fun a ha b hb => ?_⟩
  rcases fresh a ha with hs | hnew
  · exact apart a hs b hb
  · rintro rfl
    refine hnew ((perm s).mem_iff.mpr ?_)
    rw [List.map_append]
    exact List.mem_append_right _ hb

theorem around_cells {c : List (Frame A K V)} {s : Tree A K V} (h : (plug c s).cells.Nodup)
    {a b : A} (ha : a ∈ s.cells) (hb : b ∈ cellsAround c) : a ≠ b :=
  (List.nodup_append.mp ((cells_plug c s).nodup_iff.mp h)).2.2 a ha b hb

theorem around_nodes {B : Type} {c : List (Frame A K V)} {s : Tree A K V} (f : A × K × V → B)
    (h : ((plug c s).nodes.map f).Nodup) {x y : A × K × V} (hx : x ∈ s.nodes)
    (hy : y ∈ nodesAround c) : f x ≠ f y := by
  have split := ((nodes_plug c s).map f).nodup_iff.mp h
  rw [List.map_append] at split
  exact (List.nodup_append.mp split).2.2 _ (List.mem_map_of_mem hx) _ (List.mem_map_of_mem hy)

theorem hole_cells {c : List (Frame A K V)} {s : Tree A K V} (h : (plug c s).cells.Nodup) :
    s.cells.Nodup :=
  (List.nodup_append.mp ((cells_plug c s).nodup_iff.mp h)).1

theorem hole_nodes {B : Type} {c : List (Frame A K V)} {s : Tree A K V} (f : A × K × V → B)
    (h : ((plug c s).nodes.map f).Nodup) : (s.nodes.map f).Nodup := by
  have split := ((nodes_plug c s).map f).nodup_iff.mp h
  rw [List.map_append] at split
  exact (List.nodup_append.mp split).1

/-- What a change in the hole leaves alone. -/
theorem map_nodes_same {B : Type} {c : List (Frame A K V)} {s s' : Tree A K V}
    (f : A × K × V → B) (same : s'.nodes.map f = s.nodes.map f) :
    ((plug c s').nodes.map f).Perm ((plug c s).nodes.map f) := by
  refine ((nodes_plug c s').map f).trans (((nodes_plug c s).map f).trans ?_).symm
  rw [List.map_append, List.map_append, same]

/-! ### The tree in memory -/

/-- `cell` says what a cell points to, `node` what a node holds. -/
def Repr (cell : A → Option A → Prop) (node : A → K → V → A → A → Prop) : Tree A K V → Prop
  | .nil a => cell a none
  | .node a n key value l r => cell a (some n) ∧ node n key value l.root r.root ∧
      Repr cell node l ∧ Repr cell node r

section
variable {cell cell' : A → Option A → Prop} {node node' : A → K → V → A → A → Prop}

theorem repr_frame {t : Tree A K V} (h : Repr cell node t)
    (cells : ∀ a ∈ t.cells, ∀ o, cell a o → cell' a o)
    (nodes : ∀ x ∈ t.nodes, ∀ l r, node x.1 x.2.1 x.2.2 l r → node' x.1 x.2.1 x.2.2 l r) :
    Repr cell' node' t := by
  induction t with
  | nil a => exact cells a List.mem_cons_self _ h
  | node a n key value l r ihl ihr =>
    refine ⟨cells a List.mem_cons_self _ h.1, nodes (n, key, value) ?_ _ _ h.2.1, ?_, ?_⟩
    · exact List.mem_append_right _ List.mem_cons_self
    · exact ihl h.2.2.1
        (fun a ha => cells a (List.mem_cons_of_mem _ (List.mem_append_left _ ha)))
        (fun x hx => nodes x (List.mem_append_left _ hx))
    · exact ihr h.2.2.2
        (fun a ha => cells a (List.mem_cons_of_mem _ (List.mem_append_right _ ha)))
        (fun x hx => nodes x (List.mem_append_right _ (List.mem_cons_of_mem _ hx)))

theorem repr_plug {c : List (Frame A K V)} {s : Tree A K V} (h : Repr cell node (plug c s)) :
    Repr cell node s := by
  induction c generalizing s with
  | nil => exact h
  | cons f c ih =>
    have hf := ih (s := f.fill s) h
    cases f with
    | left => exact hf.2.2.1
    | right => exact hf.2.2.2

/-- A new subtree in the same cell, in a memory that holds the context as before. -/
theorem repr_replace {c : List (Frame A K V)} {s s' : Tree A K V} (h : Repr cell node (plug c s))
    (hroot : s'.root = s.root) (own : Repr cell' node' s')
    (cells : ∀ a ∈ cellsAround c, ∀ o, cell a o → cell' a o)
    (nodes : ∀ x ∈ nodesAround c, ∀ l r, node x.1 x.2.1 x.2.2 l r → node' x.1 x.2.1 x.2.2 l r) :
    Repr cell' node' (plug c s') := by
  induction c generalizing s s' with
  | nil => exact own
  | cons f c ih =>
    have hf := repr_plug (c := c) (s := f.fill s) h
    refine ih (s := f.fill s) h (by cases f <;> rfl) ?_
      (fun a ha => cells a (List.mem_append_right _ ha))
      (fun x hx => nodes x (List.mem_append_right _ hx))
    have cells' : ∀ a ∈ f.cells, ∀ o, cell a o → cell' a o :=
      fun a ha => cells a (List.mem_append_left _ ha)
    have nodes' : ∀ x ∈ f.nodes, ∀ l r, node x.1 x.2.1 x.2.2 l r → node' x.1 x.2.1 x.2.2 l r :=
      fun x hx => nodes x (List.mem_append_left _ hx)
    cases f with
    | left a n key value r =>
      obtain ⟨hcell, hnode, -, hother⟩ := hf
      refine ⟨cells' a List.mem_cons_self _ hcell, ?_, own, ?_⟩
      · rw [hroot]
        exact nodes' (n, key, value) List.mem_cons_self _ _ hnode
      · exact repr_frame hother (fun a ha => cells' a (List.mem_cons_of_mem _ ha))
          (fun x hx => nodes' x (List.mem_cons_of_mem _ hx))
    | right a n key value l =>
      obtain ⟨hcell, hnode, hother, -⟩ := hf
      refine ⟨cells' a List.mem_cons_self _ hcell, ?_, ?_, own⟩
      · rw [hroot]
        exact nodes' (n, key, value) List.mem_cons_self _ _ hnode
      · exact repr_frame hother (fun a ha => cells' a (List.mem_cons_of_mem _ ha))
          (fun x hx => nodes' x (List.mem_cons_of_mem _ hx))

end

/-- What is in memory determines the tree. -/
theorem repr_unique {cell : A → Option A → Prop} {node : A → K → V → A → A → Prop}
    (hcell : ∀ a o o', cell a o → cell a o' → o = o')
    (hnode : ∀ n k v l r k' v' l' r', node n k v l r → node n k' v' l' r' →
      k = k' ∧ v = v' ∧ l = l' ∧ r = r')
    {t t' : Tree A K V} (h : Repr cell node t) (h' : Repr cell node t') (hroot : t.root = t'.root) :
    t = t' := by
  induction t generalizing t' with
  | nil a =>
    cases t' with
    | nil => exact congrArg _ hroot
    | node =>
      obtain rfl : a = _ := hroot
      cases hcell _ _ _ h h'.1
  | node a n key value l r ihl ihr =>
    cases t' with
    | nil =>
      obtain rfl : a = _ := hroot
      cases hcell _ _ _ h.1 h'
    | node =>
      obtain rfl : a = _ := hroot
      cases hcell _ _ _ h.1 h'.1
      obtain ⟨rfl, rfl, hl, hr⟩ := hnode _ _ _ _ _ _ _ _ _ h.2.1 h'.2.1
      rw [ihl h.2.2.1 h'.2.2.1 hl, ihr h.2.2.2 h'.2.2.2 hr]

theorem exists_plug_cell {t : Tree A K V} {a : A} (ha : a ∈ t.cells) :
    ∃ c s, t = plug c s ∧ s.root = a := by
  induction t with
  | nil b =>
    obtain rfl := List.mem_singleton.mp ha
    exact ⟨[], nil a, rfl, rfl⟩
  | node b n key value l r ihl ihr =>
    rcases List.mem_cons.mp ha with rfl | ha
    · exact ⟨[], node a n key value l r, rfl, rfl⟩
    · rcases List.mem_append.mp ha with ha | ha
      · obtain ⟨c, s, rfl, hs⟩ := ihl ha
        exact ⟨c ++ [.left b n key value r], s, by rw [plug_append]; rfl, hs⟩
      · obtain ⟨c, s, rfl, hs⟩ := ihr ha
        exact ⟨c ++ [.right b n key value l], s, by rw [plug_append]; rfl, hs⟩

/-- The cells that are not empty, with what they point to. -/
def slots : Tree A K V → List (A × A)
  | .nil _ => []
  | .node a n _ _ l r => slots l ++ (a, n) :: slots r

theorem map_slots (t : Tree A K V) : (slots t).map Prod.snd = t.pointers := by
  induction t with
  | nil => rfl
  | node a n key value l r ihl ihr =>
    simp only [slots, pointers, nodes, List.map_append, List.map_cons, ihl, ihr]

theorem mem_slots {cell : A → Option A → Prop} {node : A → K → V → A → A → Prop}
    (hcell : ∀ a o o', cell a o → cell a o' → o = o') {t : Tree A K V} (h : Repr cell node t)
    {a n : A} (ha : a ∈ t.cells) (full : cell a (some n)) : (a, n) ∈ slots t := by
  induction t with
  | nil b =>
    obtain rfl := List.mem_singleton.mp ha
    cases hcell _ _ _ h full
  | node b n' key value l r ihl ihr =>
    rcases List.mem_cons.mp ha with rfl | ha
    · obtain rfl := Option.some.inj (hcell _ _ _ h.1 full)
      exact List.mem_append_right _ List.mem_cons_self
    · rcases List.mem_append.mp ha with ha | ha
      · exact List.mem_append_left _ (ihl h.2.2.1 ha)
      · exact List.mem_append_right _ (List.mem_cons_of_mem _ (ihr h.2.2.2 ha))

/-- A node stands in one cell. -/
theorem cell_of_pointer {cell : A → Option A → Prop} {node : A → K → V → A → A → Prop}
    (hcell : ∀ a o o', cell a o → cell a o' → o = o') {t : Tree A K V} (h : Repr cell node t)
    (distinct : t.pointers.Nodup) {a b n : A} (ha : a ∈ t.cells) (hb : b ∈ t.cells)
    (fulla : cell a (some n)) (fullb : cell b (some n)) : a = b := by
  rw [← map_slots] at distinct
  exact congrArg Prod.fst (List.inj_on_of_nodup_map distinct (mem_slots hcell h ha fulla)
    (mem_slots hcell h hb fullb) rfl)

theorem exists_plug_node {t : Tree A K V} {n : A} {key : K} {value : V}
    (hn : (n, key, value) ∈ t.nodes) : ∃ c a l r, t = plug c (node a n key value l r) := by
  induction t with
  | nil => cases hn
  | node b n' key' value' l r ihl ihr =>
    rcases List.mem_append.mp hn with hn | hn
    · obtain ⟨c, a, l', r', rfl⟩ := ihl hn
      exact ⟨c ++ [.left b n' key' value' r], a, l', r', by rw [plug_append]; rfl⟩
    · rcases List.mem_cons.mp hn with same | hn
      · cases same
        exact ⟨[], b, l, r, rfl⟩
      · obtain ⟨c, a, l', r', rfl⟩ := ihr hn
        exact ⟨c ++ [.right b n' key' value' l], a, l', r', by rw [plug_append]; rfl⟩

/-! ### Order -/

variable [LinearOrder K]

def Ordered : Tree A K V → Prop
  | .nil _ => True
  | .node _ _ key _ l r =>
    (∀ k ∈ l.keys, k < key) ∧ (∀ k ∈ r.keys, key < k) ∧ Ordered l ∧ Ordered r

/-- The keys of an ordered tree are distinct and in ascending order. -/
theorem keys_sorted {t : Tree A K V} (h : Ordered t) : t.keys.Pairwise (· < ·) := by
  induction t with
  | nil a => exact List.Pairwise.nil
  | node a n key value l r ihl ihr =>
    obtain ⟨below, above, hl, hr⟩ := h
    have split : (node a n key value l r).keys = l.keys ++ key :: r.keys := by
      simp [keys, nodes]
    rw [split, List.pairwise_append]
    refine ⟨ihl hl, List.pairwise_cons.mpr ⟨above, ihr hr⟩, fun x hx y hy => ?_⟩
    rcases List.mem_cons.mp hy with rfl | hy
    · exact below x hx
    · exact lt_trans (below x hx) (above y hy)

@[simp] theorem ordered_moveTo {a : A} {t : Tree A K V} : Ordered (moveTo a t) ↔ Ordered t := by
  cases t <;> exact Iff.rfl

/-- The search for `k` goes on into the hole. -/
def Frame.Goes (k : K) : Frame A K V → Prop
  | .left _ _ key _ _ => k < key
  | .right _ _ key _ _ => key < k

def Goes (k : K) (c : List (Frame A K V)) : Prop := ∀ f ∈ c, f.Goes k

theorem goes_cons {k : K} {f : Frame A K V} {c : List (Frame A K V)} :
    Goes k (f :: c) ↔ f.Goes k ∧ Goes k c := List.forall_mem_cons

/-- The keys in the hole are those that a search leads to. -/
theorem ordered_plug {c : List (Frame A K V)} {s : Tree A K V} (h : Ordered (plug c s)) :
    (∀ k ∈ s.keys, Goes k c) ∧ Ordered s := by
  induction c generalizing s with
  | nil => exact ⟨fun _ _ _ hf => absurd hf List.not_mem_nil, h⟩
  | cons f c ih =>
    obtain ⟨keys, hf⟩ := ih (s := f.fill s) h
    cases f with
    | left a n key value r =>
      exact ⟨fun k hk => goes_cons.mpr ⟨hf.1 k hk, keys k (mem_keys_node.mpr (Or.inl hk))⟩,
        hf.2.2.1⟩
    | right a n key value l =>
      exact ⟨fun k hk =>
        goes_cons.mpr ⟨hf.2.1 k hk, keys k (mem_keys_node.mpr (Or.inr (Or.inr hk)))⟩, hf.2.2.2⟩

theorem ordered_replace {c : List (Frame A K V)} {s s' : Tree A K V} (h : Ordered (plug c s))
    (own : Ordered s') (keys : ∀ k ∈ s'.keys, Goes k c) : Ordered (plug c s') := by
  induction c generalizing s s' with
  | nil => exact own
  | cons f c ih =>
    obtain ⟨goes, hf⟩ := ordered_plug (c := c) (s := f.fill s) h
    have here := fun k hk => (goes_cons.mp (keys k hk)).1
    have there := fun k hk => (goes_cons.mp (keys k hk)).2
    refine ih (s := f.fill s) h ?_ ?_
    · cases f with
      | left a n key value r => exact ⟨here, hf.2.1, own, hf.2.2.2⟩
      | right a n key value l => exact ⟨hf.1, here, hf.2.2.1, own⟩
    · intro k hk
      cases f with
      | left a n key value r =>
        rcases mem_keys_node.mp hk with hk | hk
        · exact there k hk
        · exact goes k (mem_keys_node.mpr (Or.inr hk))
      | right a n key value l =>
        rcases mem_keys_node.mp hk with hk | rfl | hk
        · exact goes k (mem_keys_node.mpr (Or.inl hk))
        · exact goes k (mem_keys_node.mpr (Or.inr (Or.inl rfl)))
        · exact there k hk

/-! ### Search -/

def find (k : K) : Tree A K V → Option V
  | .nil _ => none
  | .node _ _ key value l r =>
    if k < key then find k l else if key < k then find k r else some value

/-- The search for `k` comes to the cell `b`. -/
def OnPath (k : K) : Tree A K V → A → Prop
  | .nil a, b => b = a
  | .node a _ key _ l r, b =>
    b = a ∨ (k < key ∧ OnPath k l b) ∨ (key < k ∧ OnPath k r b)

variable {k : K} {a b : A} {s s' t : Tree A K V} {c : List (Frame A K V)}

theorem onPath_root (k : K) (t : Tree A K V) : OnPath k t t.root := by
  cases t with
  | nil => rfl
  | node => exact Or.inl rfl

theorem onPath_cells (h : OnPath k t b) : b ∈ t.cells := by
  induction t with
  | nil a =>
    obtain rfl := h
    exact List.mem_cons_self
  | node a n key value l r ihl ihr =>
    rcases h with rfl | ⟨-, h⟩ | ⟨-, h⟩
    · exact List.mem_cons_self
    · exact List.mem_cons_of_mem _ (List.mem_append_left _ (ihl h))
    · exact List.mem_cons_of_mem _ (List.mem_append_right _ (ihr h))

theorem onPath_moveTo (h : OnPath k t b) (below : b ≠ t.root) : OnPath k (moveTo a t) b := by
  cases t with
  | nil c => exact absurd h below
  | node c n key value l r => exact Or.inr (h.resolve_left below)

@[simp] theorem find_moveTo : find k (moveTo a t) = find k t := by
  cases t <;> rfl

theorem find_mem {v : V} (h : find k t = some v) : ∃ n, (n, k, v) ∈ t.nodes := by
  induction t with
  | nil => cases h
  | node a n key value l r ihl ihr =>
    rw [find] at h
    split at h
    · obtain ⟨n', hn⟩ := ihl h
      exact ⟨n', List.mem_append_left _ hn⟩
    · split at h
      · obtain ⟨n', hn⟩ := ihr h
        exact ⟨n', List.mem_append_right _ (List.mem_cons_of_mem _ hn)⟩
      · rename_i hle hge
        obtain rfl := le_antisymm (not_lt.mp hge) (not_lt.mp hle)
        cases h
        exact ⟨n, List.mem_append_right _ List.mem_cons_self⟩

theorem find_of_mem (h : Ordered t) {n : A} {v : V} (hk : (n, k, v) ∈ t.nodes) :
    find k t = some v := by
  induction t with
  | nil => cases hk
  | node a n' key value l r ihl ihr =>
    obtain ⟨below, above, hl, hr⟩ := h
    rw [find]
    rcases List.mem_append.mp hk with hk | hk
    · rw [if_pos (below k (List.mem_map.mpr ⟨_, hk, rfl⟩))]
      exact ihl hl hk
    · rcases List.mem_cons.mp hk with same | hk
      · cases same
        rw [if_neg (lt_irrefl k), if_neg (lt_irrefl k)]
      · have hgt := above k (List.mem_map.mpr ⟨_, hk, rfl⟩)
        rw [if_neg (lt_asymm hgt), if_pos hgt]
        exact ihr hr hk

theorem mem_keys_of_find {v : V} (h : find k t = some v) : k ∈ t.keys := by
  obtain ⟨n, hn⟩ := find_mem h
  exact List.mem_map.mpr ⟨_, hn, rfl⟩

theorem find_plug (hg : Goes k c) : find k (plug c s) = find k s := by
  induction c generalizing s with
  | nil => rfl
  | cons f c ih =>
    obtain ⟨hf, hc⟩ := goes_cons.mp hg
    refine (ih (s := f.fill s) hc).trans ?_
    cases f with
    | left a n key value r => exact if_pos hf
    | right a n key value l => exact (if_neg (lt_asymm hf)).trans (if_pos hf)

/-- A search that does not come to the hole does not see it. -/
theorem find_around (same : Goes k c → find k s' = find k s) :
    find k (plug c s') = find k (plug c s) := by
  induction c generalizing s s' with
  | nil => exact same fun _ hf => absurd hf List.not_mem_nil
  | cons f c ih =>
    refine ih (s := f.fill s) fun hc => ?_
    by_cases hf : f.Goes k
    · rw [← find_plug (c := [f]) (goes_cons.mpr ⟨hf, fun _ h => absurd h List.not_mem_nil⟩),
        ← find_plug (c := [f]) (s := s) (goes_cons.mpr ⟨hf, fun _ h => absurd h List.not_mem_nil⟩)]
        at same
      exact same (goes_cons.mpr ⟨hf, hc⟩)
    · cases f with
      | left a n key value r => exact (if_neg hf).trans (if_neg hf).symm
      | right a n key value l =>
        have hge : ¬ key < k := hf
        simp only [Frame.fill, find]
        rw [if_neg hge, if_neg hge]

theorem onPath_plug (hg : Goes k c) (h : OnPath k s b) : OnPath k (plug c s) b := by
  induction c generalizing s with
  | nil => exact h
  | cons f c ih =>
    obtain ⟨hf, hc⟩ := goes_cons.mp hg
    refine ih (s := f.fill s) hc ?_
    cases f with
    | left => exact Or.inr (Or.inl ⟨hf, h⟩)
    | right => exact Or.inr (Or.inr ⟨hf, h⟩)

/-- What a change in the hole does to the cells on the way of a search. -/
theorem onPath_replace (h : OnPath k (plug c s) b)
    (own : Goes k c → OnPath k s b → OnPath k s' b) : OnPath k (plug c s') b := by
  induction c generalizing s s' with
  | nil => exact own (fun _ hf => absurd hf List.not_mem_nil) h
  | cons f c ih =>
    refine ih (s := f.fill s) h fun hc hf => ?_
    cases f with
    | left a n key value r =>
      rcases hf with rfl | ⟨hlt, hs⟩ | hr
      · exact Or.inl rfl
      · exact Or.inr (Or.inl ⟨hlt, own (goes_cons.mpr ⟨hlt, hc⟩) hs⟩)
      · exact Or.inr (Or.inr hr)
    | right a n key value l =>
      rcases hf with rfl | hl | ⟨hlt, hs⟩
      · exact Or.inl rfl
      · exact Or.inr (Or.inl hl)
      · exact Or.inr (Or.inr ⟨hlt, own (goes_cons.mpr ⟨hlt, hc⟩) hs⟩)

theorem exists_plug (h : OnPath k t b) : ∃ c s, t = plug c s ∧ s.root = b ∧ Goes k c := by
  induction t with
  | nil a =>
    obtain rfl := h
    exact ⟨[], nil b, rfl, rfl, fun _ hf => absurd hf List.not_mem_nil⟩
  | node a n key value l r ihl ihr =>
    rcases h with rfl | ⟨hlt, h⟩ | ⟨hlt, h⟩
    · exact ⟨[], node b n key value l r, rfl, rfl, fun _ hf => absurd hf List.not_mem_nil⟩
    · obtain ⟨c, s, rfl, hs, hg⟩ := ihl h
      refine ⟨c ++ [.left a n key value r], s, by rw [plug_append]; rfl, hs, fun f hf => ?_⟩
      rcases List.mem_append.mp hf with hf | hf
      · exact hg f hf
      · obtain rfl := List.mem_singleton.mp hf
        exact hlt
    · obtain ⟨c, s, rfl, hs, hg⟩ := ihr h
      refine ⟨c ++ [.right a n key value l], s, by rw [plug_append]; rfl, hs, fun f hf => ?_⟩
      rcases List.mem_append.mp hf with hf | hf
      · exact hg f hf
      · obtain rfl := List.mem_singleton.mp hf
        exact hlt

section
variable {cell : A → Option A → Prop} {node : A → K → V → A → A → Prop}

/-- A search that has come to an empty cell has come to the end. -/
theorem path_nil (h : Repr cell node t) (hcell : ∀ a o o', cell a o → cell a o' → o = o')
    (hp : OnPath k t b) (empty : cell b none) : ∃ c, t = plug c (.nil b) ∧ Goes k c := by
  obtain ⟨c, s, rfl, rfl, hg⟩ := exists_plug hp
  cases s with
  | nil a => exact ⟨c, rfl, hg⟩
  | node a n key value l r => cases hcell _ _ _ (repr_plug h).1 empty

/-- A search comes to one empty cell. -/
theorem path_unique (h : Repr cell node t) (hcell : ∀ a o o', cell a o → cell a o' → o = o')
    (hp : OnPath k t a) (hq : OnPath k t b) (empty : cell a none) (empty' : cell b none) : a = b := by
  induction t with
  | nil c => exact hp.trans hq.symm
  | node c n key value l r ihl ihr =>
    obtain ⟨full, -, hl, hr⟩ := h
    have inside : ∀ {d : A}, cell d none → d ≠ c := by
      rintro d hd rfl
      cases hcell _ _ _ full hd
    rcases hp.resolve_left (inside empty) with ⟨less, hp⟩ | ⟨more, hp⟩
    · rcases hq.resolve_left (inside empty') with ⟨-, hq⟩ | ⟨more, -⟩
      · exact ihl hl hp hq
      · exact absurd less (lt_asymm more)
    · rcases hq.resolve_left (inside empty') with ⟨less, -⟩ | ⟨-, hq⟩
      · exact absurd less (lt_asymm more)
      · exact ihr hr hp hq

/-- A search that has come to a node. -/
theorem path_node (h : Repr cell node t) (hcell : ∀ a o o', cell a o → cell a o' → o = o')
    (hp : OnPath k t b) {n : A} (full : cell b (some n)) :
    ∃ c key value l r, t = plug c (.node b n key value l r) ∧ Goes k c ∧
      node n key value l.root r.root := by
  obtain ⟨c, s, rfl, rfl, hg⟩ := exists_plug hp
  cases s with
  | nil a => cases hcell _ _ _ (repr_plug h) full
  | node a n' key value l r =>
    cases hcell _ _ _ (repr_plug h).1 full
    exact ⟨c, key, value, l, r, rfl, hg, (repr_plug h).2.1⟩

end

/-- A search ends at an empty cell or at its key. -/
theorem exists_end (k : K) (t : Tree A K V) : (∃ c a, t = plug c (.nil a) ∧ Goes k c) ∨
    ∃ c a n value l r, t = plug c (.node a n k value l r) ∧ Goes k c := by
  induction t with
  | nil a => exact .inl ⟨[], a, rfl, fun _ hf => absurd hf List.not_mem_nil⟩
  | node a n key value l r ihl ihr =>
    rcases lt_trichotomy k key with less | rfl | more
    · have goes : ∀ {c : List (Frame A K V)}, Goes k c → Goes k (c ++ [.left a n key value r]) :=
        fun hc f hf => (List.mem_append.mp hf).elim (hc f) fun h => List.mem_singleton.mp h ▸ less
      rcases ihl with ⟨c, b, rfl, hc⟩ | ⟨c, b, n', v, l', r', rfl, hc⟩
      · exact .inl ⟨_, b, by rw [plug_append]; rfl, goes hc⟩
      · exact .inr ⟨_, b, n', v, l', r', by rw [plug_append]; rfl, goes hc⟩
    · exact .inr ⟨[], a, n, value, l, r, rfl, fun _ hf => absurd hf List.not_mem_nil⟩
    · have goes : ∀ {c : List (Frame A K V)}, Goes k c → Goes k (c ++ [.right a n key value l]) :=
        fun hc f hf => (List.mem_append.mp hf).elim (hc f) fun h => List.mem_singleton.mp h ▸ more
      rcases ihr with ⟨c, b, rfl, hc⟩ | ⟨c, b, n', v, l', r', rfl, hc⟩
      · exact .inl ⟨_, b, by rw [plug_append]; rfl, goes hc⟩
      · exact .inr ⟨_, b, n', v, l', r', by rw [plug_append]; rfl, goes hc⟩

/-! ### Contents -/

def entries (t : Tree A K V) : List (K × V) := t.nodes.map Prod.snd

omit [LinearOrder K] in
@[simp] theorem entries_moveTo (a : A) (t : Tree A K V) : entries (moveTo a t) = entries t := by
  cases t <;> rfl

omit [LinearOrder K] in
theorem entries_plug (c : List (Frame A K V)) (s : Tree A K V) :
    (entries (plug c s)).Perm (entries s ++ (nodesAround c).map Prod.snd) := by
  have perm := (nodes_plug c s).map Prod.snd
  rwa [List.map_append] at perm

omit [LinearOrder K] in
/-- A subtree that has an entry more. -/
theorem entries_more {c : List (Frame A K V)} {s s' : Tree A K V} {x : K × V}
    (more : (entries s').Perm (x :: entries s)) :
    (entries (plug c s')).Perm (x :: entries (plug c s)) :=
  (entries_plug c s').trans ((more.append_right _).trans ((entries_plug c s).symm.cons x))

omit [LinearOrder K] in
theorem entries_node (a n : A) (key : K) (value : V) (l r : Tree A K V) :
    entries (node a n key value l r) = entries l ++ (key, value) :: entries r := by
  simp [entries, nodes]

theorem find_eq_some_iff (h : Ordered t) {v : V} : find k t = some v ↔ (k, v) ∈ entries t := by
  constructor
  · intro found
    obtain ⟨n, hn⟩ := find_mem found
    exact List.mem_map.mpr ⟨_, hn, rfl⟩
  · intro member
    obtain ⟨⟨n, k', v'⟩, hn, same⟩ := List.mem_map.mp member
    cases same
    exact find_of_mem h hn

/-- One tree has an entry more than another. -/
theorem find_more {t' : Tree A K V} {key : K} {value : V} (h : Ordered t) (h' : Ordered t')
    (more : (entries t').Perm ((key, value) :: entries t)) :
    find key t = none ∧ ∀ k, find k t' = if k = key then some value else find k t := by
  have distinct : ((entries t').map Prod.fst).Nodup := by
    have sorted := keys_sorted h'
    rw [keys] at sorted
    rw [entries, List.map_map]
    exact sorted.imp fun h => ne_of_lt h
  have apart := ((more.map Prod.fst).nodup_iff.mp distinct)
  rw [List.map_cons, List.nodup_cons] at apart
  have absent : find key t = none := by
    cases found : find key t with
    | none => rfl
    | some v => exact absurd (List.mem_map_of_mem ((find_eq_some_iff h).mp found)) apart.1
  refine ⟨absent, fun k => ?_⟩
  by_cases same : k = key
  · subst same
    rw [if_pos rfl]
    exact (find_eq_some_iff h').mpr (more.mem_iff.mpr List.mem_cons_self)
  · rw [if_neg same]
    refine Option.ext fun v => ?_
    rw [find_eq_some_iff h', find_eq_some_iff h, more.mem_iff, List.mem_cons]
    refine or_iff_right fun eq => same (congrArg Prod.fst eq)

/-! ### The least node of a subtree -/

def Lefts (c : List (Frame A K V)) : Prop := ∀ f ∈ c, ∃ a n key value r, f = .left a n key value r

theorem goes_of_lefts (lefts : Lefts c) (below : ∀ x ∈ (plug c s).keys, k < x) : Goes k c := by
  induction c generalizing s with
  | nil => exact fun _ hf => absurd hf List.not_mem_nil
  | cons f c ih =>
    refine goes_cons.mpr ⟨?_, ih (s := f.fill s) (fun g hg => lefts g (List.mem_cons_of_mem _ hg)) below⟩
    obtain ⟨a, n, key, value, r, rfl⟩ := lefts f List.mem_cons_self
    refine below key (mem_keys_plug.mpr (.inr ?_))
    exact List.mem_map.mpr ⟨(n, key, value), List.mem_cons_self, rfl⟩

/-- What is in the hole of a leftmost path is below all around. -/
theorem lefts_around (lefts : Lefts c) (ordered : Ordered (plug c s)) (goes : Goes k c) :
    ∀ x ∈ (nodesAround c).map fun x => x.2.1, k < x := by
  induction c generalizing s with
  | nil => exact fun _ h => absurd h List.not_mem_nil
  | cons f c ih =>
    obtain ⟨here, there⟩ := goes_cons.mp goes
    intro x hx
    rw [nodesAround_cons, List.map_append] at hx
    rcases List.mem_append.mp hx with own | rest
    · obtain ⟨-, inside⟩ := ordered_plug (s := f.fill s) ordered
      obtain ⟨a, n, key, value, r, rfl⟩ := lefts f List.mem_cons_self
      rcases List.mem_cons.mp own with rfl | own
      · exact here
      · exact lt_trans here (inside.2.1 x own)
    · exact ih (s := f.fill s) (fun g hg => lefts g (List.mem_cons_of_mem _ hg)) ordered there x rest

/-- A node takes the key of the least node of its right subtree, which is a leaf and goes. -/
theorem ordered_least {a n b n' e e' : A} {key key' : K} {value value' : V} {l : Tree A K V}
    {d : List (Frame A K V)} (lefts : Lefts d) (ordered : Ordered (plug c (.node a n key value l
      (plug d (.node b n' key' value' (.nil e) (.nil e')))))) :
    Ordered (plug c (.node a n key' value' l (plug d (.nil b)))) := by
  obtain ⟨goes, below, above, hl, hr⟩ := ordered_plug ordered
  obtain ⟨inner, -⟩ := ordered_plug hr
  have self : key' ∈ (node b n' key' value' (nil e) (nil e')).keys := mem_keys_node.mpr (.inr (.inl rfl))
  have least := above key' (mem_keys_plug.mpr (.inl self))
  have fewer : ∀ x ∈ (plug d (nil b : Tree A K V)).keys,
      x ∈ (nodesAround d).map fun x => x.2.1 := fun x hx =>
    (mem_keys_plug.mp hx).resolve_left List.not_mem_nil
  refine ordered_replace ordered ⟨fun x hx => lt_trans (below x hx) least, fun x hx => ?_, hl, ?_⟩ ?_
  · exact lefts_around lefts hr (inner key' self) x (fewer x hx)
  · exact ordered_replace hr trivial fun x hx => absurd hx List.not_mem_nil
  · intro x hx
    refine goes x (mem_keys_node.mpr ?_)
    rcases mem_keys_node.mp hx with hx | rfl | hx
    · exact .inl hx
    · exact .inr (.inr (mem_keys_plug.mpr (.inl self)))
    · exact .inr (.inr (mem_keys_plug.mpr (.inr (fewer x hx))))

end DeepDB.SearchTree
