import DeepDB.Concurrency.Nblocking
import DeepDB.Lib.SearchTree
import Mathlib.Order.Lattice
import Mathlib.Algebra.Order.Ring.Int

/-!
What holds between the steps of the lock-free tree. The memory holds a search tree; an insert or
lookup stands at a cell on the way of a search for its key; a node that waits for its
compare-and-swap belongs to one thread alone. The expected value of a compare-and-swap is NULL or,
after a failure, a node of the tree that stands in another cell.
-/

namespace DeepDB.Concurrency.Nblocking
open Linearizability SearchTree

variable {T V : Type} {tb : Nat} {m m' : Mem V} {b : Block}

/-! ### The tree -/

def cell (m : Mem V) (a : Nat) (o : Option Nat) : Prop := m.ptr a = some o

def node (m : Mem V) (n : Nat) (key : Int) (value : Nat × Option V) (l r : Nat) : Prop :=
  m.tree n = some ⟨key, value.1, l, r⟩ ∧ m.val value.1 = some value.2

theorem cell_unique (a : Nat) (o o' : Option Nat) (h : cell m a o) (h' : cell m a o') : o = o' :=
  Option.some.inj (h.symm.trans h')

theorem node_unique (n : Nat) (k : Int) (v : Nat × Option V) (l r : Nat) (k' : Int)
    (v' : Nat × Option V) (l' r' : Nat) (h : node m n k v l r) (h' : node m n k' v' l' r') :
    k = k' ∧ v = v' ∧ l = l' ∧ r = r' := by
  obtain ⟨key, value, left, right⟩ := Node.mk.inj (Option.some.inj (h.1.symm.trans h'.1))
  have stored := h'.2
  rw [← value, h.2] at stored
  exact ⟨key, Prod.ext value (Option.some.inj stored), left, right⟩

variable {t t' : Tree Nat Int (Nat × Option V)}

/-- The cell of the value of a node. -/
def valueCell (x : Nat × Int × Nat × Option V) : Nat := x.2.2.1

def values (t : Tree Nat Int (Nat × Option V)) : List Nat := t.nodes.map valueCell

structure Good (tb : Nat) (m : Mem V) (t : Tree Nat Int (Nat × Option V)) : Prop where
  repr : Repr (cell m) (node m) t
  root : t.root = tb
  cells : t.cells.Nodup
  pointers : t.pointers.Nodup
  values : (values t).Nodup
  ordered : Ordered t

/-- The map that the tree stands for. -/
def contents (t : Tree Nat Int (Nat × Option V)) (k : Int) : Option V :=
  (SearchTree.find k t).bind Prod.snd

/-! ### The threads -/

/-- The node `b` is complete and not in the tree. -/
structure Private (m : Mem V) (t : Tree Nat Int (Nat × Option V)) (x : Int) (v : Option V)
    (b : Block) : Prop where
  tree : m.tree b.node = some ⟨x, b.value, b.left, b.right⟩
  value : m.val b.value = some v
  left : m.ptr b.left = some none
  right : m.ptr b.right = some none
  sides : b.left ≠ b.right
  node : b.node ∉ t.pointers
  values : b.value ∉ values t
  cells : b.left ∉ t.cells ∧ b.right ∉ t.cells

def ThreadOk (m : Mem V) (t : Tree Nat Int (Nat × Option V)) : Pc V → Prop
  | .idle => True
  | .load x _ temp ref => OnPath x t temp ∧ ∀ q, ref = some q → q ∈ t.pointers
  | .alloc x _ temp ref =>
    OnPath x t temp ∧ ∀ q, ref = some q → q ∈ t.pointers ∧ m.ptr temp ≠ some (some q)
  | .cas x v temp ref b =>
    (OnPath x t temp ∧ ∀ q, ref = some q → q ∈ t.pointers ∧ m.ptr temp ≠ some (some q)) ∧
      Private m t x v b
  | .release x v temp ref b =>
    (OnPath x t temp ∧ ∀ q, ref = some q → q ∈ t.pointers) ∧ Private m t x v b
  | .store x _ value => ∃ n w, (n, x, value, w) ∈ t.nodes
  | .inserted x => x ∈ t.keys
  | .find x ap => OnPath x t ap
  | .fetch x value => ∃ n w, (n, x, value, w) ∈ t.nodes
  | .found _ _ => True

/-- The node a thread has for itself. -/
def Pc.block : Pc V → Option Block
  | .cas _ _ _ _ b => some b
  | .release _ _ _ _ b => some b
  | _ => none

def Block.Apart (b b' : Block) : Prop :=
  b.node ≠ b'.node ∧ b.value ≠ b'.value ∧ b.left ≠ b'.left ∧ b.left ≠ b'.right ∧
    b.right ≠ b'.left ∧ b.right ≠ b'.right

structure Inv (tb : Nat) (s : State T V) (t : Tree Nat Int (Nat × Option V)) : Prop where
  good : Good tb s.mem t
  threads : ∀ u, ThreadOk s.mem t (s.pc u)
  apart : ∀ u u' b b', u ≠ u' → (s.pc u).block = some b → (s.pc u').block = some b' → b.Apart b'

/-- What a step of one thread leaves to the others. -/
structure Keeps (m m' : Mem V) (t t' : Tree Nat Int (Nat × Option V)) : Prop where
  path : ∀ k a, OnPath k t a → OnPath k t' a
  nodes : ∀ n k value w, (n, k, value, w) ∈ t.nodes → ∃ w', (n, k, value, w') ∈ t'.nodes
  stale : ∀ a q, a ∈ t.cells → q ∈ t.pointers → m.ptr a ≠ some (some q) →
    m'.ptr a ≠ some (some q)
  cells : ∀ a ∈ t.cells, a ∈ t'.cells
  installed : ∀ a ∈ t.cells, ∀ q, m.ptr a = some (some q) → m'.ptr a = some (some q)

theorem keeps_pointers (h : Keeps m m' t t') {q : Nat} (hq : q ∈ t.pointers) : q ∈ t'.pointers := by
  obtain ⟨⟨n, k, value, w⟩, hn, rfl⟩ := List.mem_map.mp hq
  obtain ⟨w', hn'⟩ := h.nodes n k value w hn
  exact List.mem_map.mpr ⟨_, hn', rfl⟩

theorem keeps_keys (h : Keeps m m' t t') {k : Int} (hk : k ∈ t.keys) : k ∈ t'.keys := by
  obtain ⟨⟨n, k, value, w⟩, hn, rfl⟩ := List.mem_map.mp hk
  obtain ⟨w', hn'⟩ := h.nodes n k value w hn
  exact List.mem_map.mpr ⟨_, hn', rfl⟩

theorem threadOk_keeps (h : Keeps m m' t t') {pc : Pc V} (ok : ThreadOk m t pc)
    (own : ∀ x v b, pc.block = some b → Private m t x v b → Private m' t' x v b) :
    ThreadOk m' t' pc := by
  have stale : ∀ {x temp q}, OnPath x t temp → q ∈ t.pointers ∧ m.ptr temp ≠ some (some q) →
      q ∈ t'.pointers ∧ m'.ptr temp ≠ some (some q) := fun hp hq =>
    ⟨keeps_pointers h hq.1, h.stale _ _ (onPath_cells hp) hq.1 hq.2⟩
  cases pc with
  | idle => trivial
  | load x v temp ref =>
    exact ⟨h.path x temp ok.1, fun q hq => keeps_pointers h (ok.2 q hq)⟩
  | alloc x v temp ref =>
    exact ⟨h.path x temp ok.1, fun q hq => stale ok.1 (ok.2 q hq)⟩
  | cas x v temp ref b =>
    exact ⟨⟨h.path x temp ok.1.1, fun q hq => stale ok.1.1 (ok.1.2 q hq)⟩, own x v b rfl ok.2⟩
  | release x v temp ref b =>
    exact ⟨⟨h.path x temp ok.1.1, fun q hq => keeps_pointers h (ok.1.2 q hq)⟩,
      own x v b rfl ok.2⟩
  | store x v value =>
    obtain ⟨n, w, hn⟩ := ok
    exact ⟨n, h.nodes n x value w hn⟩
  | inserted x => exact keeps_keys h ok
  | find x ap => exact h.path x ap ok
  | fetch x value =>
    obtain ⟨n, w, hn⟩ := ok
    exact ⟨n, h.nodes n x value w hn⟩
  | found x v => trivial

/-! ### Steps in memory -/

/-- The words of the tree. -/
structure SameTree (m m' : Mem V) (t : Tree Nat Int (Nat × Option V)) : Prop where
  ptr : ∀ a ∈ t.cells, m'.ptr a = m.ptr a
  tree : ∀ n ∈ t.pointers, m'.tree n = m.tree n
  val : ∀ c ∈ values t, m'.val c = m.val c

theorem good_frame (h : Good tb m t) (same : SameTree m m' t) : Good tb m' t :=
  { h with
    repr := repr_frame h.repr (fun a ha o hc => (same.ptr a ha).trans hc) (by
      rintro ⟨n, k, value, w⟩ hx l r ⟨htree, hval⟩
      exact ⟨(same.tree n (List.mem_map.mpr ⟨_, hx, rfl⟩)).trans htree,
        (same.val value (List.mem_map.mpr ⟨_, hx, rfl⟩)).trans hval⟩) }

theorem keeps_frame (same : SameTree m m' t) : Keeps m m' t t where
  path := fun _ _ hp => hp
  nodes := fun _ _ _ w hn => ⟨w, hn⟩
  stale := fun a _ ha _ hne => (same.ptr a ha).symm ▸ hne
  cells := fun _ ha => ha
  installed := fun a ha _ hq => (same.ptr a ha).trans hq

/-- What is in the tree is in memory. -/
theorem good_cell (h : Good tb m t) {a : Nat} (ha : a ∈ t.cells) :
    ∃ o, m.ptr a = some o ∧ ∀ q, o = some q → q ∈ t.pointers := by
  obtain ⟨c, s, rfl, rfl⟩ := exists_plug_cell ha
  have hs := repr_plug h.repr
  cases s with
  | nil a => exact ⟨none, hs, fun q hq => by cases hq⟩
  | node a n key value l r =>
    refine ⟨some n, hs.1, fun q hq => ?_⟩
    obtain rfl := Option.some.inj hq
    refine List.mem_map.mpr ⟨(n, key, value), mem_nodes_plug.mpr (Or.inl ?_), rfl⟩
    exact List.mem_append_right _ List.mem_cons_self

theorem repr_node {t : Tree Nat Int (Nat × Option V)} (h : Repr (cell m) (node m) t)
    {x : Nat × Int × Nat × Option V} (hx : x ∈ t.nodes) :
    ∃ l r, node m x.1 x.2.1 x.2.2 l r := by
  induction t with
  | nil => cases hx
  | node a n key value l r ihl ihr =>
    rcases List.mem_append.mp hx with hx | hx
    · exact ihl h.2.2.1 hx
    · rcases List.mem_cons.mp hx with rfl | hx
      · exact ⟨_, _, h.2.1⟩
      · exact ihr h.2.2.2 hx

/-- A fresh block is apart from all there is. -/
theorem fresh_outside (h : Good tb m t) {new : Block} (fresh : Fresh m new) :
    new.node ∉ t.pointers ∧ new.value ∉ values t ∧ new.left ∉ t.cells ∧ new.right ∉ t.cells := by
  obtain ⟨htree, hval, hleft, hright, -⟩ := fresh
  refine ⟨fun hn => ?_, fun hc => ?_, fun ha => ?_, fun ha => ?_⟩
  · obtain ⟨y, hy, same⟩ := List.mem_map.mp hn
    obtain ⟨l, r, stored, -⟩ := repr_node h.repr hy
    rw [same, htree] at stored
    cases stored
  · obtain ⟨y, hy, same⟩ := List.mem_map.mp hc
    obtain ⟨l, r, -, stored⟩ := repr_node h.repr hy
    rw [valueCell] at same
    rw [same, hval] at stored
    cases stored
  · obtain ⟨o, stored, -⟩ := good_cell h ha
    rw [hleft] at stored
    cases stored
  · obtain ⟨o, stored, -⟩ := good_cell h ha
    rw [hright] at stored
    cases stored

end DeepDB.Concurrency.Nblocking
