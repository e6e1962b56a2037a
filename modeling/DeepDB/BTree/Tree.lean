import DeepDB.BTree.Relation
import DeepDB.Lib.Multiway
import Mathlib.Data.Nat.Basic
import Mathlib.Algebra.Order.Ring.Nat
import Mathlib.Tactic.Ring
import Mathlib.Tactic.GCongr

/-!
Balanced trees as the meaning of the nodes in memory. `Tree R d` is a tree whose leaves are all
`d` levels below its root, with the address of every node; `Repr` says that memory holds it, and
`Good` that it is ordered, filled and flagged as a subtree for a range of keys. `PathAt` and
`SearchPath` read a cursor as a position in the tree.
-/

namespace DeepDB.BTree
open SortedAssoc Multiway

structure Leaf (R : Type) where
  ptr : Ptr
  First : Bool
  Last : Bool
  recs : List (Key × R)

structure Interior (T : Type) where
  ptr : Ptr
  First : Bool
  Last : Bool
  t : T
  ts : List (Key × T)

def Tree (R : Type) : Nat → Type
  | 0 => Leaf R
  | d + 1 => Interior (Tree R d)

variable {R : Type} {d : Nat}

namespace Tree

def leaf (p : Ptr) (First Last : Bool) (recs : List (Key × R)) : Tree R 0 :=
  (⟨p, First, Last, recs⟩ : Leaf R)

def node (p : Ptr) (First Last : Bool) (t : Tree R d) (ts : List (Key × Tree R d)) :
    Tree R (d + 1) :=
  (⟨p, First, Last, t, ts⟩ : Interior (Tree R d))

theorem exists_leaf (t : Tree R 0) : ∃ p First Last recs, t = leaf p First Last recs :=
  ⟨_, _, _, _, rfl⟩

theorem exists_node (t : Tree R (d + 1)) : ∃ p First Last t₀ ts, t = node p First Last t₀ ts :=
  ⟨_, _, _, _, _, rfl⟩

def ptr : {d : Nat} → Tree R d → Ptr
  | 0, t => Leaf.ptr t
  | _ + 1, t => Interior.ptr t

def contents : (d : Nat) → Tree R d → List (Key × R)
  | 0, t => Leaf.recs t
  | d + 1, ⟨_, _, _, t, ts⟩ => gather (contents d) t ts

def ptrs : (d : Nat) → Tree R d → List Ptr
  | 0, t => [Leaf.ptr t]
  | d + 1, ⟨p, _, _, t, ts⟩ => p :: gather (ptrs d) t ts

/-- The node in memory. -/
def toNode : {d : Nat} → Tree R d → BtNode R
  | 0, ⟨_, First, Last, recs⟩ =>
    { isLeaf := true, First, Last, ptr0 := none,
      entries := recs.map fun x => ⟨x.1, .record x.2⟩ }
  | _ + 1, ⟨_, First, Last, t, ts⟩ =>
    { isLeaf := false, First, Last, ptr0 := some t.ptr,
      entries := ts.map fun x => ⟨x.1, .child x.2.ptr⟩ }

section
variable (p : Ptr) (F L : Bool) (recs : List (Key × R)) (t : Tree R d) (ts : List (Key × Tree R d))

@[simp] theorem ptr_leaf : ptr (leaf p F L recs) = p := rfl

@[simp] theorem ptr_node : ptr (node p F L t ts) = p := rfl

@[simp] theorem contents_leaf : contents 0 (leaf p F L recs) = recs := rfl

@[simp] theorem contents_node :
    contents (d + 1) (node p F L t ts) = gather (contents d) t ts := rfl

@[simp] theorem ptrs_leaf : ptrs 0 (leaf p F L recs) = [p] := rfl

@[simp] theorem ptrs_node : ptrs (d + 1) (node p F L t ts) = p :: gather (ptrs d) t ts := rfl

@[simp] theorem toNode_leaf : toNode (leaf p F L recs) =
    { isLeaf := true, First := F, Last := L, ptr0 := none,
      entries := recs.map fun x => ⟨x.1, .record x.2⟩ } := rfl

@[simp] theorem toNode_node : toNode (node p F L t ts) =
    { isLeaf := false, First := F, Last := L, ptr0 := some (ptr t),
      entries := ts.map fun x => ⟨x.1, .child (ptr x.2)⟩ } := rfl

theorem numKeys_leaf : (toNode (leaf p F L recs)).numKeys = recs.length := by
  simp [BtNode.numKeys]

theorem numKeys_node : (toNode (node p F L t ts)).numKeys = ts.length := by
  simp [BtNode.numKeys]

theorem keys_node : (toNode (node p F L t ts)).entries.map Entry.key = ts.map Prod.fst := by
  simp [Function.comp_def]

theorem keys_leaf : (toNode (leaf p F L recs)).entries.map Entry.key = recs.map Prod.fst := by
  simp [Function.comp_def]

end

/-- Memory holds the tree. -/
def Repr (nodes : Nodes R) : (d : Nat) → Tree R d → Prop
  | 0, t => nodes[ptr t]? = some (toNode t)
  | d + 1, t =>
    nodes[ptr t]? = some (toNode t) ∧
      ∀ x ∈ Interior.t t :: (Interior.ts t).map Prod.snd, Repr nodes d x

/-- Ordered within `r`, flagged, and filled; only a root may be filled less. -/
def Good : (d : Nat) → Bool → Range Key → Tree R d → Prop
  | 0, root, r, ⟨_, First, Last, recs⟩ =>
    (First = r.lo.isNone ∧ Last = r.hi.isNone) ∧ Sorted recs ∧ Within r recs ∧
      recs.length ≤ FANOUT ∧ (root = false → MIDDLE ≤ recs.length)
  | d + 1, root, r, ⟨_, First, Last, t, ts⟩ =>
    (First = r.lo.isNone ∧ Last = r.hi.isNone) ∧ Siblings (Good d false) r t ts ∧
      ts.length ≤ FANOUT ∧ 0 < ts.length ∧ (root = false → MIDDLE - 1 ≤ ts.length)

/-! ### Memory -/

theorem ptr_mem_ptrs (t : Tree R d) : ptr t ∈ ptrs d t := by
  cases d with
  | zero => exact List.mem_singleton.mpr rfl
  | succ d => exact List.mem_cons_self

theorem repr_ptr {nodes : Nodes R} {t : Tree R d} (h : Repr nodes d t) :
    nodes[ptr t]? = some (toNode t) := by
  cases d with
  | zero => exact h
  | succ d => exact h.1

theorem mem_gather_child {α : Type} {c : Tree R d → List α} {t : Tree R d}
    {ts : List (Key × Tree R d)} {x : Tree R d} (hx : x ∈ t :: ts.map Prod.snd) {q : α}
    (hq : q ∈ c x) : q ∈ gather c t ts := by
  rcases List.mem_cons.mp hx with rfl | hx
  · exact List.mem_append_left _ hq
  · obtain ⟨e, he, rfl⟩ := List.mem_map.mp hx
    exact List.mem_append_right _ (List.mem_flatMap.mpr ⟨e, he, hq⟩)

theorem mem_gather {α : Type} {c : Tree R d → List α} {t : Tree R d}
    {ts : List (Key × Tree R d)} {q : α} (hq : q ∈ gather c t ts) :
    ∃ x ∈ t :: ts.map Prod.snd, q ∈ c x := by
  rcases List.mem_append.mp hq with hq | hq
  · exact ⟨t, List.mem_cons_self, hq⟩
  · obtain ⟨e, he, hq⟩ := List.mem_flatMap.mp hq
    exact ⟨e.2, List.mem_cons_of_mem _ (List.mem_map.mpr ⟨e, he, rfl⟩), hq⟩

/-- A tree only depends on the nodes it owns. -/
theorem repr_frame {nodes nodes' : Nodes R} {t : Tree R d} (h : Repr nodes d t)
    (same : ∀ q ∈ ptrs d t, nodes'[q]? = nodes[q]?) : Repr nodes' d t := by
  induction d with
  | zero => exact (same _ (ptr_mem_ptrs t)).trans h
  | succ d ih =>
    refine ⟨(same _ (ptr_mem_ptrs t)).trans h.1, fun x hx => ih (h.2 x hx) ?_⟩
    exact fun q hq => same q (List.mem_cons_of_mem _ (mem_gather_child hx hq))

theorem repr_ptrs_lt {nodes : Nodes R} {t : Tree R d} (h : Repr nodes d t) :
    ∀ q ∈ ptrs d t, q < nodes.length := by
  induction d with
  | zero =>
    intro q hq
    obtain rfl := List.mem_singleton.mp hq
    exact (List.getElem?_eq_some_iff.mp h).1
  | succ d ih =>
    intro q hq
    rcases List.mem_cons.mp hq with rfl | hq
    · exact (List.getElem?_eq_some_iff.mp h.1).1
    · obtain ⟨x, hx, hq⟩ := mem_gather hq
      exact ih (h.2 x hx) q hq

/-! ### Order and size -/

variable {root : Bool} {r : Range Key}

theorem good_flags {t : Tree R d} (h : Good d root r t) :
    (toNode t).First = r.lo.isNone ∧ (toNode t).Last = r.hi.isNone := by
  cases d with
  | zero => exact h.1
  | succ d => exact h.1

theorem good_within {t : Tree R d} (h : Good d root r t) : Within r (contents d t) := by
  induction d generalizing root r with
  | zero => exact h.2.2.1
  | succ d ih => exact siblings_within (P := Good d false) (fun _ _ hx => ih hx) h.2.1

theorem good_sorted {t : Tree R d} (h : Good d root r t) : Sorted (contents d t) := by
  induction d generalizing root r with
  | zero => exact h.2.1
  | succ d ih => exact siblings_sorted (fun _ _ => good_within) (fun _ _ => ih) h.2.1

theorem good_root {t : Tree R d} (h : Good d false r t) : Good d true r t := by
  cases d with
  | zero => exact ⟨h.1, h.2.1, h.2.2.1, h.2.2.2.1, by simp⟩
  | succ d => exact ⟨h.1, h.2.1, h.2.2.1, h.2.2.2.1, by simp⟩

/-- Children of at least `n` entries each. -/
theorem length_gather_le {n : Nat} {c : Tree R d → List (Key × R)} {t : Tree R d}
    {ts : List (Key × Tree R d)} (h : ∀ x ∈ t :: ts.map Prod.snd, n ≤ (c x).length) :
    (ts.length + 1) * n ≤ (gather c t ts).length := by
  induction ts generalizing t with
  | nil => simpa [gather] using h t List.mem_cons_self
  | cons e ts ih =>
    have ht := h t List.mem_cons_self
    have htail := ih (t := e.2) fun x hx => h x (List.mem_cons_of_mem _ (by simpa using hx))
    rw [show e = (e.1, e.2) from rfl, gather_cons, List.length_append, List.length_cons]
    calc (ts.length + 1 + 1) * n = n + (ts.length + 1) * n := by ring
      _ ≤ _ := Nat.add_le_add ht htail

/-- A subtree below the root holds at least `8 ^ (d + 1)` records. -/
theorem good_length {t : Tree R d} (h : Good d false r t) :
    8 ^ (d + 1) ≤ (contents d t).length := by
  induction d generalizing r with
  | zero => simpa [contents, MIDDLE, FANOUT] using h.2.2.2.2 rfl
  | succ d ih =>
    have each : ∀ x ∈ Interior.t t :: (Interior.ts t).map Prod.snd,
        8 ^ (d + 1) ≤ (contents d x).length := by
      intro x hx
      obtain ⟨q, hq⟩ := siblings_mem h.2.1 x hx
      exact ih hq
    have filled : 7 ≤ (Interior.ts t).length := h.2.2.2.2 rfl
    calc 8 ^ (d + 1 + 1) = (7 + 1) * 8 ^ (d + 1) := by ring
      _ ≤ ((Interior.ts t).length + 1) * 8 ^ (d + 1) := by gcongr
      _ ≤ _ := length_gather_le each

/-- Fewer than `2 ^ 61` records fit into a tree whose levels the cursor's arrays can hold. -/
theorem good_depth {t : Tree R d} (h : Good d root r t) (few : (contents d t).length < 2 ^ 61) :
    d < MAX_TREE_DEPTH := by
  cases d with
  | zero => simp [MAX_TREE_DEPTH]
  | succ d =>
    have each : ∀ x ∈ Interior.t t :: (Interior.ts t).map Prod.snd,
        8 ^ (d + 1) ≤ (contents d x).length := by
      intro x hx
      obtain ⟨q, hq⟩ := siblings_mem h.2.1 x hx
      exact good_length hq
    have two : 1 + 1 ≤ (Interior.ts t).length + 1 := Nat.succ_le_succ h.2.2.2.1
    by_contra deep
    have hd : 19 ≤ d := by
      simp only [MAX_TREE_DEPTH] at deep
      omega
    have many : 2 * 8 ^ (19 + 1) ≤ ((Interior.ts t).length + 1) * 8 ^ (d + 1) := by
      gcongr
      omega
    have total : ((Interior.ts t).length + 1) * 8 ^ (d + 1) ≤ (contents (d + 1) t).length :=
      length_gather_le each
    omega

theorem good_nonempty {t : Tree R d} (h : Good d false r t) : contents d t ≠ [] := by
  intro empty
  have := good_length h
  rw [empty] at this
  exact absurd this (by simp)

theorem good_focus {p : Ptr} {F L : Bool} {t f : Tree R d} {ts post : List (Key × Tree R d)}
    {pre : List (Tree R d × Key)} (hg : Good (d + 1) root r (node p F L t ts))
    (hj : (t, ts) = join pre f post) : Good d false (focusRange r pre post) f := by
  have hs := hg.2.1
  obtain ⟨rfl, rfl⟩ := Prod.mk.inj hj
  exact siblings_focus hs

/-- The children in front of the focus hold records. -/
theorem front_nonempty {p : Ptr} {F L : Bool} {t f : Tree R d} {ts post : List (Key × Tree R d)}
    {pre : List (Tree R d × Key)} (hg : Good (d + 1) root r (node p F L t ts))
    (hj : (t, ts) = join pre f post) : ∀ x ∈ pre, contents d x.1 ≠ [] := by
  intro x hx
  have child : x.1 ∈ t :: ts.map Prod.snd := by
    obtain ⟨rfl, rfl⟩ := Prod.mk.inj hj
    exact List.mem_cons.mpr ((mem_join pre f post x.1).mpr (Or.inl (List.mem_map_of_mem hx)))
  obtain ⟨q, hq⟩ := siblings_mem hg.2.1 x.1 child
  exact good_nonempty hq

theorem length_front {p : Ptr} {F L : Bool} {t f : Tree R d} {ts post : List (Key × Tree R d)}
    {pre : List (Tree R d × Key)} (hg : Good (d + 1) root r (node p F L t ts))
    (hj : (t, ts) = join pre f post) :
    pre.length ≤ (pre.flatMap fun x => contents d x.1).length := by
  have each := front_nonempty hg hj
  clear hj
  induction pre with
  | nil => exact Nat.zero_le _
  | cons e pre ih =>
    have front := List.length_pos_iff.mpr (each e List.mem_cons_self)
    have back := ih fun x hx => each x (List.mem_cons_of_mem _ hx)
    simp only [List.flatMap_cons, List.length_append, List.length_cons]
    omega

/-! ### Cursors -/

/-- The cursor `π` leads from the root of the tree to a leaf and denotes the position `pos` in the
contents; the end of a leaf denotes the first entry of the next one. -/
def PathAt : (d : Nat) → Tree R d → Cursor → Nat → Prop
  | 0, ⟨p, _, _, recs⟩, π, pos => pos ≤ recs.length ∧ π = [(p, (pos : Int))]
  | d + 1, ⟨p, _, _, t, ts⟩, π, pos => ∃ pre f post π' pos',
      (t, ts) = join pre f post ∧ PathAt d f π' pos' ∧
      π = π' ++ [(p, (pre.length : Int) - 1)] ∧
      pos = (pre.flatMap fun x => contents d x.1).length + pos'

/-- The path of the search for `key`. -/
def SearchPath (key : Key) : (d : Nat) → Tree R d → Cursor → Prop
  | 0, ⟨p, _, _, recs⟩, π => π = [(p, (rank key recs : Int))]
  | d + 1, ⟨p, _, _, t, ts⟩, π => ∃ pre f post π',
      (t, ts) = join pre f post ∧ ((∀ x ∈ pre, x.2 ≤ key) ∧ ∀ x ∈ post, key < x.1) ∧
      SearchPath key d f π' ∧ π = π' ++ [(p, (pre.length : Int) - 1)]

theorem pathAt_ne_nil {t : Tree R d} {π : Cursor} {pos : Nat} (h : PathAt d t π pos) : π ≠ [] := by
  cases d with
  | zero =>
    obtain ⟨-, rfl⟩ := h
    simp
  | succ d =>
    obtain ⟨pre, f, post, π', pos', -, -, rfl, -⟩ := h
    simp

theorem pathAt_length {t : Tree R d} {π : Cursor} {pos : Nat} (h : PathAt d t π pos) :
    π.length = d + 1 := by
  induction d generalizing π pos with
  | zero =>
    obtain ⟨-, rfl⟩ := h
    rfl
  | succ d ih =>
    obtain ⟨pre, f, post, π', pos', -, hf, rfl, -⟩ := h
    rw [List.length_append, ih hf]
    rfl

theorem pathAt_le {t : Tree R d} {π : Cursor} {pos : Nat} (h : PathAt d t π pos) :
    pos ≤ (contents d t).length := by
  induction d generalizing π pos with
  | zero => exact h.1
  | succ d ih =>
    obtain ⟨p, F, L, t, ts, rfl⟩ := exists_node t
    obtain ⟨pre, f, post, π', pos', hj, hf, -, rfl⟩ := h
    obtain ⟨rfl, rfl⟩ := Prod.mk.inj hj
    have := ih hf
    simp only [contents_node, gather_join, List.length_append]
    omega

theorem searchPath_pathAt {t : Tree R d} {π : Cursor} {key : Key} (hg : Good d root r t)
    (hk : r.Mem key) (h : SearchPath key d t π) : PathAt d t π (rank key (contents d t)) := by
  induction d generalizing root r π with
  | zero => exact ⟨rank_le_length _ _, h⟩
  | succ d ih =>
    obtain ⟨p, F, L, t, ts, rfl⟩ := exists_node t
    obtain ⟨pre, f, post, π', hj, ⟨hpre, hpost⟩, hf, rfl⟩ := h
    obtain ⟨rfl, rfl⟩ := Prod.mk.inj hj
    have hkf := focusRange_mem hk hpre hpost
    refine ⟨pre, f, post, π', _, rfl, ih (siblings_focus hg.2.1) hkf hf, rfl, ?_⟩
    exact rank_focus (fun _ _ => good_within) hg.2.1 hkf

end Tree

end DeepDB.BTree
