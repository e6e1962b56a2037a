import DeepDB.BTree.Run

/-!
The representation invariant of the relation, read off the nodes in memory: balance, order with
inherited bounds, fill, and flags. It holds after every run, and it keeps the cursor's arrays from
overflowing.
-/

namespace DeepDB.BTree
open SortedAssoc Multiway BTree.Tree

variable {R : Type} {nodes : Nodes R}

/-- The node at `p` and all nodes below it, `h` levels above the leaves, for the keys from `lo` to
`hi`. Only the leftmost path inherits no lower bound and only the rightmost no upper bound. -/
def NodeInv (nodes : Nodes R) : (h : Nat) → (root : Bool) → (lo hi : Option Key) → Ptr → Prop
  | 0, root, lo, hi, p => ∃ n, nodes[p]? = some n ∧ n.isLeaf = true ∧
      (n.First = true ↔ lo = none) ∧ (n.Last = true ↔ hi = none) ∧
      (n.entries.map Entry.key).Pairwise (· < ·) ∧
      (∀ e ∈ n.entries, (∃ r, e.ptr = .record r) ∧ (∀ l ∈ lo, l ≤ e.key) ∧ ∀ u ∈ hi, e.key < u) ∧
      n.entries.length ≤ 15 ∧ (root = false → 8 ≤ n.entries.length)
  | h + 1, root, lo, hi, p => ∃ n, nodes[p]? = some n ∧ n.isLeaf = false ∧
      (n.First = true ↔ lo = none) ∧ (n.Last = true ↔ hi = none) ∧
      (n.entries.map Entry.key).Pairwise (· < ·) ∧
      (∀ e ∈ n.entries, (∀ l ∈ lo, l < e.key) ∧ ∀ u ∈ hi, e.key < u) ∧
      n.entries.length ≤ 15 ∧ 1 ≤ n.entries.length ∧ (root = false → 7 ≤ n.entries.length) ∧
      (∃ q, n.ptr0 = some q ∧ NodeInv nodes h false lo (((n.entries[0]?).map Entry.key).or hi) q) ∧
      ∀ i e, n.entries[i]? = some e → ∃ q, e.ptr = .child q ∧
        NodeInv nodes h false (some e.key) (((n.entries[i + 1]?).map Entry.key).or hi) q

/-- The key range of the child at an entry. -/
theorem siblings_getElem {T : Type} {P : Range Key → T → Prop} {r : Range Key} {t : T}
    {ts : List (Key × T)} (h : Siblings P r t ts) {i : Nat} {x : Key × T} (hx : ts[i]? = some x) :
    P ⟨some x.1, ((ts[i + 1]?).map Prod.fst).or r.hi⟩ x.2 := by
  induction ts generalizing r t i with
  | nil => simp at hx
  | cons e ts ih =>
    cases i with
    | zero =>
      obtain rfl := Option.some.inj hx
      cases ts with
      | nil => exact h.2.2
      | cons e' ts => exact h.2.2.1
    | succ i => exact ih h.2.2 hx

theorem siblings_first {T : Type} {P : Range Key → T → Prop} {r : Range Key} {t : T}
    {ts : List (Key × T)} (h : Siblings P r t ts) :
    P ⟨r.lo, ((ts[0]?).map Prod.fst).or r.hi⟩ t := by
  cases ts with
  | nil => exact h
  | cons e ts => exact h.1

theorem nodeInv_of_good {d : Nat} {root : Bool} {r : Range Key} {t : Tree R d}
    (hm : Repr nodes d t) (hg : Good d root r t) : NodeInv nodes d root r.lo r.hi (ptr t) := by
  induction d generalizing root r with
  | zero =>
    obtain ⟨p, F, L, recs, rfl⟩ := exists_leaf t
    obtain ⟨⟨hF, hL⟩, hs, hw, hfull, hfill⟩ := hg
    refine ⟨_, repr_ptr hm, rfl, by simp [hF], by simp [hL], ?_, ?_, ?_, ?_⟩
    · rw [keys_leaf]
      exact hs
    · intro e he
      obtain ⟨x, hx, rfl⟩ := List.mem_map.mp he
      exact ⟨⟨x.2, rfl⟩, hw x hx⟩
    · rw [toNode_leaf, List.length_map]
      exact hfull
    · rw [toNode_leaf, List.length_map]
      exact hfill
  | succ d ih =>
    obtain ⟨p, F, L, t, ts, rfl⟩ := exists_node t
    obtain ⟨⟨hF, hL⟩, hs, hfull, hpos, hfill⟩ := hg
    obtain ⟨inside, increasing⟩ := siblings_seps hs
    refine ⟨_, repr_ptr hm, rfl, by simp [hF], by simp [hL], ?_, ?_, ?_, ?_, ?_,
      ⟨ptr t, rfl, ?_⟩, ?_⟩
    · rw [keys_node]
      exact List.pairwise_map.mpr increasing
    · intro e he
      obtain ⟨x, hx, rfl⟩ := List.mem_map.mp he
      exact inside x hx
    · rw [toNode_node, List.length_map]
      exact hfull
    · rw [toNode_node, List.length_map]
      exact hpos
    · rw [toNode_node, List.length_map]
      exact hfill
    · have first := ih (hm.2 t List.mem_cons_self) (siblings_first hs)
      simpa [Function.comp_def] using first
    · intro i e he
      simp only [toNode_node, List.getElem?_map, Option.map_eq_some_iff] at he
      obtain ⟨x, hx, rfl⟩ := he
      have child := ih (hm.2 x.2 (List.mem_cons_of_mem _
        (List.mem_map_of_mem (List.mem_of_getElem? hx)))) (siblings_getElem hs hx)
      refine ⟨ptr x.2, rfl, ?_⟩
      simpa [Function.comp_def] using child

/-- Every run through one cursor keeps the invariant at the depth the relation records, with the
cursor inside its arrays; with fewer than `2 ^ 61` keys no call fails. -/
theorem relation_balanced (ops : List (Op R)) :
    (∀ s, run ops = some s →
      NodeInv s.rel.nodes s.rel.depth true none none s.rel.root ∧
      s.cursor.length = s.rel.depth + 1 ∧ s.rel.depth < MAX_TREE_DEPTH) ∧
    ((putKeys ops).card < 2 ^ 61 → ∃ s, run ops = some s) := by
  refine ⟨fun s hs => ?_, fun few => run_isSome ops (by rwa [length_run])⟩
  obtain ⟨d, t, hrel, -, hπ⟩ := run_simulates hs
  have inv := nodeInv_of_good hrel.repr hrel.good
  refine ⟨?_, ?_, ?_⟩
  · rw [hrel.depth, hrel.root]
    exact inv
  · rw [hrel.depth, pathAt_length hπ]
  · rw [hrel.depth]
    exact hrel.shallow

end DeepDB.BTree
