import DeepDB.BTree.Cursor

/-!
Insertion. `putEntry`, called at the search path of a key, puts the key into the contents of the
subtree it works in, or leaves two subtrees and an entry for the parent; at the root it makes a
new root of the two.
-/

namespace DeepDB.BTree
open SortedAssoc Multiway BTree.Tree

variable {R : Type} {d : Nat} {root : Bool} {r : Range Key} {nodes nodes' : Nodes R}

/-! ### Memory that grows -/

/-- `nodes'` extends `nodes` and changes it only at the addresses `S`; the addresses `S'` are
distinct and either among `S` or new. -/
structure Grown (nodes nodes' : Nodes R) (S S' : List Ptr) : Prop where
  frame : ∀ q < nodes.length, q ∉ S → nodes'[q]? = nodes[q]?
  grows : nodes.length ≤ nodes'.length
  fresh : ∀ q ∈ S', q ∈ S ∨ nodes.length ≤ q
  nodup : S'.Nodup

theorem Grown.set {S S' : List Ptr} (h : Grown nodes nodes' S S') {p : Ptr} (hp : p ∈ S)
    (n : BtNode R) : Grown nodes (nodes'.set p n) S S' where
  frame q hq hS := by
    have hne : p ≠ q := fun same => hS (same ▸ hp)
    rw [List.getElem?_set_ne hne, h.frame q hq hS]
  grows := by simpa using h.grows
  fresh := h.fresh
  nodup := h.nodup

theorem Grown.append {S S' S'' : List Ptr} (h : Grown nodes nodes' S S') (n : BtNode R)
    (bounded : ∀ q ∈ S', q < nodes'.length) (perm : S''.Perm (nodes'.length :: S')) :
    Grown nodes (nodes' ++ [n]) S S'' where
  frame q hq hS := by
    rw [List.getElem?_append_left (hq.trans_le h.grows), h.frame q hq hS]
  grows := by
    rw [List.length_append]
    exact h.grows.trans (Nat.le_add_right _ _)
  fresh q hq := by
    rcases List.mem_cons.mp (perm.mem_iff.mp hq) with rfl | hq
    · exact Or.inr h.grows
    · exact h.fresh q hq
  nodup := perm.nodup_iff.mpr
    (List.nodup_cons.mpr ⟨fun hmem => absurd (bounded _ hmem) (Nat.lt_irrefl _), h.nodup⟩)

/-- Growth inside a part of a larger set of addresses. -/
theorem Grown.around {S S' A B : List Ptr} (h : Grown nodes nodes' S S')
    (nodup : (A ++ S ++ B).Nodup) (hA : ∀ q ∈ A, q < nodes.length)
    (hB : ∀ q ∈ B, q < nodes.length) : Grown nodes nodes' (A ++ S ++ B) (A ++ S' ++ B) where
  frame q hq hS := h.frame q hq fun hmem => hS (by simp [hmem])
  grows := h.grows
  fresh q hq := by
    simp only [List.mem_append] at hq ⊢
    rcases hq with (hq | hq) | hq
    · exact Or.inl (Or.inl (Or.inl hq))
    · exact (h.fresh q hq).imp (fun hS => Or.inl (Or.inr hS)) id
    · exact Or.inl (Or.inr hq)
  nodup := by
    simp only [List.nodup_append, List.mem_append] at nodup ⊢
    obtain ⟨⟨hnA, -, hAS⟩, hnB, hAB⟩ := nodup
    refine ⟨⟨hnA, h.nodup, ?_⟩, hnB, ?_⟩
    · rintro a ha b hb rfl
      rcases h.fresh a hb with hS | hnew
      · exact hAS a ha a hS rfl
      · exact absurd (hA a ha) (Nat.not_lt.mpr hnew)
    · rintro a (ha | ha) b hb rfl
      · exact hAB a (Or.inl ha) a hb rfl
      · rcases h.fresh a ha with hS | hnew
        · exact hAB a (Or.inr hS) a hb rfl
        · exact absurd (hB a hb) (Nat.not_lt.mpr hnew)

/-- A tree beside the changed addresses stays in memory. -/
theorem Grown.repr {S S' : List Ptr} (h : Grown nodes nodes' S S') {t : Tree R d}
    (hm : Repr nodes d t) (disjoint : ∀ q ∈ ptrs d t, q ∉ S) : Repr nodes' d t :=
  repr_frame hm fun q hq => h.frame q (repr_ptrs_lt hm q hq) (disjoint q hq)

theorem repr_append {t : Tree R d} (hm : Repr nodes d t) (l : Nodes R) : Repr (nodes ++ l) d t :=
  repr_frame hm fun q hq => List.getElem?_append_left (repr_ptrs_lt hm q hq)

theorem repr_set {t : Tree R d} (hm : Repr nodes d t) {p : Ptr} (hp : p ∉ ptrs d t)
    (n : BtNode R) : Repr (nodes.set p n) d t :=
  repr_frame hm fun q hq => List.getElem?_set_ne (by rintro rfl; exact hp hq)

theorem getElem?_new {n : BtNode R} {p : Ptr} (h : p = nodes.length) :
    (nodes ++ [n])[p]? = some n := by
  rw [h]
  exact List.getElem?_concat_length

theorem grown_refl {S : List Ptr} (nodup : S.Nodup) : Grown nodes nodes S S :=
  ⟨fun _ _ _ => rfl, Nat.le_refl _, fun _ hq => Or.inl hq, nodup⟩

/-! ### Splitting a node -/

theorem firstHalf_eq {α : Type} (es : List α) (e : α) (tgt m : Nat) (h : tgt ≤ es.length) :
    (if tgt < m then es.take tgt ++ ((es.take tgt ++ e :: es.drop tgt).take m).drop tgt
      else es.take m) = (es.take tgt ++ e :: es.drop tgt).take m := by
  have htake : (es.take tgt ++ e :: es.drop tgt).take tgt = es.take tgt := by
    rw [List.take_append_of_le_length (by simp [h]), List.take_take, Nat.min_self]
  split
  · rename_i hlt
    conv_rhs => rw [← List.take_append_drop tgt ((es.take tgt ++ e :: es.drop tgt).take m)]
    rw [List.take_take, Nat.min_eq_left hlt.le, htake]
  · rename_i hle
    rw [List.take_append_of_le_length (by simp; omega), List.take_take,
      Nat.min_eq_left (Nat.not_lt.mp hle)]

/-- `splitnode` on a full node whose entries, with the new one, are `A ++ mid :: B`. -/
theorem splitnode_eq {p : Ptr} {n : BtNode R} (entry mid : Entry R) {A B : List (Entry R)}
    (isLeaf : Bool) (hn : nodes[p]? = some n) (full : n.entries.length = FANOUT)
    (all : n.entries.take (findRecordIndex n entry.key) ++
      entry :: n.entries.drop (findRecordIndex n entry.key) = A ++ mid :: B)
    (index : findRecordIndex n entry.key ≤ FANOUT) (half : A.length = MIDDLE)
    (ptr0 : Option Ptr) {right : List (Entry R)}
    (kind : (n.isLeaf = true ∧ ptr0 = none ∧ right = mid :: B) ∨
      (n.isLeaf = false ∧ (∃ q, mid.ptr = .child q ∧ ptr0 = some q) ∧ right = B)) :
    splitnode nodes p entry isLeaf =
      some (nodes.set p { n with Last := false, entries := A } ++
          [{ isLeaf := isLeaf, First := false, Last := n.Last, ptr0 := ptr0, entries := right }],
        ⟨mid.key, .child nodes.length⟩) := by
  have left := firstHalf_eq n.entries entry (findRecordIndex n entry.key) MIDDLE (full ▸ index)
  have numKeys : n.numKeys = FANOUT := by simp [BtNode.numKeys, full]
  have take : (A ++ mid :: B).take MIDDLE = A := List.take_left' half
  rw [all, take] at left
  have middle : (A ++ mid :: B)[MIDDLE]? = some mid := by simp [← half]
  have drop : (A ++ mid :: B).drop MIDDLE = mid :: B := List.drop_left' half
  have drop' : (A ++ mid :: B).drop (MIDDLE + 1) = B := by
    rw [← List.drop_drop, drop]
    rfl
  rcases kind with ⟨hleaf, rfl, rfl⟩ | ⟨hleaf, ⟨q, hq, rfl⟩, rfl⟩
  · simp only [splitnode, hn, numKeys, guard_true, all, take, left, middle, hleaf, drop,
      createNewNode,      Option.bind_eq_bind, Option.bind_some, if_true, Option.pure_def]
  · simp only [splitnode, hn, numKeys, guard_true, all, take, left, middle, hleaf, drop',
      createNewNode, hq, Option.bind_eq_bind, Option.bind_some, Bool.false_eq_true, if_false, Option.pure_def]

/-! ### The effect of a put on a subtree -/

/-- The put is finished inside the subtree `t`, which has become `t'`. -/
structure Updated (nodes nodes' : Nodes R) (root : Bool) (r : Range Key) (key : Key) (v : R)
    (t t' : Tree R d) : Prop where
  grown : Grown nodes nodes' (ptrs d t) (ptrs d t')
  repr : Repr nodes' d t'
  good : Good d root r t'
  contents : contents d t' = put key v (contents d t)
  ptr : ptr t' = ptr t

/-- The put has divided the subtree `t` into `t₁` and `t₂`, to be separated by `k`. -/
structure Divided (nodes nodes' : Nodes R) (r : Range Key) (key : Key) (v : R)
    (t t₁ t₂ : Tree R d) (k : Key) : Prop where
  grown : Grown nodes nodes' (ptrs d t) (ptrs d t₁ ++ ptrs d t₂)
  repr₁ : Repr nodes' d t₁
  repr₂ : Repr nodes' d t₂
  good₁ : Good d false (r.left k) t₁
  good₂ : Good d false (r.right k) t₂
  inside : r.Inside k
  contents : Tree.contents d t₁ ++ Tree.contents d t₂ = put key v (Tree.contents d t)
  count : (put key v (Tree.contents d t)).length = (Tree.contents d t).length + 1
  ptr : Tree.ptr t₁ = Tree.ptr t

/-- The two outcomes of `putEntry` in a subtree, with the call that remains. -/
def PutOutcome (rel : Relation R) (root : Bool) (r : Range Key) (key : Key) (v : R)
    (t : Tree R d) (up : Cursor) (result : Option (Relation R × Cursor)) : Prop :=
  (∃ nodes' t' π' m, result = some ({ rel with nodes := nodes', numRecords := m }, π' ++ up) ∧
      Updated rel.nodes nodes' root r key v t t' ∧ SearchPath key d t' π' ∧
      m + (contents d t).length = rel.numRecords + (contents d t').length) ∨
    ∃ nodes' t₁ t₂ k,
      result = putEntry { rel with nodes := nodes' } ⟨k, .child (ptr t₂)⟩ key up ∧
      Divided rel.nodes nodes' r key v t t₁ t₂ k

/-! ### Leaves -/

section
variable {p : Ptr} {F L : Bool} {recs : List (Key × R)} {key : Key} {v : R}

theorem keyAtCursor_leaf (hs : Sorted recs) :
    keyAtCursor (toNode (leaf p F L recs)) (rank key recs : Int) key =
      some (decide (key ∈ recs.map Prod.fst)) := by
  rw [keyAtCursor, numKeys_leaf]
  by_cases hmem : key ∈ recs.map Prod.fst
  · obtain ⟨x, hx, rfl⟩ := List.mem_map.mp hmem
    have hget := getElem?_rank_of_mem hs hx
    have hlt := (List.getElem?_eq_some_iff.mp hget).1
    rw [if_pos (by exact_mod_cast hlt)]
    simp [entryAt, hget, hmem]
  · rw [decide_eq_false hmem]
    split
    · rename_i hlt
      have hlt : rank key recs < recs.length := by exact_mod_cast hlt
      have hne : recs[rank key recs].1 ≠ key := fun same =>
        hmem (same ▸ List.mem_map_of_mem (List.getElem_mem hlt))
      simp [entryAt, hlt, hne]
    · rfl

/-- The node of a leaf after the put of a present key. -/
theorem setEntry_leaf (hs : Sorted recs) (hmem : key ∈ recs.map Prod.fst) :
    ∃ e, entryAt (toNode (leaf p F L recs)) (rank key recs : Int) = some e ∧
      { toNode (leaf p F L recs) with
        entries := (toNode (leaf p F L recs)).entries.set (rank key recs : Int).toNat
          { e with ptr := .record v } } = toNode (leaf p F L (put key v recs)) := by
  obtain ⟨x, hx, rfl⟩ := List.mem_map.mp hmem
  have hget := getElem?_rank_of_mem hs hx
  refine ⟨⟨x.1, .record x.2⟩, by simp [entryAt, hget], ?_⟩
  rw [put_eq_set hs hmem]
  simp [List.map_set]

theorem entries_put_leaf (hs : Sorted recs) (hmem : key ∉ recs.map Prod.fst) :
    (toNode (leaf p F L recs)).entries.take (rank key recs) ++
        ⟨key, .record v⟩ :: (toNode (leaf p F L recs)).entries.drop (rank key recs) =
      (put key v recs).map fun x => ⟨x.1, .record x.2⟩ := by
  rw [put_eq_insert hs hmem]
  simp

theorem insertEntry_leaf (hs : Sorted recs) (hmem : key ∉ recs.map Prod.fst) :
    insertEntry (toNode (leaf p F L recs)) (rank key recs) ⟨key, .record v⟩ =
      some (toNode (leaf p F L (put key v recs))) := by
  have index : (0 : Int) ≤ (rank key recs : Int) ∧
      (rank key recs : Int) ≤ (toNode (leaf p F L recs)).numKeys := by
    rw [numKeys_leaf]
    exact ⟨Int.natCast_nonneg _, by exact_mod_cast rank_le_length key recs⟩
  rw [insertEntry, if_pos index, Int.toNat_natCast, entries_put_leaf hs hmem]
  rfl

theorem grown_leaf (p : Ptr) (n : BtNode R) : Grown nodes (nodes.set p n) [p] [p] :=
  (grown_refl (List.pairwise_singleton _ p)).set (List.mem_singleton.mpr rfl) n

theorem repr_set_leaf (hm : Repr nodes 0 (leaf p F L recs)) (L' : Bool) (recs' : List (Key × R)) :
    Repr (nodes.set p (toNode (leaf p F L' recs'))) 0 (leaf p F L' recs') :=
  List.getElem?_set_self (List.getElem?_eq_some_iff.mp hm).1

/-- A full leaf is split by the put of a new key. -/
theorem split_leaf (hm : Repr nodes 0 (leaf p F L recs)) (hg : Good 0 root r (leaf p F L recs))
    (hk : r.Mem key) (hmem : key ∉ recs.map Prod.fst) (full : recs.length = FANOUT) :
    ∃ nodes' t₁ t₂ k, splitnode nodes p ⟨key, .record v⟩ true =
        some (nodes', ⟨k, .child (ptr t₂)⟩) ∧
      Divided nodes nodes' r key v (leaf p F L recs) t₁ t₂ k := by
  obtain ⟨hflags, hs, hw, -, -⟩ := hg
  have hlt := (List.getElem?_eq_some_iff.mp hm).1
  rw [ptr_leaf] at hlt
  have hlen := length_put_of_not_mem (v := v) hmem
  have sorted := sorted_put (k := key) (v := v) hs
  have within := within_put hw hk v
  obtain ⟨x, A, mid, B, hcut, hA, hB⟩ := exists_middle (m := MIDDLE) (put key v recs)
    (by rw [hlen, full]; rfl) (by decide)
  have index := findRecordIndex_leaf (p := p) (F := F) (L := L) hs key
  have split := splitnode_eq ⟨key, .record v⟩ ⟨mid.1, .record mid.2⟩
    (A := (x :: A).map fun x => ⟨x.1, .record x.2⟩) (B := B.map fun x => ⟨x.1, .record x.2⟩)
    true hm (by simpa using full)
    (by rw [index, entries_put_leaf hs hmem, hcut]; simp)
    (by rw [index, ← full]; exact rank_le_length _ _) (by rw [List.length_map, hA]) none
    (Or.inl ⟨by simp, rfl, rfl⟩)
  rw [hcut] at sorted within
  obtain ⟨hinside, hleft, hright⟩ := inside_cut sorted within
  obtain ⟨sleft, sright, -⟩ := sorted_append.mp sorted
  refine ⟨_, leaf p F false (x :: A), leaf nodes.length false L (mid :: B), mid.1,
    split, ?_, ?_, ?_, ⟨⟨hflags.1, rfl⟩, sleft, hleft, ?_, ?_⟩,
    ⟨⟨rfl, hflags.2⟩, sright, hright, ?_, ?_⟩, hinside, hcut.symm, hlen, rfl⟩
  · refine (grown_leaf p _).append _ (by simpa using hlt) ?_
    rw [List.length_set]
    exact List.Perm.swap _ _ _
  · exact repr_append (repr_set_leaf hm false (x :: A)) _
  · exact getElem?_new (by simp)
  all_goals simp only [hA, hB]; simp [MIDDLE, FANOUT]

/-- The put of a present key, or of any key where the leaf has room. -/
theorem put_leaf_inside {rel : Relation R} (hm : Repr rel.nodes 0 (leaf p F L recs))
    (hg : Good 0 root r (leaf p F L recs)) (hk : r.Mem key)
    (inside : key ∈ recs.map Prod.fst ∨ recs.length < FANOUT) (up : Cursor) :
    ∃ nodes' t' π' m, putEntry rel ⟨key, .record v⟩ key ((p, (rank key recs : Int)) :: up) =
        some ({ rel with nodes := nodes', numRecords := m }, π' ++ up) ∧
      Updated rel.nodes nodes' root r key v (leaf p F L recs) t' ∧ SearchPath key 0 t' π' ∧
      m + recs.length = rel.numRecords + (contents 0 t').length := by
  obtain ⟨hflags, hs, hw, hfull, hfill⟩ := hg
  have hnode := repr_ptr hm
  rw [ptr_leaf] at hnode
  have sorted := sorted_put (k := key) (v := v) hs
  have within := within_put hw hk v
  rw [putEntry, hnode, Option.bind_eq_bind, Option.bind_some, if_pos (by simp),
    keyAtCursor_leaf hs, Option.bind_eq_bind, Option.bind_some]
  by_cases hmem : key ∈ recs.map Prod.fst
  · obtain ⟨e, he, hset⟩ := setEntry_leaf (p := p) (F := F) (L := L) (v := v) hs hmem
    have hlen := length_put_of_mem (v := v) hs hmem
    rw [decide_eq_true hmem, if_pos rfl, he, Option.bind_eq_bind, Option.bind_some, hset]
    refine ⟨_, leaf p F L (put key v recs), [(p, (rank key recs : Int))], _, rfl,
      ⟨grown_leaf p _, repr_set_leaf hm L _,
        ⟨hflags, sorted, within, by omega, fun h => hlen ▸ hfill h⟩, rfl, rfl⟩, ?_, ?_⟩
    · rw [← rank_put_self key v recs]
      rfl
    · simp [hlen]
  · have hlen := length_put_of_not_mem (v := v) hmem
    have room : recs.length < FANOUT := inside.resolve_left hmem
    rw [decide_eq_false hmem, if_neg (by simp), numKeys_leaf, if_pos (by exact_mod_cast room),
      insertEntry_leaf hs hmem]
    refine ⟨_, leaf p F L (put key v recs), [(p, (rank key recs : Int))], _, rfl,
      ⟨grown_leaf p _, repr_set_leaf hm L _, ⟨hflags, sorted, within, by omega,
        fun h => (hfill h).trans (length_le_put _ _ _)⟩, rfl, rfl⟩, ?_, ?_⟩
    · rw [← rank_put_self key v recs]
      rfl
    · simp only [contents_leaf]
      omega

theorem put_leaf {rel : Relation R} (hm : Repr rel.nodes 0 (leaf p F L recs))
    (hg : Good 0 root r (leaf p F L recs)) (hk : r.Mem key) (up : Cursor) :
    PutOutcome rel root r key v (leaf p F L recs) up
      (putEntry rel ⟨key, .record v⟩ key ((p, (rank key recs : Int)) :: up)) := by
  by_cases inside : key ∈ recs.map Prod.fst ∨ recs.length < FANOUT
  · exact Or.inl (put_leaf_inside hm hg hk inside up)
  · obtain ⟨absent, full⟩ := not_or.mp inside
    have hnode := repr_ptr hm
    rw [ptr_leaf] at hnode
    have notRoom : ¬ (recs.length : Int) < FANOUT := by exact_mod_cast full
    obtain ⟨nodes', t₁, t₂, k, split, divided⟩ :=
      split_leaf (v := v) hm hg hk absent (Nat.le_antisymm hg.2.2.2.1 (Nat.not_lt.mp full))
    rw [putEntry, hnode, Option.bind_eq_bind, Option.bind_some, if_pos (by simp),
      keyAtCursor_leaf hg.2.1, Option.bind_eq_bind, Option.bind_some, decide_eq_false absent,
      if_neg (by simp), numKeys_leaf, if_neg notRoom, split, Option.bind_eq_bind, Option.bind_some]
    exact Or.inr ⟨nodes', t₁, t₂, k, rfl, divided⟩
end

/-! ### Interior nodes -/

section
variable {p : Ptr} {F L : Bool} {pre : List (Tree R d × Key)} {f : Tree R d}
  {post : List (Key × Tree R d)} {key : Key} {v : R}

theorem ptrs_join (g : Tree R d) (post : List (Key × Tree R d)) :
    ptrs (d + 1) (node p F L (join pre g post).1 (join pre g post).2) =
      (p :: pre.flatMap fun x => ptrs d x.1) ++ ptrs d g ++ post.flatMap fun x => ptrs d x.2 := by
  rw [ptrs_node, gather_join]
  simp

/-- Growth in one child of a node, seen from the node. -/
theorem grown_child {S : List Ptr}
    (hm : Repr nodes (d + 1) (node p F L (join pre f post).1 (join pre f post).2))
    (nodup : (ptrs (d + 1) (node p F L (join pre f post).1 (join pre f post).2)).Nodup)
    (h : Grown nodes nodes' (ptrs d f) S) :
    Grown nodes nodes' (ptrs (d + 1) (node p F L (join pre f post).1 (join pre f post).2))
        ((p :: pre.flatMap fun x => ptrs d x.1) ++ S ++ post.flatMap fun x => ptrs d x.2) ∧
      nodes'[p]? = nodes[p]? ∧
      ∀ x, x ∈ pre.map Prod.fst ∨ x ∈ post.map Prod.snd → Repr nodes' d x := by
  have below := repr_ptrs_lt hm
  rw [ptrs_join] at nodup below ⊢
  simp only [List.mem_append] at below
  refine ⟨h.around nodup (fun q hq => below q (Or.inl (Or.inl hq)))
    (fun q hq => below q (Or.inr hq)), ?_, ?_⟩
  · have hp : p ∉ ptrs d f := by
      intro hp
      simp only [List.cons_append, List.nodup_cons, List.mem_append] at nodup
      exact nodup.1 (Or.inl (Or.inr hp))
    exact h.frame p (below p (Or.inl (Or.inl List.mem_cons_self))) hp
  · intro x hx
    have hmx : Repr nodes d x := by
      refine hm.2 x (List.mem_cons.mpr ((mem_join pre f post x).mpr ?_))
      exact hx.elim Or.inl fun hx => Or.inr (Or.inr hx)
    refine h.repr hmx fun q hq hqf => ?_
    simp only [List.nodup_append, List.mem_append] at nodup
    rcases hx with hx | hx
    · obtain ⟨e, he, rfl⟩ := List.mem_map.mp hx
      have outer : q ∈ p :: pre.flatMap fun x => ptrs d x.1 :=
        List.mem_cons_of_mem _ (List.mem_flatMap.mpr ⟨e, he, hq⟩)
      exact nodup.1.2.2 q outer q hqf rfl
    · obtain ⟨e, he, rfl⟩ := List.mem_map.mp hx
      exact nodup.2.2 q (Or.inr hqf) q (List.mem_flatMap.mpr ⟨e, he, hq⟩) rfl

/-- The node of an interior tree, from its children in the form of `join`. -/
theorem toNode_congr {t t' : Tree R d} {ts ts' : List (Key × Tree R d)}
    (entries : ts'.map (fun x => (x.1, ptr x.2)) = ts.map fun x => (x.1, ptr x.2))
    (first : ptr t' = ptr t) : toNode (node p F L t' ts') = toNode (node p F L t ts) := by
  have entries' := congrArg
    (List.map fun x : Key × Ptr => (⟨x.1, .child x.2⟩ : Entry R)) entries
  simp only [List.map_map, Function.comp_def] at entries'
  simp [entries', first]

theorem updated_child {root : Bool}
    (hm : Repr nodes (d + 1) (node p F L (join pre f post).1 (join pre f post).2))
    (nodup : (ptrs (d + 1) (node p F L (join pre f post).1 (join pre f post).2)).Nodup)
    (hg : Good (d + 1) root r (node p F L (join pre f post).1 (join pre f post).2))
    (hk : (focusRange r pre post).Mem key) {f' : Tree R d}
    (h : Updated nodes nodes' false (focusRange r pre post) key v f f') :
    Updated nodes nodes' root r key v (node p F L (join pre f post).1 (join pre f post).2)
      (node p F L (join pre f' post).1 (join pre f' post).2) := by
  obtain ⟨hgrown, hp, others⟩ := grown_child hm nodup h.grown
  obtain ⟨entries, first⟩ := join_congr ptr pre post h.ptr
  obtain ⟨hflags, hs, hfull, hpos, hfill⟩ := hg
  refine ⟨by rwa [ptrs_join f' post], ⟨?_, ?_⟩, ⟨hflags, siblings_replace hs h.good, ?_⟩, ?_, rfl⟩
  · rw [ptr_node, hp, toNode_congr entries first]
    exact repr_ptr hm
  · intro x hx
    rcases (mem_join pre f' post x).mp (List.mem_cons.mp hx) with hx | rfl | hx
    · exact others x (Or.inl hx)
    · exact h.repr
    · exact others x (Or.inr hx)
  · rw [length_join] at hfull hpos hfill ⊢
    exact ⟨hfull, hpos, hfill⟩
  · rw [contents_node, contents_node, put_focus (fun _ _ => good_within) hs hk, gather_join,
      h.contents]

/-- A node with its children `t`, `ts` after one of them has been divided: the children are now
`t'`, `ts'`, and the entry for `k` and the new child `q` still has to go to index `i`. -/
structure Widened (nodes nodes' : Nodes R) (r : Range Key) (key : Key) (v : R) (p : Ptr)
    (F L : Bool) (t : Tree R d) (ts : List (Key × Tree R d)) (t' : Tree R d)
    (ts' : List (Key × Tree R d)) (k : Key) (q : Ptr) (i : Nat) : Prop where
  siblings : Siblings (Good d false) r t' ts'
  length : ts'.length = ts.length + 1
  contents : gather (Tree.contents d) t' ts' = put key v (gather (Tree.contents d) t ts)
  count : (gather (Tree.contents d) t' ts').length = (gather (Tree.contents d) t ts).length + 1
  grown : Grown nodes nodes' (p :: gather (ptrs d) t ts) (p :: gather (ptrs d) t' ts')
  children : ∀ x ∈ t' :: ts'.map Prod.snd, Repr nodes' d x
  node : nodes'[p]? = nodes[p]?
  entries : (toNode (Tree.node p F L t' ts')).entries =
    (toNode (Tree.node p F L t ts)).entries.take i ++
      ⟨k, .child q⟩ :: (toNode (Tree.node p F L t ts)).entries.drop i
  first : ptr t' = ptr t
  index : findRecordIndex (toNode (Tree.node p F L t ts)) k = i
  bound : i ≤ ts.length

theorem widened_child {root : Bool}
    (hm : Repr nodes (d + 1) (node p F L (join pre f post).1 (join pre f post).2))
    (nodup : (ptrs (d + 1) (node p F L (join pre f post).1 (join pre f post).2)).Nodup)
    (hg : Good (d + 1) root r (node p F L (join pre f post).1 (join pre f post).2))
    (hk : (focusRange r pre post).Mem key) {f₁ f₂ : Tree R d} {k : Key}
    (h : Divided nodes nodes' (focusRange r pre post) key v f f₁ f₂ k) :
    Widened nodes nodes' r key v p F L (join pre f post).1 (join pre f post).2
      (join pre f₁ ((k, f₂) :: post)).1 (join pre f₁ ((k, f₂) :: post)).2 k (ptr f₂)
      pre.length := by
  obtain ⟨hgrown, hp, others⟩ := grown_child hm nodup h.grown
  have hs := hg.2.1
  have contents : gather (Tree.contents d) (join pre f₁ ((k, f₂) :: post)).1
      (join pre f₁ ((k, f₂) :: post)).2 =
      put key v (gather (Tree.contents d) (join pre f post).1 (join pre f post).2) := by
    rw [put_focus (fun _ _ => good_within) hs hk, gather_join, ← h.contents]
    simp
  have count := h.count
  refine ⟨siblings_split hs h.inside h.good₁ h.good₂, ?_, contents, ?_, ?_, ?_, hp, ?_, ?_, ?_, ?_⟩
  · simp only [length_join, List.length_cons]
    omega
  · rw [contents, put_focus (fun _ _ => good_within) hs hk, gather_join]
    simp only [List.length_append]
    omega
  · have same : p :: gather (ptrs d) (join pre f₁ ((k, f₂) :: post)).1
        (join pre f₁ ((k, f₂) :: post)).2 =
        (p :: pre.flatMap fun x => ptrs d x.1) ++ (ptrs d f₁ ++ ptrs d f₂) ++
          post.flatMap fun x => ptrs d x.2 := by
      rw [gather_join]
      simp
    rwa [same]
  · intro x hx
    rcases (mem_join pre f₁ ((k, f₂) :: post) x).mp (List.mem_cons.mp hx) with hx | rfl | hx
    · exact others x (Or.inl hx)
    · exact h.repr₁
    · rcases List.mem_cons.mp hx with rfl | hx
      · exact h.repr₂
      · exact others x (Or.inr hx)
  · have inserted := congrArg
      (List.map fun x : Key × Ptr => (⟨x.1, .child x.2⟩ : Entry R))
      (join_insert Tree.ptr pre f f₁ f₂ k post h.ptr).1
    simpa [List.map_map, Function.comp_def] using inserted
  · exact (join_insert Tree.ptr pre f f₁ f₂ k post h.ptr).2
  · have seps := (siblings_seps (siblings_split hs h.inside h.good₁ h.good₂)).2
    rw [← List.pairwise_map, join_seps, List.map_cons, List.pairwise_append,
      List.pairwise_cons] at seps
    have keys : (toNode (node p F L (join pre f post).1 (join pre f post).2)).entries.map
        Entry.key = pre.map Prod.snd ++ post.map Prod.fst := by
      rw [keys_node, join_seps]
    have index := findRecordIndexFrom_eq k 0 keys
      (fun a ha => seps.2.2 a ha k List.mem_cons_self) (fun b hb => (seps.2.1.1 b hb).le)
    simpa [findRecordIndex] using index
  · rw [length_join]
    omega

variable {t t' : Tree R d} {ts ts' : List (Key × Tree R d)} {k : Key} {q : Ptr} {i : Nat}
  {root : Bool}

/-- The entry in a node that has room for it. -/
theorem room_node (hm : Repr nodes (d + 1) (node p F L t ts))
    (hg : Good (d + 1) root r (node p F L t ts))
    (h : Widened nodes nodes' r key v p F L t ts t' ts' k q i) (room : ts.length < FANOUT) :
    insertEntry (toNode (node p F L t ts)) ((i : Int) - 1 + 1) ⟨k, .child q⟩ =
        some (toNode (node p F L t' ts')) ∧
      Repr (nodes'.set p (toNode (node p F L t' ts'))) (d + 1) (node p F L t' ts') ∧
      Good (d + 1) root r (node p F L t' ts') := by
  obtain ⟨hflags, hs, hfull, hpos, hfill⟩ := hg
  have hnode := h.node.trans (repr_ptr hm)
  have hlt := (List.getElem?_eq_some_iff.mp hnode).1
  have hlen := h.length
  refine ⟨?_, ⟨List.getElem?_set_self hlt, fun x hx => repr_set (h.children x hx) ?_ _⟩,
    hflags, h.siblings, by omega, by omega, fun hr => by have := hfill hr; omega⟩
  · have index : (0 : Int) ≤ (i : Int) - 1 + 1 ∧
        (i : Int) - 1 + 1 ≤ (toNode (node p F L t ts)).numKeys := by
      have := h.bound
      rw [numKeys_node]
      omega
    rw [insertEntry, if_pos index, Int.sub_add_cancel, Int.toNat_natCast, ← h.entries]
    simp [h.first]
  · exact fun hp => (List.nodup_cons.mp h.grown.nodup).1 (mem_gather_child hx hp)

theorem put_room {rel : Relation R} (hm : Repr rel.nodes (d + 1) (node p F L t ts))
    (hg : Good (d + 1) root r (node p F L t ts))
    (h : Widened rel.nodes nodes' r key v p F L t ts t' ts' k q i) (room : ts.length < FANOUT)
    {up : Cursor} (hroom : d + 1 + up.length < MAX_TREE_DEPTH) :
    ∃ nodes'' t'' π' m,
      putEntry { rel with nodes := nodes' } ⟨k, .child q⟩ key ((p, (i : Int) - 1) :: up) =
        some ({ rel with nodes := nodes'', numRecords := m }, π' ++ up) ∧
      Updated rel.nodes nodes'' root r key v (node p F L t ts) t'' ∧ SearchPath key (d + 1) t'' π' ∧
      m + (contents (d + 1) (node p F L t ts)).length =
        rel.numRecords + (contents (d + 1) t'').length := by
  obtain ⟨hinsert, hm', hg'⟩ := room_node hm hg h room
  have hnode := h.node.trans (repr_ptr hm)
  obtain ⟨π, hπ, hsearch⟩ := moveToKey_spec hm' hg' key up hroom
  rw [ptr_node] at hπ
  have count := h.count
  refine ⟨_, node p F L t' ts', π, rel.numRecords + 1, ?_,
    ⟨h.grown.set List.mem_cons_self _, hm', hg', h.contents, rfl⟩, hsearch, ?_⟩
  · rw [putEntry, hnode, Option.bind_eq_bind, Option.bind_some, if_neg (by simp), numKeys_node,
      if_pos (by exact_mod_cast room), hinsert]
    simp only [Option.bind_eq_bind, Option.bind_some, hπ, Option.pure_def]
  · simp only [contents_node]
    omega

/-- A full node is split by the entry. -/
theorem split_node (hm : Repr nodes (d + 1) (node p F L t ts))
    (hg : Good (d + 1) root r (node p F L t ts))
    (h : Widened nodes nodes' r key v p F L t ts t' ts' k q i) (full : ts.length = FANOUT) :
    ∃ nodes'' t₁ t₂ k', splitnode nodes' p ⟨k, .child q⟩ false =
        some (nodes'', ⟨k', .child (ptr t₂)⟩) ∧
      Divided nodes nodes'' r key v (node p F L t ts) t₁ t₂ k' := by
  obtain ⟨hflags, hs, -, -, -⟩ := hg
  have hnode := h.node.trans (repr_ptr hm)
  have hlt := (List.getElem?_eq_some_iff.mp hnode).1
  have count := h.count
  obtain ⟨x, A, mid, B, hcut, hA, hB⟩ := exists_middle (m := MIDDLE) ts'
    (by rw [h.length, full]; rfl) (by decide)
  have entries := h.entries
  have grown := h.grown
  have siblings := h.siblings
  have contents := h.contents
  have children := h.children
  rw [hcut] at entries grown siblings contents children
  have split := splitnode_eq ⟨k, .child q⟩ ⟨mid.1, .child (ptr mid.2)⟩
    (A := (x :: A).map fun x => ⟨x.1, .child (ptr x.2)⟩)
    (B := B.map fun x => ⟨x.1, .child (ptr x.2)⟩) false hnode (by simpa using full)
    (by rw [h.index, ← entries]; simp) (by rw [h.index, ← full]; exact h.bound)
    (by rw [List.length_map, hA]) (some (ptr mid.2)) (Or.inr ⟨by simp, ⟨_, rfl, rfl⟩, rfl⟩)
  obtain ⟨hinside, hleft, hright⟩ := siblings_cut siblings
  have fresh : ∀ y ∈ t' :: ((x :: A) ++ mid :: B).map Prod.snd, p ∉ ptrs d y := fun y hy hp =>
    (List.nodup_cons.mp grown.nodup).1 (mem_gather_child hy hp)
  have split' : splitnode nodes' p ⟨k, .child q⟩ false =
      some (nodes'.set p (toNode (node p F false t' (x :: A))) ++
          [toNode (node nodes'.length false L mid.2 B)], ⟨mid.1, .child nodes'.length⟩) := by
    rw [split]
    simp [h.first]
  refine ⟨_, node p F false t' (x :: A), node nodes'.length false L mid.2 B, mid.1, split',
    ?_, ⟨?_, ?_⟩, ⟨?_, ?_⟩, ⟨⟨hflags.1, rfl⟩, hleft, ?_, ?_, ?_⟩,
    ⟨⟨rfl, hflags.2⟩, hright, ?_, ?_, ?_⟩, hinside, ?_, ?_, rfl⟩
  · refine (grown.set List.mem_cons_self _).append _ ?_ ?_
    · rw [List.length_set]
      intro q hq
      rcases List.mem_cons.mp hq with rfl | hq
      · exact hlt
      · obtain ⟨y, hy, hq⟩ := mem_gather hq
        exact repr_ptrs_lt (children y hy) q hq
    · rw [List.length_set, gather_append (ptrs d) t' mid.2 mid.1 (x :: A) B]
      exact List.perm_middle
  · rw [ptr_node, List.getElem?_append_left (by simpa using hlt)]
    exact List.getElem?_set_self hlt
  · intro y hy
    have hy' : y ∈ t' :: ((x :: A) ++ mid :: B).map Prod.snd := by
      rw [List.map_append]
      exact List.mem_append_left _ hy
    exact repr_append (repr_set (children y hy') (fresh y hy') _) _
  · exact getElem?_new (by simp)
  · intro y hy
    have hy' : y ∈ t' :: ((x :: A) ++ mid :: B).map Prod.snd := by
      rw [List.map_append]
      exact List.mem_append_right (t' :: _) hy
    exact repr_append (repr_set (children y hy') (fresh y hy') _) _
  all_goals simp only [List.length_cons] at hA hB
  · rw [List.length_cons, hA]
    simp [MIDDLE, FANOUT]
  · exact Nat.succ_pos _
  · intro _
    rw [List.length_cons, hA]
    simp [MIDDLE, FANOUT]
  · simp only [MIDDLE, FANOUT] at hB ⊢
    omega
  · simp only [MIDDLE, FANOUT] at hB
    omega
  · omega
  · rw [contents_node, contents_node, contents_node, ← contents, ← gather_append]
  · rw [contents_node, ← h.contents, count]

theorem put_full {rel : Relation R} (hm : Repr rel.nodes (d + 1) (node p F L t ts))
    (hg : Good (d + 1) root r (node p F L t ts))
    (h : Widened rel.nodes nodes' r key v p F L t ts t' ts' k q i) (full : ts.length = FANOUT)
    {up : Cursor} :
    PutOutcome rel root r key v (node p F L t ts) up
      (putEntry { rel with nodes := nodes' } ⟨k, .child q⟩ key ((p, (i : Int) - 1) :: up)) := by
  have hnode := h.node.trans (repr_ptr hm)
  have notRoom : ¬ (toNode (node p F L t ts)).numKeys < FANOUT := by
    rw [numKeys_node]
    omega
  obtain ⟨nodes'', t₁, t₂, k', split, divided⟩ := split_node hm hg h full
  rw [putEntry, hnode, Option.bind_eq_bind, Option.bind_some, if_neg (by simp), if_neg notRoom,
    split, Option.bind_eq_bind, Option.bind_some]
  exact Or.inr ⟨nodes'', t₁, t₂, k', rfl, divided⟩

/-- The outcome in a child is an outcome in its parent. -/
theorem put_child {rel : Relation R}
    (hm : Repr rel.nodes (d + 1) (node p F L (join pre f post).1 (join pre f post).2))
    (nodup : (ptrs (d + 1) (node p F L (join pre f post).1 (join pre f post).2)).Nodup)
    (hg : Good (d + 1) root r (node p F L (join pre f post).1 (join pre f post).2))
    (hk : (focusRange r pre post).Mem key) {up : Cursor}
    (hroom : d + 1 + up.length < MAX_TREE_DEPTH) {result : Option (Relation R × Cursor)}
    (h : PutOutcome rel false (focusRange r pre post) key v f
      ((p, (pre.length : Int) - 1) :: up) result) :
    PutOutcome rel root r key v (node p F L (join pre f post).1 (join pre f post).2) up result := by
  have seps := focusRange_seps hg.2.1 hk
  rcases h with ⟨nodes', f', π, m, rfl, hup, hsearch, hcount⟩ | ⟨nodes', f₁, f₂, k, rfl, hdiv⟩
  · refine Or.inl ⟨nodes', _, π ++ [(p, (pre.length : Int) - 1)], m, by simp,
      updated_child hm nodup hg hk hup, ⟨pre, f', post, π, rfl, seps.2, hsearch, rfl⟩, ?_⟩
    simp only [contents_node, gather_join, List.length_append]
    omega
  · have hwide := widened_child hm nodup hg hk hdiv
    by_cases room : (join pre f post).2.length < FANOUT
    · exact Or.inl (put_room hm hg hwide room hroom)
    · exact put_full hm hg hwide (Nat.le_antisymm hg.2.2.1 (Nat.not_lt.mp room))
end

/-! ### The whole tree -/

variable {key : Key} {v : R}

theorem putEntry_subtree {rel : Relation R} {t : Tree R d} (hm : Repr rel.nodes d t)
    (nodup : (ptrs d t).Nodup) (hg : Good d root r t) (hk : r.Mem key) {π : Cursor}
    (hπ : SearchPath key d t π) (up : Cursor) (hroom : d + up.length < MAX_TREE_DEPTH) :
    PutOutcome rel root r key v t up (putEntry rel ⟨key, .record v⟩ key (π ++ up)) := by
  induction d generalizing root r π up with
  | zero =>
    obtain ⟨p, F, L, recs, rfl⟩ := exists_leaf t
    obtain rfl := hπ
    exact put_leaf hm hg hk up
  | succ d ih =>
    obtain ⟨p, F, L, t, ts, rfl⟩ := exists_node t
    obtain ⟨pre, f, post, π, hj, ⟨below, above⟩, hf, rfl⟩ := hπ
    have hmf := hm.2 f (mem_of_join hj)
    obtain ⟨rfl, rfl⟩ := Prod.mk.inj hj
    have hkf := focusRange_mem hk below above
    have hnd := nodup
    rw [ptrs_join] at hnd
    rw [List.append_assoc, List.singleton_append]
    refine put_child hm nodup hg hkf hroom (ih hmf ?_ (siblings_focus hg.2.1) hkf hf _ ?_)
    · exact (List.nodup_append.mp (List.nodup_append.mp hnd).1).2.1
    · rw [List.length_cons]
      omega

/-- The relation holds the tree. -/
structure Holds (rel : Relation R) (d : Nat) (t : Tree R d) : Prop where
  repr : Repr rel.nodes d t
  nodup : (ptrs d t).Nodup
  good : Good d true Range.full t
  shallow : d < MAX_TREE_DEPTH
  root : rel.root = ptr t
  depth : rel.depth = d
  count : rel.numRecords = (contents d t).length

/-- The root above the two parts of a divided tree. -/
theorem root_node {t t₁ t₂ : Tree R d} {k : Key}
    (h : Divided nodes nodes' Range.full key v t t₁ t₂ k) :
    Repr (nodes' ++ [toNode (node nodes'.length true true t₁ [(k, t₂)])]) (d + 1)
        (node nodes'.length true true t₁ [(k, t₂)]) ∧
      Good (d + 1) true Range.full (node nodes'.length true true t₁ [(k, t₂)]) := by
  refine ⟨⟨getElem?_new rfl, fun x hx => repr_append ?_ _⟩,
    ⟨rfl, rfl⟩, ⟨h.good₁, h.inside, h.good₂⟩, by simp [FANOUT], by simp, by simp⟩
  rcases List.mem_cons.mp hx with rfl | hx
  · exact h.repr₁
  · obtain rfl := List.mem_singleton.mp hx
    exact h.repr₂

/-- A new root above the two parts of a divided tree, unless the tree becomes too deep. -/
theorem put_root {rel : Relation R} {t t₁ t₂ : Tree R d} {k : Key} (hrel : Holds rel d t)
    (h : Divided rel.nodes nodes' Range.full key v t t₁ t₂ k) :
    (∃ rel' t' π, putEntry { rel with nodes := nodes' } ⟨k, .child (ptr t₂)⟩ key [] =
        some (rel', π) ∧ Holds rel' (d + 1) t' ∧
      contents (d + 1) t' = put key v (contents d t) ∧ SearchPath key (d + 1) t' π) ∨
    (putEntry { rel with nodes := nodes' } ⟨k, .child (ptr t₂)⟩ key [] = none ∧
      2 ^ 61 ≤ (put key v (contents d t)).length) := by
  let t' : Tree R (d + 1) := node nodes'.length true true t₁ [(k, t₂)]
  have contents' : Tree.contents (d + 1) t' = put key v (Tree.contents d t) := by
    rw [contents_node, ← h.contents]
    simp [gather]
  have made : toNode t' = { (createNewNode false true true : BtNode R) with
      ptr0 := some rel.root, entries := [⟨k, .child (ptr t₂)⟩] } := by
    rw [hrel.root, ← h.ptr]
    rfl
  obtain ⟨hm, hg⟩ := root_node h
  by_cases hroom : d + 1 < MAX_TREE_DEPTH
  · have nodup : (ptrs (d + 1) t').Nodup := by
      have same : ptrs (d + 1) t' = nodes'.length :: (ptrs d t₁ ++ ptrs d t₂) := by
        simp [t', gather]
      rw [same]
      refine List.nodup_cons.mpr ⟨fun hmem => ?_, h.grown.nodup⟩
      rcases List.mem_append.mp hmem with hq | hq
      · exact absurd (repr_ptrs_lt h.repr₁ _ hq) (Nat.lt_irrefl _)
      · exact absurd (repr_ptrs_lt h.repr₂ _ hq) (Nat.lt_irrefl _)
    obtain ⟨π, hπ, hsearch⟩ := moveToKey_spec hm hg key [] (by simpa using hroom)
    have count := h.count
    refine Or.inl ⟨⟨nodes' ++ [toNode t'], nodes'.length, rel.numRecords + 1, rel.depth + 1⟩, t',
      π, ?_, ⟨hm, nodup, hg, hroom, rfl, congrArg (· + 1) hrel.depth, ?_⟩, contents', hsearch⟩
    · rw [made, ptr_node, List.append_nil] at hπ
      rw [made]
      simp only [putEntry, hπ, Option.bind_eq_bind, Option.bind_some, Option.pure_def]
    · rw [contents', count, ← hrel.count]
  · refine Or.inr ⟨?_, ?_⟩
    · have fails := moveToKeyIn_deep hm hg key (Nat.not_lt.mp hroom) []
      rw [made, ptr_node] at fails
      simp only [putEntry, moveToKey, List.length_nil, Nat.sub_zero, fails, Option.bind_eq_bind,
        Option.bind_none]
    · rw [← contents']
      by_contra few
      exact hroom (good_depth hg (Nat.not_le.mp few))

/-- `putEntry` at the search path of the key puts the record into the contents; with `2 ^ 61`
records the put of a new key may make the tree too deep for the cursor. -/
theorem putEntry_spec (key : Key) (v : R) {rel : Relation R} {t : Tree R d} (hrel : Holds rel d t)
    {π : Cursor} (hsearch : SearchPath key d t π) :
    (∃ rel' d' t' π', putEntry rel ⟨key, .record v⟩ key π = some (rel', π') ∧ Holds rel' d' t' ∧
      contents d' t' = put key v (contents d t) ∧ SearchPath key d' t' π') ∨
    (putEntry rel ⟨key, .record v⟩ key π = none ∧ key ∉ (contents d t).map Prod.fst ∧
      2 ^ 61 ≤ (put key v (contents d t)).length) := by
  have hout := putEntry_subtree (v := v) hrel.repr hrel.nodup hrel.good (Range.mem_full key)
    hsearch [] (by simpa using hrel.shallow)
  rw [List.append_nil] at hout
  rcases hout with ⟨nodes', t', π', m, hput, hup, hsearch', hm⟩ | ⟨nodes', t₁, t₂, k, hput, hdiv⟩
  · rw [List.append_nil] at hput
    have root : rel.root = ptr t' := by rw [hup.ptr, hrel.root]
    have count : m = (contents d t').length := by
      have := hrel.count
      omega
    exact Or.inl ⟨_, d, t', π', hput, ⟨hup.repr, hup.grown.nodup, hup.good, hrel.shallow, root,
      hrel.depth, count⟩, hup.contents, hsearch'⟩
  · rcases put_root hrel hdiv with ⟨rel', t', π', hstep, hrel', hcontents, hsearch'⟩ | ⟨hstep, many⟩
    · exact Or.inl ⟨rel', _, t', π', hput.trans hstep, hrel', hcontents, hsearch'⟩
    · refine Or.inr ⟨hput.trans hstep, fun present => ?_, many⟩
      have same := length_put_of_mem (v := v) (good_sorted hrel.good) present
      exact absurd (same.symm.trans hdiv.count) (by omega)

/-- From any cursor on the tree, `RL_PutRecord` puts the record into the contents and leaves the
cursor behind the key; with `2 ^ 61` records a new key may make the tree too deep for the cursor. -/
theorem RL_PutRecord_spec (key : Key) (v : R) {rel : Relation R} {t : Tree R d} (hrel : Holds rel d t) {π : Cursor}
    {pos : Nat} (hπ : PathAt d t π pos) :
    (∃ rel' d' t' π', RL_PutRecord rel π key v = some (rel', π') ∧ Holds rel' d' t' ∧
      contents d' t' = put key v (contents d t) ∧
      PathAt d' t' π' (rank key (contents d t) + 1)) ∨
    (RL_PutRecord rel π key v = none ∧ key ∉ (contents d t).map Prod.fst ∧
      2 ^ 61 ≤ (put key v (contents d t)).length) := by
  have hg := hrel.good
  obtain ⟨π₁, hgo, hsearch⟩ := goToKey_spec hrel.repr hg hπ key hrel.shallow
  have call : RL_PutRecord rel π key v = (putEntry rel ⟨key, .record v⟩ key π₁).bind fun x =>
      (RL_MoveToNext x.1.nodes x.2).bind fun π' => some (x.1, π') := by
    rw [RL_PutRecord, hgo]
    rfl
  rcases putEntry_spec key v hrel hsearch with
    ⟨rel', d', t', π₂, hput, hrel', hcontents, hsearch'⟩ | ⟨hput, absent⟩
  · have hpath := searchPath_pathAt hrel'.good (Range.mem_full key) hsearch'
    obtain ⟨π₃, hnext, hpath'⟩ :=
      RL_MoveToNext_spec hrel'.repr hrel'.good hrel'.shallow hpath
    refine Or.inl ⟨rel', d', t', π₃, ?_, hrel', hcontents, ?_⟩
    · simp [call, hput, hnext]
    · have below : rank key (contents d t) < (put key v (contents d t)).length := by
        have := getElem?_rank_of_mem (sorted_put (good_sorted hg))
          (mem_put_self key v (contents d t))
        rw [rank_put_self] at this
        exact (List.getElem?_eq_some_iff.mp this).1
      rwa [hcontents, rank_put_self, Nat.min_eq_left below] at hpath'
  · exact Or.inr ⟨by simp [call, hput], absent⟩

end DeepDB.BTree
