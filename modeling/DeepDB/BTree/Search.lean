import DeepDB.BTree.Tree

/-!
Searching. `moveToKey` walks the search path of a key, `moveToFirst` the path to the first entry,
and `goToKey`, which ascends only as far as it must, ends where a search from the root ends.
-/

namespace DeepDB.BTree
open SortedAssoc Multiway BTree.Tree

variable {R : Type} {d : Nat} {root : Bool} {r : Range Key} {nodes : Nodes R}

/-! ### Searching a node -/

theorem findChildIndexFrom_eq {key : Key} {es : List (Entry R)} {A B : List Key} (i : Int)
    (keys : es.map Entry.key = A ++ B) (below : ∀ a ∈ A, a ≤ key) (above : ∀ b ∈ B, key < b) :
    findChildIndexFrom key es i = i + A.length - 1 := by
  induction es generalizing A i with
  | nil =>
    obtain ⟨rfl, -⟩ := List.append_eq_nil_iff.mp keys.symm
    simp [findChildIndexFrom]
  | cons e es ih =>
    cases A with
    | nil =>
      have he : key < e.key := above _ (by
        rw [List.nil_append] at keys
        rw [← keys]
        exact List.mem_cons_self)
      simp [findChildIndexFrom, he]
    | cons a A =>
      simp only [List.map_cons, List.cons_append, List.cons.injEq] at keys
      have he : ¬ key < e.key := by
        rw [keys.1]
        exact Nat.not_lt.mpr (below a List.mem_cons_self)
      rw [findChildIndexFrom, if_neg he,
        ih _ keys.2 fun x hx => below x (List.mem_cons_of_mem _ hx)]
      simp only [List.length_cons]
      omega

theorem findRecordIndexFrom_eq (key : Key) {es : List (Entry R)} {A B : List Key} (i : Nat)
    (keys : es.map Entry.key = A ++ B) (below : ∀ a ∈ A, a < key) (above : ∀ b ∈ B, key ≤ b) :
    findRecordIndexFrom key es i = i + A.length := by
  induction es generalizing A i with
  | nil =>
    obtain ⟨rfl, -⟩ := List.append_eq_nil_iff.mp keys.symm
    simp [findRecordIndexFrom]
  | cons e es ih =>
    cases A with
    | nil =>
      have he : key ≤ e.key := above _ (by
        rw [List.nil_append] at keys
        rw [← keys]
        exact List.mem_cons_self)
      simp [findRecordIndexFrom, he]
    | cons a A =>
      simp only [List.map_cons, List.cons_append, List.cons.injEq] at keys
      have he : ¬ key ≤ e.key := by
        rw [keys.1]
        exact Nat.not_le.mpr (below a List.mem_cons_self)
      rw [findRecordIndexFrom, if_neg he,
        ih _ keys.2 fun x hx => below x (List.mem_cons_of_mem _ hx)]
      simp only [List.length_cons]
      omega

/-- In a leaf the record index of a key is its rank. -/
theorem findRecordIndex_leaf {p : Ptr} {F L : Bool} {recs : List (Key × R)} (hs : Sorted recs)
    (key : Key) : findRecordIndex (toNode (leaf p F L recs)) key = rank key recs := by
  obtain ⟨below, above⟩ := rank_split (k := key) hs
  have keys : (toNode (leaf p F L recs)).entries.map Entry.key =
      (recs.take (rank key recs)).map Prod.fst ++ (recs.drop (rank key recs)).map Prod.fst := by
    rw [keys_leaf, ← List.map_append, List.take_append_drop]
  have index := findRecordIndexFrom_eq key 0 keys
    (List.forall_mem_map.mpr below) (List.forall_mem_map.mpr above)
  simpa [findRecordIndex, rank_le_length] using index

variable {p : Ptr} {F L : Bool} {t : Tree R d} {ts : List (Key × Tree R d)}
  {pre : List (Tree R d × Key)} {f : Tree R d} {post : List (Key × Tree R d)}

/-- The child index of a key is the index of the child whose separators enclose it. -/
theorem findChildIndex_join {key : Key} (hj : (t, ts) = join pre f post) (hts : 0 < ts.length)
    (below : ∀ x ∈ pre, x.2 ≤ key) (above : ∀ x ∈ post, key < x.1) :
    findChildIndex (toNode (node p F L t ts)) key = some ((pre.length : Int) - 1) := by
  have keys : (toNode (node p F L t ts)).entries.map Entry.key =
      pre.map Prod.snd ++ post.map Prod.fst := by
    rw [keys_node, ← join_seps pre f post, ← hj]
  have pos : 0 < (toNode (node p F L t ts)).numKeys := by
    rw [numKeys_node]
    omega
  rw [findChildIndex, if_pos pos, findChildIndexFrom_eq 0 keys
    (List.forall_mem_map.mpr below) (List.forall_mem_map.mpr above)]
  simp

/-- The pointer of the child at the focus, as `moveToKey` and `moveToNext` read it. -/
theorem entryChild_join {e : Tree R d × Key} (hj : (t, ts) = join (e :: pre) f post) :
    entryChild (toNode (node p F L t ts)) (pre.length : Int) = some (ptr f) := by
  obtain ⟨k, hk⟩ := join_getElem? e pre f post
  rw [← hj] at hk
  simp [entryChild, entryAt, hk]

theorem childAt_join (hj : (t, ts) = join pre f post) :
    childAt (toNode (node p F L t ts)) ((pre.length : Int) - 1) = some (ptr f) := by
  cases pre with
  | nil =>
    obtain ⟨rfl, -⟩ := Prod.mk.inj hj
    simp [childAt]
  | cons e pre =>
    have hne : ¬ ((e :: pre).length : Int) - 1 = -1 := by
      rw [List.length_cons]
      omega
    rw [childAt, if_neg hne, show ((e :: pre).length : Int) - 1 = (pre.length : Int) by simp]
    exact entryChild_join hj

/-! ### Descending -/

theorem mem_of_join (hj : (t, ts) = join pre f post) : f ∈ t :: ts.map Prod.snd := by
  obtain ⟨rfl, rfl⟩ := Prod.mk.inj hj
  exact List.mem_cons.mpr ((mem_join pre f post f).mpr (Or.inr (Or.inl rfl)))

theorem exists_searchPath {t : Tree R d} (hg : Good d root r t) (key : Key) :
    ∃ π, SearchPath key d t π := by
  induction d generalizing root r with
  | zero => exact ⟨_, rfl⟩
  | succ d ih =>
    obtain ⟨p, F, L, t, ts, rfl⟩ := exists_node t
    obtain ⟨pre, f, post, hj, below, above⟩ := exists_focus key t ts hg.2.1
    obtain ⟨π, hsearch⟩ := ih (good_focus hg hj)
    exact ⟨_, pre, f, post, π, hj, ⟨below, above⟩, hsearch, rfl⟩

/-- The search walks the search path of the key. -/
theorem moveToKeyIn_searchPath {t : Tree R d} (hm : Repr nodes d t) (hg : Good d root r t)
    {key : Key} {π : Cursor} (hsearch : SearchPath key d t π) {room : Nat} (hroom : d < room)
    (up : Cursor) : moveToKeyIn nodes key room (ptr t) up = some (π ++ up) := by
  induction d generalizing root r π room up with
  | zero =>
    obtain ⟨room, rfl⟩ : ∃ n, room = n + 1 := ⟨room - 1, by omega⟩
    obtain ⟨p, F, L, recs, rfl⟩ := exists_leaf t
    obtain rfl := hsearch
    have hi := findRecordIndex_leaf (p := p) (F := F) (L := L) hg.2.1 key
    rw [moveToKeyIn, repr_ptr hm, Option.bind_eq_bind, Option.bind_some, hi]
    rfl
  | succ d ih =>
    obtain ⟨room, rfl⟩ : ∃ n, room = n + 1 := ⟨room - 1, by omega⟩
    obtain ⟨p, F, L, t, ts, rfl⟩ := exists_node t
    obtain ⟨pre, f, post, π, hj, ⟨below, above⟩, hsearch, rfl⟩ := hsearch
    have deeper : d < room := by omega
    have hπ := ih (hm.2 f (mem_of_join hj)) (good_focus hg hj) hsearch deeper
      ((p, (pre.length : Int) - 1) :: up)
    have hi := findChildIndex_join (p := p) (F := F) (L := L) hj hg.2.2.2.1 below above
    have hc := childAt_join (p := p) (F := F) (L := L) hj
    rw [moveToKeyIn, repr_ptr hm, Option.bind_eq_bind, Option.bind_some, if_neg (by simp), hi,
      Option.bind_eq_bind, Option.bind_some, hc, Option.bind_eq_bind, Option.bind_some, ptr_node, hπ,
      List.append_assoc, List.singleton_append]

theorem moveToKeyIn_spec {t : Tree R d} (hm : Repr nodes d t) (hg : Good d root r t) (key : Key)
    (room : Nat) (hroom : d < room) (up : Cursor) :
    ∃ π, moveToKeyIn nodes key room (ptr t) up = some (π ++ up) ∧ SearchPath key d t π := by
  obtain ⟨π, hsearch⟩ := exists_searchPath hg key
  exact ⟨π, moveToKeyIn_searchPath hm hg hsearch hroom up, hsearch⟩

/-- `moveToKey` ends at the search path of the key below the given level. -/
theorem moveToKey_spec {t : Tree R d} (hm : Repr nodes d t) (hg : Good d root r t) (key : Key)
    (up : Cursor) (hroom : d + up.length < MAX_TREE_DEPTH) :
    ∃ π, moveToKey nodes (ptr t) key up = some (π ++ up) ∧ SearchPath key d t π :=
  moveToKeyIn_spec hm hg key _ (by omega) up

/-- A tree with more levels than the arrays of the cursor is too deep for the search. -/
theorem moveToKeyIn_deep {t : Tree R d} (hm : Repr nodes d t) (hg : Good d root r t) (key : Key)
    {room : Nat} (deep : room ≤ d) (up : Cursor) : moveToKeyIn nodes key room (ptr t) up = none := by
  induction d generalizing root r room up with
  | zero =>
    obtain rfl : room = 0 := by omega
    rfl
  | succ d ih =>
    cases room with
    | zero => rfl
    | succ room =>
      obtain ⟨p, F, L, t, ts, rfl⟩ := exists_node t
      obtain ⟨pre, f, post, hj, below, above⟩ := exists_focus key t ts hg.2.1
      have hf := good_focus hg hj
      have hi := findChildIndex_join (p := p) (F := F) (L := L) hj hg.2.2.2.1 below above
      have hc := childAt_join (p := p) (F := F) (L := L) hj
      rw [moveToKeyIn, repr_ptr hm, Option.bind_eq_bind, Option.bind_some, if_neg (by simp), hi,
        Option.bind_eq_bind, Option.bind_some, hc, Option.bind_eq_bind, Option.bind_some, ptr_node]
      exact ih (hm.2 f (mem_of_join hj)) hf (by omega) _

theorem moveToFirstIn_spec {t : Tree R d} (hm : Repr nodes d t)
    (room : Nat) (hroom : d < room) (up : Cursor) :
    ∃ π, moveToFirstIn nodes room (ptr t) up = some (π ++ up) ∧ PathAt d t π 0 := by
  induction d generalizing room up with
  | zero =>
    obtain ⟨room, rfl⟩ : ∃ n, room = n + 1 := ⟨room - 1, by omega⟩
    obtain ⟨p, F, L, recs, rfl⟩ := exists_leaf t
    refine ⟨[(p, 0)], ?_, Nat.zero_le _, rfl⟩
    rw [moveToFirstIn, repr_ptr hm]
    rfl
  | succ d ih =>
    obtain ⟨room, rfl⟩ : ∃ n, room = n + 1 := ⟨room - 1, by omega⟩
    obtain ⟨p, F, L, t, ts, rfl⟩ := exists_node t
    obtain ⟨π, hπ, hpath⟩ := ih (hm.2 t List.mem_cons_self) room (by omega)
      ((p, -1) :: up)
    refine ⟨π ++ [(p, -1)], ?_, [], t, ts, π, 0, rfl, hpath, rfl, rfl⟩
    rw [moveToFirstIn, repr_ptr hm]
    simp [hπ]

theorem moveToFirst_spec {t : Tree R d} (hm : Repr nodes d t) (up : Cursor)
    (hroom : d + up.length < MAX_TREE_DEPTH) :
    ∃ π, moveToFirst nodes (ptr t) up = some (π ++ up) ∧ PathAt d t π 0 :=
  moveToFirstIn_spec hm _ (by omega) up

/-! ### Ascending to a parent of the key -/

theorem goToKey_cons {p : Ptr} {i : Int} {up : Cursor} {n : BtNode R} {key : Key} {b : Bool}
    (hup : up ≠ []) (hn : nodes[p]? = some n) (hb : isNodeParent n key = some b) :
    goToKey nodes ((p, i) :: up) key =
      if b then moveToKey nodes p key up else goToKey nodes up key := by
  obtain ⟨e, rest, rfl⟩ := List.exists_cons_of_ne_nil hup
  cases b <;> simp [goToKey, ascendToParent, hn, hb]

/-- A leaf that says it is the parent of a key has it in its range. -/
theorem isNodeParent_leaf {p : Ptr} {F L : Bool} {recs : List (Key × R)}
    (hg : Good 0 root r (leaf p F L recs)) (hne : recs ≠ []) (key : Key) :
    ∃ b, isNodeParent (toNode (leaf p F L recs)) key = some b ∧ (b = true → r.Mem key) := by
  obtain ⟨⟨hF, hL⟩, -, hw, -⟩ := hg
  have hlen : 0 < recs.length := List.length_pos_iff.mpr hne
  have first : entryAt (toNode (leaf p F L recs)) 0 =
      some ⟨(recs[0]).1, .record (recs[0]).2⟩ := by
    simp [entryAt, hlen]
  have last : entryAt (toNode (leaf p F L recs)) ((recs.length : Int) - 1) =
      some ⟨(recs[recs.length - 1]).1, .record (recs[recs.length - 1]).2⟩ := by
    have nonneg : (0 : Int) ≤ (recs.length : Int) - 1 := by omega
    have index : ((recs.length : Int) - 1).toNat = recs.length - 1 := by omega
    rw [entryAt, if_pos nonneg, index]
    simp [hlen]
  have some_keys : ¬ (recs.length : Int) = 0 := by omega
  refine ⟨_, by
    rw [isNodeParent, if_pos (by simp), numKeys_leaf, if_neg some_keys, first, last]
    rfl, ?_⟩
  intro parent
  simp only [toNode_leaf, Bool.and_eq_true, Bool.or_eq_true, decide_eq_true_eq] at parent
  obtain ⟨low, high⟩ := parent
  constructor
  · intro l hl
    rcases low with low | low
    · exact ((hw _ (List.getElem_mem hlen)).1 l hl).trans low
    · rw [hF] at low
      rw [Option.isNone_iff_eq_none.mp low] at hl
      cases hl
  · intro u hu
    rcases high with high | high
    · exact lt_of_le_of_lt high ((hw _ (List.getElem_mem (by omega))).2 u hu)
    · rw [hL] at high
      rw [Option.isNone_iff_eq_none.mp high] at hu
      cases hu

/-- An interior node that says it is the parent of a key has it between two separators. -/
theorem isNodeParent_node {p : Ptr} {F L : Bool} {t : Tree R d} {ts : List (Key × Tree R d)}
    (hg : Good (d + 1) root r (node p F L t ts)) (key : Key) :
    ∃ b, isNodeParent (toNode (node p F L t ts)) key = some b ∧ (b = true → r.Mem key) := by
  obtain ⟨pre, f, post, hj, below, above⟩ := exists_focus key t ts hg.2.1
  have hi := findChildIndex_join (p := p) (F := F) (L := L) hj hg.2.2.2.1 below above
  refine ⟨_, by
    rw [isNodeParent, if_neg (by simp), hi, numKeys_node]
    rfl, ?_⟩
  intro parent
  have hlen : ts.length = pre.length + post.length := by
    rw [← length_join pre f post, ← hj]
  simp only [Bool.not_eq_true', Bool.or_eq_false_iff, beq_eq_false_iff_ne, hlen] at parent
  have inner := (siblings_seps hg.2.1).1
  have seps : ∀ k ∈ pre.map Prod.snd ++ post.map Prod.fst, r.Inside k := by
    rw [← join_seps pre f post, ← hj]
    exact List.forall_mem_map.mpr inner
  obtain ⟨e, he⟩ := List.exists_mem_of_ne_nil pre (by rintro rfl; simp at parent)
  obtain ⟨e', he'⟩ := List.exists_mem_of_ne_nil post (by rintro rfl; simp at parent)
  have low := seps _ (List.mem_append_left _ (List.mem_map_of_mem he))
  have high := seps _ (List.mem_append_right _ (List.mem_map_of_mem he'))
  exact ⟨fun l hl => ((low.1 l hl).trans_le (below e he)).le,
    fun u hu => (above e' he').trans (high.2 u hu)⟩

/-- What ascending from a path inside a subtree does: it leaves the subtree, or the key belongs to
the subtree and the search ends at its search path. -/
theorem goToKey_subtree {t : Tree R d} (hm : Repr nodes d t) (hg : Good d false r t) {π : Cursor}
    {pos : Nat} (hπ : PathAt d t π pos) {up : Cursor} (hup : up ≠ []) (key : Key)
    (hroom : d + up.length < MAX_TREE_DEPTH) :
    goToKey nodes (π ++ up) key = goToKey nodes up key ∨
      (r.Mem key ∧ ∃ π', goToKey nodes (π ++ up) key = some (π' ++ up) ∧ SearchPath key d t π') := by
  induction d generalizing r π pos up with
  | zero =>
    obtain ⟨p, F, L, recs, rfl⟩ := exists_leaf t
    obtain ⟨-, rfl⟩ := hπ
    obtain ⟨b, hb, inside⟩ := isNodeParent_leaf hg (good_nonempty hg) key
    have step := goToKey_cons (i := (pos : Int)) hup (repr_ptr hm) hb
    rw [List.singleton_append]
    cases b with
    | false => exact Or.inl (by simpa using step)
    | true =>
      obtain ⟨π', hπ', hsearch⟩ := moveToKey_spec hm hg key _ hroom
      exact Or.inr ⟨inside rfl, π', by simpa using step.trans hπ', hsearch⟩
  | succ d ih =>
    obtain ⟨p, F, L, t, ts, rfl⟩ := exists_node t
    obtain ⟨pre, f, post, π', pos', hj, hf, rfl, -⟩ := hπ
    have hmf := hm.2 f (mem_of_join hj)
    have hs := hg.2.1
    have hgf := good_focus hg hj
    rw [List.append_assoc, List.singleton_append]
    have deeper : d + ((p, (pre.length : Int) - 1) :: up).length < MAX_TREE_DEPTH := by
      rw [List.length_cons]
      omega
    rcases ih hmf hgf hf (List.cons_ne_nil _ _) deeper with out | ⟨inside, π'', hπ'', hsearch⟩
    · obtain ⟨b, hb, inside⟩ := isNodeParent_node hg key
      have step := goToKey_cons (i := (pre.length : Int) - 1) hup (repr_ptr hm) hb
      rw [out]
      cases b with
      | false => exact Or.inl (by simpa using step)
      | true =>
        obtain ⟨π'', hπ'', hsearch⟩ := moveToKey_spec hm hg key _ hroom
        exact Or.inr ⟨inside rfl, π'', by simpa using step.trans hπ'', hsearch⟩
    · have bounds : r.Mem key ∧ (∀ x ∈ pre, x.2 ≤ key) ∧ ∀ x ∈ post, key < x.1 := by
        obtain ⟨rfl, rfl⟩ := Prod.mk.inj hj
        exact focusRange_seps hs inside
      refine Or.inr ⟨bounds.1, π'' ++ [(p, (pre.length : Int) - 1)], ?_, pre, f, post, π'', hj,
        bounds.2, hsearch, rfl⟩
      rw [hπ'', List.append_assoc, List.singleton_append]

/-- From any path in the tree, `goToKey` ends at the search path of the key from the root. -/
theorem goToKey_spec {t : Tree R d} (hm : Repr nodes d t) (hg : Good d true Range.full t)
    {π : Cursor} {pos : Nat} (hπ : PathAt d t π pos) (key : Key) (hroom : d < MAX_TREE_DEPTH) :
    ∃ π', goToKey nodes π key = some π' ∧ SearchPath key d t π' := by
  have at_root : ∀ i : Int, goToKey nodes [(ptr t, i)] key = moveToKey nodes (ptr t) key [] := by
    intro i
    simp [goToKey, ascendToParent]
  obtain ⟨π₀, search, hsearch⟩ := moveToKey_spec hm hg key [] (by simpa using hroom)
  rw [List.append_nil] at search
  cases d with
  | zero =>
    obtain ⟨p, F, L, recs, rfl⟩ := exists_leaf t
    obtain ⟨-, rfl⟩ := hπ
    exact ⟨π₀, (at_root _).trans search, hsearch⟩
  | succ d =>
    obtain ⟨p, F, L, t, ts, rfl⟩ := exists_node t
    obtain ⟨pre, f, post, π', pos', hj, hf, rfl, -⟩ := hπ
    have hs := hg.2.1
    have hgf := good_focus hg hj
    rcases goToKey_subtree (hm.2 f (mem_of_join hj)) hgf hf (List.cons_ne_nil _ []) key
      (by simpa using hroom) with out | ⟨inside, π'', hπ'', hfound⟩
    · exact ⟨π₀, out.trans ((at_root _).trans search), hsearch⟩
    · have bounds : Range.full.Mem key ∧ (∀ x ∈ pre, x.2 ≤ key) ∧ ∀ x ∈ post, key < x.1 := by
        obtain ⟨rfl, rfl⟩ := Prod.mk.inj hj
        exact focusRange_seps hs inside
      exact ⟨_, hπ'', pre, f, post, π'', hj, bounds.2, hfound, rfl⟩

/-- The fast path ends where the search from the root ends. -/
theorem goToKey_eq {t : Tree R d} (hm : Repr nodes d t) (hg : Good d true Range.full t)
    {π : Cursor} {pos : Nat} (hπ : PathAt d t π pos) (key : Key) (hroom : d < MAX_TREE_DEPTH) :
    ∃ path, moveToKey nodes (ptr t) key [] = some path ∧ goToKey nodes π key = some path := by
  obtain ⟨path, hgo, hsearch⟩ := goToKey_spec hm hg hπ key hroom
  have search : moveToKey nodes (ptr t) key [] = some (path ++ []) :=
    moveToKeyIn_searchPath hm hg hsearch hroom []
  rw [List.append_nil] at search
  exact ⟨path, search, hgo⟩

end DeepDB.BTree
