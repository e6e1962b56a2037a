import DeepDB.Functional.Put

/-!
What a put loses. Off the left path the update of the cursor drops a subtree; a key that is gone
from the relation, the cursor and the entry never comes back.
-/

namespace DeepDB.Functional
open SortedAssoc Multiway

variable {V X : Type} {d : Nat} {root : Bool} {r : Range Key} {key lost : Key}

/-! ### Nodes without a key -/

def EntryWithout (lost : Key) (e : Entry V X) : Prop := lost ∉ (absEntry e).map Prod.fst

def Without (lost : Key) (n : Node V X) : Prop := lost ∉ (absNode n).map Prod.fst

theorem without_btnode {ptr0 : Option (Node V X)} {le : List (Entry V X)} {b F L : Bool} {x : X} :
    Without lost (.btnode ptr0 le b F L x) ↔
      (∀ n ∈ ptr0, Without lost n) ∧ ∀ e ∈ le, EntryWithout lost e := by
  have entries : lost ∉ (absLe le).map Prod.fst ↔ ∀ e ∈ le, EntryWithout lost e := by
    induction le with
    | nil => simp [absLe]
    | cons e le ih =>
      rw [absLe, List.map_append, List.mem_append, not_or, ih, List.forall_mem_cons, EntryWithout]
  have first : lost ∉ (absPtr0 ptr0).map Prod.fst ↔ ∀ n ∈ ptr0, Without lost n := by
    cases ptr0 with
    | none => simp [absPtr0]
    | some n => simp [absPtr0, Without]
  rw [Without, absNode, List.map_append, List.mem_append, not_or, entries, first]

theorem mem_insertLe {e a : Entry V X} {le : List (Entry V X)} (h : a ∈ insertLe e le) :
    a = e ∨ a ∈ le := by
  induction le with
  | nil => exact Or.inl (List.mem_singleton.mp h)
  | cons e' le ih =>
    rw [insertLe] at h
    split at h
    · exact List.mem_cons.mp h
    · rcases List.mem_cons.mp h with rfl | h
      · exact Or.inr List.mem_cons_self
      · exact (ih h).imp id (List.mem_cons_of_mem _)

theorem mem_updateLe {e a : Entry V X} {le : List (Entry V X)} (h : a ∈ updateLe e le) :
    a = e ∨ a ∈ le := by
  induction le with
  | nil => cases h
  | cons e' le ih =>
    rw [updateLe] at h
    split at h
    · exact (List.mem_cons.mp h).imp id (List.mem_cons_of_mem _)
    · rcases List.mem_cons.mp h with rfl | h
      · exact Or.inr List.mem_cons_self
      · exact (ih h).imp id (List.mem_cons_of_mem _)

theorem mem_updateLeNthChild {n : Node V X} {a : Entry V X} {i : Int} {le : List (Entry V X)}
    (h : a ∈ updateLeNthChild n i le) : (∃ k, a = .keychild k n) ∨ a ∈ le := by
  induction le generalizing i with
  | nil => cases h
  | cons e le ih =>
    rw [updateLeNthChild] at h
    split at h
    · rcases List.mem_cons.mp h with rfl | h
      · exact Or.inl ⟨_, rfl⟩
      · exact Or.inr (List.mem_cons_of_mem _ h)
    · exact (ih h).imp id (List.mem_cons_of_mem _)

/-! ### A lost key stays lost -/

theorem without_updateNode {n y : Node V X} (hn : Without lost n) (hy : Without lost y) (i : Int) :
    Without lost (updateNodeNthChild i n y) := by
  obtain ⟨ptr0, le, b, F, L, x⟩ := n
  obtain ⟨hptr0, hle⟩ := without_btnode.mp hn
  rw [updateNodeNthChild]
  split
  · refine without_btnode.mpr ⟨fun m hm => ?_, hle⟩
    obtain rfl := Option.mem_some.mp hm
    exact hy
  · refine without_btnode.mpr ⟨hptr0, fun e he => ?_⟩
    rcases mem_updateLeNthChild he with ⟨k, rfl⟩ | he
    · exact hy
    · exact hle e he

def CursorWithout (lost : Key) (c : Cursor V X) : Prop := ∀ e ∈ c, Without lost e.1

theorem without_updatePartial {c : Cursor V X} (hc : CursorWithout lost c) {y : Node V X}
    (hy : Without lost y) (rel : Relation V X) :
    CursorWithout lost (updatePartialCursorRel c rel y).1 ∧
      Without lost (updatePartialCursorRel c rel y).2.1 := by
  induction c generalizing y with
  | nil => exact ⟨fun _ he => (List.not_mem_nil he).elim, hy⟩
  | cons e c ih =>
    obtain ⟨n, i⟩ := e
    obtain ⟨hn, hc⟩ := List.forall_mem_cons.mp hc
    have hnew := without_updateNode hn hy i
    obtain ⟨hc', hroot⟩ := ih hc hnew
    exact ⟨List.forall_mem_cons.mpr ⟨hnew, hc'⟩, hroot⟩

theorem without_inserted {ptr0 : Option (Node V X)} {le : List (Entry V X)} {b F L : Bool} {x : X}
    {e : Entry V X} (hn : Without lost (.btnode ptr0 le b F L x)) (he : EntryWithout lost e) :
    (∀ n ∈ ptr0, Without lost n) ∧ ∀ a ∈ insertLe e le, EntryWithout lost a := by
  obtain ⟨hptr0, hle⟩ := without_btnode.mp hn
  refine ⟨hptr0, fun a ha => ?_⟩
  rcases mem_insertLe ha with rfl | ha
  · exact he
  · exact hle a ha

theorem without_splitnode {n : Node V X} {e : Entry V X} (hn : Without lost n)
    (he : EntryWithout lost e) (newx : X) :
    Without lost (splitnodeLeft n e) ∧ EntryWithout lost (splitnodeRight n e newx) := by
  obtain ⟨ptr0, le, b, F, L, x⟩ := n
  obtain ⟨hptr0, hle⟩ := without_inserted hn he
  refine ⟨without_btnode.mpr ⟨hptr0, fun a ha => hle a (List.mem_of_mem_take ha)⟩, ?_⟩
  rw [splitnodeRight]
  cases hmid : (insertLe e le)[Middle]? with
  | none => exact he
  | some mid =>
    have hmid := hle mid (List.mem_of_getElem? hmid)
    cases b with
    | true =>
      have hnew : Without lost (splitnodeLeafnode le e newx L) :=
        without_btnode.mpr ⟨by simp, fun a ha => hle a (List.mem_of_mem_drop ha)⟩
      exact hnew
    | false =>
      cases mid with
      | keyval k v x' => exact he
      | keychild k child =>
        have hnew : Without lost (splitnodeInternnode le e newx L child) := by
          refine without_btnode.mpr ⟨fun m hm => ?_, fun a ha => hle a (List.mem_of_mem_drop ha)⟩
          obtain rfl := Option.mem_some.mp hm
          exact hmid
        exact hnew

/-- The three ways `putEntry` goes on at a node; each replaces the node first. -/
theorem putEntryIn_cons (key : Key) (n : Node V X) (i : Int) (c : Cursor V X) (rel : Relation V X)
    (e : Entry V X) (newx : List X) (x : X) (length : Nat) :
    (∃ n', (∀ lost, Without lost n → EntryWithout lost e → Without lost n') ∧
      (putEntryIn key x (length + 1) ((n, i) :: c) rel e newx).2 =
        (updatePartialCursorRel c rel n').2) ∨
    putEntryIn key x (length + 1) ((n, i) :: c) rel e newx =
      putEntryIn key x length (updatePartialCursorRel c rel (splitnodeLeft n e)).1
        (updatePartialCursorRel c rel (splitnodeLeft n e)).2
        (splitnodeRight n e (newx.headD x)) newx.tail := by
  obtain ⟨ptr0, le, b, F, L, x₀⟩ := n
  by_cases hin : (b && keyInLe (entryKey e) le) = true
  · refine Or.inl ⟨.btnode ptr0 (updateLe e le) b F L x₀, fun lost hn he => ?_, ?_⟩
    · obtain ⟨hptr0, hle⟩ := without_btnode.mp hn
      refine without_btnode.mpr ⟨hptr0, fun a ha => ?_⟩
      rcases mem_updateLe ha with rfl | ha
      · exact he
      · exact hle a ha
    · simp only [putEntryIn, hin, if_true, updateCurrnodeCursorRel]
  · by_cases full : fullnode (.btnode ptr0 le b F L x₀) = true
    · refine Or.inr ?_
      simp only [putEntryIn, hin, full, if_true, updateCurrnodeCursorRel, List.tail_cons]
      rfl
    · refine Or.inl ⟨.btnode ptr0 (insertLe e le) b F L x₀,
        fun lost hn he => without_btnode.mpr (without_inserted hn he), ?_⟩
      simp only [putEntryIn, hin, full, updateCurrnodeCursorRel]
      cases b <;> rfl

theorem putEntryIn_without {length : Nat} {c : Cursor V X} {rel : Relation V X} {e : Entry V X}
    (hc : CursorWithout lost c) (hrel : Without lost rel.1) (he : EntryWithout lost e)
    (newx : List X) (x : X) :
    Without lost (putEntryIn key x length c rel e newx).2.1 := by
  induction length generalizing c rel e newx with
  | zero => exact hrel
  | succ length ih =>
    cases c with
    | nil =>
      refine without_btnode.mpr ⟨fun m hm => ?_, fun a ha => ?_⟩
      · obtain rfl := Option.mem_some.mp hm
        exact hrel
      · obtain rfl := List.mem_singleton.mp ha
        exact he
    | cons ni c =>
      obtain ⟨n, i⟩ := ni
      obtain ⟨hn, hc⟩ := List.forall_mem_cons.mp hc
      rcases putEntryIn_cons key n i c rel e newx x length with ⟨n', hn', same⟩ | same
      · rw [same]
        exact (without_updatePartial hc (hn' lost hn he) rel).2
      · obtain ⟨hleft, hright⟩ := without_splitnode hn he (newx.headD x)
        obtain ⟨hc', hrel'⟩ := without_updatePartial hc hleft rel
        rw [same]
        exact ih hc' hrel' hright newx.tail

/-! ### The first update of a path -/

theorem moveToKey_append {n : Node V X} (h : WellFormed d root r n) (hk : r.Mem key)
    (up : Cursor V X) : moveToKey n key up = moveToKey n key [] ++ up := by
  induction d generalizing root r n up with
  | zero =>
    have leaf := (wellFormed_isLeaf h).mpr rfl
    rw [moveToKey_leaf leaf, moveToKey_leaf leaf]
    rfl
  | succ d ih =>
    have whole := h
    obtain ⟨t, ts, F, L, x₀, rfl, -, hs, -⟩ := h
    obtain ⟨pre, f, post, hj, below, above⟩ := exists_focus key t ts hs
    obtain ⟨rfl, rfl⟩ := Prod.mk.inj hj
    have hf := siblings_focus hs
    have hkf := focusRange_mem hk below above
    rw [moveToKey_join whole hf below above, moveToKey_join whole hf below above, ih hf hkf,
      ih hf hkf [_], List.append_assoc]
    rfl

theorem without_internNode {t : Node V X} {ts : List (Key × Node V X)} {F L : Bool} {x : X} :
    Without lost (internNode t ts F L x) ↔ ∀ y ∈ t :: ts.map Prod.snd, Without lost y := by
  rw [internNode, without_btnode]
  simp only [Option.mem_some_iff, forall_eq', List.forall_mem_map, List.forall_mem_cons]
  rfl

theorem moveToKey_without {n : Node V X} (h : WellFormed d root r n) (hk : r.Mem key)
    (hn : Without lost n) : CursorWithout lost (moveToKey n key []) := by
  induction d generalizing root r n with
  | zero =>
    rw [moveToKey_leaf ((wellFormed_isLeaf h).mpr rfl)]
    intro e he
    obtain rfl := List.mem_singleton.mp he
    exact hn
  | succ d ih =>
    have whole := h
    obtain ⟨t, ts, F, L, x₀, rfl, -, hs, -⟩ := h
    obtain ⟨pre, f, post, hj, below, above⟩ := exists_focus key t ts hs
    obtain ⟨rfl, rfl⟩ := Prod.mk.inj hj
    have hf := siblings_focus hs
    have hkf := focusRange_mem hk below above
    have hfw := without_internNode.mp hn f
      (List.mem_cons.mpr ((mem_join pre f post f).mpr (Or.inr (Or.inl rfl))))
    rw [moveToKey_join whole hf below above, moveToKey_append hf hkf]
    intro e he
    rcases List.mem_append.mp he with he | he
    · exact ih hf hkf hfw e he
    · obtain rfl := List.mem_singleton.mp he
      exact hn

theorem updatePartial_append (c : Cursor V X) (n : Node V X) (i : Int) (rel : Relation V X)
    (y : Node V X) :
    updatePartialCursorRel (c ++ [(n, i)]) rel y =
      ((updatePartialCursorRel c rel y).1 ++
          [(updateNodeNthChild i n (updatePartialCursorRel c rel y).2.1, i)],
        (updateNodeNthChild i n (updatePartialCursorRel c rel y).2.1, rel.2)) := by
  induction c generalizing y with
  | nil => rfl
  | cons e c ih =>
    obtain ⟨m, j⟩ := e
    simp only [List.cons_append, updatePartialCursorRel, ih]

/-- After an update at the cursor `c` the key `lost` is nowhere. -/
def Drops (lost : Key) (c : Cursor V X) : Prop := ∀ rel y, Without lost y →
  CursorWithout lost (updatePartialCursorRel c rel y).1 ∧
    Without lost (updatePartialCursorRel c rel y).2.1

section
variable {pre : List (Node V X × Key)} {f : Node V X} {post : List (Key × Node V X)}
  {F L : Bool} {x : X}

/-- A key that an update of the child drops is dropped by the update of the node, if it is neither
in a child the node keeps nor behind the child. -/
theorem drops_append {c : Cursor V X} (h : Drops lost c)
    (hpre : ∀ y ∈ (pre.take 1).map Prod.fst, Without lost y)
    (hpost : ∀ y ∈ post.map Prod.snd, Without lost y) :
    Drops lost (c ++ [(internNode (join pre f post).1 (join pre f post).2 F L x,
      (pre.length : Int) - 1)]) := by
  intro rel y hy
  obtain ⟨hc, hroot⟩ := h rel y hy
  have hnew : Without lost (updateNodeNthChild ((pre.length : Int) - 1)
      (internNode (join pre f post).1 (join pre f post).2 F L x)
      (updatePartialCursorRel c rel y).2.1) := by
    rw [updateNode_join, without_internNode]
    intro z hz
    rcases (mem_join _ _ post z).mp (List.mem_cons.mp hz) with hz | rfl | hz
    · exact hpre z (mem_kept hz)
    · exact hroot
    · exact hpost z hz
  rw [updatePartial_append]
  refine ⟨fun e he => ?_, hnew⟩
  rcases List.mem_append.mp he with he | he
  · exact hc e he
  · obtain rfl := List.mem_singleton.mp he
    exact hnew

theorem without_flatMap {T : Type} {l : List T} {c : T → Node V X} :
    lost ∉ (l.flatMap fun y => absNode (c y)).map Prod.fst ↔ ∀ y ∈ l.map c, Without lost y := by
  induction l with
  | nil => simp
  | cons y l ih =>
    rw [List.flatMap_cons, List.map_append, List.mem_append, not_or, ih, List.map_cons,
      List.forall_mem_cons, Without]

/-- A key of a child that the node gives up is in no other child. -/
theorem without_beside_dropped
    (hs : Siblings (WellFormed d false) r (join pre f post).1 (join pre f post).2)
    (hlost : lost ∈ ((pre.drop 1).flatMap fun y => absNode y.1).map Prod.fst) :
    (∀ y ∈ (pre.take 1).map Prod.fst, Without lost y) ∧ Without lost f ∧
      ∀ y ∈ post.map Prod.snd, Without lost y := by
  have sorted := siblings_sorted (c := absNode) (fun _ _ => wellFormed_within)
    (fun _ _ => wellFormed_sorted) hs
  rw [gather_join, ← List.take_append_drop 1 pre, List.flatMap_append, List.append_assoc,
    List.append_assoc] at sorted
  obtain ⟨-, right, -⟩ := sorted_append.mp sorted
  refine ⟨without_flatMap.mp fun h => ?_, fun h => ?_, without_flatMap.mp fun h => ?_⟩
  · exact sorted_disjoint sorted h (by simpa using Or.inl hlost)
  · exact sorted_disjoint right hlost (by simpa using Or.inl h)
  · exact sorted_disjoint right hlost (by simpa using Or.inr h)

/-- A key of a child is in no other child. -/
theorem without_beside
    (hs : Siblings (WellFormed d false) r (join pre f post).1 (join pre f post).2)
    (hlost : lost ∈ (absNode f).map Prod.fst) :
    (∀ y ∈ pre.map Prod.fst, Without lost y) ∧ ∀ y ∈ post.map Prod.snd, Without lost y := by
  have sorted := siblings_sorted (c := absNode) (fun _ _ => wellFormed_within)
    (fun _ _ => wellFormed_sorted) hs
  rw [gather_join, List.append_assoc] at sorted
  obtain ⟨-, right, -⟩ := sorted_append.mp sorted
  refine ⟨without_flatMap.mp fun h => ?_, without_flatMap.mp fun h => ?_⟩
  · exact sorted_disjoint sorted h (by simpa using Or.inl hlost)
  · exact sorted_disjoint right hlost h

end

/-- Off the left path some key is gone from everything after the first update, wherever the key
that is put is not. -/
theorem exists_lost {n : Node V X} (h : WellFormed d root r n) (hk : r.Mem key)
    (notLeft : ¬ LeftPath key d n) :
    ∃ lost leaf i c, ¬ Without lost n ∧ lost ≠ key ∧ moveToKey n key [] = (leaf, i) :: c ∧
      Without lost leaf ∧ Drops lost c := by
  induction d generalizing root r n with
  | zero => exact absurd trivial notLeft
  | succ d ih =>
    have whole := h
    obtain ⟨t, ts, F, L, x₀, rfl, -, hs, -⟩ := h
    obtain ⟨pre, f, post, hj, below, above⟩ := exists_focus key t ts hs
    obtain ⟨rfl, rfl⟩ := Prod.mk.inj hj
    have hf := siblings_focus hs
    have hkf := focusRange_mem hk below above
    have descent := moveToKey_join whole hf below above []
    rw [moveToKey_append hf hkf] at descent
    have present : ∀ lost y, (y ∈ pre.map Prod.fst ∨ y = f) → ¬ Without lost y →
        ¬ Without lost (internNode (join pre f post).1 (join pre f post).2 F L x₀) := by
      refine fun lost y hy hne hw => hne (without_internNode.mp hw y (List.mem_cons.mpr ?_))
      exact (mem_join pre f post y).mpr (hy.imp id Or.inl)
    by_cases few : pre.length ≤ 1
    · have notLeft' : ¬ LeftPath key d f := fun left =>
        notLeft ((leftPath_join below above).mpr ⟨few, left⟩)
      obtain ⟨lost, leaf, i, c, hlost, hne, hpath, hleaf, drops⟩ := ih hf hkf notLeft'
      obtain ⟨hpre, hpost⟩ := without_beside hs (not_not.mp hlost)
      rw [hpath] at descent
      refine ⟨lost, leaf, i, _, present lost f (Or.inr rfl) hlost, hne, descent, hleaf,
        drops_append drops (fun y hy => hpre y ?_) hpost⟩
      rw [List.map_take] at hy
      exact List.mem_of_mem_take hy
    · obtain ⟨e, he⟩ : ∃ e, e ∈ pre.drop 1 := by
        refine List.exists_mem_of_ne_nil _ fun none => few ?_
        exact List.drop_eq_nil_iff.mp none
      have hepre := List.mem_of_mem_drop he
      have hmem : e.1 ∈ (join pre f post).1 :: (join pre f post).2.map Prod.snd :=
        List.mem_cons.mpr ((mem_join pre f post e.1).mpr (Or.inl (List.mem_map_of_mem hepre)))
      obtain ⟨q, hq⟩ := siblings_mem hs e.1 hmem
      obtain ⟨record, hrecord⟩ := List.exists_mem_of_ne_nil _ (wellFormed_nonempty hq)
      have hlost : record.1 ∈ ((pre.drop 1).flatMap fun y => absNode y.1).map Prod.fst :=
        List.mem_map_of_mem (List.mem_flatMap.mpr ⟨e, he, hrecord⟩)
      obtain ⟨hpre, hfw, hpost⟩ := without_beside_dropped hs hlost
      have hne : record.1 ≠ key := by
        obtain ⟨outer, -⟩ := focus_outer (fun _ _ => wellFormed_within) hs hkf
        exact (outer record (List.mem_flatMap.mpr ⟨e, hepre, hrecord⟩)).ne
      have without := moveToKey_without hf hkf hfw
      obtain ⟨head, c, hpath⟩ := List.exists_cons_of_length_pos
        (show 0 < (moveToKey f key []).length by rw [moveToKey_length hf hkf]; omega)
      obtain ⟨leaf, i⟩ := head
      rw [hpath] at without descent
      obtain ⟨hleaf, hc⟩ := List.forall_mem_cons.mp without
      refine ⟨record.1, leaf, i, _, present _ e.1 (Or.inl (List.mem_map_of_mem hepre)) ?_, hne,
        descent, hleaf, drops_append (fun rel y hy => without_updatePartial hc hy rel) hpre hpost⟩
      exact fun hw => hw (List.mem_map_of_mem hrecord)

/-! ### The whole put -/

/-- Off the left path the put loses a key. -/
theorem absNode_put_loses {n : Node V X} (h : WellFormed d true Range.full n)
    (notLeft : ¬ LeftPath key d n) (prel : X) (v : V) (x c : X) (newx : List X) :
    absNode (putEntry (moveToKey n key []) (n, prel) (.keyval key v x) key newx c).2.1 ≠
      put key v (absNode n) := by
  obtain ⟨lost, leaf, i, path, hlost, hne, hpath, hleaf, drops⟩ :=
    exists_lost h (Range.mem_full key) notLeft
  have he : EntryWithout lost (.keyval key v x : Entry V X) := by simpa [EntryWithout, absEntry]
  intro same
  have gone : Without lost
      (putEntry (moveToKey n key []) (n, prel) (.keyval key v x) key newx c).2.1 := by
    rw [putEntry, hpath]
    rcases putEntryIn_cons key leaf i path (n, prel) (.keyval key v x) newx c
      (path.length + 1) with ⟨leaf', hleaf', step⟩ | step
    · rw [List.length_cons, step]
      exact (drops _ leaf' (hleaf' lost hleaf he)).2
    · obtain ⟨hleft, hright⟩ := without_splitnode hleaf he (newx.headD c)
      obtain ⟨hc, hrel⟩ := drops (n, prel) _ hleft
      rw [List.length_cons, step]
      exact putEntryIn_without hc hrel hright newx.tail c
  rw [Without, same, mem_keys_put, not_or] at gone
  exact hlost gone.2

/-- `RL_PutRecord` is the insertion into the sorted map exactly for the keys below the second
separator of every interior node on their way. -/
theorem RL_PutRecord_sortedMap_iff {n : Node V X} (h : WellFormed d true Range.full n)
    {c : Cursor V X} (hc : completeCursor c n) (prel : X) (key : Key) (record : V) (x e : X)
    (newx : List X) :
    absNode (RL_PutRecord c (n, prel) key record x newx e).2.1 = put key record (absNode n) ↔
      LeftPath key (nodeDepth n) n := by
  rw [RL_PutRecord, goToKey_eq h hc, wellFormed_depth h]
  constructor
  · intro same
    by_contra notLeft
    exact absNode_put_loses h notLeft prel record x e newx same
  · exact fun left => absNode_put_of_leftPath h left prel record x e newx

/-! ### Three leaves -/

def leafFrom (k : Key) (First Last : Bool) : Node Nat Unit :=
  leafNode ((List.range 8).map fun i => (k + i, 0, ())) First Last ()

/-- A root with the leaves of 0 to 7, 10 to 17 and 20 to 27. -/
def threeLeaves : Node Nat Unit :=
  internNode (leafFrom 0 true false) [(10, leafFrom 10 false false), (20, leafFrom 20 false true)]
    true true ()

def firstCursor : Cursor Nat Unit := [(leafFrom 0 true false, 0), (threeLeaves, -1)]

theorem threeLeaves_wellFormed : WellFormed 1 true Range.full threeLeaves := by
  have leaf : ∀ (k : Key) (F L : Bool) (r : Range Key), F = r.lo.isNone → L = r.hi.isNone →
      (∀ l ∈ r.lo, l ≤ k) → (∀ u ∈ r.hi, k + 7 < u) →
      WellFormed 0 false r (leafFrom k F L) := by
    intro k F L r hF hL low high
    refine ⟨_, F, L, (), rfl, ⟨hF, hL⟩, ?_, ?_, by simp [Fanout], by simp⟩
    · simp [Sorted, List.range, List.range.loop]
    · intro y hy
      obtain ⟨i, hi, rfl⟩ := List.mem_map.mp hy
      have hi := List.mem_range.mp hi
      have below : k + i ≤ k + 7 := Nat.add_le_add_left (Nat.le_of_lt_succ hi) k
      exact ⟨fun l hl => (low l hl).trans (Nat.le_add_right k i),
        fun u hu => below.trans_lt (high u hu)⟩
  refine ⟨_, _, true, true, (), rfl, ⟨rfl, rfl⟩, ⟨leaf 0 true false _ rfl rfl ?_ ?_, ?_,
    leaf 10 false false _ rfl rfl ?_ ?_, ?_, leaf 20 false true _ rfl rfl ?_ ?_⟩, by decide, by decide⟩
  all_goals simp [Range.Inside, Range.left, Range.right, Range.full]

theorem firstCursor_complete : completeCursor firstCursor threeLeaves :=
  ⟨⟨rfl, rfl⟩, rfl, by decide, by decide⟩

/-- A put of 15 goes to the first entry of the root, so it keeps the other leaves. -/
theorem RL_PutRecord_fifteen :
    absNode (RL_PutRecord firstCursor (threeLeaves, ()) 15 1 () [] ()).2.1 =
      put 15 1 (absNode threeLeaves) := by
  refine (RL_PutRecord_sortedMap_iff threeLeaves_wellFormed firstCursor_complete () 15 1 () ()
    []).mpr ⟨fun e he => ?_, fun _ _ => trivial⟩
  obtain rfl := Option.some.inj he
  decide

/-- A put of 25 loses the leaf of 10 to 17. -/
theorem RL_PutRecord_loses_leaf :
    ¬ ∀ (d : Nat) (n : Node Nat Unit) (c : Cursor Nat Unit) (key : Key) (record : Nat),
      WellFormed d true Range.full n → completeCursor c n →
      absNode (RL_PutRecord c (n, ()) key record () [] ()).2.1 = put key record (absNode n) := by
  intro always
  have whole := always 1 threeLeaves firstCursor 25 1 threeLeaves_wellFormed firstCursor_complete
  have lengths : (absNode (RL_PutRecord firstCursor (threeLeaves, ()) 25 1 () [] ()).2.1).length ≠
      (put 25 1 (absNode threeLeaves)).length := by decide
  exact lengths (congrArg List.length whole)

end DeepDB.Functional
