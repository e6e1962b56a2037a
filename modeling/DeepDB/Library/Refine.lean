import DeepDB.Library.Search
import DeepDB.BTree.Run

/-!
The copy that is built does what the verified copy does. Every call, from a cursor anywhere on the
tree, gives the result of the verified copy and its relation with the flags of interior nodes
forgotten; so every sequence of calls has the same results.
-/

namespace DeepDB.Library
open SortedAssoc Multiway
open BTree hiding findChildIndexFrom findChildIndex moveToKeyIn moveToKey isNodeParent
  ascendToParent goToKey moveToNext skipLeafEnd RL_MoveToNext RL_GetKey RL_GetRecord RL_MoveToKey
  RL_MoveToFirst RL_NewRelation RL_NewCursor RL_CursorIsValid RL_IsEmpty RL_NumRecords splitnode
  putEntry RL_PutRecord State Result step
open BTree.Tree

variable {R : Type} {d : Nat} {root : Bool} {r : Range Key} {nodes nodes' : Nodes R}
  {n : BtNode R} {p : Ptr} {i : Int} {up π : Cursor} {key : Key}

def forgetRel (rel : Relation R) : Relation R := { rel with nodes := rel.nodes.map forget }

/-! ### Ascending to a parent of the key -/

theorem goToKey_leaf (hup : up ≠ []) (hn : nodes[p]? = some n) (leaf : n.isLeaf = true)
    {lowest highest : Entry R} (first : entryAt n 0 = some lowest)
    (last : entryAt n (n.numKeys - 1) = some highest) :
    goToKey nodes ((p, i) :: up) key =
      if (lowest.key ≤ key ∧ key ≤ highest.key) ∨ (lowest.key ≤ key ∧ n.Last) ∨
        (key ≤ highest.key ∧ n.First) then moveToKey nodes p key up else goToKey nodes up key := by
  obtain ⟨e, rest, rfl⟩ := List.exists_cons_of_ne_nil hup
  simp only [goToKey, ascendToParent, hn, leaf, first, last, Option.bind_eq_bind,
    Option.bind_some, if_true]
  split
  · rfl
  · rfl

theorem goToKey_interior (hup : up ≠ []) (hn : nodes[p]? = some n) (interior : n.isLeaf = false)
    {b : Bool} (parent : isNodeParent n key = some b) :
    goToKey nodes ((p, i) :: up) key =
      if b then moveToKey nodes p key up else goToKey nodes up key := by
  obtain ⟨e, rest, rfl⟩ := List.exists_cons_of_ne_nil hup
  cases b <;> simp [goToKey, ascendToParent, hn, interior, parent]

/-- A leaf that is not both the first and the last one. -/
theorem goToKey_forget_leaf {F L : Bool} {recs : List (Key × R)}
    (hm : Repr nodes 0 (leaf p F L recs)) (hg : Good 0 false r (leaf p F L recs))
    (bounded : r.lo ≠ none ∨ r.hi ≠ none) (hup : up ≠ [])
    (above : goToKey (nodes.map forget) up key = BTree.goToKey nodes up key) :
    goToKey (nodes.map forget) ((p, i) :: up) key = BTree.goToKey nodes ((p, i) :: up) key := by
  have hnode := repr_ptr hm
  rw [ptr_leaf] at hnode
  have same : (nodes.map forget)[p]? = some (toNode (leaf p F L recs)) := by
    rw [getElem?_forget, hnode, Option.map_some, forget_leaf (by simp)]
  have nonempty : recs ≠ [] := good_nonempty hg
  have flags : ¬ (F = true ∧ L = true) := by
    rintro ⟨hF, hL⟩
    rw [hg.1.1, Option.isNone_iff_eq_none] at hF
    rw [hg.1.2, Option.isNone_iff_eq_none] at hL
    exact bounded.elim (absurd hF) (absurd hL)
  have hlen : 0 < recs.length := List.length_pos_iff.mpr nonempty
  have first : entryAt (toNode (leaf p F L recs)) 0 =
      some ⟨(recs[0]).1, .record (recs[0]).2⟩ := by
    simp [entryAt, hlen]
  have last : entryAt (toNode (leaf p F L recs)) ((toNode (leaf p F L recs)).numKeys - 1) =
      some ⟨(recs[recs.length - 1]).1, .record (recs[recs.length - 1]).2⟩ := by
    have nonneg : (0 : Int) ≤ (recs.length : Int) - 1 := by omega
    have index : ((recs.length : Int) - 1).toNat = recs.length - 1 := by omega
    rw [numKeys_leaf, entryAt, if_pos nonneg, index]
    simp [hlen]
  have parent : BTree.isNodeParent (toNode (leaf p F L recs)) key =
      some (((recs[0]).1 ≤ key || F) && (key ≤ (recs[recs.length - 1]).1 || L)) := by
    have filled : ¬ (toNode (leaf p F L recs)).numKeys = 0 := by
      rw [numKeys_leaf]
      omega
    rw [BTree.isNodeParent, if_pos (by simp), if_neg filled, first, last]
    rfl
  have move : moveToKey (nodes.map forget) p key up = BTree.moveToKey nodes p key up :=
    moveToKey_forget hm hg key up
  rw [goToKey_leaf hup same (by simp) first last, BTree.goToKey_cons hup hnode parent, move, above]
  congr 1
  simp only [toNode_leaf, Bool.and_eq_true, Bool.or_eq_true, decide_eq_true_eq, eq_iff_iff]
  tauto

theorem goToKey_forget_node {F L : Bool} {t : Tree R d} {ts : List (Key × Tree R d)}
    (hm : Repr nodes (d + 1) (node p F L t ts)) (hg : Good (d + 1) root r (node p F L t ts))
    (hup : up ≠ []) (above : goToKey (nodes.map forget) up key = BTree.goToKey nodes up key) :
    goToKey (nodes.map forget) ((p, i) :: up) key = BTree.goToKey nodes ((p, i) :: up) key := by
  have hnode := repr_ptr hm
  rw [ptr_node] at hnode
  have same : (nodes.map forget)[p]? = some (forget (toNode (node p F L t ts))) := by
    rw [getElem?_forget, hnode, Option.map_some]
  obtain ⟨b, parent, -⟩ := isNodeParent_node hg key
  have parent' : isNodeParent (forget (toNode (node p F L t ts))) key = some b := by
    rw [BTree.isNodeParent, if_neg (by simp)] at parent
    rw [isNodeParent, findChildIndex_forget, findChildIndex_node hg, forget_numKeys]
    exact parent
  have move : moveToKey (nodes.map forget) p key up = BTree.moveToKey nodes p key up :=
    moveToKey_forget hm hg key up
  rw [goToKey_interior hup same (by simp) parent', BTree.goToKey_cons hup hnode parent, move,
    above]

/-- A child of a node with a sibling has a bounded range. -/
theorem focusRange_bounded {t : Tree R d} {ts : List (Key × Tree R d)}
    {pre : List (Tree R d × Key)} {f : Tree R d} {post : List (Key × Tree R d)}
    (hj : (t, ts) = join pre f post) (siblings : 0 < ts.length) :
    (focusRange r pre post).lo ≠ none ∨ (focusRange r pre post).hi ≠ none := by
  by_contra unbounded
  simp only [ne_eq, not_or, not_not, focusRange_lo, focusRange_hi] at unbounded
  obtain ⟨⟨rfl, -⟩, rfl, -⟩ := unbounded
  rw [(Prod.mk.inj hj).2] at siblings
  exact absurd siblings (by simp)

theorem goToKey_forget_subtree {t : Tree R d} (hm : Repr nodes d t) (hg : Good d false r t)
    (bounded : r.lo ≠ none ∨ r.hi ≠ none) {pos : Nat} (hπ : PathAt d t π pos) (hup : up ≠ [])
    (above : goToKey (nodes.map forget) up key = BTree.goToKey nodes up key) :
    goToKey (nodes.map forget) (π ++ up) key = BTree.goToKey nodes (π ++ up) key := by
  induction d generalizing r π pos up with
  | zero =>
    obtain ⟨p, F, L, recs, rfl⟩ := exists_leaf t
    obtain ⟨-, rfl⟩ := hπ
    exact goToKey_forget_leaf hm hg bounded hup above
  | succ d ih =>
    obtain ⟨p, F, L, t, ts, rfl⟩ := exists_node t
    obtain ⟨pre, f, post, π', pos', hj, hf, rfl, -⟩ := hπ
    have hgf := good_focus hg hj
    rw [List.append_assoc, List.singleton_append]
    exact ih (hm.2 f (mem_of_join hj)) hgf (focusRange_bounded hj hg.2.2.2.1) hf
      (List.cons_ne_nil _ _) (goToKey_forget_node hm hg hup above)

/-- From any path in the tree both copies go to the same place. -/
theorem goToKey_forget {t : Tree R d} (hm : Repr nodes d t) (hg : Good d true Range.full t)
    {pos : Nat} (hπ : PathAt d t π pos) (key : Key) :
    goToKey (nodes.map forget) π key = BTree.goToKey nodes π key := by
  have at_root : ∀ i : Int, goToKey (nodes.map forget) [(ptr t, i)] key =
      BTree.goToKey nodes [(ptr t, i)] key := by
    intro i
    simp [goToKey, ascendToParent, BTree.goToKey, BTree.ascendToParent, moveToKey_forget hm hg]
  cases d with
  | zero =>
    obtain ⟨p, F, L, recs, rfl⟩ := exists_leaf t
    obtain ⟨-, rfl⟩ := hπ
    exact at_root _
  | succ d =>
    obtain ⟨p, F, L, t, ts, rfl⟩ := exists_node t
    obtain ⟨pre, f, post, π', pos', hj, hf, rfl, -⟩ := hπ
    have hgf := good_focus hg hj
    exact goToKey_forget_subtree (hm.2 f (mem_of_join hj)) hgf
      (focusRange_bounded hj hg.2.2.2.1) hf (List.cons_ne_nil _ []) (at_root _)

/-! ### Reading and moving -/

section
variable {rel : Relation R} {t : Tree R d} {pos : Nat}

theorem isValid_forgetRel (hrel : Holds rel d t) (hπ : PathAt d t π pos) :
    isValid (forgetRel rel).nodes π = isValid rel.nodes π := by
  obtain ⟨p, F, L, recs, i, base, rest, rfl, hp, -⟩ := pathAt_leaf hrel.repr hrel.good hπ
  exact isValid_forget hp (by simp)

/-- The test of `numRecords` keeps the cursor where the test of validity keeps it. -/
theorem moveToNext_forget (hrel : Holds rel d t) (hπ : PathAt d t π pos) :
    moveToNext (forgetRel rel) π = BTree.moveToNext rel.nodes π := by
  have valid := isValid_spec hrel.repr hrel.good hπ
  have steps : stepNext (forgetRel rel).nodes π = stepNext rel.nodes π :=
    stepNext_forget rel.nodes π
  rw [moveToNext, BTree.moveToNext, isValid_forgetRel hrel hπ, steps, valid]
  by_cases none : rel.numRecords = 0
  · have outside : ¬ pos < (contents d t).length := by
      rw [← hrel.count, none]
      exact Nat.not_lt_zero _
    simp [forgetRel, none, outside]
  · simp [forgetRel, none]

theorem currNode_forget (nodes : Nodes R) (π : Cursor) :
    currNode (nodes.map forget) π = (currNode nodes π).map forget := by
  cases π with
  | nil => rfl
  | cons e rest => exact getElem?_forget nodes e.1

theorem skipLeafEnd_forget (hrel : Holds rel d t) (hπ : PathAt d t π pos) :
    skipLeafEnd (forgetRel rel) π = BTree.skipLeafEnd rel.nodes π := by
  have current : currNode (forgetRel rel).nodes π = (currNode rel.nodes π).map forget :=
    currNode_forget rel.nodes π
  rw [skipLeafEnd, BTree.skipLeafEnd, current, moveToNext_forget hrel hπ]
  cases entryIndex π with
  | none => rfl
  | some i =>
    cases currNode rel.nodes π with
    | none => rfl
    | some n =>
      simp only [Option.map_some, Option.bind_eq_bind, Option.bind_some, forget_numKeys]

theorem RL_MoveToNext_forget (hrel : Holds rel d t) (hπ : PathAt d t π pos) :
    RL_MoveToNext (forgetRel rel) π = BTree.RL_MoveToNext rel.nodes π := by
  obtain ⟨π', hskip, hpath, -⟩ := skipLeafEnd_spec hrel.repr hrel.good hrel.shallow hπ
  rw [RL_MoveToNext, BTree.RL_MoveToNext, skipLeafEnd_forget hrel hπ, hskip]
  exact moveToNext_forget hrel hpath

theorem RL_GetKey_forget (hrel : Holds rel d t) (hπ : PathAt d t π pos) :
    RL_GetKey (forgetRel rel) π = BTree.RL_GetKey rel.nodes π := by
  obtain ⟨π', hskip, -, -⟩ := skipLeafEnd_spec hrel.repr hrel.good hrel.shallow hπ
  have current : currNode (forgetRel rel).nodes π' = (currNode rel.nodes π').map forget :=
    currNode_forget rel.nodes π'
  simp only [RL_GetKey, BTree.RL_GetKey, isValid_forgetRel hrel hπ, skipLeafEnd_forget hrel hπ,
    hskip, current, Option.bind_eq_bind, Option.bind_some]
  cases currNode rel.nodes π' with
  | none => rfl
  | some n => simp only [Option.map_some, Option.bind_some, entryAt_forget]

theorem RL_GetRecord_forget (hrel : Holds rel d t) (hπ : PathAt d t π pos) :
    RL_GetRecord (forgetRel rel) π = BTree.RL_GetRecord rel.nodes π := by
  obtain ⟨π', hskip, -, -⟩ := skipLeafEnd_spec hrel.repr hrel.good hrel.shallow hπ
  have current : currNode (forgetRel rel).nodes π' = (currNode rel.nodes π').map forget :=
    currNode_forget rel.nodes π'
  simp only [RL_GetRecord, BTree.RL_GetRecord, isValid_forgetRel hrel hπ,
    skipLeafEnd_forget hrel hπ, hskip, current, Option.bind_eq_bind, Option.bind_some]
  cases currNode rel.nodes π' with
  | none => rfl
  | some n => simp only [Option.map_some, Option.bind_some, entryRecord, entryAt_forget]

theorem RL_MoveToKey_forget (hrel : Holds rel d t) (hπ : PathAt d t π pos) (key : Key) :
    RL_MoveToKey (forgetRel rel) π key = BTree.RL_MoveToKey rel.nodes π key := by
  obtain ⟨π', hgo, hsearch⟩ := goToKey_spec hrel.repr hrel.good hπ key hrel.shallow
  have hπ' := searchPath_pathAt hrel.good (Range.mem_full key) hsearch
  have go : goToKey (forgetRel rel).nodes π key = some π' :=
    (goToKey_forget hrel.repr hrel.good hπ key).trans hgo
  simp only [RL_MoveToKey, BTree.RL_MoveToKey, go, hgo, isValid_forgetRel hrel hπ',
    RL_GetKey_forget hrel hπ', Option.bind_eq_bind, Option.bind_some]

theorem RL_NewCursor_forget (rel : Relation R) :
    RL_NewCursor (forgetRel rel) = BTree.RL_NewCursor rel :=
  moveToFirst_forget rel.nodes rel.root []

theorem RL_MoveToFirst_forget (hrel : Holds rel d t) :
    RL_MoveToFirst (forgetRel rel) = BTree.RL_MoveToFirst rel := by
  obtain ⟨π', hfirst, hπ'⟩ := moveToFirst_spec hrel.repr [] (by simpa using hrel.shallow)
  rw [List.append_nil] at hfirst
  have first : moveToFirst (forgetRel rel).nodes rel.root [] = some π' := by
    rw [hrel.root]
    exact (moveToFirst_forget rel.nodes _ []).trans hfirst
  simp only [RL_MoveToFirst, BTree.RL_MoveToFirst, hrel.root, hfirst, forgetRel,
    Option.bind_eq_bind, Option.bind_some]
  rw [show moveToFirst (rel.nodes.map forget) (ptr t) [] = some π' by rw [← hrel.root]; exact first,
    Option.bind_some, show isValid (rel.nodes.map forget) π' = _ from isValid_forgetRel hrel hπ']

end

/-! ### Insertion -/

/-- The splitting code copies with one loop what the verified copy copies with three. -/
theorem splitnode_forget (hn : nodes[p]? = some n) (entry : Entry R) :
    splitnode (nodes.map forget) p entry n.isLeaf =
      (BTree.splitnode nodes p entry n.isLeaf).map fun x => (x.1.map forget, x.2) := by
  have hn' : (nodes.map forget)[p]? = some (forget n) := by
    rw [getElem?_forget, hn, Option.map_some]
  simp only [splitnode, BTree.splitnode, hn, hn', forget_numKeys, findRecordIndex_forget,
    forget_entries, Option.bind_eq_bind, Option.bind_some]
  by_cases full : n.numKeys = FANOUT
  · simp only [full, guard_true]
    cases leaf : n.isLeaf with
    | true =>
      simp only [if_true, forget_leaf leaf, List.length_map]
      cases (n.entries.take (findRecordIndex n entry.key) ++
          entry :: n.entries.drop (findRecordIndex n entry.key))[MIDDLE]? with
      | none => rfl
      | some first =>
        cases last : n.Last <;>
          simp [forget, createNewNode, leaf]
    | false =>
      simp only [Bool.false_eq_true, if_false, forget_interior leaf, List.length_map,
        Nat.add_sub_cancel]
      cases (n.entries.take (findRecordIndex n entry.key) ++
          entry :: n.entries.drop (findRecordIndex n entry.key))[MIDDLE]? with
      | none => rfl
      | some middle =>
        cases hptr : middle.ptr with
        | record _ => simp [hptr]
        | child q => simp [hptr, forget, createNewNode, leaf]
  · simp only [full, guard_false]
    rfl

/-- The two copies of `putEntry` agree at the cursor `π`. -/
def Agrees (rel : Relation R) (entry : Entry R) (key : Key) (π : Cursor) : Prop :=
  putEntry (forgetRel rel) entry key π =
    (BTree.putEntry rel entry key π).map fun x => (forgetRel x.1, x.2)

section
variable {rel : Relation R} {entry : Entry R}

theorem forget_set (nodes : Nodes R) (p : Ptr) (n : BtNode R) :
    (nodes.set p n).map forget = (nodes.map forget).set p (forget n) := List.map_set

theorem agrees_leaf (hn : rel.nodes[p]? = some n) (leaf : n.isLeaf = true)
    (later : keyAtCursor n i entry.key = some false → ¬ n.numKeys < FANOUT →
      ∀ nodes' entry', BTree.splitnode rel.nodes p entry true = some (nodes', entry') →
        Agrees { rel with nodes := nodes' } entry' key up) :
    Agrees rel entry key ((p, i) :: up) := by
  have hn' : (forgetRel rel).nodes[p]? = some n := by
    rw [show (forgetRel rel).nodes = rel.nodes.map forget from rfl, getElem?_forget, hn,
      Option.map_some, forget_leaf leaf]
  have split := splitnode_forget hn entry
  rw [leaf] at split
  rw [Agrees, putEntry, BTree.putEntry, hn, hn']
  simp only [leaf, if_true, Option.bind_eq_bind, Option.bind_some]
  cases found : keyAtCursor n i entry.key with
  | none => rfl
  | some b =>
    simp only [Option.bind_some]
    cases b with
    | true =>
      cases entryAt n i with
      | none => rfl
      | some e => simp [forgetRel, forget]
    | false =>
      simp only [Bool.false_eq_true, if_false]
      by_cases room : n.numKeys < FANOUT
      · simp only [if_pos room]
        cases hinsert : insertEntry n i entry with
        | none => rfl
        | some n' =>
          have leaf' : n'.isLeaf = true := by
            rw [insertEntry] at hinsert
            split at hinsert
            · rw [← Option.some.inj hinsert]
              exact leaf
            · cases hinsert
          simp [forgetRel, forget, leaf']
      · simp only [if_neg room]
        cases hsplit : BTree.splitnode rel.nodes p entry true with
        | none =>
          rw [hsplit] at split
          simp only [forgetRel, split, Option.map_none, Option.bind_none]
        | some x =>
          rw [hsplit] at split
          simp only [forgetRel, split, Option.map_some, Option.bind_some]
          exact later found room x.1 x.2 hsplit

theorem agrees_interior (hn : rel.nodes[p]? = some n) (interior : n.isLeaf = false)
    (move : n.numKeys < FANOUT → ∀ n', insertEntry n (i + 1) entry = some n' →
      moveToKey ((rel.nodes.set p n').map forget) p key up =
        BTree.moveToKey (rel.nodes.set p n') p key up)
    (later : ¬ n.numKeys < FANOUT →
      ∀ nodes' entry', BTree.splitnode rel.nodes p entry false = some (nodes', entry') →
        Agrees { rel with nodes := nodes' } entry' key up) :
    Agrees rel entry key ((p, i) :: up) := by
  have hn' : (forgetRel rel).nodes[p]? = some (forget n) := by
    rw [show (forgetRel rel).nodes = rel.nodes.map forget from rfl, getElem?_forget, hn,
      Option.map_some]
  have split := splitnode_forget hn entry
  rw [interior] at split
  rw [Agrees, putEntry, BTree.putEntry, hn, hn']
  simp only [interior, forget_isLeaf, forget_numKeys, Bool.false_eq_true, if_false,
    Option.bind_eq_bind, Option.bind_some]
  by_cases room : n.numKeys < FANOUT
  · simp only [if_pos room]
    have inserted : insertEntry (forget n) (i + 1) entry =
        (insertEntry n (i + 1) entry).map forget := by
      simp only [insertEntry, forget_numKeys, forget_entries]
      split
      · simp [forget, interior]
      · rfl
    rw [inserted]
    cases hinsert : insertEntry n (i + 1) entry with
    | none => rfl
    | some n' =>
      have moved := move room n' hinsert
      simp only [Option.map_some, Option.bind_some, forgetRel, ← forget_set, moved]
      cases BTree.moveToKey (rel.nodes.set p n') p key up with
      | none => rfl
      | some π' => rfl
  · simp only [if_neg room]
    cases hsplit : BTree.splitnode rel.nodes p entry false with
    | none =>
      rw [hsplit] at split
      simp only [forgetRel, split, Option.map_none, Option.bind_none]
    | some x =>
      rw [hsplit] at split
      simp only [forgetRel, split, Option.map_some, Option.bind_some]
      exact later room x.1 x.2 hsplit

/-- At the search path of a key in a subtree the copies agree when they agree above it on the entry
for the parent of a divided subtree. -/
theorem agrees_subtree {t : Tree R d} {v : R} (hm : Repr rel.nodes d t) (nodup : (ptrs d t).Nodup)
    (hg : Good d root r t) (hk : r.Mem key) (hπ : SearchPath key d t π)
    (above : ∀ nodes' t₁ t₂ k, Divided rel.nodes nodes' r key v t t₁ t₂ k →
      Agrees { rel with nodes := nodes' } ⟨k, .child (ptr t₂)⟩ key up) :
    Agrees rel ⟨key, .record v⟩ key (π ++ up) := by
  induction d generalizing root r π up with
  | zero =>
    obtain ⟨p, F, L, recs, rfl⟩ := exists_leaf t
    obtain rfl := hπ
    refine agrees_leaf (repr_ptr hm) (by simp) fun found full nodes' entry' hsplit => ?_
    have absent : key ∉ recs.map Prod.fst := by
      rw [keyAtCursor_leaf hg.2.1] at found
      simpa using found
    have length : recs.length = FANOUT := by
      have := hg.2.2.2.1
      rw [numKeys_leaf] at full
      omega
    obtain ⟨nodes'', t₁, t₂, k, hsplit', divided⟩ := split_leaf (v := v) hm hg hk absent length
    obtain ⟨rfl, rfl⟩ := Prod.mk.inj (Option.some.inj (hsplit'.symm.trans hsplit))
    exact above _ _ _ _ divided
  | succ d ih =>
    obtain ⟨p, F, L, t, ts, rfl⟩ := exists_node t
    obtain ⟨pre, f, post, π, hj, ⟨below, beyond⟩, hf, rfl⟩ := hπ
    have hmf := hm.2 f (mem_of_join hj)
    obtain ⟨rfl, rfl⟩ := Prod.mk.inj hj
    have hkf := focusRange_mem hk below beyond
    have hnd := nodup
    rw [ptrs_join] at hnd
    rw [List.append_assoc, List.singleton_append]
    refine ih hmf (List.nodup_append.mp (List.nodup_append.mp hnd).1).2.1 (siblings_focus hg.2.1)
      hkf hf fun nodes' f₁ f₂ k divided => ?_
    have wide := widened_child hm nodup hg hkf divided
    have hnode := wide.node.trans (repr_ptr hm)
    refine agrees_interior hnode (by simp) (fun room n' hinsert => ?_)
      fun full nodes'' entry' hsplit => ?_
    · rw [numKeys_node] at room
      obtain ⟨hinsert', hm', hg'⟩ := room_node hm hg wide (by exact_mod_cast room)
      obtain rfl := Option.some.inj (hinsert'.symm.trans hinsert)
      exact moveToKey_forget hm' hg' key up
    · have length : (join pre f post).2.length = FANOUT := by
        have := hg.2.2.1
        rw [numKeys_node] at full
        omega
      obtain ⟨nodes₂, t₁, t₂, k', hsplit', divided'⟩ := split_node hm hg wide length
      obtain ⟨rfl, rfl⟩ := Prod.mk.inj (Option.some.inj (hsplit'.symm.trans hsplit))
      exact above _ _ _ _ divided'

/-- They agree on the new root above the two parts of the tree. -/
theorem agrees_root {t t₁ t₂ : Tree R d} {v : R} {k : Key} (hrel : Holds rel d t)
    (h : Divided rel.nodes nodes' Range.full key v t t₁ t₂ k) :
    Agrees { rel with nodes := nodes' } ⟨k, .child (ptr t₂)⟩ key [] := by
  obtain ⟨hm, hg⟩ := root_node h
  have move := moveToKey_forget hm hg key []
  have made : toNode (node nodes'.length true true t₁ [(k, t₂)]) =
      { (createNewNode false true true : BtNode R) with
        ptr0 := some rel.root, entries := [⟨k, .child (ptr t₂)⟩] } := by
    rw [hrel.root, ← h.ptr]
    rfl
  rw [made, ptr_node, List.map_append] at move
  have forgotten : [({ (createNewNode false true true : BtNode R) with
        ptr0 := some rel.root, entries := [⟨k, .child (ptr t₂)⟩] } : BtNode R)].map forget =
      [{ (createNewNode false false false : BtNode R) with
        ptr0 := some rel.root, entries := [⟨k, .child (ptr t₂)⟩] }] := rfl
  rw [forgotten] at move
  simp only [Agrees, putEntry, BTree.putEntry, forgetRel, List.length_map, move,
    Option.bind_eq_bind]
  cases BTree.moveToKey (nodes' ++ [{ (createNewNode false true true : BtNode R) with
      ptr0 := some rel.root, entries := [⟨k, .child (ptr t₂)⟩] }]) nodes'.length key [] with
  | none => rfl
  | some π' =>
    simp only [Option.bind_some, Option.pure_def, Option.map_some, List.map_append, forgotten]

theorem RL_PutRecord_forget {t : Tree R d} {pos : Nat} (hrel : Holds rel d t)
    (hπ : PathAt d t π pos) (key : Key) (v : R) :
    RL_PutRecord (forgetRel rel) π key v =
      (BTree.RL_PutRecord rel π key v).map fun x => (forgetRel x.1, x.2) := by
  obtain ⟨π', hgo, hsearch⟩ := goToKey_spec hrel.repr hrel.good hπ key hrel.shallow
  have go : goToKey (forgetRel rel).nodes π key = some π' :=
    (goToKey_forget hrel.repr hrel.good hπ key).trans hgo
  have agrees : Agrees rel ⟨key, .record v⟩ key π' := by
    rw [← List.append_nil π']
    exact agrees_subtree hrel.repr hrel.nodup hrel.good (Range.mem_full key) hsearch
      fun _ _ _ _ divided => agrees_root hrel divided
  rw [Agrees] at agrees
  simp only [RL_PutRecord, BTree.RL_PutRecord, go, hgo, agrees, Option.bind_eq_bind,
    Option.bind_some]
  rcases putEntry_spec key v hrel hsearch with
    ⟨rel', d', t', π₂, hput, hrel', -, hsearch'⟩ | ⟨hput, -⟩
  · have hpath := searchPath_pathAt hrel'.good (Range.mem_full key) hsearch'
    simp only [hput, Option.map_some, Option.bind_some, RL_MoveToNext_forget hrel' hpath]
    cases BTree.RL_MoveToNext rel'.nodes π₂ with
    | none => rfl
    | some π₃ => rfl
  · simp only [hput, Option.map_none, Option.bind_none]

end

/-! ### Every sequence of calls -/

inductive Call (R : Type) where
  | newRelation
  | newCursor
  | put (key : Key) (record : R)
  | moveToKey (key : Key)
  | moveToFirst
  | moveToNext
  | getKey
  | getRecord
  | cursorIsValid
  | isEmpty
  | numRecords
  deriving DecidableEq

inductive Result (R : Type) where
  | done
  | bool (b : Bool)
  | key (k : Key)
  | record (r : R)
  | num (n : Nat)
  deriving DecidableEq

/-- The client holds a relation and one cursor on it; a new relation gets a new cursor. -/
structure State (R : Type) where
  rel : Relation R
  cursor : Cursor

def newCursor (rel : Relation R) : Option (State R × Result R) := do
  return (⟨rel, ← RL_NewCursor rel⟩, .done)

/-- A call of the copy that is built. -/
def step (s : State R) : Call R → Option (State R × Result R)
  | .newRelation => newCursor RL_NewRelation
  | .newCursor => newCursor s.rel
  | .put key record => do
    let (rel, cursor) ← RL_PutRecord s.rel s.cursor key record
    return (⟨rel, cursor⟩, .done)
  | .moveToKey key => do
    let (cursor, b) ← RL_MoveToKey s.rel s.cursor key
    return ({ s with cursor }, .bool b)
  | .moveToFirst => do
    let (cursor, b) ← RL_MoveToFirst s.rel
    return ({ s with cursor }, .bool b)
  | .moveToNext => do
    return ({ s with cursor := ← RL_MoveToNext s.rel s.cursor }, .done)
  | .getKey => do
    let (cursor, k) ← RL_GetKey s.rel s.cursor
    return ({ s with cursor }, .key k)
  | .getRecord => do
    let (cursor, r) ← RL_GetRecord s.rel s.cursor
    return ({ s with cursor }, .record r)
  | .cursorIsValid => do return (s, .bool (← RL_CursorIsValid s.rel s.cursor))
  | .isEmpty => do return (s, .bool (← RL_IsEmpty s.rel))
  | .numRecords => some (s, .num (RL_NumRecords s.rel))

namespace Verified

def newCursor (rel : Relation R) : Option (State R × Result R) := do
  return (⟨rel, ← BTree.RL_NewCursor rel⟩, .done)

/-- A call of the verified copy. -/
def step (s : State R) : Call R → Option (State R × Result R)
  | .newRelation => newCursor BTree.RL_NewRelation
  | .newCursor => newCursor s.rel
  | .put key record => do
    let (rel, cursor) ← BTree.RL_PutRecord s.rel s.cursor key record
    return (⟨rel, cursor⟩, .done)
  | .moveToKey key => do
    let (cursor, b) ← BTree.RL_MoveToKey s.rel.nodes s.cursor key
    return ({ s with cursor }, .bool b)
  | .moveToFirst => do
    let (cursor, b) ← BTree.RL_MoveToFirst s.rel
    return ({ s with cursor }, .bool b)
  | .moveToNext => do
    return ({ s with cursor := ← BTree.RL_MoveToNext s.rel.nodes s.cursor }, .done)
  | .getKey => do
    let (cursor, k) ← BTree.RL_GetKey s.rel.nodes s.cursor
    return ({ s with cursor }, .key k)
  | .getRecord => do
    let (cursor, r) ← BTree.RL_GetRecord s.rel.nodes s.cursor
    return ({ s with cursor }, .record r)
  | .cursorIsValid => do return (s, .bool (← BTree.RL_CursorIsValid s.rel.nodes s.cursor))
  | .isEmpty => do return (s, .bool (← BTree.RL_IsEmpty s.rel))
  | .numRecords => some (s, .num (BTree.RL_NumRecords s.rel))

end Verified

/-- The results of the calls, up to one that fails. -/
def results (step : State R → Call R → Option (State R × Result R)) (s : State R) :
    List (Call R) → List (Option (Result R))
  | [] => []
  | call :: calls =>
    match step s call with
    | none => [none]
    | some (s', result) => some result :: results step s' calls

/-- The verified copy has a tree and a cursor on it, the built one the same without the flags. -/
def Refines (s s' : State R) : Prop :=
  (s.rel = forgetRel s'.rel ∧ s.cursor = s'.cursor) ∧
    ∃ d t pos, Holds s'.rel d t ∧ PathAt d t s'.cursor pos

/-- Both calls fail, or they return the same and leave what they found. -/
def Matched (x y : Option (State R × Result R)) : Prop :=
  (x = none ∧ y = none) ∨
    ∃ s s' result, x = some (s, result) ∧ y = some (s', result) ∧ Refines s s'

theorem matched_cursor {rel : Relation R} {t : Tree R d} {pos : Nat} (hrel : Holds rel d t)
    (hπ : PathAt d t π pos) (result : Result R) :
    Matched (some (⟨forgetRel rel, π⟩, result)) (some (⟨rel, π⟩, result)) :=
  Or.inr ⟨_, _, result, rfl, rfl, ⟨rfl, rfl⟩, d, t, pos, hrel, hπ⟩

theorem newCursor_matched {rel : Relation R} {t : Tree R d} (hrel : Holds rel d t) :
    Matched (newCursor (forgetRel rel)) (Verified.newCursor rel) := by
  obtain ⟨π, hfirst, hπ⟩ := moveToFirst_spec hrel.repr [] (by simpa using hrel.shallow)
  rw [List.append_nil, ← hrel.root] at hfirst
  have made : BTree.RL_NewCursor rel = some π := hfirst
  rw [newCursor, Verified.newCursor, RL_NewCursor_forget, made]
  exact matched_cursor hrel hπ .done

/-- The step from a leaf end that a read makes keeps the cursor on the tree. -/
theorem skipLeafEnd_path {rel : Relation R} {t : Tree R d} {pos : Nat} {π' : Cursor}
    (hrel : Holds rel d t) (hπ : PathAt d t π pos)
    (skip : BTree.skipLeafEnd rel.nodes π = some π') : PathAt d t π' pos := by
  obtain ⟨π'', hskip, hpath, -⟩ := skipLeafEnd_spec hrel.repr hrel.good hrel.shallow hπ
  obtain rfl := Option.some.inj (hskip.symm.trans skip)
  exact hpath

theorem RL_GetKey_path {rel : Relation R} {t : Tree R d} {pos : Nat} {π' : Cursor} {k : Key}
    (hrel : Holds rel d t) (hπ : PathAt d t π pos)
    (get : BTree.RL_GetKey rel.nodes π = some (π', k)) : PathAt d t π' pos := by
  rw [BTree.RL_GetKey] at get
  simp only [Option.bind_eq_bind, Option.bind_eq_some_iff, Option.pure_def, Option.some.injEq,
    Prod.mk.injEq] at get
  obtain ⟨_, -, _, -, π'', hskip, _, -, _, -, _, -, rfl, -⟩ := get
  exact skipLeafEnd_path hrel hπ hskip

theorem RL_GetRecord_path {rel : Relation R} {t : Tree R d} {pos : Nat} {π' : Cursor} {v : R}
    (hrel : Holds rel d t) (hπ : PathAt d t π pos)
    (get : BTree.RL_GetRecord rel.nodes π = some (π', v)) : PathAt d t π' pos := by
  rw [BTree.RL_GetRecord] at get
  simp only [Option.bind_eq_bind, Option.bind_eq_some_iff, Option.pure_def, Option.some.injEq,
    Prod.mk.injEq] at get
  obtain ⟨_, -, _, -, π'', hskip, _, -, _, -, _, -, rfl, -⟩ := get
  exact skipLeafEnd_path hrel hπ hskip

theorem step_matched {s s' : State R} (h : Refines s s') (call : Call R) :
    Matched (step s call) (Verified.step s' call) := by
  obtain ⟨rel, π⟩ := s
  obtain ⟨rel', π'⟩ := s'
  obtain ⟨⟨same, rfl⟩, d, t, pos, hrel, hπ⟩ := h
  obtain rfl : rel = forgetRel rel' := same
  replace hrel : Holds rel' d t := hrel
  replace hπ : PathAt d t π pos := hπ
  cases call with
  | newRelation => exact newCursor_matched (holds_new R)
  | newCursor => exact newCursor_matched hrel
  | put key v =>
    rw [step, Verified.step, RL_PutRecord_forget hrel hπ]
    rcases RL_PutRecord_spec key v hrel hπ with
      ⟨rel'', d', t', π'', hput, hrel', -, hπ'⟩ | ⟨hput, -⟩
    · rw [hput]
      exact matched_cursor hrel' hπ' .done
    · rw [hput]
      exact Or.inl ⟨rfl, rfl⟩
  | moveToKey key =>
    obtain ⟨π'', hmove, hπ''⟩ := RL_MoveToKey_spec hrel.repr hrel.good hrel.shallow hπ key
    rw [step, Verified.step, RL_MoveToKey_forget hrel hπ, hmove]
    exact matched_cursor hrel hπ'' _
  | moveToFirst =>
    obtain ⟨π'', hfirst, hπ''⟩ := moveToFirst_spec hrel.repr [] (by simpa using hrel.shallow)
    rw [List.append_nil] at hfirst
    have first : BTree.RL_MoveToFirst rel' =
        some (π'', decide (0 < (contents d t).length)) := by
      simp [BTree.RL_MoveToFirst, hrel.root, hfirst, isValid_spec hrel.repr hrel.good hπ'']
    rw [step, Verified.step, RL_MoveToFirst_forget hrel, first]
    exact matched_cursor hrel hπ'' _
  | moveToNext =>
    obtain ⟨π'', hnext, hπ''⟩ := RL_MoveToNext_spec hrel.repr hrel.good hrel.shallow hπ
    rw [step, Verified.step, RL_MoveToNext_forget hrel hπ, hnext]
    exact matched_cursor hrel hπ'' .done
  | getKey =>
    rw [step, Verified.step, RL_GetKey_forget hrel hπ]
    cases hget : BTree.RL_GetKey rel'.nodes π with
    | none => exact Or.inl ⟨rfl, rfl⟩
    | some x => exact matched_cursor hrel (RL_GetKey_path hrel hπ hget) (.key x.2)
  | getRecord =>
    rw [step, Verified.step, RL_GetRecord_forget hrel hπ]
    cases hget : BTree.RL_GetRecord rel'.nodes π with
    | none => exact Or.inl ⟨rfl, rfl⟩
    | some x => exact matched_cursor hrel (RL_GetRecord_path hrel hπ hget) (.record x.2)
  | cursorIsValid =>
    rw [step, Verified.step, RL_CursorIsValid, BTree.RL_CursorIsValid, isValid_forgetRel hrel hπ,
      isValid_spec hrel.repr hrel.good hπ]
    exact matched_cursor hrel hπ _
  | isEmpty =>
    have hnode := repr_ptr hrel.repr
    rw [← hrel.root] at hnode
    have empty : RL_IsEmpty (forgetRel rel') = some ((toNode t).numKeys == 0) := by
      simp [RL_IsEmpty, forgetRel, hnode]
    have empty' : BTree.RL_IsEmpty rel' = some ((toNode t).numKeys == 0) := by
      simp [BTree.RL_IsEmpty, hnode]
    rw [step, Verified.step, empty, empty']
    exact matched_cursor hrel hπ _
  | numRecords => exact matched_cursor hrel hπ _

theorem results_refine (calls : List (Call R)) {s s' : State R} (h : Refines s s') :
    results step s calls = results Verified.step s' calls := by
  induction calls generalizing s s' with
  | nil => rfl
  | cons call calls ih =>
    rw [results, results]
    rcases step_matched h call with ⟨left, right⟩ | ⟨s₁, s₁', result, left, right, h₁⟩
    · rw [left, right]
    · rw [left, right]
      exact congrArg _ (ih h₁)

theorem start_refines (R : Type) : ∃ s s' : State R,
    newCursor RL_NewRelation = some (s, .done) ∧
      Verified.newCursor BTree.RL_NewRelation = some (s', .done) ∧ Refines s s' := by
  obtain ⟨π, hfirst, hπ⟩ := moveToFirst_spec (holds_new R).repr [] (by decide)
  rw [List.append_nil] at hfirst
  have made : BTree.RL_NewCursor (BTree.RL_NewRelation : Relation R) = some π := hfirst
  refine ⟨⟨RL_NewRelation, π⟩, ⟨BTree.RL_NewRelation, π⟩, ?_, ?_, ⟨rfl, rfl⟩, 0, _, 0,
    holds_new R, hπ⟩
  · rw [newCursor, show (RL_NewRelation : Relation R) = forgetRel BTree.RL_NewRelation from rfl,
      RL_NewCursor_forget, made]
    rfl
  · rw [Verified.newCursor, made]
    rfl

/-- For every sequence of calls on a new relation through one cursor, both copies return the same
at every call. -/
theorem library_refines (calls : List (Call R)) :
    ∃ s s' : State R, newCursor RL_NewRelation = some (s, .done) ∧
      Verified.newCursor BTree.RL_NewRelation = some (s', .done) ∧
      results step s calls = results Verified.step s' calls := by
  obtain ⟨s, s', left, right, refines⟩ := start_refines R
  exact ⟨s, s', left, right, results_refine calls refines⟩

end DeepDB.Library
