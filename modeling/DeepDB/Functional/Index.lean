import DeepDB.Functional.Rewrite
import Mathlib.Data.Finset.Card
import Mathlib.Data.Nat.Find

/-!
The B-tree as an instance of the ordered index. `lookup` moves the cursor to a key and reads the
record there without a look at the key of the record, so that it gives the record of the next
larger key for a key that is not stored: a put changes what the keys just below it look up. In
every relation of correct depth there is such a key, or a put makes one.
-/

namespace DeepDB.Functional
open SortedAssoc Multiway

variable {V X : Type}

/-! ### The index -/

section
variable (Vptrofs : V → X) (nullval : X)

/-- The results of a put, with any addresses for the new nodes. -/
def RL_PutRecord_rel (c : Cursor V X) (r : Relation V X) (key : Key) (record : V)
    (newr : Relation V X) (newc : Cursor V X) : Prop :=
  ∃ newx, (newc, newr) = RL_PutRecord c r key record (Vptrofs record) newx nullval

def lookup (r : Relation V X) (c : Cursor V X) (key : Key) : X :=
  RL_GetRecord nullval (goToKey c r key) r

/-- The laws of the ordered index, for a relation and a cursor on it. -/
structure IndexLaws (r : Relation V X) (c : Cursor V X) : Prop where
  lookup_empty : absNode r.1 = [] → ∀ key < modulus, lookup nullval r c key = nullval
  update_eq : ∀ key v newr newc, key < modulus → RL_PutRecord_rel Vptrofs nullval c r key v newr newc →
    lookup nullval newr newc key = Vptrofs v
  update_neq : ∀ key key' v newr newc, key < modulus → key' < modulus → key ≠ key' →
    RL_PutRecord_rel Vptrofs nullval c r key v newr newc →
    lookup nullval newr newc key' = lookup nullval r c key'

end

variable {d : Nat} {root : Bool} {r : Range Key} {key : Key} {x nullval : X} {n : Node V X}

/-! ### Above all keys -/

theorem findRecordIndexFrom_above {le : List (Entry V X)} (above : ∀ e ∈ le, entryKey e < key)
    (rest : List (Entry V X)) (i : Int) :
    findRecordIndexFrom key (le ++ rest) i = findRecordIndexFrom key rest (i + le.length) := by
  induction le generalizing i with
  | nil => simp
  | cons e le ih =>
    have he : ¬ key ≤ entryKey e := Nat.not_le.mpr (above e List.mem_cons_self)
    rw [List.cons_append, findRecordIndexFrom, if_neg he,
      ih fun e he => above e (List.mem_cons_of_mem _ he), List.length_cons]
    congr 1
    omega

theorem findChildIndexFrom_below {le : List (Entry V X)} (below : ∀ e ∈ le, entryKey e ≤ key)
    (i : Int) : findChildIndexFrom key le i = i + le.length := by
  induction le generalizing i with
  | nil => simp [findChildIndexFrom]
  | cons e le ih =>
    have he : ¬ key < entryKey e := Nat.not_lt.mpr (below e List.mem_cons_self)
    rw [findChildIndexFrom, if_neg he, ih fun e he => below e (List.mem_cons_of_mem _ he),
      List.length_cons]
    omega

/-- Every key of the cursor's nodes is below `k` and below the keys of the deeper nodes. -/
def Above : Key → Cursor V X → Prop
  | _, [] => True
  | k, (n, _) :: c => (∃ t le F L a, n = .btnode (some t) le false F L a ∧
      ∀ e ∈ le, entryKey e < k ∧ Above (entryKey e) c) ∧ Above k c

theorem above_nil (k : Key) (_ : r.Inside k) : Above k ([] : Cursor V X) :=
  trivial

/-- The descent to a key above all others ends behind the last leaf. -/
theorem moveToKey_above (h : WellFormed d root r n) (above : ∀ e ∈ absNode n, e.1 < key)
    (hne : root = false ∨ r = Range.full) {up : Cursor V X} (hup : ∀ k, r.Inside k → Above k up) :
    ∃ leaf c root' r', moveToKey n key up = (leaf, (leaf.le.length : Int)) :: c ∧
      WellFormed 0 root' r' leaf ∧ (∀ e ∈ leaf.le, ∃ y ∈ absNode n, y.1 = entryKey e) ∧
      (root' = false ∨ r' = Range.full) ∧
      ∀ k, r'.Inside k → Above k c := by
  induction d generalizing root r n up with
  | zero =>
    obtain ⟨recs, F, L, a, rfl, -⟩ := id h
    have keys : ∀ e ∈ (leafNode recs F L a).le,
        ∃ y ∈ absNode (leafNode recs F L a), y.1 = entryKey e := by
      intro e he
      obtain ⟨e', he', rfl⟩ := List.mem_map.mp he
      exact ⟨(e'.1, e'.2.1), by rw [absNode_leafNode]; exact List.mem_map_of_mem he', rfl⟩
    have low : ∀ e ∈ (leafNode recs F L a).le, entryKey e < key := by
      intro e he
      obtain ⟨y, hy, same⟩ := keys e he
      rw [← same]
      exact above y hy
    have index := findRecordIndexFrom_above low [] 0
    rw [List.append_nil, findRecordIndexFrom, Int.zero_add] at index
    refine ⟨leafNode recs F L a, up, root, r, ?_, h, keys, hne, hup⟩
    rw [moveToKey_leaf rfl, findRecordIndex, index]
  | succ d ih =>
    have whole := h
    obtain ⟨t, ts, F, L, a, rfl, -, hs, -⟩ := h
    obtain ⟨pre, f, post, hj, below, above'⟩ := exists_focus key t ts hs
    obtain ⟨rfl, rfl⟩ := Prod.mk.inj hj
    have hf := siblings_focus hs
    rw [absNode_internNode, gather_join] at above
    obtain rfl : post = [] := by
      cases post with
      | nil => rfl
      | cons e post =>
        obtain ⟨k, g⟩ := e
        have hs' := hs
        rw [join_shift] at hs'
        have hg := siblings_focus hs'
        obtain ⟨y, hy⟩ := List.exists_mem_of_ne_nil _ (wellFormed_nonempty hg)
        obtain ⟨-, seps, -⟩ := focusRange_seps hs' (wellFormed_within hg y hy)
        have low : k ≤ y.1 := seps (f, k) (by simp)
        have small : y.1 < key := above y (by simp [hy])
        exact absurd (above' (k, g) List.mem_cons_self) (Nat.not_lt.mpr (low.trans small.le))
    have hup' : ∀ k, (focusRange r pre []).Inside k → Above k
        ((internNode (join pre f []).1 (join pre f []).2 F L a, (pre.length : Int) - 1) :: up) := by
      intro k hk
      obtain ⟨inside, seps, -⟩ := split_seps hs hk
      refine ⟨⟨_, _, F, L, a, rfl, fun e he => ?_⟩, hup k inside⟩
      obtain ⟨e', he', rfl⟩ := List.mem_map.mp he
      have mem : e'.1 ∈ pre.map Prod.snd := by
        have all := List.mem_map_of_mem (f := Prod.fst) he'
        rw [join_seps] at all
        simpa using all
      obtain ⟨y, hy, same⟩ := List.mem_map.mp mem
      have low := seps y hy
      rw [same] at low
      exact ⟨low, hup _ ((siblings_seps hs).1 e' he')⟩
    obtain ⟨leaf, c, root', r', down, hleaf, keys, hne', hc⟩ :=
      ih hf (fun e he => above e (by simp [he])) (Or.inl rfl) hup'
    refine ⟨leaf, c, root', r', ?_, hleaf, fun e he => ?_, hne', hc⟩
    · rw [moveToKey_join whole hf below (by simp), down]
    · obtain ⟨y, hy, same⟩ := keys e he
      exact ⟨y, by rw [absNode_internNode, gather_join]; simp [hy], same⟩

/-! ### The last key -/

/-- `key` is the last key below the node, its record is `x`, and no entry holds the key before it. -/
inductive LastKey (key : Key) (x : X) : Node V X → Prop where
  | leaf {ptr0 A v F L a} (before : ∀ e ∈ A, entryKey e + 1 < key) (filled : A ≠ [] ∨ F = true) :
      LastKey key x (.btnode ptr0 (A ++ [.keyval key v x]) true F L a)
  | node {t A k child F L a} (before : ∀ e ∈ A, entryKey e ≤ key) (last : k ≤ key)
      (child_last : LastKey key x child) :
      LastKey key x (.btnode (some t) (A ++ [.keychild k child]) false F L a)

/-- The cursor has been put behind the last entry of its leaf. -/
def AtLastKey (key : Key) (x : X) (c : Cursor V X) : Prop :=
  ∃ leaf rest, c = (leaf, (leaf.le.length : Int) - 1) :: rest ∧ leaf.isLeaf = true ∧
    LastKey key x leaf

theorem LastKey.atLastKey (h : LastKey key x n) (hleaf : n.isLeaf = true) {i : Int}
    (hi : i = (n.le.length : Int) - 1) (rest : Cursor V X) : AtLastKey key x ((n, i) :: rest) :=
  ⟨n, rest, by rw [hi], hleaf, h⟩

theorem leDepth_append (A : List (Entry V X)) (e : Entry V X) :
    entryDepth e ≤ leDepth (A ++ [e]) := by
  induction A with
  | nil => exact Nat.le_max_left _ _
  | cons a A ih => exact ih.trans (Nat.le_max_right _ _)

theorem LastKey.moveToKeyIn (h : LastKey key x n) {fuel : Nat} (deep : nodeDepth n < fuel)
    (c : Cursor V X) : AtLastKey key x (moveToKeyIn key fuel n c) := by
  induction h generalizing fuel c with
  | @leaf ptr0 A v F L a before filled =>
    obtain ⟨fuel, rfl⟩ : ∃ m, fuel = m + 1 := ⟨fuel - 1, by omega⟩
    have index := findRecordIndexFrom_above (fun e he => Nat.lt_of_succ_lt (before e he))
      [.keyval key v x] 0
    have here : key ≤ entryKey (.keyval key v x : Entry V X) := Nat.le_refl key
    rw [findRecordIndexFrom, if_pos here, Int.zero_add] at index
    refine ⟨.btnode ptr0 (A ++ [.keyval key v x]) true F L a, c, ?_, rfl, .leaf before filled⟩
    have isLeaf : Node.isLeaf (.btnode ptr0 (A ++ [.keyval key v x]) true F L a) = true := rfl
    rw [Functional.moveToKeyIn, if_pos isLeaf, findRecordIndex, Node.le, index]
    simp
  | @node t A k child F L a before last child_last ih =>
    obtain ⟨fuel, rfl⟩ : ∃ m, fuel = m + 1 := ⟨fuel - 1, by omega⟩
    have below : ∀ e ∈ A ++ [.keychild k child], entryKey e ≤ key := by
      intro e he
      rcases List.mem_append.mp he with he | he
      · exact before e he
      · obtain rfl := List.mem_singleton.mp he
        exact last
    have index : findChildIndex (.btnode (some t) (A ++ [.keychild k child]) false F L a) key =
        (A.length : Int) := by
      rw [findChildIndex, Node.le, findChildIndexFrom_below below, List.length_append,
        List.length_singleton]
      omega
    have inside : ¬ (A.length : Int) = -1 := by omega
    have down : nthNode (A.length : Int) (.btnode (some t) (A ++ [.keychild k child]) false F L a) =
        some child := by
      rw [nthNode, if_neg inside, nthNodeLe, nthOption, if_pos (Int.natCast_nonneg _),
        Int.toNat_natCast, List.getElem?_concat_length]
    have shallower : nodeDepth child < fuel := by
      have entry := leDepth_append A (.keychild k child)
      rw [entryDepth] at entry
      rw [nodeDepth] at deep
      have node := Nat.le_max_left (leDepth (A ++ [.keychild k child])) (ptr0Depth (some t))
      omega
    rw [Functional.moveToKeyIn, if_neg (by simp [Node.isLeaf]), index, down]
    exact ih shallower _

/-! ### A put behind all keys -/

theorem insertLe_above {e : Entry V X} {le : List (Entry V X)}
    (above : ∀ e' ∈ le, entryKey e' < entryKey e) : insertLe e le = le ++ [e] := by
  induction le with
  | nil => rfl
  | cons e' le ih =>
    have he : ¬ entryKey e ≤ entryKey e' := Nat.not_le.mpr (above e' List.mem_cons_self)
    rw [insertLe, if_neg he, ih fun e he => above e (List.mem_cons_of_mem _ he), List.cons_append]

theorem updateLeNthChild_keys {y : Node V X} {e : Entry V X} {i : Int} {le : List (Entry V X)}
    (h : e ∈ updateLeNthChild y i le) : ∃ e' ∈ le, entryKey e = entryKey e' := by
  induction le generalizing i with
  | nil => cases h
  | cons e' le ih =>
    rw [updateLeNthChild] at h
    split at h
    · rcases List.mem_cons.mp h with rfl | h
      · exact ⟨e', List.mem_cons_self, rfl⟩
      · exact ⟨e, List.mem_cons_of_mem _ h, rfl⟩
    · obtain ⟨e'', he'', same⟩ := ih h
      exact ⟨e'', List.mem_cons_of_mem _ he'', same⟩

theorem above_update {c : Cursor V X} {k : Key} (h : Above k c) (rel : Relation V X) (y : Node V X) :
    Above k (updatePartialCursorRel c rel y).1 := by
  induction c generalizing k y with
  | nil => trivial
  | cons e c ih =>
    obtain ⟨n, i⟩ := e
    obtain ⟨⟨t, le, F, L, a, rfl, keys⟩, above⟩ := h
    refine ⟨?_, ih above _⟩
    by_cases first : i = -1
    · exact ⟨y, le, F, L, a, if_pos first, fun e he => ⟨(keys e he).1, ih (keys e he).2 _⟩⟩
    · refine ⟨t, updateLeNthChild y i le, F, L, a, if_neg first, fun e he => ?_⟩
      obtain ⟨e', he', same⟩ := updateLeNthChild_keys he
      rw [same]
      exact ⟨(keys e' he').1, ih (keys e' he').2 _⟩

theorem length_update (c : Cursor V X) (rel : Relation V X) (y : Node V X) :
    (updatePartialCursorRel c rel y).1.length = c.length := by
  induction c generalizing y with
  | nil => rfl
  | cons e c ih => simp [updatePartialCursorRel, ih]

/-- The entry for a node with the last key, put above the others, makes its node one with the last
key, and the cursor goes down to it. -/
theorem putEntryIn_last {length : Nat} {c : Cursor V X} {k : Key} {right : Node V X}
    (hc : Above k c) (last : k ≤ key) (hright : LastKey key x right) (enough : c.length < length)
    (rel : Relation V X) (newx : List X) (a : X) :
    AtLastKey key x (putEntryIn key a length c rel (.keychild k right) newx).1 := by
  induction length generalizing c k right rel newx with
  | zero => exact absurd enough (Nat.not_lt_zero _)
  | succ length ih =>
    cases c with
    | nil =>
      have root : LastKey key x (.btnode (some rel.1) ([] ++ [.keychild k right]) false true true
          (newx.headD a)) := .node (fun _ no => by cases no) last hright
      exact root.moveToKeyIn (Nat.lt_succ_self _) []
    | cons e c =>
      obtain ⟨n, i⟩ := e
      obtain ⟨⟨t, le, F, L, b, rfl, keys⟩, above⟩ := hc
      have inserted : insertLe (.keychild k right) le = le ++ [.keychild k right] :=
        insertLe_above fun e he => (keys e he).1
      have low : ∀ e ∈ le, entryKey e ≤ key := fun e he => ((keys e he).1.trans_le last).le
      have shorter : ∀ y, (updatePartialCursorRel c rel y).1.length < length := by
        intro y
        rw [length_update]
        exact Nat.lt_of_succ_lt_succ enough
      by_cases full : fullnode (.btnode (some t) le false F L b) = true
      · have hlen : Fanout ≤ le.length := of_decide_eq_true full
        have inside : Middle < le.length := Nat.lt_of_lt_of_le (by decide) hlen
        have middle : (le ++ [.keychild k right])[Middle]? = some le[Middle] := by
          rw [List.getElem?_append_left inside, List.getElem?_eq_getElem inside]
        have mem := List.getElem_mem inside
        simp only [putEntryIn, Bool.false_and, Bool.false_eq_true, if_false, full, if_true,
          updateCurrnodeCursorRel, List.tail_cons, splitnodeRight, inserted, middle]
        cases hchild : entryChild le[Middle] with
        | none => exact ih (above_update above rel _) last hright (shorter _) _ _
        | some child =>
          have hnew : LastKey key x (.btnode (some child) (le.drop (Middle + 1) ++ [.keychild k right])
              false false L (newx.headD a)) :=
            .node (fun e he => low e (List.mem_of_mem_drop he)) last hright
          rw [← List.drop_append_of_le_length inside, ← inserted] at hnew
          exact ih (above_update (keys _ mem).2 rel _) (low _ mem) hnew (shorter _) _ _
      · have whole : LastKey key x (.btnode (some t) (le ++ [.keychild k right]) false F L b) :=
          .node low last hright
        rw [← inserted] at whole
        simp only [putEntryIn, Bool.false_and, Bool.false_eq_true, if_false, full,
          updateCurrnodeCursorRel, List.tail_cons]
        exact whole.moveToKeyIn (Nat.lt_succ_self _) _

theorem keyInLe_above {le : List (Entry V X)} (above : ∀ e ∈ le, entryKey e < key) :
    keyInLe key le = false := by
  induction le with
  | nil => rfl
  | cons e le ih =>
    have he : ¬ entryKey e = key := Nat.ne_of_lt (above e List.mem_cons_self)
    rw [keyInLe, if_neg he]
    exact ih fun e he => above e (List.mem_cons_of_mem _ he)

variable {n₀ : Node V X}

/-- A put behind all keys leaves the cursor at the last entry of a leaf. -/
theorem putEntry_last (h : WellFormed d true Range.full n₀)
    (above : ∀ e ∈ absNode n₀, e.1 + 1 < key) (prel : X) (v : V) (newx : List X) (a : X) :
    AtLastKey key x
      (putEntry (moveToKey n₀ key []) (n₀, prel) (.keyval key v x) key newx a).1 := by
  obtain ⟨leaf, c, root', r', down, hleaf, keys, hne, hc⟩ :=
    moveToKey_above h (fun e he => Nat.lt_of_succ_lt (above e he)) (Or.inr rfl) above_nil
  obtain ⟨recs, F, L, b, rfl, ⟨rfl, rfl⟩, sorted, within, few, filled⟩ := hleaf
  have before : ∀ e ∈ recs.map (ofRecord (V := V) (X := X)), entryKey e + 1 < key := by
    intro e he
    obtain ⟨y, hy, same⟩ := keys e he
    rw [← same]
    exact above y hy
  have low : ∀ e ∈ recs.map (ofRecord (V := V) (X := X)), entryKey e < key := fun e he =>
    Nat.lt_of_succ_lt (before e he)
  have inserted : insertLe (.keyval key v x) (recs.map ofRecord) =
      recs.map ofRecord ++ [.keyval key v x] := insertLe_above low
  have absent : keyInLe (entryKey (.keyval key v x : Entry V X)) (recs.map ofRecord) = false :=
    keyInLe_above low
  rw [down, putEntry, List.length_cons, leafNode]
  by_cases full : fullnode (leafNode recs r'.lo.isNone r'.hi.isNone b) = true
  · have hlen : Fanout ≤ recs.length := by
      rw [← List.length_map (ofRecord (V := V) (X := X))]
      exact of_decide_eq_true full
    have inside : Middle < recs.length := Nat.lt_of_lt_of_le (by decide) hlen
    have middle : (recs.map ofRecord ++ [Entry.keyval key v x])[Middle]? =
        some (ofRecord recs[Middle]) := by
      rw [List.getElem?_append_left (by simpa using inside), List.getElem?_map,
        List.getElem?_eq_getElem inside]
      rfl
    have mem : ofRecord recs[Middle] ∈ recs.map ofRecord := List.mem_map_of_mem (List.getElem_mem inside)
    have strict : r'.Inside (entryKey (ofRecord recs[Middle])) := by
      have first := within _ (List.getElem_mem (Nat.zero_lt_of_lt inside))
      have later : recs[0].1 < recs[Middle].1 := by
        have increasing := List.pairwise_map.mp sorted
        exact List.pairwise_iff_getElem.mp increasing 0 Middle _ inside (by decide)
      exact ⟨fun l hl => (first.1 l hl).trans_lt later, (within _ (List.getElem_mem inside)).2⟩
    have hnew : LastKey key x (.btnode none ((recs.map ofRecord).drop Middle ++ [.keyval key v x])
        true false r'.hi.isNone (newx.headD a)) := by
      refine .leaf (fun e he => before e (List.mem_of_mem_drop he)) (Or.inl fun none => ?_)
      have empty := congrArg List.length none
      rw [List.length_drop, List.length_map, List.length_nil] at empty
      omega
    rw [← List.drop_append_of_le_length (by simpa using inside.le), ← inserted] at hnew
    rw [leafNode] at full
    simp only [putEntryIn, absent, Bool.and_false, Bool.false_eq_true, if_false, full,
      if_true, updateCurrnodeCursorRel, List.tail_cons, splitnodeRight, inserted, middle]
    refine putEntryIn_last (above_update (hc _ strict) _ _) (low _ mem).le hnew ?_ _ _ _
    rw [length_update]
    exact Nat.lt_succ_self _
  · have whole : LastKey key x (.btnode none (recs.map ofRecord ++ [.keyval key v x]) true
        r'.lo.isNone r'.hi.isNone b) := by
      refine .leaf before ?_
      rcases hne with rfl | rfl
      · exact Or.inl fun none => filled rfl (List.map_eq_nil_iff.mp none)
      · exact Or.inr rfl
    rw [← inserted] at whole
    rw [leafNode] at full
    simp only [putEntryIn, absent, Bool.and_false, Bool.false_eq_true, if_false, full,
      if_true, updateCurrnodeCursorRel]
    refine whole.atLastKey rfl ?_ _
    rw [inserted, Node.le, Node.le, List.length_append, List.length_singleton]
    omega

/-! ### Looking up -/

theorem goToKey_parent (parent : isNodeParent n key = true) (i : Int) (c : Cursor V X)
    (rel : Relation V X) : goToKey ((n, i) :: c) rel key = moveToKey n key c := by
  cases c with
  | nil => rfl
  | cons e c => simp [goToKey, ascendToParent, parent]

theorem RL_GetRecord_here {i : Nat} {k : Key} {v : V} (entry : n.le[i]? = some (.keyval k v x))
    (c : Cursor V X) (rel : Relation V X) :
    RL_GetRecord nullval ((n, (i : Int)) :: c) rel = x := by
  have before : i < n.le.length := (List.getElem?_eq_some_iff.mp entry).1
  have inside : ¬ (i : Int) = n.le.length := by omega
  have stays : normalize ((n, (i : Int)) :: c) rel = (n, (i : Int)) :: c := if_neg inside
  have value : getCVal ((n, (i : Int)) :: c) = some x := by
    rw [getCVal, getCEntry, nthOption, if_pos (Int.natCast_nonneg _), Int.toNat_natCast, entry]
  rw [RL_GetRecord, stays, value]

/-- Behind its last entry a leaf looks the key before it up as the last key. -/
theorem lookup_before_last (rel : Relation V X) {c : Cursor V X} (h : AtLastKey key x c) :
    lookup nullval rel (RL_MoveToNext c rel) (key - 1) = x := by
  obtain ⟨leaf, rest, rfl, hleaf, last⟩ := h
  cases last with
  | node => cases hleaf
  | @leaf ptr0 A v F L a before filled =>
    have length : (A ++ [Entry.keyval key v x]).length = A.length + 1 := by simp
    have entry : (A ++ [Entry.keyval key v x])[A.length]? = some (.keyval key v x) :=
      List.getElem?_concat_length
    have under : key - 1 ≤ entryKey (.keyval key v x : Entry V X) := Nat.sub_le _ _
    have parent : isNodeParent (.btnode ptr0 (A ++ [.keyval key v x]) true F L a) (key - 1) =
        true := by
      have few : ¬ (A ++ [Entry.keyval key v x]).length = 0 := by omega
      rw [isNodeParent, if_pos rfl, if_neg few, length, Nat.add_sub_cancel, entry]
      cases A with
      | nil =>
        obtain rfl : F = true := filled.resolve_left fun no => no rfl
        simp [under]
      | cons e A =>
        have first : entryKey e ≤ key - 1 :=
          Nat.le_sub_one_of_lt (Nat.lt_of_succ_lt (before e List.mem_cons_self))
        simp [under, first]
    have found : findRecordIndex (.btnode ptr0 (A ++ [.keyval key v x]) true F L a) (key - 1) =
        (A.length : Int) := by
      rw [findRecordIndex, Node.le,
        findRecordIndexFrom_above (fun e he => Nat.lt_sub_of_add_lt (before e he)),
        findRecordIndexFrom, if_pos under, Int.zero_add]
    have index : ((Node.btnode ptr0 (A ++ [.keyval key v x]) true F L a).le.length : Int) - 1 =
        (A.length : Int) := by
      rw [Node.le, length]
      omega
    have inside : A.length < (A ++ [Entry.keyval key v x]).length := by omega
    have notEnd : ¬ (A.length : Int) = (A ++ [Entry.keyval key v x]).length := by omega
    rw [index, RL_MoveToNext, Node.le, if_neg notEnd, moveToNext_inside rfl inside, lookup,
      goToKey_parent parent, moveToKey_leaf rfl, found]
    exact RL_GetRecord_here entry rest rel

/-- A put behind all keys gives its record to the key before it. -/
theorem lookup_before_put {Vptrofs : V → X} (h : WellFormed d true Range.full n₀) {c : Cursor V X}
    (hc : completeCursor c n₀) (prel : X) (above : ∀ e ∈ absNode n₀, e.1 + 1 < key) (v : V) :
    ∃ newr newc, RL_PutRecord_rel Vptrofs nullval c (n₀, prel) key v newr newc ∧
      lookup nullval newr newc (key - 1) = Vptrofs v := by
  have last := putEntry_last (x := Vptrofs v) h above prel v [] nullval
  refine ⟨(putEntry (moveToKey n₀ key []) (n₀, prel) (.keyval key v (Vptrofs v)) key [] nullval).2,
    _, ⟨[], ?_⟩, lookup_before_last _ last⟩
  rw [RL_PutRecord, goToKey_eq h hc]

/-- A put at a key that another one runs into gives its record to this one. -/
theorem lookup_diverted {Vptrofs : V → X} (h : WellFormed d true Range.full n₀) {c : Cursor V X}
    (hc : completeCursor c n₀) (prel : X) {k K : Key} (diverts : Diverts k K d true Range.full n₀)
    (v : V) :
    ∃ newr newc, RL_PutRecord_rel Vptrofs nullval c (n₀, prel) K v newr newc ∧
      lookup nullval newr newc k = Vptrofs v := by
  obtain ⟨n', c', rewrites, hn', climbs, gap⟩ := diverts.rewritten v (Vptrofs v)
  obtain ⟨leaf, i, rest, rfl, put⟩ := rewrites.put h hc prel nullval []
  refine ⟨(n', prel), (leaf, i + 1) :: rest, ⟨[], put.symm⟩, ?_⟩
  rw [lookup, climbs.goToKey hn']
  exact RL_GetRecord_gap hn' rewrites.mem_self diverts.before.le gap

/-! ### Two keys with one record -/

theorem exists_absent {m : Nat} (keys : List Nat) (few : keys.length < m) : ∃ k < m, k ∉ keys := by
  have smaller : keys.toFinset.card < (Finset.range m).card := by
    rw [Finset.card_range]
    exact (List.toFinset_card_le keys).trans_lt few
  obtain ⟨k, inside, absent⟩ := Finset.exists_mem_notMem_of_card_lt_card smaller
  exact ⟨k, Finset.mem_range.mp inside, fun stored => absent (List.mem_toFinset.mpr stored)⟩

/-- A key that is not stored runs into the next larger one, if there is one. -/
theorem absent_diverts (h : WellFormed d true Range.full n₀) (left : ∀ K, LeftPath K d n₀) {k : Key}
    (absent : k ∉ (absNode n₀).map Prod.fst) :
    (∀ e ∈ absNode n₀, e.1 < k) ∨
      ∃ K, K ∈ (absNode n₀).map Prod.fst ∧ Diverts k K d true Range.full n₀ := by
  by_cases larger : ∃ K, k < K ∧ K ∈ (absNode n₀).map Prod.fst
  · obtain ⟨before, stored⟩ := Nat.find_spec larger
    refine Or.inr ⟨_, stored, diverts_gap h (left _) before (Range.mem_full _) ?_ fun e he => ?_⟩
    · rwa [← keys_records]
    · have key : e.1 ∈ (absNode n₀).map Prod.fst := by
        rw [keys_records]
        exact List.mem_map_of_mem he
      rcases Nat.lt_trichotomy e.1 k with below | same | above
      · exact Or.inl below
      · exact absurd (same ▸ key) absent
      · exact Or.inr (Nat.find_min' larger ⟨above, key⟩)
  · refine Or.inl fun e he => ?_
    have key := List.mem_map_of_mem (f := Prod.fst) he
    rcases Nat.lt_trichotomy e.1 k with below | same | above
    · exact below
    · exact absurd (same ▸ key) absent
    · exact absurd ⟨e.1, above, key⟩ larger

/-- What is put at `key` is looked up at `key'` too. -/
def Shared (Vptrofs : V → X) (nullval : X) (rel : Relation V X) (c : Cursor V X)
    (key key' : Key) : Prop :=
  key < modulus ∧ key' < modulus ∧ key ≠ key' ∧ ∀ v, ∃ newr newc,
    RL_PutRecord_rel Vptrofs nullval c rel key v newr newc ∧
      lookup nullval newr newc key' = Vptrofs v

/-- In every relation a put gives its record to another key too. -/
theorem exists_shared (Vptrofs : V → X) (nullval : X) (h : WellFormed d true Range.full n₀)
    (bounded : ∀ e ∈ absNode n₀, e.1 < modulus) (prel : X)
    (shallow : correctDepth (n₀, prel)) {c : Cursor V X} (hc : completeCursor c n₀) :
    ∃ key key', Shared Vptrofs nullval (n₀, prel) c key key' := by
  have small : ∀ K ∈ (absNode n₀).map Prod.fst, K < modulus := List.forall_mem_map.mpr bounded
  have shared : ∀ k K, K ∈ (absNode n₀).map Prod.fst → Diverts k K d true Range.full n₀ →
      ∃ key key', Shared Vptrofs nullval (n₀, prel) c key key' := fun k K stored diverts =>
    ⟨K, k, small K stored, diverts.before.trans (small K stored), diverts.before.ne',
      lookup_diverted h hc prel diverts⟩
  rcases few_or_diverts h with ⟨few, left⟩ | ⟨k, K, -, diverts⟩
  · have depth : d ≤ 19 := by
      have bound := shallow
      rw [correctDepth, wellFormed_depth h] at bound
      exact Nat.le_of_lt_succ bound
    have room : Fanout * 2 ^ d < modulus - 1 := by
      have grows : 2 ^ d ≤ 2 ^ 19 := Nat.pow_le_pow_right (by decide) depth
      have full : Fanout * 2 ^ 19 < modulus - 1 := by decide
      exact (Nat.mul_le_mul_left Fanout grows).trans_lt full
    have count : ((absNode n₀).map Prod.fst).length < modulus - 1 := by
      rw [List.length_map, ← length_records]
      exact few.trans_lt room
    obtain ⟨k, inside, absent⟩ := exists_absent _ count
    rcases absent_diverts h (fun K => left K (Range.mem_full K)) absent with
      above | ⟨K, stored, diverts⟩
    · have behind : ∀ e ∈ absNode n₀, e.1 + 1 < k + 1 := fun e he => Nat.succ_lt_succ (above e he)
      refine ⟨k + 1, k, Nat.add_lt_of_lt_sub inside, inside.trans_le (Nat.sub_le _ _),
        Nat.succ_ne_self k, fun v => ?_⟩
      exact lookup_before_put h hc prel behind v
    · exact shared k K stored diverts
  · refine shared k K ?_ diverts
    rw [keys_records]
    exact diverts.stored

/-- No relation of correct depth with a cursor on it obeys the laws. -/
theorem not_indexLaws (Vptrofs : V → X) (nullval : X) (distinct : ∃ v w, Vptrofs v ≠ Vptrofs w)
    (h : WellFormed d true Range.full n₀) (bounded : ∀ e ∈ absNode n₀, e.1 < modulus) (prel : X)
    (shallow : correctDepth (n₀, prel)) {c : Cursor V X} (hc : completeCursor c n₀) :
    ¬ IndexLaws Vptrofs nullval (n₀, prel) c := by
  intro laws
  obtain ⟨key, key', inside, inside', other, shared⟩ :=
    exists_shared Vptrofs nullval h bounded prel shallow hc
  have fixed : ∀ v, lookup nullval (n₀, prel) c key' = Vptrofs v := by
    intro v
    obtain ⟨newr, newc, put, found⟩ := shared v
    exact (laws.update_neq key key' v newr newc inside inside' other put).symm.trans found
  obtain ⟨v, w, differ⟩ := distinct
  exact differ ((fixed v).symm.trans (fixed w))

/-- An empty relation: its root is a leaf. -/
def emptyRelation : Relation Nat Nat := (leafNode [] true true 7, 8)

theorem wellFormed_emptyRelation : WellFormed 0 true Range.full emptyRelation.1 := by
  refine ⟨[], true, true, 7, rfl, ⟨rfl, rfl⟩, List.Pairwise.nil, ?_, Nat.zero_le _, fun no => ?_⟩
  · intro e no
    cases no
  · cases no

theorem complete_emptyRelation : completeCursor [(emptyRelation.1, 0)] emptyRelation.1 :=
  ⟨rfl, rfl, by decide, by decide⟩

theorem not_indexLaws_emptyRelation :
    ¬ IndexLaws (fun v : Nat => v) 0 emptyRelation [(emptyRelation.1, 0)] := by
  have distinct : ∃ v w : Nat, v ≠ w := ⟨0, 1, Nat.zero_ne_one⟩
  have bounded : ∀ e ∈ absNode emptyRelation.1, e.1 < modulus := fun e no => by cases no
  have shallow : correctDepth emptyRelation := by
    show (0 : Nat) < 20
    decide
  exact not_indexLaws (fun v => v) 0 distinct wellFormed_emptyRelation bounded 8 shallow
    complete_emptyRelation

/-- After the put of the value 1 at the key 5 the key 4 is looked up as 1. -/
theorem emptyRelation_finds_four :
    WellFormed 0 true Range.full emptyRelation.1 ∧
      completeCursor [(emptyRelation.1, 0)] emptyRelation.1 ∧
      lookup 0 emptyRelation [(emptyRelation.1, 0)] 4 = 0 ∧
      lookup 0 (RL_PutRecord [(emptyRelation.1, 0)] emptyRelation 5 1 1 [] 0).2
        (RL_PutRecord [(emptyRelation.1, 0)] emptyRelation 5 1 1 [] 0).1 4 = 1 ∧
      ¬ IndexLaws (fun v : Nat => v) 0 emptyRelation [(emptyRelation.1, 0)] := by
  have before : lookup 0 emptyRelation [(emptyRelation.1, 0)] 4 = 0 := rfl
  have after : lookup 0 (RL_PutRecord [(emptyRelation.1, 0)] emptyRelation 5 1 1 [] 0).2
      (RL_PutRecord [(emptyRelation.1, 0)] emptyRelation 5 1 1 [] 0).1 4 = 1 := rfl
  refine ⟨wellFormed_emptyRelation, complete_emptyRelation, before, after, fun laws => ?_⟩
  have put : RL_PutRecord_rel (fun v : Nat => v) 0 [(emptyRelation.1, 0)] emptyRelation 5 1
      (RL_PutRecord [(emptyRelation.1, 0)] emptyRelation 5 1 1 [] 0).2
      (RL_PutRecord [(emptyRelation.1, 0)] emptyRelation 5 1 1 [] 0).1 := ⟨[], rfl⟩
  have same := laws.update_neq 5 4 1 _ _ (by decide) (by decide) (by decide) put
  exact absurd (after.symm.trans (same.trans before)) Nat.one_ne_zero

end DeepDB.Functional
