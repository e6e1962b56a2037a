import DeepDB.BTree.CellsSplit
import DeepDB.Functional.Btrees
import Mathlib.Data.List.Sort

/-!
Splitting a full node. The arrays of the two nodes that `splitnode` leaves hold, one after the
other, the sorted insertion of the new entry, and they are the arrays of the nodes that the
functional model makes of the split.
-/

namespace DeepDB.BTree.Cells
open Traced

variable {R : Type}

/-- The sorted insertion of an entry. -/
abbrev insertion (entry : Entry R) (es : List (Entry R)) : List (Entry R) :=
  es.orderedInsert (fun a b => a.key ≤ b.key) entry

/-- The cells in use. -/
def used (c : BtNode R) : List (Option (Entry R)) := c.entries.take c.numKeys

/-- The entry is one that a leaf, or an interior node, holds. -/
def Fits (isLeaf : Bool) (e : Entry R) : Prop :=
  if isLeaf then ∃ r, e.ptr = .record r else ∃ q, e.ptr = .child q

/-- A full node: `FANOUT` sorted entries, all records in a leaf, all children below a `ptr0`. -/
structure FullNode (c : BtNode R) (es : List (Entry R)) : Prop where
  numKeys : c.numKeys = FANOUT
  entries : c.entries = es.map some
  length : es.length = FANOUT
  sorted : es.Pairwise fun a b => a.key < b.key
  fits : ∀ e ∈ es, Fits c.isLeaf e
  ptr0 : if c.isLeaf then c.ptr0 = none else ∃ q, c.ptr0 = some q

/-- What `splitnode` leaves of a leaf: the promoted key is a copy of the first one on the right. -/
structure SplitLeaf (all : List (Entry R)) (left right : BtNode R) (promoted : Entry R) : Prop where
  entries : used left ++ used right = all.map some
  sizes : left.numKeys = 8 ∧ right.numKeys = 8
  first : ∃ e, right.entries[0]? = some (some e) ∧ promoted.key = e.key

/-- What it leaves of an interior node: the promoted key has moved up, its child is `ptr0`. -/
structure SplitInterior (all : List (Entry R)) (left right : BtNode R) (promoted : Entry R) :
    Prop where
  entries : ∃ q, right.ptr0 = some q ∧
    used left ++ some ⟨promoted.key, .child q⟩ :: used right = all.map some
  sizes : left.numKeys = 8 ∧ right.numKeys = 7

theorem insertion_eq (n : BTree.BtNode R) (entry : Entry R) :
    n.entries.take (BTree.findRecordIndex n entry.key) ++
        entry :: n.entries.drop (BTree.findRecordIndex n entry.key) =
      insertion entry n.entries := by
  have shift : ∀ (es : List (Entry R)) (i : Nat),
      BTree.findRecordIndexFrom entry.key es i = i + BTree.findRecordIndexFrom entry.key es 0 := by
    intro es
    induction es with
    | nil => exact fun _ => rfl
    | cons e es ih =>
      intro i
      rw [BTree.findRecordIndexFrom, BTree.findRecordIndexFrom]
      split
      · rfl
      · rw [ih (i + 1), ih (0 + 1)]
        omega
  rw [BTree.findRecordIndex]
  generalize n.entries = es
  induction es with
  | nil => rfl
  | cons e es ih =>
    rw [BTree.findRecordIndexFrom, insertion, List.orderedInsert]
    split
    · rfl
    · rw [shift, Nat.zero_add, Nat.add_comm, List.take_succ_cons, List.drop_succ_cons,
        List.cons_append, ih]

theorem used_eq {c : BtNode R} {n : BTree.BtNode R} (h : Shows c n) :
    used c = n.entries.map some := by
  obtain ⟨rest, same⟩ := h.entries
  rw [used, h.numKeys, same, List.take_left' (by simp)]

/-! ### The functional model -/

section
variable {V X : Type} (ptrOf : X → Ptr) (recOf : X → R)

def address : Functional.Node V X → X
  | .btnode _ _ _ _ _ x => x

/-- An entry of the functional model in memory: the pointer of its record or of its child. -/
def entryRep : Functional.Entry V X → Entry R
  | .keyval k _ x => ⟨k, .record (recOf x)⟩
  | .keychild k n => ⟨k, .child (ptrOf (address n))⟩

/-- A node of the functional model in memory. -/
def nodeRep : Functional.Node V X → BTree.BtNode R
  | .btnode entryzero le isLeaf First Last _ =>
    { isLeaf, First, Last, ptr0 := entryzero.map fun n => ptrOf (address n),
      entries := le.map (entryRep ptrOf recOf) }

variable {ptrOf recOf}

theorem entryRep_key (e : Functional.Entry V X) :
    (entryRep ptrOf recOf e).key = Functional.entryKey e := by
  cases e <;> rfl

theorem insertLe_rep (e : Functional.Entry V X) (le : List (Functional.Entry V X)) :
    (Functional.insertLe e le).map (entryRep ptrOf recOf) =
      insertion (entryRep ptrOf recOf e) (le.map (entryRep ptrOf recOf)) := by
  induction le with
  | nil => rfl
  | cons e' le ih =>
    rw [Functional.insertLe, List.map_cons, insertion, List.orderedInsert, entryRep_key,
      entryRep_key]
    split
    · rfl
    · rw [List.map_cons, ih]

end

theorem Shows.unique {c : BtNode R} {n n' : BTree.BtNode R} (h : Shows c n) (h' : Shows c n') :
    n = n' := by
  have entries : n.entries = n'.entries :=
    List.map_injective_iff.mpr (Option.some_injective _) ((used_eq h).symm.trans (used_eq h'))
  cases n
  cases n'
  simp only [BTree.BtNode.mk.injEq]
  exact ⟨h.isLeaf.symm.trans h'.isLeaf, h.First.symm.trans h'.First, h.Last.symm.trans h'.Last,
    h.ptr0.symm.trans h'.ptr0, entries⟩

section
variable {V X : Type} {ptrOf : X → Ptr} {recOf : X → R}

theorem splitnodeLeft_rep (n : Functional.Node V X) (e : Functional.Entry V X) :
    nodeRep ptrOf recOf (Functional.splitnodeLeft n e) =
      { nodeRep ptrOf recOf n with
        Last := false
        entries := (insertion (entryRep ptrOf recOf e) (nodeRep ptrOf recOf n).entries).take
          MIDDLE } := by
  obtain ⟨entryzero, le, isLeaf, First, Last, x⟩ := n
  simp only [Functional.splitnodeLeft, nodeRep, List.map_take, insertLe_rep]
  rfl

theorem middle_rep {le : List (Functional.Entry V X)} {e : Functional.Entry V X} {mid : Entry R}
    (hmid : (insertion (entryRep ptrOf recOf e) (le.map (entryRep ptrOf recOf)))[MIDDLE]? =
      some mid) :
    ∃ e', (Functional.insertLe e le)[Functional.Middle]? = some e' ∧ entryRep ptrOf recOf e' = mid := by
  rw [← insertLe_rep, List.getElem?_map, Option.map_eq_some_iff] at hmid
  exact hmid

/-- The new node of a split leaf in memory, and its entry in the parent. -/
theorem splitnodeRight_leaf {n : Functional.Node V X} {e : Functional.Entry V X} {newx : X}
    {First Last : Bool} {ptr0 : Option Ptr} {es : List (Entry R)} {entry mid : Entry R} {q : Ptr}
    (same : nodeRep ptrOf recOf n = { isLeaf := true, First, Last, ptr0, entries := es })
    (he : entryRep ptrOf recOf e = entry) (haddr : ptrOf newx = q)
    (hmid : (insertion entry es)[MIDDLE]? = some mid) :
    ∃ k r, Functional.splitnodeRight n e newx = .keychild k r ∧
      ⟨mid.key, .child q⟩ = entryRep ptrOf recOf (Functional.splitnodeRight n e newx) ∧
      nodeRep ptrOf recOf r =
        { isLeaf := true, First := false, Last, ptr0 := none,
          entries := (insertion entry es).drop MIDDLE } := by
  obtain ⟨entryzero, le, isLeaf, First', Last', x⟩ := n
  have entries : le.map (entryRep ptrOf recOf) = es := congrArg BTree.BtNode.entries same
  have kind : isLeaf = true := congrArg BTree.BtNode.isLeaf same
  have last : Last' = Last := congrArg BTree.BtNode.Last same
  rw [← he, ← entries] at hmid
  obtain ⟨e', he', rfl⟩ := middle_rep hmid
  have split : Functional.splitnodeRight (.btnode entryzero le isLeaf First' Last' x) e newx =
      .keychild (Functional.entryKey e') (Functional.splitnodeLeafnode le e newx Last') := by
    simp only [Functional.splitnodeRight, he', kind, if_true]
  refine ⟨_, _, split, ?_, ?_⟩
  · rw [split, entryRep, Functional.splitnodeLeafnode, address, haddr, entryRep_key]
  · simp only [Functional.splitnodeLeafnode, nodeRep, List.map_drop, insertLe_rep, entries, he, last]
    rfl

/-- The new node of a split interior node in memory, and its entry in the parent. -/
theorem splitnodeRight_interior {n : Functional.Node V X} {e : Functional.Entry V X} {newx : X}
    {First Last : Bool} {ptr0 : Option Ptr} {es : List (Entry R)} {entry mid : Entry R} {q q' : Ptr}
    (same : nodeRep ptrOf recOf n = { isLeaf := false, First, Last, ptr0, entries := es })
    (he : entryRep ptrOf recOf e = entry) (haddr : ptrOf newx = q)
    (hmid : (insertion entry es)[MIDDLE]? = some mid) (hq : mid.ptr = .child q') :
    ∃ k r, Functional.splitnodeRight n e newx = .keychild k r ∧
      ⟨mid.key, .child q⟩ = entryRep ptrOf recOf (Functional.splitnodeRight n e newx) ∧
      nodeRep ptrOf recOf r =
        { isLeaf := false, First := false, Last, ptr0 := some q',
          entries := (insertion entry es).drop (MIDDLE + 1) } := by
  obtain ⟨entryzero, le, isLeaf, First', Last', x⟩ := n
  have entries : le.map (entryRep ptrOf recOf) = es := congrArg BTree.BtNode.entries same
  have kind : isLeaf = false := congrArg BTree.BtNode.isLeaf same
  have last : Last' = Last := congrArg BTree.BtNode.Last same
  rw [← he, ← entries] at hmid
  obtain ⟨e', he', rfl⟩ := middle_rep hmid
  obtain ⟨child, hchild, rfl⟩ : ∃ child, Functional.entryChild e' = some child ∧
      ptrOf (address child) = q' := by
    cases e' with
    | keyval k v x => cases hq
    | keychild k child => exact ⟨child, rfl, ChildOrRecord.child.inj hq⟩
  have split : Functional.splitnodeRight (.btnode entryzero le isLeaf First' Last' x) e newx =
      .keychild (Functional.entryKey e')
        (Functional.splitnodeInternnode le e newx Last' child) := by
    simp only [Functional.splitnodeRight, he', kind, Bool.false_eq_true, if_false, hchild]
  refine ⟨_, _, split, ?_, ?_⟩
  · rw [split, entryRep, Functional.splitnodeInternnode, address, haddr, entryRep_key]
  · simp only [Functional.splitnodeInternnode, nodeRep, List.map_drop, insertLe_rep, entries, he,
      last]
    rfl

end

/-- The sorted insertion of a new key is sorted again, and no entry is lost. -/
theorem insertion_sorted {es : List (Entry R)} {entry : Entry R}
    (sorted : es.Pairwise fun a b => a.key < b.key) (fresh : ∀ e ∈ es, e.key ≠ entry.key) :
    (insertion entry es).Pairwise fun a b => a.key < b.key := by
  induction es with
  | nil => exact List.pairwise_singleton _ _
  | cons e es ih =>
    obtain ⟨he, hes⟩ := List.pairwise_cons.mp sorted
    have hne := fresh e List.mem_cons_self
    rw [insertion, List.orderedInsert]
    split
    · rename_i hle
      refine List.pairwise_cons.mpr ⟨fun b hb => ?_, sorted⟩
      have first : entry.key < e.key := Nat.lt_of_le_of_ne hle (Ne.symm hne)
      rcases List.mem_cons.mp hb with rfl | hb
      · exact first
      · exact first.trans (he b hb)
    · rename_i hlt
      refine List.pairwise_cons.mpr
        ⟨fun b hb => ?_, ih hes fun e he => fresh e (List.mem_cons_of_mem _ he)⟩
      rcases (List.mem_orderedInsert _).mp hb with rfl | hb
      · exact Nat.not_le.mp hlt
      · exact he b hb

/-- `splitnode` on a full node and an entry with a new key. -/
theorem splitnode_correct {mem : Nodes R} {node : Ptr} {c : BtNode R} {es : List (Entry R)}
    {entry : Entry R} (hc : mem[node]? = some c) (full : FullNode c es)
    (fits : Fits c.isLeaf entry) (fresh : ∀ e ∈ es, e.key ≠ entry.key) :
    ∃ left right promoted, Returns Access.InBounds (splitnode mem node entry c.isLeaf)
        (mem.set node left ++ [right], promoted) ∧
      promoted.ptr = .child mem.length ∧
      (insertion entry es).Pairwise (fun a b => a.key < b.key) ∧
      (if c.isLeaf then SplitLeaf (insertion entry es) left right promoted
        else SplitInterior (insertion entry es) left right promoted) ∧
      ∀ (V X : Type) (ptrOf : X → Ptr) (recOf : X → R) (n : Functional.Node V X)
        (e : Functional.Entry V X) (newx : X), Shows c (nodeRep ptrOf recOf n) →
        entryRep ptrOf recOf e = entry → ptrOf newx = mem.length →
        Shows left (nodeRep ptrOf recOf (Functional.splitnodeLeft n e)) ∧
          ∃ k r, Functional.splitnodeRight n e newx = .keychild k r ∧
            promoted = entryRep ptrOf recOf (Functional.splitnodeRight n e newx) ∧
            Shows right (nodeRep ptrOf recOf r) := by
  let n₀ : BTree.BtNode R :=
    { isLeaf := c.isLeaf, First := c.First, Last := c.Last, ptr0 := c.ptr0, entries := es }
  have h : Shows c n₀ := by
    refine ⟨rfl, rfl, rfl, rfl, full.numKeys.trans full.length.symm, ?_, [], ?_⟩
    · rw [full.entries, List.length_map, full.length]
    · rw [full.entries, List.append_nil]
  have hall := (insertion_eq n₀ entry).symm
  have length : (insertion entry es).length = FANOUT + 1 := by
    rw [List.orderedInsert_length, full.length]
  obtain ⟨mid, hmid⟩ : ∃ mid, (insertion entry es)[MIDDLE]? = some mid :=
    ⟨_, List.getElem?_eq_getElem (by rw [length]; decide)⟩
  have htgt : BTree.findRecordIndex n₀ entry.key ≤ FANOUT :=
    (findRecordIndex_le n₀ entry.key).trans_eq full.length
  have hfits : Fits c.isLeaf mid := by
    rcases (List.mem_orderedInsert _).mp (List.mem_of_getElem? hmid) with rfl | hmem
    · exact fits
    · exact full.fits mid hmem
  have sorted := insertion_sorted full.sorted fresh
  have halves := List.take_append_drop MIDDLE (insertion entry es)
  have leftSize : ((insertion entry es).take MIDDLE).length = 8 := by
    rw [List.length_take, length]
    rfl
  have right : (insertion entry es).drop MIDDLE = mid :: (insertion entry es).drop (MIDDLE + 1) := by
    obtain ⟨hlt, rfl⟩ := List.getElem?_eq_some_iff.mp hmid
    exact List.drop_eq_getElem_cons hlt
  cases hleaf : c.isLeaf with
  | true =>
    obtain ⟨cl, cr, split, hl, hr⟩ := splitnode_returns hc h full.length entry true hall htgt hmid
      (Or.inl ⟨hleaf, rfl, rfl⟩)
    refine ⟨cl, cr, ⟨mid.key, .child mem.length⟩, split, rfl, sorted, ?_, ?_⟩
    · rw [if_pos rfl]
      refine ⟨?_, ⟨hl.numKeys.trans leftSize, ?_⟩, mid, ?_, rfl⟩
      · rw [used_eq hl, used_eq hr, ← List.map_append, halves]
      · rw [hr.numKeys, List.length_drop, length]
        rfl
      · obtain ⟨rest, same⟩ := hr.entries
        rw [same, right]
        rfl
    · intro V X ptrOf recOf n e newx hn he haddr
      have same := hn.unique h
      have kind : nodeRep ptrOf recOf n =
          { isLeaf := true, First := c.First, Last := c.Last, ptr0 := c.ptr0, entries := es } := by
        rw [same, ← hleaf]
      obtain ⟨k, r, split', promoted, shown⟩ := splitnodeRight_leaf kind he haddr hmid
      rw [splitnodeLeft_rep, same, he]
      exact ⟨hl, k, r, split', promoted, shown ▸ hr⟩
  | false =>
    obtain ⟨q, hq⟩ : ∃ q, mid.ptr = .child q := by
      rw [Fits, hleaf] at hfits
      exact hfits
    obtain ⟨cl, cr, split, hl, hr⟩ := splitnode_returns hc h full.length entry false hall htgt hmid
      (Or.inr ⟨hleaf, ⟨q, hq, rfl⟩, rfl⟩)
    refine ⟨cl, cr, ⟨mid.key, .child mem.length⟩, split, rfl, sorted, ?_, ?_⟩
    · rw [if_neg Bool.false_ne_true]
      refine ⟨⟨q, hr.ptr0, ?_⟩, hl.numKeys.trans leftSize, ?_⟩
      · have whole : (⟨mid.key, .child q⟩ : Entry R) = mid := by rw [← hq]
        rw [used_eq hl, used_eq hr, whole, ← List.map_cons, ← right, ← List.map_append, halves]
      · rw [hr.numKeys, List.length_drop, length]
        rfl
    · intro V X ptrOf recOf n e newx hn he haddr
      have same := hn.unique h
      have kind : nodeRep ptrOf recOf n =
          { isLeaf := false, First := c.First, Last := c.Last, ptr0 := c.ptr0, entries := es } := by
        rw [same, ← hleaf]
      obtain ⟨k, r, split', promoted, shown⟩ := splitnodeRight_interior kind he haddr hmid hq
      rw [splitnodeLeft_rep, same, he]
      exact ⟨hl, k, r, split', promoted, shown ▸ hr⟩

/-- The odd numbers below `30`, one record for each. -/
def oddEntries : List (Entry Nat) := (List.range FANOUT).map fun i => ⟨2 * i + 1, .record i⟩

def oddLeaf : BtNode Nat :=
  { isLeaf := true, First := true, Last := true, numKeys := FANOUT, ptr0 := none,
    entries := oddEntries.map some }

theorem splitnode_odd_leaf :
    ∃ left right promoted, Returns Access.InBounds
        (splitnode [oddLeaf] 0 ⟨16, .record 99⟩ true) ([left, right], promoted) ∧
      SplitLeaf (insertion ⟨16, .record 99⟩ oddEntries) left right promoted := by
  have fits : ∀ e ∈ oddEntries, Fits true e := by
    intro e he
    obtain ⟨i, _, rfl⟩ := List.mem_map.mp he
    exact ⟨i, rfl⟩
  have full : FullNode oddLeaf oddEntries :=
    { numKeys := rfl
      entries := rfl
      length := rfl
      sorted := by
        refine List.pairwise_map.mpr (List.pairwise_lt_range.imp fun {i j} h => ?_)
        have grows : (2 * i + 1 : Nat) < 2 * j + 1 := by omega
        exact grows
      fits
      ptr0 := rfl }
  have here : [oddLeaf][0]? = some oddLeaf := rfl
  have fresh : ∀ e ∈ oddEntries, e.key ≠ (⟨16, .record 99⟩ : Entry Nat).key := by
    intro e he
    obtain ⟨i, _, rfl⟩ := List.mem_map.mp he
    have odd : (2 * i + 1 : Nat) ≠ 16 := by omega
    exact odd
  obtain ⟨left, right, promoted, split, _, _, halves, _⟩ :=
    splitnode_correct here full ⟨99, rfl⟩ fresh
  exact ⟨left, right, promoted, split, halves⟩

end DeepDB.BTree.Cells
