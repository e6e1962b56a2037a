import DeepDB.BTree.CellsSplit

/-!
Insertion on the arrays refines insertion on the nodes.
-/

namespace DeepDB.BTree.Cells
open Traced

variable {R : Type} {c c' : BtNode R} {n n' : BTree.BtNode R} {mem : Nodes R}
  {nodes : BTree.Nodes R} {p : Ptr}

/-! ### Memory that changes -/

theorem ShowsAll.set (hm : ShowsAll mem nodes) (p : Ptr) (h : Shows c n) :
    ShowsAll (mem.set p c) (nodes.set p n) := by
  induction hm generalizing p with
  | nil => exact List.Forall₂.nil
  | cons h' hm ih =>
    cases p with
    | zero => exact List.Forall₂.cons h hm
    | succ p => exact List.Forall₂.cons h' (ih p)

theorem ShowsAll.append (hm : ShowsAll mem nodes) (h : Shows c n) :
    ShowsAll (mem ++ [c]) (nodes ++ [n]) := by
  induction hm with
  | nil => exact List.Forall₂.cons h List.Forall₂.nil
  | cons h' hm ih => exact List.Forall₂.cons h' ih

theorem shows_createNewNode (isLeaf First Last : Bool) :
    Shows (createNewNode isLeaf First Last : BtNode R) (BTree.createNewNode isLeaf First Last) :=
  ⟨rfl, rfl, rfl, rfl, rfl, rfl, List.replicate FANOUT none, rfl⟩

/-! ### Writing an entry -/

theorem modify_map_some {α : Type} {es : List α} {i : Nat} {e : α} (he : es[i]? = some e)
    (f : α → α) (rest : List (Option α)) :
    (es.map some ++ rest).modify i (Option.map f) = (es.set i (f e)).map some ++ rest := by
  induction es generalizing i with
  | nil => simp at he
  | cons x es ih =>
    cases i with
    | zero =>
      obtain rfl := Option.some.inj he
      rfl
    | succ i =>
      have rest := ih (i := i) (by simpa using he)
      simpa using rest

theorem writePtr_returns (h : Shows c n) {i : Nat} {e : Entry R} (he : n.entries[i]? = some e)
    (ptr : ChildOrRecord R) :
    ∃ c', Returns Access.InBounds (writePtr c i ptr) c' ∧
      Shows c' { n with entries := n.entries.set i { e with ptr } } := by
  obtain ⟨inside, hget⟩ := List.getElem?_eq_some_iff.mp he
  have bounded := h.length_le
  have cells := h.cells
  obtain ⟨rest, same⟩ := h.entries
  have written : c.entries.modify i (Option.map fun e => { e with ptr }) =
      (n.entries.set i { e with ptr }).map some ++ rest := by
    rw [same, modify_map_some he]
  refine ⟨{ c with entries := c.entries.modify i (Option.map fun e => { e with ptr }) },
    returns_bind (returns_emit ⟨Int.natCast_nonneg _, by omega⟩) (returns_ofOption ?_),
    h.isLeaf, h.First, h.Last, h.ptr0, ?_, ?_, rest, written⟩
  · rw [if_pos ⟨Int.natCast_nonneg _, by rw [Int.toNat_natCast]; omega⟩, Int.toNat_natCast]
  · rw [List.length_set]
    exact h.numKeys
  · rw [List.length_modify]
    exact cells

theorem refines_insertEntry (h : Shows c n) (room : n.entries.length < FANOUT) (i : Int)
    (entry : Entry R) :
    Refines Access.InBounds Shows (insertEntry c i entry) (BTree.insertEntry n i entry) := by
  intro n' hn'
  rw [BTree.insertEntry] at hn'
  split at hn'
  · rename_i index
    obtain rfl := Option.some.inj hn'
    obtain ⟨tgt, rfl⟩ := Int.eq_ofNat_of_zero_le index.1
    have hle : tgt ≤ n.entries.length := Int.ofNat_le.mp index.2
    obtain ⟨rest, same⟩ := h.entries
    have cells := h.cells
    rw [same, List.length_append, List.length_map] at cells
    obtain ⟨b, C, rfl⟩ := List.exists_cons_of_length_pos (l := rest) (by omega)
    rw [List.length_cons] at cells
    have count : ((c.numKeys : Int) - (tgt : Int)).toNat = (n.entries.drop tgt).length := by
      rw [List.length_drop, h.numKeys]
      omega
    have front : ((n.entries.take tgt).map (some : Entry R → Option (Entry R))).length = tgt := by
      simp [hle]
    have behind := List.length_drop (i := tgt) (l := n.entries)
    obtain ⟨b', shift⟩ := shiftEntries_returns (c := c) tgt ((n.entries.take tgt).map some) C
      (n.entries.drop tgt) b (by rw [same, ← List.append_assoc, ← List.map_append, List.take_append_drop]) front
      (by have := h.numKeys; omega) (by omega)
    have write := writeEntry_returns (c := { c with entries := (n.entries.take tgt).map some ++
        b' :: ((n.entries.drop tgt).map some ++ C) }) rfl (by rw [front]; omega) entry
    rw [front] at write
    refine ⟨_, returns_bind (by rw [count]; exact shift) (returns_bind write (returns_pure _)),
      h.isLeaf, h.First, h.Last, h.ptr0, ?_, ?_, C, ?_⟩
    · dsimp only
      rw [Int.toNat_natCast, List.length_append, List.length_cons, List.length_take, behind,
        h.numKeys]
      omega
    · dsimp only
      rw [List.length_append, front, List.length_cons, List.length_append, List.length_map, behind]
      omega
    · simp
  · cases hn'

/-! ### Splitting -/

def ShowsSplit (x : Nodes R × Entry R) (y : BTree.Nodes R × Entry R) : Prop :=
  ShowsAll x.1 y.1 ∧ x.2 = y.2

theorem refines_splitnode (hm : ShowsAll mem nodes) (p : Ptr) (entry : Entry R) (isLeaf : Bool) :
    Refines Access.InBounds ShowsSplit (splitnode mem p entry isLeaf)
      (BTree.splitnode nodes p entry isLeaf) := by
  intro y hy
  cases hn : nodes[p]? with
  | none => simp [BTree.splitnode, hn] at hy
  | some n =>
    by_cases full : n.entries.length = FANOUT
    · obtain ⟨c, hc, h⟩ := hm.get hn
      have numKeys : n.numKeys = FANOUT := by simp [BTree.BtNode.numKeys, full]
      have htgt := findRecordIndex_le n entry.key
      generalize hall : n.entries.take (BTree.findRecordIndex n entry.key) ++
        entry :: n.entries.drop (BTree.findRecordIndex n entry.key) = all
      have length : all.length = FANOUT + 1 := by
        rw [← hall, List.length_append, List.length_cons, List.length_take, List.length_drop]
        omega
      obtain ⟨mid, hmid⟩ : ∃ mid, all[MIDDLE]? = some mid :=
        ⟨_, List.getElem?_eq_getElem (by rw [length]; decide)⟩
      have left := firstHalf_eq n.entries entry (BTree.findRecordIndex n entry.key) MIDDLE htgt
      rw [hall] at left
      rw [full] at htgt
      simp only [BTree.splitnode, hn, numKeys, guard_true, hall, left, hmid, Option.bind_eq_bind,
        Option.bind_some, Option.pure_def] at hy
      cases hleaf : n.isLeaf with
      | true =>
        simp only [hleaf, if_true, Option.some.injEq] at hy
        obtain rfl := hy
        obtain ⟨cl, cr, split, hl, hr⟩ := splitnode_returns hc h full entry isLeaf hall.symm htgt
          hmid (Or.inl ⟨hleaf, rfl, rfl⟩)
        exact ⟨_, split, (hm.set p (hleaf ▸ hl)).append hr, by rw [hm.length]⟩
      | false =>
        simp only [hleaf, Bool.false_eq_true, if_false] at hy
        cases hq : mid.ptr with
        | record r => simp [hq] at hy
        | child q =>
          simp only [hq, Option.some.injEq] at hy
          obtain rfl := hy
          obtain ⟨cl, cr, split, hl, hr⟩ := splitnode_returns hc h full entry isLeaf hall.symm
            htgt hmid (Or.inr ⟨hleaf, ⟨q, hq, rfl⟩, rfl⟩)
          exact ⟨_, split, (hm.set p (hleaf ▸ hl)).append hr, by rw [hm.length]⟩
    · have notFull : ¬ n.numKeys = FANOUT := fun same => full (Int.ofNat_inj.mp same)
      simp [BTree.splitnode, hn, notFull] at hy

/-! ### The whole insertion -/

def ShowsPut (x : Relation R × Cursor) (y : BTree.Relation R × Cursor) : Prop :=
  ShowsRelation x.1 y.1 ∧ x.2 = y.2

theorem refines_keyAtCursor (h : Shows c n) (i : Int) (key : Key) :
    Refines Access.InBounds Eq (keyAtCursor c i key) (BTree.keyAtCursor n i key) := by
  rw [keyAtCursor, BTree.keyAtCursor, h.numKeys_int]
  split
  · refine refines_bind (refines_readEntry h i) ?_
    rintro e _ rfl
    exact refines_pure rfl
  · exact refines_pure rfl

variable {rel : Relation R} {rel' : BTree.Relation R}

theorem shows_newRoot (hr : ShowsRelation rel rel') (entry : Entry R) :
    ShowsAll
      (rel.nodes ++ [{ (createNewNode false true true : BtNode R) with
        ptr0 := some rel.root, numKeys := 1,
        entries := some entry :: List.replicate (FANOUT - 1) none }])
      (rel'.nodes ++ [{ (BTree.createNewNode false true true : BTree.BtNode R) with
        ptr0 := some rel'.root, entries := [entry] }]) := by
  refine hr.nodes.append ⟨rfl, rfl, rfl, by rw [hr.root], rfl, ?_, _, rfl⟩
  simp [FANOUT]

theorem writeRoot_returns (root : Ptr) (entry : Entry R) :
    Returns Access.InBounds
      (writeEntry { (createNewNode false true true : BtNode R) with
        ptr0 := some root, numKeys := 1 } 0 entry)
      { (createNewNode false true true : BtNode R) with
        ptr0 := some root, numKeys := 1,
        entries := some entry :: List.replicate (FANOUT - 1) none } :=
  writeEntry_returns
    (c := { (createNewNode false true true : BtNode R) with ptr0 := some root, numKeys := 1 })
    (A := []) (B := List.replicate (FANOUT - 1) none) rfl (by simp [FANOUT]) entry

theorem refines_putEntry (hr : ShowsRelation rel rel') (entry : Entry R) (key : Key)
    (cursor : Cursor) : Refines Access.InBounds ShowsPut (putEntry rel entry key cursor)
      (BTree.putEntry rel' entry key cursor) := by
  induction cursor generalizing rel rel' entry with
  | nil =>
    rw [putEntry, BTree.putEntry]
    intro y hy
    obtain ⟨cursor, hcursor, hy⟩ := Option.bind_eq_some_iff.mp hy
    obtain rfl := Option.some.inj hy
    have shows := shows_newRoot hr entry
    obtain ⟨cursor', hcursor', rfl⟩ := refines_moveToKey shows rel.nodes.length key [] cursor
      (by rw [hr.nodes.length]; exact hcursor)
    exact ⟨_, returns_bind (writeRoot_returns _ _) (returns_bind hcursor' (returns_pure _)),
      ⟨shows, hr.nodes.length, by rw [hr.numRecords], by rw [hr.depth]⟩, rfl⟩
  | cons e up ih =>
    obtain ⟨p, i⟩ := e
    rw [putEntry, BTree.putEntry]
    refine refines_bind (refines_getNode hr.nodes p) fun c n h => ?_
    have few : n.numKeys < (FANOUT : Int) ↔ c.numKeys < FANOUT := by
      rw [← h.numKeys_int]
      exact Int.ofNat_lt
    have after : ∀ isLeaf, Refines Access.InBounds ShowsPut
        (do
          let x ← splitnode rel.nodes p entry isLeaf
          putEntry { rel with nodes := x.1 } x.2 key up)
        (do
          let x ← BTree.splitnode rel'.nodes p entry isLeaf
          BTree.putEntry { rel' with nodes := x.1 } x.2 key up) := by
      intro isLeaf
      refine refines_bind (refines_splitnode hr.nodes p entry isLeaf) ?_
      rintro ⟨mem, entry⟩ ⟨nodes, _⟩ ⟨hm, rfl⟩
      have hr' : ShowsRelation { rel with nodes := mem } { rel' with nodes := nodes } :=
        ⟨hm, hr.root, hr.numRecords, hr.depth⟩
      exact ih hr' entry
    rw [h.isLeaf]
    by_cases hleaf : n.isLeaf = true
    · rw [if_pos hleaf, if_pos hleaf]
      refine refines_bind (refines_keyAtCursor h i entry.key) ?_
      rintro found _ rfl
      cases found with
      | true =>
        rw [if_pos rfl, if_pos rfl]
        intro y hy
        obtain ⟨e, he, hy⟩ := Option.bind_eq_some_iff.mp hy
        obtain rfl := Option.some.inj hy
        rw [entryAt] at he
        split at he
        · rename_i nonneg
          obtain ⟨j, rfl⟩ := Int.eq_ofNat_of_zero_le nonneg
          obtain ⟨c', hc', h'⟩ := writePtr_returns h he entry.ptr
          exact ⟨_, returns_bind hc' (returns_pure _),
            ⟨hr.nodes.set p h', hr.root, hr.numRecords, hr.depth⟩, rfl⟩
        · cases he
      | false =>
        rw [if_neg Bool.false_ne_true, if_neg Bool.false_ne_true]
        by_cases room : c.numKeys < FANOUT
        · rw [if_pos room, if_pos (few.mpr room)]
          refine refines_bind (refines_insertEntry h (h.numKeys ▸ room) i entry) fun c' n' h' => ?_
          exact refines_pure ⟨⟨hr.nodes.set p h', hr.root, by rw [hr.numRecords], hr.depth⟩, rfl⟩
        · rw [if_neg room, if_neg (few.not.mpr room)]
          exact after true
    · rw [if_neg hleaf, if_neg hleaf]
      by_cases room : c.numKeys < FANOUT
      · rw [if_pos room, if_pos (few.mpr room)]
        refine refines_bind (refines_insertEntry h (h.numKeys ▸ room) (i + 1) entry) fun c' n' h' => ?_
        refine refines_bind (refines_moveToKey (hr.nodes.set p h') p key up) ?_
        rintro cursor _ rfl
        exact refines_pure ⟨⟨hr.nodes.set p h', hr.root, by rw [hr.numRecords], hr.depth⟩, rfl⟩
      · rw [if_neg room, if_neg (few.not.mpr room)]
        exact after false

theorem refines_RL_PutRecord (hr : ShowsRelation rel rel') (cursor : Cursor) (key : Key)
    (record : R) : Refines Access.InBounds ShowsPut (RL_PutRecord rel cursor key record)
      (BTree.RL_PutRecord rel' cursor key record) := by
  refine refines_bind (refines_goToKey hr.nodes cursor key) ?_
  rintro cursor _ rfl
  refine refines_bind (refines_putEntry hr ⟨key, .record record⟩ key cursor) ?_
  rintro ⟨rel, cursor⟩ ⟨rel', _⟩ ⟨hr, rfl⟩
  refine refines_bind (refines_RL_MoveToNext hr.nodes cursor) ?_
  rintro cursor _ rfl
  exact refines_pure ⟨hr, rfl⟩

end DeepDB.BTree.Cells
