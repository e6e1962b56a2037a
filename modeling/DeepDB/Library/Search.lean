import DeepDB.Library.Relation
import DeepDB.BTree.Insert

/-!
The two copies search alike. The copy that is built does not keep the flags of interior nodes: its
memory is the memory of the verified copy with these flags forgotten, and on the nodes of a tree the
two ways to search a node find the same index.
-/

namespace DeepDB.Library
open SortedAssoc Multiway
open BTree hiding findChildIndexFrom findChildIndex moveToKeyIn moveToKey isNodeParent
  ascendToParent goToKey moveToNext skipLeafEnd RL_MoveToNext RL_GetKey RL_GetRecord RL_MoveToKey
  RL_MoveToFirst RL_NewRelation RL_NewCursor RL_CursorIsValid RL_IsEmpty RL_NumRecords splitnode
  putEntry RL_PutRecord
open BTree.Tree

variable {R : Type} {d : Nat} {root : Bool} {r : Range Key} {nodes : Nodes R} {n : BtNode R}

/-! ### Forgetting the flags of interior nodes -/

def forget (n : BtNode R) : BtNode R :=
  if n.isLeaf then n else { n with First := false, Last := false }

@[simp] theorem forget_isLeaf (n : BtNode R) : (forget n).isLeaf = n.isLeaf := by
  unfold forget
  split <;> rfl

@[simp] theorem forget_entries (n : BtNode R) : (forget n).entries = n.entries := by
  unfold forget
  split <;> rfl

@[simp] theorem forget_ptr0 (n : BtNode R) : (forget n).ptr0 = n.ptr0 := by
  unfold forget
  split <;> rfl

@[simp] theorem forget_numKeys (n : BtNode R) : (forget n).numKeys = n.numKeys := by
  simp [BtNode.numKeys]

theorem forget_leaf (h : n.isLeaf = true) : forget n = n := by
  rw [forget, if_pos h]

theorem forget_interior (h : n.isLeaf = false) :
    forget n = { n with First := false, Last := false } := by
  rw [forget, if_neg (by simp [h])]

@[simp] theorem entryAt_forget (n : BtNode R) (i : Int) : entryAt (forget n) i = entryAt n i := by
  simp [entryAt]

@[simp] theorem entryChild_forget (n : BtNode R) (i : Int) :
    entryChild (forget n) i = entryChild n i := by
  simp [entryChild]

@[simp] theorem childAt_forget (n : BtNode R) (i : Int) : childAt (forget n) i = childAt n i := by
  simp [childAt]

@[simp] theorem findRecordIndex_forget (n : BtNode R) (key : Key) :
    findRecordIndex (forget n) key = findRecordIndex n key := by
  simp [findRecordIndex]

@[simp] theorem findChildIndex_forget (n : BtNode R) (key : Key) :
    findChildIndex (forget n) key = findChildIndex n key := by
  simp [findChildIndex]

@[simp] theorem lastpointer_forget (n : BtNode R) : lastpointer (forget n) = lastpointer n := by
  simp [lastpointer]

theorem getElem?_forget (nodes : Nodes R) (p : Ptr) :
    (nodes.map forget)[p]? = nodes[p]?.map forget := List.getElem?_map

theorem moveToFirstIn_forget (nodes : Nodes R) (room : Nat) (p : Ptr) (up : Cursor) :
    moveToFirstIn (nodes.map forget) room p up = moveToFirstIn nodes room p up := by
  induction room generalizing p up with
  | zero => rfl
  | succ room ih =>
    rw [moveToFirstIn, moveToFirstIn, getElem?_forget]
    cases nodes[p]? with
    | none => rfl
    | some n =>
      simp only [Option.map_some, Option.bind_eq_bind, Option.bind_some, forget_isLeaf,
        forget_ptr0]
      split
      · rfl
      · cases n.ptr0 with
        | none => rfl
        | some q => exact ih q _

theorem moveToFirst_forget (nodes : Nodes R) (p : Ptr) (up : Cursor) :
    moveToFirst (nodes.map forget) p up = moveToFirst nodes p up :=
  moveToFirstIn_forget nodes _ p up

theorem ascendLast_forget (nodes : Nodes R) (π : Cursor) :
    ascendLast (nodes.map forget) π = ascendLast nodes π := by
  induction π with
  | nil => rfl
  | cons e up ih =>
    obtain ⟨p, i⟩ := e
    cases up with
    | nil => rfl
    | cons e' up =>
      have step : ∀ nodes : Nodes R, ascendLast nodes ((p, i) :: e' :: up) =
          nodes[p]?.bind fun n =>
            if i = lastpointer n then ascendLast nodes (e' :: up)
            else some ((p, i) :: e' :: up) := fun _ => rfl
      rw [step, step, getElem?_forget, ih]
      cases nodes[p]? with
      | none => rfl
      | some n => simp only [Option.map_some, Option.bind_some, lastpointer_forget]

theorem stepNext_forget (nodes : Nodes R) (π : Cursor) :
    stepNext (nodes.map forget) π = stepNext nodes π := by
  rw [stepNext, stepNext, ascendLast_forget]
  cases ascendLast nodes π with
  | none => rfl
  | some π' =>
    cases π' with
    | nil => rfl
    | cons e up =>
      simp only [Option.bind_eq_bind, Option.bind_some, getElem?_forget]
      cases nodes[e.1]? with
      | none => rfl
      | some n =>
        simp only [Option.map_some, Option.bind_some, forget_isLeaf, entryChild_forget,
          moveToFirst_forget]

/-- At a leaf the flags are kept. -/
theorem isValid_forget {p : Ptr} {i : Int} {up : Cursor} (hn : nodes[p]? = some n)
    (leaf : n.isLeaf = true) :
    isValid (nodes.map forget) ((p, i) :: up) = isValid nodes ((p, i) :: up) := by
  simp only [isValid, currNode, getElem?_forget, hn, Option.map_some, forget_leaf leaf]

/-! ### Searching a node -/

theorem findChildIndexFrom_split {key : Key} {es : List (Entry R)} {a : Key} {A B : List Key}
    (i : Int) (keys : es.map Entry.key = a :: A ++ B) (below : ∀ x ∈ a :: A, x ≤ key)
    (above : ∀ x ∈ B, key < x) : findChildIndexFrom key es i = i + A.length := by
  induction es generalizing a A i with
  | nil => cases keys
  | cons e es ih =>
    obtain ⟨rfl, rest⟩ := List.cons.inj keys
    cases es with
    | nil =>
      obtain ⟨rfl, -⟩ := List.append_eq_nil_iff.mp rest.symm
      simp [findChildIndexFrom]
    | cons e' es =>
      cases A with
      | nil =>
        have here : e.key ≤ key ∧ key < e'.key := by
          refine ⟨below _ List.mem_cons_self, above _ ?_⟩
          have rest : (e' :: es).map Entry.key = B := rest
          rw [← rest]
          exact List.mem_cons_self
        rw [findChildIndexFrom, if_pos here]
        simp
      | cons a' A =>
        have next : e'.key ≤ key := by
          rw [show e'.key = a' from (List.cons.inj rest).1]
          exact below a' (List.mem_cons_of_mem _ List.mem_cons_self)
        have later : ¬ (e.key ≤ key ∧ key < e'.key) := fun h => absurd next (Nat.not_le.mpr h.2)
        rw [findChildIndexFrom, if_neg later,
          ih _ rest fun x hx => below x (List.mem_cons_of_mem _ hx), List.length_cons]
        omega

theorem findChildIndex_split {key : Key} {A B : List Key} (keys : n.entries.map Entry.key = A ++ B)
    (filled : n.entries ≠ []) (below : ∀ x ∈ A, x ≤ key) (above : ∀ x ∈ B, key < x) :
    findChildIndex n key = some ((A.length : Int) - 1) := by
  unfold findChildIndex
  cases hes : n.entries with
  | nil => exact absurd hes filled
  | cons e es =>
    rw [hes] at keys
    cases A with
    | nil =>
      have first : key < e.key := above _ (by
        rw [List.nil_append] at keys
        rw [← keys]
        exact List.mem_cons_self)
      simp [first]
    | cons a A =>
      have first : ¬ key < e.key := by
        rw [show e.key = a from (List.cons.inj keys).1]
        exact Nat.not_lt.mpr (below a List.mem_cons_self)
      simp only [if_neg first, findChildIndexFrom_split 0 keys below above]
      simp

/-- Both copies find the child whose separators enclose the key. -/
theorem findChildIndex_node {p : Ptr} {F L : Bool} {t : Tree R d} {ts : List (Key × Tree R d)}
    (hg : Good (d + 1) root r (node p F L t ts)) (key : Key) :
    findChildIndex (toNode (node p F L t ts)) key =
      BTree.findChildIndex (toNode (node p F L t ts)) key := by
  obtain ⟨pre, f, post, hj, below, above⟩ := exists_focus key t ts hg.2.1
  have keys : (toNode (node p F L t ts)).entries.map Entry.key =
      pre.map Prod.snd ++ post.map Prod.fst := by
    rw [keys_node, ← join_seps pre f post, ← hj]
  have filled : (toNode (node p F L t ts)).entries ≠ [] := by
    intro none
    have := numKeys_node p F L t ts
    rw [BtNode.numKeys, none] at this
    have := hg.2.2.2.1
    simp at *
    omega
  rw [BTree.findChildIndex_join hj hg.2.2.2.1 below above, findChildIndex_split keys filled
    (List.forall_mem_map.mpr below) (List.forall_mem_map.mpr above), List.length_map]

/-! ### Descending -/

theorem moveToKeyIn_forget {t : Tree R d} (hm : Repr nodes d t) (hg : Good d root r t) (key : Key)
    (room : Nat) (up : Cursor) :
    moveToKeyIn (nodes.map forget) key room (ptr t) up =
      BTree.moveToKeyIn nodes key room (ptr t) up := by
  induction d generalizing root r room up with
  | zero =>
    cases room with
    | zero => rfl
    | succ room =>
      obtain ⟨p, F, L, recs, rfl⟩ := exists_leaf t
      rw [moveToKeyIn, BTree.moveToKeyIn, getElem?_forget, repr_ptr hm,
        Option.map_some, forget_leaf (by simp)]
      simp
  | succ d ih =>
    cases room with
    | zero => rfl
    | succ room =>
      obtain ⟨p, F, L, t, ts, rfl⟩ := exists_node t
      obtain ⟨pre, f, post, hj, below, above⟩ := exists_focus key t ts hg.2.1
      have hf := good_focus hg hj
      have index := findChildIndex_join (p := p) (F := F) (L := L) hj hg.2.2.2.1 below above
      have child := childAt_join (p := p) (F := F) (L := L) hj
      rw [moveToKeyIn, BTree.moveToKeyIn, getElem?_forget, repr_ptr hm]
      simp only [Option.map_some, Option.bind_eq_bind, Option.bind_some, forget_isLeaf,
        findChildIndex_forget, childAt_forget, findChildIndex_node hg, index, child]
      rw [if_neg (by simp), if_neg (by simp)]
      exact ih (hm.2 f (mem_of_join hj)) hf room _

theorem moveToKey_forget {t : Tree R d} (hm : Repr nodes d t) (hg : Good d root r t) (key : Key)
    (up : Cursor) : moveToKey (nodes.map forget) (ptr t) key up =
      BTree.moveToKey nodes (ptr t) key up :=
  moveToKeyIn_forget hm hg key _ up

end DeepDB.Library
