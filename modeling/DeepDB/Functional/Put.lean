import DeepDB.Functional.Path

/-!
What a put does to the abstract list. `updateLeNthChild` gives the entries in front of the updated
child up, so the put is the insertion into a sorted map exactly when the descent to the key takes
`ptr0` or the first entry of every interior node on its way.
-/

namespace DeepDB.Functional
open SortedAssoc Multiway

variable {V X : Type} {d : Nat} {root : Bool} {r : Range Key} {key : Key}

/-- The key is below the second separator of every interior node that the descent to it visits. -/
def LeftPath (key : Key) : Nat → Node V X → Prop
  | 0, _ => True
  | depth + 1, n => (∀ e, n.le[1]? = some e → key < entryKey e) ∧
      ∀ child, nthNode (findChildIndex n key) n = some child → LeftPath key depth child

/-! ### Updating a child -/

section
variable {pre : List (Node V X × Key)} {f : Node V X} {post : List (Key × Node V X)}
  {F L : Bool} {x : X}

/-- The children in front of the focus that are still there after an update of the focus. -/
def kept : List (Node V X × Key) → List (Node V X × Key)
  | [] => []
  | e :: pre => [(e.1, (pre.getLastD e).2)]

theorem kept_eq (h : pre.length ≤ 1) : kept pre = pre := by
  cases pre with
  | nil => rfl
  | cons e pre =>
    obtain rfl : pre = [] := List.length_eq_zero_iff.mp (by simpa using h)
    rfl

theorem mem_kept {y : Node V X} (h : y ∈ (kept pre).map Prod.fst) :
    y ∈ (pre.take 1).map Prod.fst := by
  cases pre with
  | nil => exact h
  | cons e pre => simpa [kept] using h

/-- The entries up to the focus are those of the children in front of it. -/
theorem join_cons_entries (e : Node V X × Key) (pre : List (Node V X × Key)) (f : Node V X)
    (post : List (Key × Node V X)) :
    ∃ A, (join (e :: pre) f post).2 = A ++ ((pre.getLastD e).2, f) :: post ∧
      A.length = pre.length := by
  induction pre generalizing e with
  | nil => exact ⟨[], rfl, rfl⟩
  | cons e' pre ih =>
    obtain ⟨A, hA, hlen⟩ := ih e'
    refine ⟨(e.2, e'.1) :: A, ?_, by simp [hlen]⟩
    rw [join, hA]
    cases pre <;> rfl

theorem updateLeNthChild_append (y : Node V X) (A : List (Entry V X)) (e : Entry V X)
    (B : List (Entry V X)) :
    updateLeNthChild y A.length (A ++ e :: B) = .keychild (entryKey e) y :: B := by
  induction A with
  | nil => simp [updateLeNthChild]
  | cons a A ih =>
    have inside : ¬ ((a :: A).length : Int) ≤ 0 := by
      rw [List.length_cons]
      omega
    have next : ((a :: A).length : Int) - 1 = (A.length : Int) := by simp
    rw [List.cons_append, updateLeNthChild, if_neg inside, next, ih]

/-- An update keeps `ptr0`, the focus and the children behind the focus. -/
theorem updateNode_join (y : Node V X) :
    updateNodeNthChild ((pre.length : Int) - 1)
        (internNode (join pre f post).1 (join pre f post).2 F L x) y =
      internNode (join (kept pre) y post).1 (join (kept pre) y post).2 F L x := by
  cases pre with
  | nil => simp [updateNodeNthChild, internNode, kept]
  | cons e pre =>
    obtain ⟨A, hA, hlen⟩ := join_cons_entries e pre f post
    have index : ((e :: pre).length : Int) - 1 = ((A.map (ofChild (V := V) (X := X))).length : Int) := by
      simp [hlen]
    have hne : ¬ ((A.map (ofChild (V := V) (X := X))).length : Int) = -1 := by omega
    rw [internNode, updateNodeNthChild, index, if_neg hne, hA, List.map_append, List.map_cons,
      updateLeNthChild_append]
    simp [kept, join, internNode, ofChild, entryKey]

/-- A path to the left takes `ptr0` or the first entry, and goes on to the left. -/
theorem leftPath_join (below : ∀ x ∈ pre, x.2 ≤ key) (above : ∀ x ∈ post, key < x.1) :
    LeftPath key (d + 1) (internNode (join pre f post).1 (join pre f post).2 F L x) ↔
      pre.length ≤ 1 ∧ LeftPath key d f := by
  have keys : (internNode (join pre f post).1 (join pre f post).2 F L x).le.map entryKey =
      pre.map Prod.snd ++ post.map Prod.fst := by
    rw [← join_seps pre f post]
    exact keys_ofChild _
  have second : (∀ e, (internNode (join pre f post).1 (join pre f post).2 F L x).le[1]? = some e →
      key < entryKey e) ↔ pre.length ≤ 1 := by
    have entry : ∀ k, (∃ e, (internNode (join pre f post).1 (join pre f post).2 F L x).le[1]? =
        some e ∧ entryKey e = k) ↔ (pre.map Prod.snd ++ post.map Prod.fst)[1]? = some k := by
      intro k
      rw [← keys, List.getElem?_map, Option.map_eq_some_iff]
    constructor
    · intro low
      by_contra many
      have hlt : 1 < pre.length := by omega
      obtain ⟨e, he, hk⟩ := (entry pre[1].2).mpr (by
        rw [List.getElem?_append_left (by simpa using hlt), List.getElem?_map,
          List.getElem?_eq_getElem hlt]
        rfl)
      have := low e he
      rw [hk] at this
      exact absurd this (Nat.not_lt.mpr (below _ (List.getElem_mem hlt)))
    · intro few e he
      have hk := (entry (entryKey e)).mp ⟨e, he, rfl⟩
      rw [List.getElem?_append_right (by simpa using few)] at hk
      obtain ⟨x, hx, same⟩ := List.mem_map.mp (List.mem_of_getElem? hk)
      rw [← same]
      exact above x hx
  rw [LeftPath, second, findChildIndex_join below above, nthNode_join]
  simp

end

/-! ### Updating a cursor -/

/-- Every index of the cursor keeps all entries of its node. -/
def Low (c : Cursor V X) : Prop := ∀ e ∈ c, e.2 ≤ 0

theorem updateNode_twice {i : Int} (hi : i ≤ 0) (n y z : Node V X) :
    updateNodeNthChild i (updateNodeNthChild i n y) z = updateNodeNthChild i n z := by
  obtain ⟨ptr0, le, isLeaf, F, L, x⟩ := n
  by_cases h : i = -1
  · simp [updateNodeNthChild, h]
  · cases le with
    | nil => simp [updateNodeNthChild, h, updateLeNthChild]
    | cons e le => simp [updateNodeNthChild, h, updateLeNthChild, hi, entryKey]

/-- The last of two updates at a low cursor counts. -/
theorem updatePartial_twice {c : Cursor V X} (low : Low c) (rel : Relation V X) (y z : Node V X) :
    updatePartialCursorRel (updatePartialCursorRel c rel y).1 (updatePartialCursorRel c rel y).2 z =
      updatePartialCursorRel c rel z := by
  induction c generalizing y z with
  | nil => rfl
  | cons e c ih =>
    obtain ⟨n, i⟩ := e
    have hi : i ≤ 0 := low _ List.mem_cons_self
    have htail := ih fun e he => low e (List.mem_cons_of_mem _ he)
    simp only [updatePartialCursorRel, updateNode_twice hi, htail]

/-! ### The effect of a put on a subtree -/

/-- The outcome of `putEntry` in the subtree `n`: the node there has been replaced, or divided in
two with an entry left to put at the cursor above. -/
def PutOutcome (n : Node V X) (r : Range Key) (key : Key) (v : V) (d : X) (up : Cursor V X)
    (rel : Relation V X) (length : Nat) (result : Cursor V X × Relation V X) : Prop :=
  (∃ n', result.2 = (updatePartialCursorRel up rel n').2 ∧
      absNode n' = put key v (absNode n)) ∨
    ∃ n₁ k n₂ newx, result =
        putEntryIn key d length (updatePartialCursorRel up rel n₁).1
          (updatePartialCursorRel up rel n₁).2 (.keychild k n₂) newx ∧
      r.Inside k ∧ absNode n₁ ++ absNode n₂ = put key v (absNode n)

/-! ### Leaves -/

section
variable {recs : List (Key × V × X)} {v : V} {x : X}

theorem keyInLe_ofRecord : keyInLe key (recs.map ofRecord) = true ↔ key ∈ recs.map Prod.fst := by
  induction recs with
  | nil => simp [keyInLe]
  | cons e recs ih =>
    by_cases h : e.1 = key
    · simp [keyInLe, ofRecord, entryKey, h]
    · simp only [List.map_cons, keyInLe, ofRecord, entryKey, h, if_false, List.mem_cons, Ne.symm h,
        false_or] at ih ⊢
      exact ih

theorem updateLe_ofRecord (hs : Sorted recs) (h : key ∈ recs.map Prod.fst) :
    updateLe (.keyval key v x) (recs.map ofRecord) = (put key (v, x) recs).map ofRecord := by
  induction recs with
  | nil => cases h
  | cons e recs ih =>
    obtain ⟨he, hrest⟩ := sorted_cons.mp hs
    by_cases hk : key = e.1
    · subst hk
      simp [updateLe, ofRecord, entryKey, put]
    · obtain ⟨y, hy, same⟩ := List.mem_map.mp ((List.mem_cons.mp h).resolve_left hk)
      have hlt : ¬ key < e.1 := by
        rw [← same]
        exact Nat.not_lt.mpr (he y hy).le
      have hne : ¬ entryKey (.keyval key v x) = entryKey (ofRecord e) := hk
      rw [List.map_cons, updateLe, if_neg hne, ih hrest (List.mem_map.mpr ⟨y, hy, same⟩), put,
        if_neg hlt, if_neg hk, List.map_cons]

theorem insertLe_ofRecord (h : key ∉ recs.map Prod.fst) :
    insertLe (.keyval key v x) (recs.map ofRecord) = (put key (v, x) recs).map ofRecord := by
  induction recs with
  | nil => rfl
  | cons e recs ih =>
    simp only [List.map_cons, List.mem_cons, not_or] at h
    by_cases hlt : key < e.1
    · simp [insertLe, ofRecord, entryKey, put, hlt, hlt.le]
    · have hle : ¬ entryKey (.keyval key v x) ≤ entryKey (ofRecord e) := fun hle =>
        hlt (lt_of_le_of_ne hle h.1)
      rw [List.map_cons, insertLe, if_neg hle, ih h.2, put, if_neg hlt, if_neg h.1, List.map_cons]

variable {F L : Bool} {x₀ : X}

theorem put_leaf (hs : Sorted recs) (hw : Within r recs) (hfull : recs.length ≤ Fanout)
    (hk : r.Mem key) (c : X) (up : Cursor V X) (rel : Relation V X) (length : Nat)
    (newx : List X) :
    PutOutcome (leafNode recs F L x₀) r key v c up rel length
      (putEntryIn key c (length + 1) (moveToKey (leafNode recs F L x₀) key up) rel
        (.keyval key v x) newx) := by
  have total : (put key (v, x) recs).map (fun e => (e.1, e.2.1)) =
      put key v (recs.map fun e => (e.1, e.2.1)) := put_map Prod.fst key (v, x) recs
  rw [moveToKey_leaf (n := leafNode recs F L x₀) rfl]
  by_cases hmem : key ∈ recs.map Prod.fst
  · have inLe := keyInLe_ofRecord.mpr hmem
    refine Or.inl ⟨leafNode (put key (v, x) recs) F L x₀, ?_, by simp [total]⟩
    simp only [leafNode, putEntryIn, entryKey, inLe, Bool.and_self, if_true, updateLe_ofRecord hs hmem]
    rfl
  · have inLe : keyInLe key (recs.map (ofRecord (V := V) (X := X))) = false :=
      Bool.eq_false_iff.mpr fun h => hmem (keyInLe_ofRecord.mp h)
    by_cases hroom : recs.length < Fanout
    · refine Or.inl ⟨leafNode (put key (v, x) recs) F L x₀, ?_, by simp [total]⟩
      have notFull : fullnode (leafNode recs F L x₀) = false := by
        simpa [fullnode, leafNode, Node.le] using hroom
      simp only [leafNode] at notFull
      simp only [leafNode, putEntryIn, entryKey, inLe, notFull, insertLe_ofRecord hmem]
      rfl
    · have full : fullnode (leafNode recs F L x₀) = true := by
        simpa [fullnode, leafNode, Node.le] using hroom
      have hlen := length_put_of_not_mem (v := (v, x)) hmem
      obtain ⟨y, A, mid, B, hcut, hA, -⟩ := exists_middle (m := Middle) (put key (v, x) recs)
        (by rw [hlen]; simp only [Middle, Fanout] at *; omega) (by decide)
      have sorted := sorted_put (k := key) (v := (v, x)) hs
      have within := within_put hw hk (v, x)
      rw [hcut] at sorted within
      have middle : ((y :: A ++ mid :: B).map (ofRecord (V := V) (X := X)))[Middle]? =
          some (ofRecord mid) := by
        rw [← hA, List.getElem?_map, List.getElem?_append_right (Nat.le_refl _)]
        simp
      have left : ((y :: A ++ mid :: B).map (ofRecord (V := V) (X := X))).take Middle =
          (y :: A).map ofRecord := by
        rw [← hA, ← List.map_take, List.take_left]
      have right : ((y :: A ++ mid :: B).map (ofRecord (V := V) (X := X))).drop Middle =
          (mid :: B).map ofRecord := by
        rw [← hA, ← List.map_drop, List.drop_left]
      refine Or.inr ⟨leafNode (y :: A) F false x₀, mid.1,
        leafNode (mid :: B) false L (newx.headD c), newx.tail, ?_, (inside_cut sorted within).1, ?_⟩
      · simp only [leafNode] at full
        simp only [leafNode, putEntryIn, entryKey, inLe, full, splitnodeLeft, splitnodeRight,
          splitnodeLeafnode, insertLe_ofRecord hmem, hcut, middle, left, right]
        rfl
      · rw [absNode_leafNode, absNode_leafNode, absNode_leafNode, ← List.map_append, ← hcut, total]

end

/-! ### Interior nodes -/

section
variable {pre : List (Node V X × Key)} {f f₁ f₂ : Node V X} {post : List (Key × Node V X)}
  {F L : Bool} {x : X} {v : V} {k : Key}

theorem insertLe_append {e : Entry V X} {A B : List (Entry V X)}
    (below : ∀ a ∈ A, entryKey a < entryKey e) (above : ∀ b ∈ B, entryKey e < entryKey b) :
    insertLe e (A ++ B) = A ++ e :: B := by
  induction A with
  | nil =>
    cases B with
    | nil => rfl
    | cons b B => simp [insertLe, (above b List.mem_cons_self).le]
  | cons a A ih =>
    have ha : ¬ entryKey e ≤ entryKey a := Nat.not_le.mpr (below a List.mem_cons_self)
    rw [List.cons_append, insertLe, if_neg ha, ih fun a ha => below a (List.mem_cons_of_mem _ ha)]
    rfl

/-- The entry of a divided child goes behind the child. -/
theorem insertLe_join (f f₂ : Node V X) (below : ∀ x ∈ pre, x.2 < k) (above : ∀ x ∈ post, k < x.1) :
    insertLe (.keychild k f₂) ((join pre f post).2.map ofChild) =
      (join pre f ((k, f₂) :: post)).2.map ofChild := by
  obtain ⟨entries, -⟩ := join_insert id pre f f f₂ k post rfl
  simp only [id, List.map_id'] at entries
  have seps := join_seps pre f post
  rw [← List.take_append_drop pre.length (join pre f post).2, List.map_append] at seps
  obtain ⟨first, second⟩ := List.append_inj seps (by simp [length_join])
  have low : ∀ a ∈ ((join pre f post).2.take pre.length).map (ofChild (V := V) (X := X)),
      entryKey a < k := by
    refine List.forall_mem_map.mpr fun y hy => ?_
    obtain ⟨z, hz, same⟩ := List.mem_map.mp (first ▸ List.mem_map_of_mem (f := Prod.fst) hy)
    have hz := below z hz
    rwa [same] at hz
  have high : ∀ b ∈ ((join pre f post).2.drop pre.length).map (ofChild (V := V) (X := X)),
      k < entryKey b := by
    refine List.forall_mem_map.mpr fun y hy => ?_
    obtain ⟨z, hz, same⟩ := List.mem_map.mp (second ▸ List.mem_map_of_mem (f := Prod.fst) hy)
    have hz := above z hz
    rwa [same] at hz
  have inserted := insertLe_append (e := .keychild k f₂) low high
  rw [← List.map_append, List.take_append_drop] at inserted
  rw [entries, List.map_append, List.map_cons, inserted]
  rfl

theorem join_first (pre : List (Node V X × Key)) (f : Node V X)
    (post post' : List (Key × Node V X)) :
    (join pre f post).1 = (join pre f post').1 := by
  cases pre <;> rfl

/-- `putEntry` at an interior node whose child has been divided, at a low cursor. -/
theorem put_divided {rel : Relation V X} {up : Cursor V X} (low : Low up)
    (hs : Siblings (WellFormed d false) r (join pre f post).1 (join pre f post).2)
    (hfull : (join pre f post).2.length ≤ Fanout) (hk : (focusRange r pre post).Mem key)
    (inside : (focusRange r pre post).Inside k)
    (habs : absNode f₁ ++ absNode f₂ = put key v (absNode f)) (c : X) (length : Nat)
    (newx : List X) :
    PutOutcome (internNode (join pre f post).1 (join pre f post).2 F L x) r key v c up rel length
      (putEntryIn key c (length + 1)
        ((internNode (join pre f₁ post).1 (join pre f₁ post).2 F L x, (pre.length : Int) - 1) ::
          (updatePartialCursorRel up rel
            (internNode (join pre f₁ post).1 (join pre f₁ post).2 F L x)).1)
        (updatePartialCursorRel up rel
          (internNode (join pre f₁ post).1 (join pre f₁ post).2 F L x)).2
        (.keychild k f₂) newx) := by
  obtain ⟨hin, below, above⟩ := split_seps hs inside
  have total : gather absNode (join pre f₁ ((k, f₂) :: post)).1 (join pre f₁ ((k, f₂) :: post)).2 =
      put key v (gather absNode (join pre f post).1 (join pre f post).2) := by
    rw [put_focus (fun _ _ => wellFormed_within) hs hk, gather_join, ← habs]
    simp
  have inserted := insertLe_join f₁ f₂ below above
  have first := join_first pre f₁ post ((k, f₂) :: post)
  by_cases room : (join pre f post).2.length < Fanout
  · refine Or.inl ⟨internNode (join pre f₁ ((k, f₂) :: post)).1
      (join pre f₁ ((k, f₂) :: post)).2 F L x, ?_, by simp [total]⟩
    have notFull : fullnode (internNode (join pre f₁ post).1 (join pre f₁ post).2 F L x) = false := by
      simpa [fullnode, internNode, Node.le, length_join] using room
    have twice := updatePartial_twice low rel
      (internNode (join pre f₁ post).1 (join pre f₁ post).2 F L x)
      (internNode (join pre f₁ post).1 (join pre f₁ ((k, f₂) :: post)).2 F L x)
    rw [← first]
    simp only [internNode] at notFull twice ⊢
    simp only [putEntryIn, Bool.false_and, Bool.false_eq_true, if_false, notFull,
      updateCurrnodeCursorRel, inserted, twice]
  · have full : fullnode (internNode (join pre f₁ post).1 (join pre f₁ post).2 F L x) = true := by
      simpa [fullnode, internNode, Node.le, length_join] using room
    obtain ⟨y, A, mid, B, hcut, hA, -⟩ := exists_middle (m := Middle)
      (join pre f₁ ((k, f₂) :: post)).2
      (by rw [length_join] at *; simp only [Middle, Fanout, List.length_cons] at *; omega)
      (by decide)
    have middle : ((y :: A ++ mid :: B).map (ofChild (V := V) (X := X)))[Middle]? =
        some (ofChild mid) := by
      rw [← hA, List.getElem?_map, List.getElem?_append_right (Nat.le_refl _)]
      simp
    have left : ((y :: A ++ mid :: B).map (ofChild (V := V) (X := X))).take Middle =
        (y :: A).map ofChild := by
      rw [← hA, ← List.map_take, List.take_left]
    have right : ((y :: A ++ mid :: B).map (ofChild (V := V) (X := X))).drop (Middle + 1) =
        B.map ofChild := by
      rw [← List.drop_drop, ← hA, ← List.map_drop, List.drop_left]
      rfl
    have seps : ∀ z ∈ (y :: A ++ mid :: B).map Prod.fst, r.Inside z := by
      rw [← hcut, join_seps]
      intro z hz
      have old := (siblings_seps hs).1
      rw [← List.forall_mem_map (f := Prod.fst), join_seps] at old
      simp only [List.mem_append, List.map_cons, List.mem_cons] at hz old
      rcases hz with hz | rfl | hz
      · exact old z (Or.inl hz)
      · exact hin
      · exact old z (Or.inr hz)
    have twice := updatePartial_twice low rel
      (internNode (join pre f₁ post).1 (join pre f₁ post).2 F L x)
      (internNode (join pre f₁ post).1 (y :: A) F false x)
    refine Or.inr ⟨internNode (join pre f₁ post).1 (y :: A) F false x, mid.1,
      internNode mid.2 B false L (newx.headD c), newx.tail, ?_, seps mid.1 (by simp), ?_⟩
    · simp only [internNode] at full twice ⊢
      simp only [putEntryIn, Bool.false_and, Bool.false_eq_true, if_false, full, if_true,
        updateCurrnodeCursorRel, splitnodeLeft, splitnodeRight, inserted, hcut, middle, left, right,
        twice, ofChild, entryChild, entryKey, splitnodeInternnode, List.tail_cons]
    · rw [absNode_internNode, absNode_internNode, absNode_internNode, ← total, hcut, ← first,
        gather_append]

/-- The outcome in the child that the path goes through is an outcome in the node. -/
theorem put_child {rel : Relation V X} {up : Cursor V X} (low : Low up)
    (hs : Siblings (WellFormed d false) r (join pre f post).1 (join pre f post).2)
    (hfull : (join pre f post).2.length ≤ Fanout) (hk : (focusRange r pre post).Mem key)
    (left : pre.length ≤ 1) {c : X} {length : Nat} {result : Cursor V X × Relation V X}
    (h : PutOutcome f (focusRange r pre post) key v c
      ((internNode (join pre f post).1 (join pre f post).2 F L x, (pre.length : Int) - 1) :: up)
      rel (length + 1) result) :
    PutOutcome (internNode (join pre f post).1 (join pre f post).2 F L x) r key v c up rel length
      result := by
  have update : ∀ y, updateNodeNthChild ((pre.length : Int) - 1)
      (internNode (join pre f post).1 (join pre f post).2 F L x) y =
        internNode (join pre y post).1 (join pre y post).2 F L x := by
    intro y
    rw [updateNode_join, kept_eq left]
  rcases h with ⟨f', hresult, habs⟩ | ⟨f₁, k, f₂, newx, hresult, inside, habs⟩
  · refine Or.inl ⟨internNode (join pre f' post).1 (join pre f' post).2 F L x, ?_, ?_⟩
    · simp only [hresult, updatePartialCursorRel, update]
    · rw [absNode_internNode, absNode_internNode,
        put_focus (fun _ _ => wellFormed_within) hs hk, gather_join, habs]
  · simp only [updatePartialCursorRel, update] at hresult
    rw [hresult]
    exact put_divided low hs hfull hk inside habs c length newx

end

/-- `putEntry` at the descent to the key, on a path to the left. -/
theorem putEntryIn_subtree {n : Node V X} (h : WellFormed d root r n) (hk : r.Mem key)
    (left : LeftPath key d n) {up : Cursor V X} (low : Low up) (rel : Relation V X) (v : V)
    (x c : X) (length : Nat) (newx : List X) :
    PutOutcome n r key v c up rel length
      (putEntryIn key c (length + d + 1) (moveToKey n key up) rel (.keyval key v x) newx) := by
  induction d generalizing root r n up length with
  | zero =>
    obtain ⟨recs, F, L, x₀, rfl, -, hs, hw, hfull, -⟩ := h
    exact put_leaf hs hw hfull hk c up rel length newx
  | succ d ih =>
    have whole := h
    obtain ⟨t, ts, F, L, x₀, rfl, -, hs, hfull, -⟩ := h
    obtain ⟨pre, f, post, hj, below, above⟩ := exists_focus key t ts hs
    obtain ⟨rfl, rfl⟩ := Prod.mk.inj hj
    have hkf := focusRange_mem hk below above
    have hf := siblings_focus hs
    obtain ⟨few, left⟩ := (leftPath_join below above).mp left
    have low' : Low ((internNode (join pre f post).1 (join pre f post).2 F L x₀,
        (pre.length : Int) - 1) :: up) := by
      intro e he
      rcases List.mem_cons.mp he with rfl | he
      · simp only
        omega
      · exact low e he
    rw [moveToKey_join whole hf below above]
    have child := ih hf hkf left low' (length + 1)
    rw [show length + 1 + d + 1 = length + (d + 1) + 1 by omega] at child
    exact put_child low hs hfull hkf few child

theorem moveToKey_length {n : Node V X} (h : WellFormed d root r n) (hk : r.Mem key)
    (up : Cursor V X) : (moveToKey n key up).length = d + 1 + up.length := by
  induction d generalizing root r n up with
  | zero =>
    rw [moveToKey_leaf ((wellFormed_isLeaf h).mpr rfl), List.length_cons]
    omega
  | succ d ih =>
    have whole := h
    obtain ⟨t, ts, F, L, x₀, rfl, -, hs, -⟩ := h
    obtain ⟨pre, f, post, hj, below, above⟩ := exists_focus key t ts hs
    obtain ⟨rfl, rfl⟩ := Prod.mk.inj hj
    have hf := siblings_focus hs
    rw [moveToKey_join whole hf below above, ih hf (focusRange_mem hk below above),
      List.length_cons]
    omega

/-- A put on a path to the left is the insertion into the sorted map. -/
theorem absNode_put_of_leftPath {n : Node V X} (h : WellFormed d true Range.full n)
    (left : LeftPath key d n) (prel : X) (v : V) (x c : X) (newx : List X) :
    absNode (putEntry (moveToKey n key []) (n, prel) (.keyval key v x) key newx c).2.1 =
      put key v (absNode n) := by
  have hk := Range.mem_full key
  have low : Low ([] : Cursor V X) := by simp [Low]
  have outcome := putEntryIn_subtree h hk left low (n, prel) v x c 1 newx
  have length : (moveToKey n key []).length + 1 = 1 + d + 1 := by
    rw [moveToKey_length h hk, List.length_nil]
    omega
  rw [putEntry, length]
  rcases outcome with ⟨n', hresult, habs⟩ | ⟨n₁, k, n₂, newx, hresult, -, habs⟩
  · rw [hresult]
    exact habs
  · rw [hresult, ← habs]
    simp [updatePartialCursorRel, putEntryIn, absNode, absPtr0, absLe, absEntry]

end DeepDB.Functional
