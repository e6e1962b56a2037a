import DeepDB.Model.BTrees

/-!
The table of `model/BTreesModule.v` under insertions. `position_for_insert` answers only when the
key lies before the first value or after the last one, so a table without values never gets one,
and a key between two values leaves its cursor as it was.
-/

namespace DeepDB.Model

variable {V : Type} {b : Nat}

/-- One insertion after another, each along the cursor of its key. -/
def insertAll (b : Nat) (t : TreeList V) (l : List (Key × V)) : TreeList V :=
  l.foldl (fun t e => getTreelist (insert b e.1 e.2 (makeCursor e.1 t))) t

/-- The table `t'` is `t` with `k` bound to `v`. -/
structure Inserted (b : Nat) (k : Key) (v : V) (t t' : TreeList V) : Prop where
  elements : elements t' = SortedAssoc.put k v (elements t)
  increasing : SortedAssoc.Sorted (Model.elements t')
  balanced : Balanced t'
  sorted : Sorted t'
  fanout : Fanout b t'
  get : get (makeCursor k t') = some v

/-- A key above the value before the cursor and not above the one at it is not inserted. -/
theorem insert_between {x k1 k2 : Key} {v : V} {c c1 c2 : Cursor V}
    (next : nextNode c.1 c.2 = some (c1, k1)) (prev : prevNode c.1 c.2 = some (c2, k2))
    (above : ltKey k2 x = true) (notBelow : ltKey k1 x = false) : insert b x v c = c := by
  have outside : positionForInsert c x = none := by
    unfold positionForInsert
    simp [next, prev, above, notBelow]
  unfold insert
  rw [outside]

/-! ### The table without values -/

theorem makeCursor_nil (k : Key) : makeCursor k (.nil : TreeList V) = ([0], [.nil]) := by
  unfold makeCursor makeCursorRec
  rfl

theorem positionForInsert_nil (k : Key) :
    positionForInsert (makeCursor k (.nil : TreeList V)) k = none := by
  rw [makeCursor_nil]
  rfl

theorem insert_nil (k : Key) (v : V) : insert b k v (makeCursor k .nil) = makeCursor k .nil := by
  unfold insert
  rw [positionForInsert_nil]

theorem get_nil (k : Key) : get (makeCursor k (.nil : TreeList V)) = none := by
  rw [makeCursor_nil]
  rfl

theorem insertAll_nil (l : List (Key × V)) : insertAll b .nil l = .nil := by
  induction l with
  | nil => rfl
  | cons e l ih =>
    have first : getTreelist (insert b e.1 e.2 (makeCursor e.1 (.nil : TreeList V))) = .nil := by
      rw [insert_nil, makeCursor_nil]
      rfl
    unfold insertAll at ih ⊢
    rw [List.foldl_cons, first]
    exact ih

theorem cursorCorrect_nil (k : Key) : CursorCorrect b (makeCursor k (.nil : TreeList V)) := by
  rw [makeCursor_nil]
  constructor
  · exact .first 0 .nil
  · exact .next 0 .nil [] [] ⟨1, .nil⟩ .nil
  · exact .next 0 .nil [] [] ⟨0, 0, .nil 0 0⟩ .nil
  · exact .next 0 .nil [] [] ⟨0, .nil⟩ .nil

/-- The law `gis` of the table fails at every key of the table without values. -/
theorem gis_nil (k : Key) (v : V) :
    CursorCorrect b (makeCursor k (.nil : TreeList V)) ∧
      keyRel k (makeCursor k (.nil : TreeList V)) = true ∧
      get (makeCursor k (getTreelist (insert b k v (makeCursor k .nil)))) = none := by
  refine ⟨cursorCorrect_nil k, ?_, ?_⟩
  · rw [makeCursor_nil]
    rfl
  · rw [insert_nil, makeCursor_nil]
    exact get_nil k

/-- Insertions into the empty table behave as a table's should only when there are none. -/
theorem insertAll_iff (b : Nat) (l : List (Key × V)) :
    (∀ pre k v suf, l = pre ++ (k, v) :: suf →
        Inserted b k v (insertAll b .nil pre) (insertAll b .nil (pre ++ [(k, v)]))) ↔ l = [] := by
  constructor
  · intro all
    cases l with
    | nil => rfl
    | cons e l =>
      obtain ⟨k, v⟩ := e
      have first := (all [] k v l rfl).get
      rw [insertAll_nil, get_nil] at first
      cases first
  · intro empty pre k v suf same
    rw [empty] at same
    exact absurd same (by simp)

theorem insertAll_fails :
    ¬∀ (b : Nat), 2 ≤ b → ∀ (l pre : List (Key × Nat)) k v suf, l = pre ++ (k, v) :: suf →
      Inserted b k v (insertAll b .nil pre) (insertAll b .nil (pre ++ [(k, v)])) := by
  intro all
  have first := (all 2 le_rfl [(1, 7)] [] 1 7 [] rfl).get
  rw [insertAll_nil, get_nil] at first
  cases first

end DeepDB.Model
