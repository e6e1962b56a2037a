import DeepDB.Model.BTrees

/-!
A cursor of the original B-tree as a walk over the values of its tree. `next_node` climbs to the next
subtree and comes down at its first value. `prev_node` comes down at the last value of the subtree
before, where `move_to_prev` expects to be behind it, so going back over the start of a leaf leaves
out a value.
-/

namespace DeepDB.Model

open TreeList

variable {V : Type} {b : Nat}

/-! ### Tree lists as lists -/

def TreeList.toList : TreeList V → List (Tree V)
  | nil => []
  | cons t f => t :: f.toList

/-- The values of one entry. -/
def entry : Tree V → List (Key × V)
  | .node _ f => elements f
  | .final f => elements f
  | .val k v => [(k, v)]

/-- An entry of values, or one with a tree list below it. -/
theorem TreeList.entries {P : TreeList V → Prop} (nil : P .nil)
    (node : ∀ k f' f, P f' → P f → P (.cons (.node k f') f))
    (final : ∀ f' f, P f' → P f → P (.cons (.final f') f))
    (val : ∀ k v f, P f → P (.cons (.val k v) f)) : ∀ f, P f
  | .nil => nil
  | .cons (.node k f') f => node k f' f (entries nil node final val f') (entries nil node final val f)
  | .cons (.final f') f => final f' f (entries nil node final val f') (entries nil node final val f)
  | .cons (.val k v) f => val k v f (entries nil node final val f)
termination_by structural f => f

theorem elementsBase_eq (f : TreeList V) (base : List (Key × V)) :
    elementsBase f base = elements f ++ base := by
  unfold elements
  induction f using TreeList.entries generalizing base with
  | nil => rfl
  | node k f' f ih' ih =>
    rw [elementsBase, elementsBase, ih', ih, ih' (elementsBase f []), List.append_assoc]
  | final f' f ih' ih =>
    rw [elementsBase, elementsBase, ih', ih, ih' (elementsBase f []), List.append_assoc]
  | val k v f ih => rw [elementsBase, elementsBase, ih, List.cons_append]

theorem elements_cons (t : Tree V) (f : TreeList V) : elements (.cons t f) = entry t ++ elements f := by
  cases t with
  | node k f' => exact elementsBase_eq f' (elements f)
  | final f' => exact elementsBase_eq f' (elements f)
  | val k v => rfl

theorem elements_eq (f : TreeList V) : elements f = f.toList.flatMap entry := by
  induction f using TreeList.entries with
  | nil => rfl
  | node k f' f _ ih => rw [elements_cons, ih, toList, List.flatMap_cons]
  | final f' f _ ih => rw [elements_cons, ih, toList, List.flatMap_cons]
  | val k v f ih => rw [elements_cons, ih, toList, List.flatMap_cons]

theorem rightEl_eq (f : TreeList V) (base : List (Key × V)) : rightEl f base = base ++ elements f := by
  induction f using TreeList.entries generalizing base with
  | nil => exact (List.append_nil base).symm
  | node k f' f ih' ih => rw [rightEl, ih, ih', elements_cons, List.append_assoc, entry]
  | final f' f ih' ih => rw [rightEl, ih, ih', elements_cons, List.append_assoc, entry]
  | val k v f ih => rw [rightEl, ih, elements_cons, List.append_assoc, entry]

theorem leftEl_eq (f : TreeList V) (base : List (Key × V)) :
    leftEl f base = base ++ (elements f).reverse := by
  induction f using TreeList.entries generalizing base with
  | nil => exact (List.append_nil base).symm
  | node k f' f ih' ih =>
    rw [leftEl, ih', ih, elements_cons, List.reverse_append, List.append_assoc, entry]
  | final f' f ih' ih =>
    rw [leftEl, ih', ih, elements_cons, List.reverse_append, List.append_assoc, entry]
  | val k v f ih =>
    rw [leftEl, ih, elements_cons, List.reverse_append, List.append_assoc]
    rfl

theorem length_eq (f : TreeList V) : f.length = f.toList.length := by
  induction f using TreeList.entries with
  | nil => rfl
  | node k f' f _ ih => exact congrArg (· + 1) ih
  | final f' f _ ih => exact congrArg (· + 1) ih
  | val k v f ih => exact congrArg (· + 1) ih

theorem linSearch_eq (n : Nat) (f : TreeList V) : linSearch n f = f.toList[n]? := by
  induction n generalizing f with
  | zero => cases f <;> rfl
  | succ n ih =>
    cases f with
    | nil => rfl
    | cons t f => exact ih f

theorem point_eq (n : Nat) (f : TreeList V) : (point n f).1.toList = f.toList.take n ∧
    (point n f).2.1 = f.toList[n]? ∧ (point n f).2.2.toList = f.toList.drop (n + 1) := by
  induction n generalizing f with
  | zero => cases f <;> exact ⟨rfl, rfl, rfl⟩
  | succ n ih =>
    cases f with
    | nil => exact ⟨rfl, rfl, rfl⟩
    | cons t f =>
      obtain ⟨before, here, after⟩ := ih f
      exact ⟨congrArg (t :: ·) before, here, after⟩

/-! ### The values on both sides -/

/-- What is left of a path, the nearest first. -/
def leftOf : List Nat → List (TreeList V) → List (Key × V)
  | n :: cn, f :: cf => ((f.toList.take n).flatMap entry).reverse ++ leftOf cn cf
  | _, _ => []

def rightOf : List Nat → List (TreeList V) → List (Key × V)
  | n :: cn, f :: cf => (f.toList.drop (n + 1)).flatMap entry ++ rightOf cn cf
  | _, _ => []

/-- The value that a leaf's cursor stands before. -/
def here (n : Nat) (f : TreeList V) : List (Key × V) :=
  match f.toList[n]? with
  | some (.val k v) => [(k, v)]
  | _ => []

theorem cursorElementsAux_eq (cn : List Nat) (cf : List (TreeList V)) (left right : List (Key × V)) :
    cursorElementsAux cn cf left right = (left ++ leftOf cn cf, right ++ rightOf cn cf) := by
  induction cn generalizing cf left right with
  | nil => simp [cursorElementsAux, leftOf, rightOf]
  | cons n cn ih =>
    cases cf with
    | nil => simp [cursorElementsAux, leftOf, rightOf]
    | cons f cf =>
      obtain ⟨before, -, after⟩ := point_eq n f
      rw [cursorElementsAux]
      dsimp only
      rw [ih, leftEl_eq, rightEl_eq, elements_eq, elements_eq, before, after, leftOf,
        rightOf, List.append_assoc, List.append_assoc]

theorem cursorElements_eq (n : Nat) (cn : List Nat) (f : TreeList V) (cf : List (TreeList V)) :
    cursorElements (n :: cn, f :: cf) =
      (leftOf (n :: cn) (f :: cf), here n f ++ rightOf (n :: cn) (f :: cf)) := by
  obtain ⟨-, at_n, -⟩ := point_eq n f
  rw [cursorElements, here, ← at_n]
  rcases point n f with ⟨f1, _ | t, f2⟩
  · exact cursorElementsAux_eq _ _ _ _
  · cases t <;> exact cursorElementsAux_eq _ _ _ _

/-! ### The shape of a tree -/

def childOf : Tree V → Option (TreeList V)
  | .node _ f => some f
  | .final f => some f
  | .val _ _ => none

/-- Balanced with `m` levels and within fanout. -/
structure Full (b m : Nat) (f : TreeList V) : Prop where
  balanced : BalancedTreelist m f
  fanout : Fanout b f

theorem level_ne_zero {m : Nat} {f : TreeList V} (h : BalancedTreelist m f) : m ≠ 0 := by
  cases h <;> omega

theorem leaf_entry {f : TreeList V} (balanced : BalancedTreelist 1 f) {i : Nat} {t : Tree V}
    (h : f.toList[i]? = some t) : ∃ k v, t = .val k v := by
  generalize hm : 1 = m at balanced
  induction balanced generalizing i with
  | nil => simp [toList] at h
  | val k v f rest ih =>
    cases i with
    | zero => exact ⟨k, v, (Option.some.inj h).symm⟩
    | succ i => exact ih h rfl
  | node n k f f' below rest => exact absurd (Nat.succ.inj hm).symm (level_ne_zero below)
  | final n f below => exact absurd (Nat.succ.inj hm).symm (level_ne_zero below)

/-- All entries of an inner list have a list below them, and the last one is `final`. -/
theorem inner_entry {m : Nat} {f : TreeList V} (balanced : BalancedTreelist (m + 1) f) (hm : m ≠ 0)
    {i : Nat} {t : Tree V} (h : f.toList[i]? = some t) :
    (∃ k g t', t = .node k g ∧ BalancedTreelist m g ∧ f.toList[i + 1]? = some t') ∨
      ∃ g, t = .final g ∧ BalancedTreelist m g ∧ f.toList.length = i + 1 := by
  generalize hn : m + 1 = n at balanced
  induction balanced generalizing i with
  | nil => exact absurd (Nat.succ.inj hn) hm
  | val k v f rest => exact absurd (Nat.succ.inj hn) hm
  | node n k f f' below rest _ ih =>
    obtain rfl := Nat.succ.inj hn
    cases i with
    | zero =>
      cases rest with
      | nil => exact absurd rfl hm
      | val k v f rest => exact absurd rfl hm
      | node n k' g g' below' rest => exact Or.inl ⟨k, f, _, (Option.some.inj h).symm, below, rfl⟩
      | final n g below' => exact Or.inl ⟨k, f, _, (Option.some.inj h).symm, below, rfl⟩
    | succ i =>
      rcases ih h rfl with ⟨k', g, t', rfl, balanced, next⟩ | ⟨g, rfl, balanced, last⟩
      · exact Or.inl ⟨k', g, t', rfl, balanced, next⟩
      · exact Or.inr ⟨g, rfl, balanced, congrArg (· + 1) last⟩
  | final n f below =>
    obtain rfl := Nat.succ.inj hn
    cases i with
    | zero => exact Or.inr ⟨f, (Option.some.inj h).symm, below, rfl⟩
    | succ i => simp [toList] at h

theorem fanout_length {n : Nat} {f : TreeList V} (h : FanoutRestr b n f) : f.toList.length = n := by
  induction h with
  | nil => rfl
  | val n f k v room rest ih => exact congrArg (· + 1) ih
  | node n n' k f f' enough below room rest _ ih => exact congrArg (· + 1) ih
  | final n f enough below => rfl

theorem fanout_child {n : Nat} {f g : TreeList V} (h : FanoutRestr b n f) {i : Nat} {t : Tree V}
    (ht : f.toList[i]? = some t) (child : childOf t = some g) : Fanout b g ∧ g.toList ≠ [] := by
  have nonempty {n : Nat} {g : TreeList V} (enough : n > divTwo b false) (below : FanoutRestr b n g) :
      g.toList ≠ [] := by
    have length := fanout_length below
    exact List.length_pos_iff.mp (by omega)
  induction h generalizing i with
  | nil => simp [toList] at ht
  | val n f k v room rest ih =>
    cases i with
    | zero =>
      obtain rfl := Option.some.inj ht
      cases child
    | succ i => exact ih ht
  | node n n' k f f' enough below room rest _ ih =>
    cases i with
    | zero =>
      obtain rfl := Option.some.inj ht
      obtain rfl := Option.some.inj child
      exact ⟨⟨n', below⟩, nonempty enough below⟩
    | succ i => exact ih ht
  | final n f enough below =>
    cases i with
    | zero =>
      obtain rfl := Option.some.inj ht
      obtain rfl := Option.some.inj child
      exact ⟨⟨n, below⟩, nonempty enough below⟩
    | succ i => simp [toList] at ht

/-- The entries of an inner list. -/
theorem Full.entry {m : Nat} {f : TreeList V} (full : Full b (m + 1) f) (hm : m ≠ 0) {i : Nat}
    {t : Tree V} (h : f.toList[i]? = some t) :
    ∃ g, childOf t = some g ∧ Full b m g ∧ g.toList ≠ [] ∧ Model.entry t = elements g ∧
      ((∃ k t', t = .node k g ∧ f.toList[i + 1]? = some t') ∨
        (t = .final g ∧ f.toList.length = i + 1)) := by
  obtain ⟨n, restr⟩ := full.fanout
  rcases inner_entry full.balanced hm h with ⟨k, g, t', rfl, balanced, next⟩ | ⟨g, rfl, balanced, last⟩
  · obtain ⟨fanout, nonempty⟩ := fanout_child restr h rfl
    exact ⟨g, rfl, ⟨balanced, fanout⟩, nonempty, rfl, Or.inl ⟨k, t', rfl, next⟩⟩
  · obtain ⟨fanout, nonempty⟩ := fanout_child restr h rfl
    exact ⟨g, rfl, ⟨balanced, fanout⟩, nonempty, rfl, Or.inr ⟨rfl, last⟩⟩

theorem Full.elements_ne_nil {m : Nat} {f : TreeList V} (full : Full b m f) (nonempty : f.toList ≠ []) :
    elements f ≠ [] := by
  obtain ⟨t, rest, list⟩ := List.exists_cons_of_ne_nil nonempty
  have first : f.toList[0]? = some t := by rw [list]; rfl
  have all : Model.entry t ≠ [] → elements f ≠ [] := by
    intro some no
    rw [elements_eq, list, List.flatMap_cons, List.append_eq_nil_iff] at no
    exact some no.1
  induction m generalizing f t rest with
  | zero => exact absurd rfl (level_ne_zero full.balanced)
  | succ m ih =>
    by_cases hm : m = 0
    · subst hm
      obtain ⟨k, v, rfl⟩ := leaf_entry full.balanced first
      exact all (List.cons_ne_nil _ _)
    · obtain ⟨g, -, below, some, same, -⟩ := full.entry hm first
      obtain ⟨t', rest', list'⟩ := List.exists_cons_of_ne_nil some
      rw [same] at all
      refine all (ih below some t' rest' list' (by rw [list']; rfl) fun h no => ?_)
      rw [elements_eq, list', List.flatMap_cons, List.append_eq_nil_iff] at no
      exact h no.1

theorem Full.entry_ne_nil {m : Nat} {f : TreeList V} (full : Full b m f) {i : Nat} {t : Tree V}
    (h : f.toList[i]? = some t) : Model.entry t ≠ [] := by
  cases m with
  | zero => exact absurd rfl (level_ne_zero full.balanced)
  | succ m =>
    by_cases hm : m = 0
    · subst hm
      obtain ⟨k, v, rfl⟩ := leaf_entry full.balanced h
      exact List.cons_ne_nil _ _
    · obtain ⟨g, -, below, some, same, -⟩ := full.entry hm h
      rw [same]
      exact below.elements_ne_nil some

/-! ### One level of the search for the next value -/

section

variable {n i : Nat} {cn cn' : List Nat} {f g F : TreeList V} {cf cf' : List (TreeList V)} {k : Key}
  {t t' : Tree V} {v : V}

theorem nextNode_node (at_n : f.toList[n]? = some (.node k g)) (after : f.toList[n + 1]? = some t')
    (child : childOf t' = some F) :
    nextNode (n :: cn) (f :: cf) = some (((n + 1) :: cn, f :: cf), k) := by
  obtain ⟨-, point_n, behind⟩ := point_eq n f
  rw [nextNode]
  rcases hn : point n f with ⟨f1, o, f2⟩
  rw [hn] at point_n behind
  obtain rfl : o = some (.node k g) := point_n.trans at_n
  have first : f2.toList[0]? = some t' := by
    rw [show f2.toList = f.toList.drop (n + 1) from behind, List.getElem?_drop]
    exact after
  cases f2 with
  | nil => simp [toList] at first
  | cons t2 f2 =>
    obtain rfl := Option.some.inj first
    cases t2 with
    | node k' g' => rfl
    | final g' => rfl
    | val k' v' => cases child

theorem nextNode_val (at_n : f.toList[n]? = some (.val k v)) :
    nextNode (n :: cn) (f :: cf) = some ((n :: cn, f :: cf), k) := by
  obtain ⟨-, point_n, -⟩ := point_eq n f
  rw [nextNode]
  rcases hn : point n f with ⟨f1, o, f2⟩
  rw [hn] at point_n
  obtain rfl : o = some (.val k v) := point_n.trans at_n
  rfl

/-- Behind the last entry, or at it, the search goes up. -/
theorem nextNode_none (at_n : f.toList[n]? = none ∨ ∃ g, f.toList[n]? = some (.final g))
    (up : nextNode cn cf = none) : nextNode (n :: cn) (f :: cf) = none := by
  obtain ⟨-, point_n, -⟩ := point_eq n f
  rw [nextNode]
  rcases hn : point n f with ⟨f1, o, f2⟩
  rw [hn] at point_n
  rcases at_n with at_n | ⟨g, at_n⟩
  · obtain rfl : o = none := point_n.trans at_n
    simp only [up]
  · obtain rfl : o = some (.final g) := point_n.trans at_n
    simp only [up]

theorem nextNode_up (at_n : f.toList[n]? = none ∨ ∃ g, f.toList[n]? = some (.final g))
    (up : nextNode cn cf = some ((i :: cn', F :: cf'), k)) (at_i : F.toList[i]? = some t)
    (child : childOf t = some g) :
    nextNode (n :: cn) (f :: cf) = some ((0 :: i :: cn', g :: F :: cf'), k) := by
  have down : (point i F).2.1 = some t := (point_eq i F).2.1.trans at_i
  obtain ⟨-, point_n, -⟩ := point_eq n f
  rw [nextNode]
  rcases hn : point n f with ⟨f1, o, f2⟩
  rw [hn] at point_n
  rcases hp : point i F with ⟨F1, o', F2⟩
  rw [hp] at down
  obtain rfl : o' = some t := down
  rcases at_n with at_n | ⟨g', at_n⟩
  · obtain rfl : o = none := point_n.trans at_n
    cases t with
    | node k' f' =>
      cases child
      simp only [up, hp]
    | final f' =>
      cases child
      simp only [up, hp]
    | val k' v' => cases child
  · obtain rfl : o = some (.final g') := point_n.trans at_n
    cases t with
    | node k' f' =>
      cases child
      simp only [up, hp]
    | final f' =>
      cases child
      simp only [up, hp]
    | val k' v' => cases child

end

/-! ### Climbing to the next subtree -/

/-- The list `f` of level `m` is below the entries of a path. -/
inductive Above (b : Nat) : Nat → TreeList V → List Nat → List (TreeList V) → Prop
  | root (m : Nat) (f : TreeList V) : Above b m f [] []
  | step {m i : Nat} {f F : TreeList V} {t : Tree V} {cn : List Nat} {cf : List (TreeList V)}
      (hm : m ≠ 0) (full : Full b (m + 1) F) (at_i : F.toList[i]? = some t)
      (child : childOf t = some f) (rest : Above b (m + 1) F cn cf) :
      Above b m f (i :: cn) (F :: cf)

theorem entry_of_child {t : Tree V} {f : TreeList V} (child : childOf t = some f) :
    entry t = elements f := by
  cases t with
  | node k g =>
    cases child
    rfl
  | final g =>
    cases child
    rfl
  | val k v => cases child

theorem leftOf_succ {i : Nat} {F : TreeList V} {t : Tree V} {cn : List Nat} {cf : List (TreeList V)}
    (at_i : F.toList[i]? = some t) :
    leftOf ((i + 1) :: cn) (F :: cf) = (entry t).reverse ++ leftOf (i :: cn) (F :: cf) := by
  obtain ⟨room, rfl⟩ := List.getElem?_eq_some_iff.mp at_i
  rw [leftOf, leftOf, List.take_succ_eq_append_getElem room, List.flatMap_append, List.reverse_append,
    List.append_assoc, List.flatMap_singleton]

theorem rightOf_pred {i : Nat} {F : TreeList V} {t : Tree V} {cn : List Nat} {cf : List (TreeList V)}
    (at_i : F.toList[i + 1]? = some t) :
    rightOf (i :: cn) (F :: cf) = entry t ++ rightOf ((i + 1) :: cn) (F :: cf) := by
  obtain ⟨room, rfl⟩ := List.getElem?_eq_some_iff.mp at_i
  rw [rightOf, rightOf, List.drop_eq_getElem_cons room, List.flatMap_cons, List.append_assoc]

theorem leftOf_zero (f : TreeList V) (cn : List Nat) (cf : List (TreeList V)) :
    leftOf (0 :: cn) (f :: cf) = leftOf cn cf := rfl

theorem rightOf_last {n : Nat} {f : TreeList V} {cn : List Nat} {cf : List (TreeList V)}
    (behind : f.toList.length ≤ n + 1) : rightOf (n :: cn) (f :: cf) = rightOf cn cf := by
  rw [rightOf, List.drop_of_length_le behind]
  rfl

/-- The whole list is to the left of its end. -/
theorem leftOf_end {n : Nat} {f : TreeList V} {cn : List Nat} {cf : List (TreeList V)}
    (behind : f.toList.length ≤ n) :
    leftOf (n :: cn) (f :: cf) = (elements f).reverse ++ leftOf cn cf := by
  rw [leftOf, List.take_of_length_le behind, elements_eq]

/-- The next subtree of the same level. -/
theorem nextNode_above {m : Nat} {f : TreeList V} {cn : List Nat} {cf : List (TreeList V)}
    (above : Above b m f cn cf) :
    (rightOf cn cf = [] ∧ nextNode cn cf = none) ∨
      ∃ i F cn' cf' k t g, nextNode cn cf = some ((i :: cn', F :: cf'), k) ∧
        F.toList[i]? = some t ∧ childOf t = some g ∧ Above b m g (i :: cn') (F :: cf') ∧
        Full b m g ∧ g.toList ≠ [] ∧ rightOf cn cf = elements g ++ rightOf (i :: cn') (F :: cf') ∧
        leftOf (i :: cn') (F :: cf') = (elements f).reverse ++ leftOf cn cf := by
  induction above with
  | root m f => exact Or.inl ⟨rfl, rfl⟩
  | @step m i f F t cn cf hm full at_i child rest ih =>
    obtain ⟨f', child', -, -, same, place⟩ := full.entry hm at_i
    obtain rfl := Option.some.inj (child'.symm.trans child)
    rcases place with ⟨k, t', rfl, after⟩ | ⟨rfl, last⟩
    · obtain ⟨g, child_g, full_g, some_g, same_g, -⟩ := full.entry hm after
      refine Or.inr ⟨i + 1, F, cn, cf, k, t', g, nextNode_node at_i after child_g, after, child_g,
        .step hm full after child_g rest, full_g, some_g, ?_, ?_⟩
      · rw [rightOf_pred after, same_g]
      · rw [leftOf_succ at_i, same]
    · have behind : rightOf (i :: cn) (F :: cf) = rightOf cn cf := rightOf_last last.le
      have left : leftOf ((i + 1) :: cn) (F :: cf) = _ := leftOf_succ at_i
      rw [leftOf_end last.le, same] at left
      rcases ih with ⟨none_right, none⟩ | ⟨j, G, cn', cf', k, t', g, next, at_j, child_g, above_g,
        full_g, some_g, right_g, left_g⟩
      · exact Or.inl ⟨behind.trans none_right, nextNode_none (Or.inr ⟨f', at_i⟩) none⟩
      · obtain ⟨t0, rest0, list⟩ := List.exists_cons_of_ne_nil some_g
        have first : g.toList[0]? = some t0 := by rw [list]; rfl
        obtain ⟨h, child_h, full_h, some_h, same_h, -⟩ := full_g.entry hm first
        refine Or.inr ⟨0, g, j :: cn', G :: cf', k, t0, h, nextNode_up (Or.inr ⟨f', at_i⟩) next at_j child_g,
          first, child_h, .step hm full_g first child_h above_g, full_h, some_h, ?_, ?_⟩
        · have after_h : rightOf (0 :: j :: cn') (g :: G :: cf') =
              rest0.flatMap entry ++ rightOf (j :: cn') (G :: cf') := by
            rw [rightOf, list]
            rfl
          rw [behind, right_g, after_h, elements_eq, list, List.flatMap_cons, same_h,
            List.append_assoc]
        · rw [leftOf_zero, left_g, ← left]

/-! ### One level of the search for the value before -/

section

variable {n i : Nat} {cn cn' : List Nat} {f g F : TreeList V} {cf cf' : List (TreeList V)} {k : Key}
  {t : Tree V} {v : V}

theorem prevNode_node (before : f.toList[n]? = some (.node k g)) :
    prevNode ((n + 1) :: cn) (f :: cf) = some ((n :: cn, f :: cf), k) := by
  obtain ⟨-, point_n, -⟩ := point_eq n f
  rw [prevNode]
  rcases hn : point n f with ⟨f1, o, f2⟩
  rw [hn] at point_n
  obtain rfl : o = some (.node k g) := point_n.trans before
  rfl

theorem prevNode_val (before : f.toList[n]? = some (.val k v)) :
    prevNode ((n + 1) :: cn) (f :: cf) = some (((n + 1) :: cn, f :: cf), k) := by
  obtain ⟨-, point_n, -⟩ := point_eq n f
  rw [prevNode]
  rcases hn : point n f with ⟨f1, o, f2⟩
  rw [hn] at point_n
  obtain rfl : o = some (.val k v) := point_n.trans before
  rfl

theorem prevNode_none (before : f.toList[n]? = none ∨ ∃ g, f.toList[n]? = some (.final g)) :
    prevNode ((n + 1) :: cn) (f :: cf) = none := by
  obtain ⟨-, point_n, -⟩ := point_eq n f
  rw [prevNode]
  rcases hn : point n f with ⟨f1, o, f2⟩
  rw [hn] at point_n
  rcases before with before | ⟨g, before⟩
  · obtain rfl : o = none := point_n.trans before
    rfl
  · obtain rfl : o = some (.final g) := point_n.trans before
    rfl

theorem prevNode_zero_none (up : prevNode cn cf = none) : prevNode (0 :: cn) (f :: cf) = none := by
  simp only [prevNode, up]

theorem prevNode_up (up : prevNode cn cf = some ((i :: cn', F :: cf'), k))
    (at_i : F.toList[i]? = some t) (child : childOf t = some g) :
    prevNode (0 :: cn) (f :: cf) = some (((g.length - 1) :: i :: cn', g :: F :: cf'), k) := by
  have down : (point i F).2.1 = some t := (point_eq i F).2.1.trans at_i
  rcases hp : point i F with ⟨F1, o, F2⟩
  rw [hp] at down
  obtain rfl : o = some t := down
  rw [prevNode]
  cases t with
  | node k' f' =>
    cases child
    simp only [up, hp]
  | final f' =>
    cases child
    simp only [up, hp]
  | val k' v' => cases child

end

/-- The subtree before, of the same level. -/
theorem prevNode_above {m : Nat} {f : TreeList V} {cn : List Nat} {cf : List (TreeList V)}
    (above : Above b m f cn cf) :
    (leftOf cn cf = [] ∧ prevNode cn cf = none) ∨
      ∃ i F cn' cf' k t g, prevNode cn cf = some ((i :: cn', F :: cf'), k) ∧
        F.toList[i]? = some t ∧ childOf t = some g ∧ Above b m g (i :: cn') (F :: cf') ∧
        Full b m g ∧ g.toList ≠ [] ∧
        leftOf cn cf = (elements g).reverse ++ leftOf (i :: cn') (F :: cf') ∧
        rightOf (i :: cn') (F :: cf') = elements f ++ rightOf cn cf := by
  induction above with
  | root m f => exact Or.inl ⟨rfl, rfl⟩
  | @step m i f F t cn cf hm full at_i child rest ih =>
    cases i with
    | zero =>
      rcases ih with ⟨none_left, none⟩ | ⟨j, G, cn', cf', k, t', g, prev, at_j, child_g, above_g,
        full_g, some_g, left_g, right_g⟩
      · exact Or.inl ⟨(leftOf_zero F cn cf).trans none_left, prevNode_zero_none none⟩
      · have positive := List.length_pos_iff.mpr some_g
        have last : g.toList[g.toList.length - 1]? = some (g.toList[g.toList.length - 1]) :=
          List.getElem?_eq_getElem (by omega)
        obtain ⟨h, child_h, full_h, some_h, same_h, -⟩ := full_g.entry hm last
        refine Or.inr ⟨g.toList.length - 1, g, j :: cn', G :: cf', k, _, h, ?_, last, child_h,
          .step hm full_g last child_h above_g, full_h, some_h, ?_, ?_⟩
        · rw [prevNode_up prev at_j child_g, length_eq]
        · have whole : g.toList.length ≤ g.toList.length - 1 + 1 := by omega
          rw [leftOf_zero, left_g, ← same_h, ← leftOf_succ last, leftOf_end whole]
        · obtain ⟨t0, rest0, list⟩ := List.exists_cons_of_ne_nil
            (show F.toList ≠ [] from fun no => by simp [no] at at_i)
          obtain rfl : t0 = t := by
            rw [list] at at_i
            exact Option.some.inj at_i
          have whole : g.toList.length ≤ g.toList.length - 1 + 1 := by omega
          rw [rightOf_last whole, right_g, elements_eq F, list, List.flatMap_cons, rightOf, list,
            List.append_assoc, entry_of_child child]
          rfl
    | succ i =>
      have room := (List.getElem?_eq_some_iff.mp at_i).1
      have before : F.toList[i]? = some (F.toList[i]) := List.getElem?_eq_getElem (by omega)
      obtain ⟨g, child_g, full_g, some_g, same_g, place⟩ := full.entry hm before
      rcases place with ⟨k, t', is_node, -⟩ | ⟨-, last⟩
      · rw [is_node] at before
        refine Or.inr ⟨i, F, cn, cf, k, _, g, prevNode_node before, before, rfl,
          .step hm full before rfl rest, full_g, some_g, ?_, ?_⟩
        · rw [leftOf_succ before]
          rfl
        · rw [rightOf_pred at_i, entry_of_child child]
      · omega

/-! ### Cursors in a leaf -/

theorem here_val {f : TreeList V} {n : Nat} {k : Key} {v : V} (at_n : f.toList[n]? = some (.val k v)) :
    here n f = [(k, v)] := by
  rw [here, at_n]

theorem here_nil {f : TreeList V} {n : Nat} (at_n : ∀ k v, f.toList[n]? ≠ some (.val k v)) :
    here n f = [] := by
  rw [here]
  split
  · rename_i k v h
    exact absurd h (at_n k v)
  · rfl

theorem elements_leaf {f : TreeList V} (balanced : BalancedTreelist 1 f) (cn : List Nat)
    (cf : List (TreeList V)) : here 0 f ++ rightOf (0 :: cn) (f :: cf) = elements f ++ rightOf cn cf := by
  cases list : f.toList with
  | nil => rw [here, rightOf, elements_eq, list]; rfl
  | cons t0 rest =>
    have first : f.toList[0]? = some t0 := by rw [list]; rfl
    obtain ⟨k, v, rfl⟩ := leaf_entry balanced first
    rw [here_val first, rightOf, elements_eq, list, List.flatMap_cons, List.append_assoc]
    rfl

/-- The search for the next value comes to a cursor with the same values on both sides. -/
theorem nextNode_leaf {n : Nat} {f : TreeList V} {cn : List Nat} {cf : List (TreeList V)}
    (full : Full b 1 f) (above : Above b 1 f cn cf) :
    ((cursorElements (n :: cn, f :: cf)).2 = [] ∧ nextNode (n :: cn) (f :: cf) = none) ∨
      ∃ i g cn' cf' k k' v, nextNode (n :: cn) (f :: cf) = some ((i :: cn', g :: cf'), k) ∧
        Full b 1 g ∧ Above b 1 g cn' cf' ∧ g.toList[i]? = some (.val k' v) ∧
        cursorElements (i :: cn', g :: cf') = cursorElements (n :: cn, f :: cf) := by
  cases at_n : f.toList[n]? with
  | some t =>
    obtain ⟨k, v, rfl⟩ := leaf_entry full.balanced at_n
    exact Or.inr ⟨n, f, cn, cf, k, k, v, nextNode_val at_n, full, above, at_n, rfl⟩
  | none =>
    have behind := List.getElem?_eq_none_iff.mp at_n
    have old : cursorElements (n :: cn, f :: cf) =
        ((elements f).reverse ++ leftOf cn cf, rightOf cn cf) := by
      rw [cursorElements_eq, leftOf_end behind, rightOf_last (Nat.le_succ_of_le behind),
        here_nil (by rw [at_n]; exact fun k v no => by cases no), List.nil_append]
    rw [old]
    rcases nextNode_above above with ⟨none_right, none⟩ | ⟨i, F, cn', cf', k, t, g, next, at_i, child,
      above_g, full_g, some_g, right_g, left_g⟩
    · exact Or.inl ⟨none_right, nextNode_none (Or.inl at_n) none⟩
    · obtain ⟨t0, rest, list⟩ := List.exists_cons_of_ne_nil some_g
      have first : g.toList[0]? = some t0 := by rw [list]; rfl
      obtain ⟨k0, v0, rfl⟩ := leaf_entry full_g.balanced first
      refine Or.inr ⟨0, g, i :: cn', F :: cf', k, k0, v0, nextNode_up (Or.inl at_n) next at_i child,
        full_g, above_g, first, ?_⟩
      rw [cursorElements_eq, elements_leaf full_g.balanced, leftOf_zero, left_g, right_g]

/-- Over a value. -/
theorem cursorElements_succ {n : Nat} {f : TreeList V} (cn : List Nat) (cf : List (TreeList V))
    (balanced : BalancedTreelist 1 f) {k : Key} {v : V} (at_n : f.toList[n]? = some (.val k v)) :
    ∃ l r, cursorElements (n :: cn, f :: cf) = (l, (k, v) :: r) ∧
      cursorElements ((n + 1) :: cn, f :: cf) = ((k, v) :: l, r) := by
  refine ⟨leftOf (n :: cn) (f :: cf), rightOf (n :: cn) (f :: cf), ?_, ?_⟩
  · rw [cursorElements_eq, here_val at_n]
    rfl
  · rw [cursorElements_eq, leftOf_succ at_n]
    cases after : f.toList[n + 1]? with
    | none =>
      have behind := List.getElem?_eq_none_iff.mp after
      rw [here_nil (by rw [after]; exact fun k v no => by cases no), rightOf_last behind,
        rightOf_last (Nat.le_succ_of_le behind)]
      rfl
    | some t =>
      obtain ⟨k', v', rfl⟩ := leaf_entry balanced after
      rw [here_val after, rightOf_pred after]
      rfl

inductive AtLeaf (b : Nat) : Cursor V → Prop
  | of {n : Nat} {f : TreeList V} {cn : List Nat} {cf : List (TreeList V)} (full : Full b 1 f)
      (above : Above b 1 f cn cf) : AtLeaf b (n :: cn, f :: cf)

/-- The cursor is behind a value of its leaf. -/
def Behind : Cursor V → Prop
  | (n :: _, f :: _) => 0 < n ∧ n ≤ f.length
  | _ => False

theorem moveToNext_some {c : Cursor V} {n : Nat} {cn : List Nat} {cf : List (TreeList V)} {k : Key}
    (next : nextNode c.1 c.2 = some ((n :: cn, cf), k)) : moveToNext c = ((n + 1) :: cn, cf) := by
  rw [moveToNext, next]

theorem moveToPrev_some {c : Cursor V} {n : Nat} {cn : List Nat} {cf : List (TreeList V)} {k : Key}
    (prev : prevNode c.1 c.2 = some (((n + 1) :: cn, cf), k)) : moveToPrev c = (n :: cn, cf) := by
  rw [moveToPrev, prev]

theorem moveToPrev_zero {c : Cursor V} {cn : List Nat} {cf : List (TreeList V)} {k : Key}
    (prev : prevNode c.1 c.2 = some ((0 :: cn, cf), k)) : moveToPrev c = c := by
  rw [moveToPrev, prev]

/-- Forward, a cursor in a leaf goes over one value, and is behind it then. -/
theorem moveToNext_leaf {c : Cursor V} (leaf : AtLeaf b c) :
    ((cursorElements c).2 = [] ∧ moveToNext c = c) ∨
      ∃ l e r, cursorElements c = (l, e :: r) ∧ cursorElements (moveToNext c) = (e :: l, r) ∧
        AtLeaf b (moveToNext c) ∧ Behind (moveToNext c) := by
  cases leaf with
  | @of n f cn cf full above =>
    rcases nextNode_leaf (n := n) full above with ⟨nothing, none⟩ |
      ⟨i, g, cn', cf', k, k', v, next, full_g, above_g, at_i, same⟩
    · exact Or.inl ⟨nothing, by rw [moveToNext, none]⟩
    · obtain ⟨l, r, old, new⟩ := cursorElements_succ cn' cf' full_g.balanced at_i
      have room := (List.getElem?_eq_some_iff.mp at_i).1
      rw [moveToNext_some next]
      refine Or.inr ⟨l, (k', v), r, same ▸ old, new, .of full_g above_g, Nat.succ_pos i, ?_⟩
      rw [length_eq]
      exact room

/-- Back from behind a value of its leaf, a cursor goes over this value. -/
theorem moveToPrev_behind {c : Cursor V} (leaf : AtLeaf b c) (behind : Behind c) :
    ∃ l e r, cursorElements c = (e :: l, r) ∧ cursorElements (moveToPrev c) = (l, e :: r) ∧
      AtLeaf b (moveToPrev c) := by
  cases leaf with
  | @of n f cn cf full above =>
    obtain ⟨positive, inside⟩ := behind
    obtain ⟨n, rfl⟩ : ∃ n', n = n' + 1 := ⟨n - 1, by omega⟩
    rw [length_eq] at inside
    have at_n : f.toList[n]? = some f.toList[n] := List.getElem?_eq_getElem (by omega)
    obtain ⟨k, v, value⟩ := leaf_entry full.balanced at_n
    rw [value] at at_n
    obtain ⟨l, r, old, new⟩ := cursorElements_succ cn cf full.balanced at_n
    rw [moveToPrev_some (prevNode_val at_n)]
    exact ⟨l, (k, v), r, new, old, .of full above⟩

/-- With no value on its left a cursor stays. -/
theorem moveToPrev_first {c : Cursor V} (leaf : AtLeaf b c) (nothing : (cursorElements c).1 = []) :
    moveToPrev c = c := by
  cases leaf with
  | @of n f cn cf full above =>
    rw [cursorElements_eq] at nothing
    cases n with
    | zero =>
      rcases prevNode_above above with ⟨-, none⟩ | ⟨i, F, cn', cf', k, t, g, -, -, -, -, full_g, some_g,
        left_g, -⟩
      · rw [moveToPrev, prevNode_zero_none none]
      · rw [leftOf_zero, left_g, List.append_eq_nil_iff, List.reverse_eq_nil_iff] at nothing
        exact absurd nothing.1 (full_g.elements_ne_nil some_g)
    | succ n =>
      cases at_n : f.toList[n]? with
      | none => rw [moveToPrev, prevNode_none (Or.inl at_n)]
      | some t =>
        rw [leftOf_succ at_n, List.append_eq_nil_iff, List.reverse_eq_nil_iff] at nothing
        exact absurd nothing.1 (full.entry_ne_nil at_n)

/-- From the start of a leaf, and from beyond its end, a cursor does not get back to the value on its
left: it comes to be in front of the last two values of the leaf before, or stays. -/
theorem moveToPrev_lost {c : Cursor V} (leaf : AtLeaf b c) (start : ¬ Behind c) {l r : List (Key × V)}
    {e : Key × V} (split : cursorElements c = (e :: l, r)) : cursorElements (moveToPrev c) ≠ (l, e :: r) := by
  have stays : moveToPrev c = c → cursorElements (moveToPrev c) ≠ (l, e :: r) := by
    intro same no
    rw [same, split] at no
    exact absurd (congrArg List.length (Prod.mk.inj no).1) (by simp)
  cases leaf with
  | @of n f cn cf full above =>
    cases n with
    | zero =>
      rcases prevNode_above above with ⟨-, none⟩ | ⟨i, F, cn', cf', k, t, g, prev, at_i, child, -, full_g,
        some_g, -, right_g⟩
      · exact stays (by rw [moveToPrev, prevNode_zero_none none])
      · have up := prevNode_up (f := f) prev at_i child
        have positive := List.length_pos_iff.mpr some_g
        rw [length_eq] at up
        cases hq : g.toList.length - 1 with
        | zero =>
          rw [hq] at up
          exact stays (moveToPrev_zero up)
        | succ q =>
          rw [hq] at up
          rw [moveToPrev_some up, cursorElements_eq]
          rw [cursorElements_eq, elements_leaf full.balanced, ← right_g] at split
          have last : g.toList[q + 1]? = some (g.toList[q + 1]) := List.getElem?_eq_getElem (by omega)
          have before : g.toList[q]? = some (g.toList[q]) := List.getElem?_eq_getElem (by omega)
          obtain ⟨k1, v1, is_val⟩ := leaf_entry full_g.balanced before
          rw [is_val] at before
          obtain ⟨k2, v2, is_val'⟩ := leaf_entry full_g.balanced last
          rw [is_val'] at last
          have whole : g.toList.length ≤ q + 1 + 1 := by omega
          intro no
          have right := (Prod.mk.inj no).2
          rw [here_val before, rightOf_pred last, rightOf_last whole, (Prod.mk.inj split).2] at right
          exact absurd (congrArg List.length right) (by simp [entry])
    | succ n =>
      cases at_n : f.toList[n]? with
      | none => exact stays (by rw [moveToPrev, prevNode_none (Or.inl at_n)])
      | some t =>
        have room := (List.getElem?_eq_some_iff.mp at_n).1
        exact absurd ⟨Nat.succ_pos n, by rw [length_eq]; exact room⟩ start

/-! ### The walk -/

/-- A cursor walks over the values one by one, in both directions. -/
structure WalkLaw (c : Cursor V) : Prop where
  next : ∀ l e r, cursorElements c = (l, e :: r) → cursorElements (moveToNext c) = (e :: l, r)
  prev : ∀ l e r, cursorElements c = (e :: l, r) → cursorElements (moveToPrev c) = (l, e :: r)
  next_end : (cursorElements c).2 = [] → moveToNext c = c
  prev_end : (cursorElements c).1 = [] → moveToPrev c = c
  next_prev : (cursorElements c).2 ≠ [] →
    cursorElements (moveToPrev (moveToNext c)) = cursorElements c
  prev_next : (cursorElements c).1 ≠ [] →
    cursorElements (moveToNext (moveToPrev c)) = cursorElements c

theorem walkLaw_leaf {c : Cursor V} (leaf : AtLeaf b c) :
    WalkLaw c ↔ (cursorElements c).1 = [] ∨ Behind c := by
  have forward : ∀ {c : Cursor V}, AtLeaf b c → ∀ l e r, cursorElements c = (l, e :: r) →
      cursorElements (moveToNext c) = (e :: l, r) ∧ AtLeaf b (moveToNext c) ∧ Behind (moveToNext c) := by
    intro c leaf l e r split
    rcases moveToNext_leaf leaf with ⟨nothing, -⟩ | ⟨l', e', r', split', new, leaf', behind⟩
    · rw [split] at nothing
      cases nothing
    · rw [split] at split'
      cases split'
      exact ⟨new, leaf', behind⟩
  have backward : ∀ {c : Cursor V}, AtLeaf b c → Behind c → ∀ l e r, cursorElements c = (e :: l, r) →
      cursorElements (moveToPrev c) = (l, e :: r) ∧ AtLeaf b (moveToPrev c) := by
    intro c leaf behind l e r split
    obtain ⟨l', e', r', split', new, leaf'⟩ := moveToPrev_behind leaf behind
    rw [split] at split'
    cases split'
    exact ⟨new, leaf'⟩
  constructor
  · intro law
    by_contra no
    obtain ⟨some, start⟩ := not_or.mp no
    obtain ⟨e, l, left⟩ := List.exists_cons_of_ne_nil some
    have split : cursorElements c = (e :: l, (cursorElements c).2) := Prod.ext left rfl
    exact moveToPrev_lost leaf start split (law.prev _ _ _ split)
  · intro condition
    refine ⟨fun l e r split => (forward leaf l e r split).1, ?_, ?_, moveToPrev_first leaf, ?_, ?_⟩
    · intro l e r split
      rcases condition with nothing | behind
      · rw [split] at nothing
        cases nothing
      · exact (backward leaf behind l e r split).1
    · intro nothing
      rcases moveToNext_leaf leaf with ⟨-, same⟩ | ⟨l, e, r, split, -⟩
      · exact same
      · rw [split] at nothing
        cases nothing
    · intro some
      obtain ⟨e, r, right⟩ := List.exists_cons_of_ne_nil some
      have split : cursorElements c = ((cursorElements c).1, e :: r) := Prod.ext rfl right
      obtain ⟨new, leaf', behind'⟩ := forward leaf _ e r split
      rw [(backward leaf' behind' _ _ _ new).1, split]
    · intro some
      rcases condition with nothing | behind
      · exact absurd nothing some
      obtain ⟨e, l, left⟩ := List.exists_cons_of_ne_nil some
      have split : cursorElements c = (e :: l, (cursorElements c).2) := Prod.ext left rfl
      obtain ⟨new, leaf'⟩ := backward leaf behind _ _ _ split
      rw [(forward leaf' _ _ _ new).1, split]

/-- Two values at once. -/
theorem entries_apart {m i j : Nat} {f g : TreeList V} {t t' : Tree V} (full : Full b m f)
    (full_g : Full b m g) (at_i : f.toList[i]? = some t) (at_j : g.toList[j]? = some t') :
    1 < (entry t).length + (entry t').length := by
  have first := List.length_pos_iff.mpr (full.entry_ne_nil at_i)
  have second := List.length_pos_iff.mpr (full_g.entry_ne_nil at_j)
  omega

section

variable {m n : Nat} {f : TreeList V} {cn : List Nat} {cf : List (TreeList V)} (hm : m ≠ 0)
  (full : Full b (m + 1) f) (above : Above b (m + 1) f cn cf)
include hm full

theorem here_inner : here n f = [] := by
  apply here_nil
  intro k v at_n
  obtain ⟨g, child, -⟩ := full.entry hm at_n
  cases child

theorem inner_ne_nil : f.toList ≠ [] := by
  intro no
  have balanced := full.balanced
  cases f with
  | nil =>
    cases balanced
    exact hm rfl
  | cons t f => cases no

theorem cursorElements_inner : cursorElements (n :: cn, f :: cf) =
    (leftOf (n :: cn) (f :: cf), rightOf (n :: cn) (f :: cf)) := by
  rw [cursorElements_eq, here_inner hm full, List.nil_append]

include above

/-- Forward from an entry with values behind it, the cursor goes over too many. -/
theorem next_inner (law : WalkLaw (n :: cn, f :: cf)) {t : Tree V} (at_n : f.toList[n]? = some t) :
    rightOf (n :: cn) (f :: cf) = [] := by
  have split : cursorElements (n :: cn, f :: cf) = _ := cursorElements_inner hm full
  by_contra more
  obtain ⟨e, r, right⟩ := List.exists_cons_of_ne_nil more
  rw [right] at split
  have moved := law.next _ _ _ split
  obtain ⟨g, child, -, -, same, place⟩ := full.entry hm at_n
  rcases place with ⟨k, t', rfl, after⟩ | ⟨rfl, last⟩
  · obtain ⟨g', child', -⟩ := full.entry hm after
    rw [moveToNext_some (nextNode_node at_n after child'), cursorElements_inner hm full,
      leftOf_succ after, leftOf_succ at_n] at moved
    have left := congrArg List.length (Prod.mk.inj moved).1
    have two := entries_apart full full at_n after
    simp only [List.length_append, List.length_reverse, List.length_cons] at left
    omega
  · rw [rightOf_last last.le] at more
    rcases nextNode_above above with ⟨nothing, -⟩ | ⟨i, F, cn', cf', k, t', g', next, at_i, child_g,
      above_g, full_g, some_g, -, left_g⟩
    · exact more nothing
    · have first := List.getElem?_eq_getElem (List.length_pos_iff.mpr some_g)
      rw [moveToNext_some (nextNode_up (Or.inr ⟨g, at_n⟩) next at_i child_g),
        cursorElements_inner hm full_g, leftOf_succ first, leftOf_zero, left_g,
        ← leftOf_end (n := n + 1) last.le, leftOf_succ at_n] at moved
      have left := congrArg List.length (Prod.mk.inj moved).1
      have two := entries_apart full full_g at_n first
      simp only [List.length_append, List.length_reverse, List.length_cons] at left
      omega

/-- Backward likewise, or it stays. -/
theorem prev_inner (law : WalkLaw (n :: cn, f :: cf)) : leftOf (n :: cn) (f :: cf) = [] := by
  have split : cursorElements (n :: cn, f :: cf) = _ := cursorElements_inner hm full
  by_contra more
  obtain ⟨e, l, left⟩ := List.exists_cons_of_ne_nil more
  rw [left] at split
  have moved := law.prev _ _ _ split
  have stays : moveToPrev (n :: cn, f :: cf) ≠ (n :: cn, f :: cf) := by
    intro same
    rw [same, split] at moved
    exact absurd (congrArg List.length (Prod.mk.inj moved).1) (by simp)
  have nonempty := List.length_pos_iff.mpr (inner_ne_nil hm full)
  have length_f : 0 < (elements f).length :=
    List.length_pos_iff.mpr (full.elements_ne_nil (inner_ne_nil hm full))
  cases n with
  | zero =>
    rcases prevNode_above above with ⟨nothing, -⟩ | ⟨i, F, cn', cf', k, t, g, prev, at_i, child, -, full_g,
      some_g, -, right_g⟩
    · exact more nothing
    · have up := prevNode_up (f := f) prev at_i child
      have positive := List.length_pos_iff.mpr some_g
      rw [length_eq] at up
      cases hq : g.toList.length - 1 with
      | zero =>
        rw [hq] at up
        exact stays (moveToPrev_zero up)
      | succ q =>
        rw [hq] at up
        have last : g.toList[q + 1]? = some (g.toList[q + 1]) := List.getElem?_eq_getElem (by omega)
        have whole : g.toList.length ≤ q + 1 + 1 := by omega
        have first : f.toList[0]? = some (f.toList[0]) := List.getElem?_eq_getElem nonempty
        have nothing := next_inner hm full above law first
        rw [moveToPrev_some up, cursorElements_inner hm full_g, rightOf_pred last, rightOf_last whole,
          right_g, nothing] at moved
        have right := congrArg List.length (Prod.mk.inj moved).2
        have one := List.length_pos_iff.mpr (full_g.entry_ne_nil last)
        simp only [List.length_append, List.length_cons, List.length_nil] at right
        omega
  | succ p =>
    by_cases inside : p + 1 < f.toList.length
    · have at_p : f.toList[p]? = some (f.toList[p]) := List.getElem?_eq_getElem (by omega)
      have at_n : f.toList[p + 1]? = some (f.toList[p + 1]) := List.getElem?_eq_getElem inside
      have nothing := next_inner hm full above law at_n
      obtain ⟨g, -, -, -, -, place⟩ := full.entry hm at_p
      rcases place with ⟨k, t', is_node, -⟩ | ⟨-, last⟩
      · rw [is_node] at at_p
        cases p with
        | zero => exact stays (moveToPrev_zero (prevNode_node at_p))
        | succ q =>
          rw [moveToPrev_some (prevNode_node at_p), cursorElements_inner hm full, rightOf_pred at_p,
            rightOf_pred at_n, nothing] at moved
          have right := congrArg List.length (Prod.mk.inj moved).2
          have two := entries_apart full full at_p at_n
          simp only [List.length_append, List.length_cons, List.length_nil] at right
          omega
      · omega
    · have before : f.toList[p]? = none ∨ ∃ g, f.toList[p]? = some (.final g) := by
        cases at_p : f.toList[p]? with
        | none => exact Or.inl rfl
        | some t =>
          obtain ⟨g, -, -, -, -, place⟩ := full.entry hm at_p
          rcases place with ⟨k, t', -, after⟩ | ⟨rfl, -⟩
          · exact absurd (List.getElem?_eq_some_iff.mp after).1 inside
          · exact Or.inr ⟨g, rfl⟩
      exact stays (by rw [moveToPrev, prevNode_none before])

/-- With no values around it, it stays. -/
theorem next_none_inner (left : leftOf (n :: cn) (f :: cf) = [])
    (right : rightOf (n :: cn) (f :: cf) = []) : moveToNext (n :: cn, f :: cf) = (n :: cn, f :: cf) := by
  cases at_n : f.toList[n]? with
  | none =>
    rw [leftOf_end (List.getElem?_eq_none_iff.mp at_n), List.append_eq_nil_iff,
      List.reverse_eq_nil_iff] at left
    exact absurd left.1 (full.elements_ne_nil (inner_ne_nil hm full))
  | some t =>
    obtain ⟨g, -, -, -, -, place⟩ := full.entry hm at_n
    rcases place with ⟨k, t', -, after⟩ | ⟨rfl, last⟩
    · rw [rightOf_pred after, List.append_eq_nil_iff] at right
      exact absurd right.1 (full.entry_ne_nil after)
    · rw [rightOf_last last.le] at right
      rcases nextNode_above above with ⟨-, none⟩ | ⟨i, F, cn', cf', k, t', g', -, -, -, -, full_g,
        some_g, right_g, -⟩
      · rw [moveToNext, nextNode_none (Or.inr ⟨g, at_n⟩) none]
      · rw [right_g, List.append_eq_nil_iff] at right
        exact absurd right.1 (full_g.elements_ne_nil some_g)

omit hm in
theorem prev_none_inner (left : leftOf (n :: cn) (f :: cf) = []) :
    moveToPrev (n :: cn, f :: cf) = (n :: cn, f :: cf) := by
  cases n with
  | zero =>
    rcases prevNode_above above with ⟨-, none⟩ | ⟨i, F, cn', cf', k, t, g, -, -, -, -, full_g, some_g,
      left_g, -⟩
    · rw [moveToPrev, prevNode_zero_none none]
    · rw [leftOf_zero, left_g, List.append_eq_nil_iff, List.reverse_eq_nil_iff] at left
      exact absurd left.1 (full_g.elements_ne_nil some_g)
  | succ p =>
    cases at_p : f.toList[p]? with
    | none => rw [moveToPrev, prevNode_none (Or.inl at_p)]
    | some t =>
      rw [leftOf_succ at_p, List.append_eq_nil_iff, List.reverse_eq_nil_iff] at left
      exact absurd left.1 (full.entry_ne_nil at_p)

/-- A cursor that ends above the leaves skips the values of its entry. -/
theorem walkLaw_inner : WalkLaw (n :: cn, f :: cf) ↔ cursorElements (n :: cn, f :: cf) = ([], []) := by
  have split : cursorElements (n :: cn, f :: cf) = _ := cursorElements_inner hm full
  constructor
  · intro law
    have left := prev_inner hm full above law
    cases at_n : f.toList[n]? with
    | some t => rw [split, left, next_inner hm full above law at_n]
    | none =>
      rw [leftOf_end (List.getElem?_eq_none_iff.mp at_n), List.append_eq_nil_iff,
        List.reverse_eq_nil_iff] at left
      exact absurd left.1 (full.elements_ne_nil (inner_ne_nil hm full))
  · intro nothing
    rw [nothing] at split
    obtain ⟨left, right⟩ := Prod.mk.inj split
    have next := next_none_inner hm full above left.symm right.symm
    have prev := prev_none_inner full above left.symm
    refine ⟨fun l e r no => ?_, fun l e r no => ?_, fun _ => next, fun _ => prev, fun no => ?_,
      fun no => ?_⟩
    · rw [nothing] at no
      cases no
    · rw [nothing] at no
      cases no
    · exact absurd (congrArg Prod.snd nothing) no
    · exact absurd (congrArg Prod.fst nothing) no

end

/-! ### Correct cursors -/

/-- The lists of a correct cursor, all levels counted. -/
theorem CursorCorrect.above {c : Cursor V} (correct : CursorCorrect b c) :
    c = ([], []) ∨ ∃ m n f cn cf, c = (n :: cn, f :: cf) ∧ Full b m f ∧ Above b m f cn cf := by
  obtain ⟨struct, balanced, -, fanout⟩ := correct
  have step : ∀ {n : Nat} {f f' : TreeList V} {ci : List Nat} {ct : List (TreeList V)} {t : Tree V},
      ((n :: ci, f :: ct) = (([], []) : Cursor V) ∨ ∃ m n' g cn cf, (n :: ci, f :: ct) = (n' :: cn, g :: cf) ∧
        Full b m g ∧ Above b m g cn cf) → linSearch n f = some t → childOf t = some f' →
      ∃ m, Full b m f' ∧ Above b m f' (n :: ci) (f :: ct) := by
    intro n f f' ci ct t below at_n child
    rcases below with no | ⟨m, n', g, cn, cf, same, full, above⟩
    · cases no
    cases same
    rw [linSearch_eq] at at_n
    obtain ⟨m, rfl⟩ := Nat.exists_eq_succ_of_ne_zero (level_ne_zero full.balanced)
    by_cases hm : m = 0
    · subst hm
      obtain ⟨k, v, rfl⟩ := leaf_entry full.balanced at_n
      cases child
    · obtain ⟨g', child', full', -⟩ := full.entry hm at_n
      obtain rfl := Option.some.inj (child'.symm.trans child)
      exact ⟨m, full', .step hm full at_n child above⟩
  induction struct with
  | nil => exact Or.inl rfl
  | first n f =>
    cases balanced with
    | next _ _ _ _ levels _ =>
      cases fanout with
      | next _ _ _ _ fanout _ =>
        obtain ⟨m, levels⟩ := levels
        exact Or.inr ⟨m, n, f, [], [], rfl, ⟨levels, fanout⟩, .root m f⟩
  | node n n' k f f' ci ct above here ih =>
    cases balanced with
    | next _ _ _ _ _ balanced =>
      cases fanout with
      | next _ _ _ _ _ fanout =>
        obtain ⟨m, full, above⟩ := step (ih balanced fanout) here rfl
        exact Or.inr ⟨m, n', f', _, _, rfl, full, above⟩
  | final n n' f f' ci ct above here ih =>
    cases balanced with
    | next _ _ _ _ _ balanced =>
      cases fanout with
      | next _ _ _ _ _ fanout =>
        obtain ⟨m, full, above⟩ := step (ih balanced fanout) here rfl
        exact Or.inr ⟨m, n', f', _, _, rfl, full, above⟩

/-- A cursor between no values, or one in a leaf, with no value on its left or behind one of its leaf. -/
def Walks (c : Cursor V) : Prop :=
  cursorElements c = ([], []) ∨ (∃ f cf, c.2 = f :: cf ∧ BalancedTreelist 1 f) ∧
    ((cursorElements c).1 = [] ∨ Behind c)

theorem walkLaw_iff (b : Nat) (c : Cursor V) (correct : CursorCorrect b c) : WalkLaw c ↔ Walks c := by
  rcases correct.above with rfl | ⟨m, n, f, cn, cf, rfl, full, above⟩
  · refine ⟨fun _ => Or.inl rfl, fun _ => ⟨?_, ?_, fun _ => rfl, fun _ => rfl, ?_, ?_⟩⟩
    · intro l e r no
      cases no
    · intro l e r no
      cases no
    · exact fun no => absurd rfl no
    · exact fun no => absurd rfl no
  obtain ⟨m, rfl⟩ := Nat.exists_eq_succ_of_ne_zero (level_ne_zero full.balanced)
  by_cases hm : m = 0
  · subst hm
    rw [walkLaw_leaf (.of full above), Walks]
    constructor
    · exact fun place => Or.inr ⟨⟨f, cf, rfl, full.balanced⟩, place⟩
    · rintro (nothing | ⟨-, place⟩)
      · exact Or.inl (congrArg Prod.fst nothing)
      · exact place
  · rw [walkLaw_inner hm full above, Walks]
    constructor
    · exact Or.inl
    · rintro (nothing | ⟨⟨f', cf', same, leaf⟩, -⟩)
      · exact nothing
      · cases same
        have first := List.getElem?_eq_getElem (List.length_pos_iff.mpr (inner_ne_nil hm full))
        obtain ⟨k, v, is_val⟩ := leaf_entry leaf first
        obtain ⟨g, child, -⟩ := full.entry hm first
        rw [is_val] at child
        cases child

/-- Two leaves of two values. -/
def twoLeaves : TreeList Nat :=
  .cons (.node 2 (.cons (.val 1 10) (.cons (.val 2 20) .nil)))
    (.cons (.final (.cons (.val 3 30) (.cons (.val 4 40) .nil))) .nil)

/-- In the second leaf. -/
def secondLeaf (n : Nat) : Cursor Nat :=
  ([n, 1], [.cons (.val 3 30) (.cons (.val 4 40) .nil), twoLeaves])

theorem secondLeaf_correct (n : Nat) : CursorCorrect 2 (secondLeaf n) := by
  have leaf : ∀ k k' : Key, ∀ v v' : Nat,
      FanoutRestr 2 2 (.cons (.val k v) (.cons (.val k' v') .nil)) := by
    intro k k' v v'
    exact .val 1 _ _ _ (by decide) (.val 0 _ _ _ (by decide) .nil)
  have level : ∀ k k' : Key, ∀ v v' : Nat,
      BalancedTreelist 1 (.cons (.val k v) (.cons (.val k' v') .nil)) := by
    intro k k' v v'
    exact .val _ _ _ (.val _ _ _ .nil)
  have sorted : TreelistSorted 2 4 (.cons (.val 3 30) (.cons (.val 4 40) .nil) : TreeList Nat) :=
    .val 2 3 4 3 30 _ (.val 3 4 4 4 40 _ (.nil 4 4) (by decide) (by decide)) (by decide) (by decide)
  refine ⟨.final 1 n _ _ [] [] (.first 1 _) rfl, ?_, ?_, ?_⟩
  · exact .next _ _ _ _ ⟨1, level _ _ _ _⟩
      (.next _ _ _ _ ⟨2, .node 1 _ _ _ (level _ _ _ _) (.final 1 _ (level _ _ _ _))⟩ .nil)
  · refine .next _ _ _ _ ⟨2, 4, sorted⟩ (.next _ _ _ _ ⟨0, 4, ?_⟩ .nil)
    refine .node 0 2 4 2 _ _ (.final 2 4 4 _ _ (.nil 4 4) sorted (by decide)) ?_ (by decide) (by decide)
    exact .val 0 1 2 1 10 _ (.val 1 2 2 2 20 _ (.nil 2 2) (by decide) (by decide)) (by decide) (by decide)
  · exact .next _ _ _ _ ⟨2, leaf _ _ _ _⟩ (.next _ _ _ _
      ⟨2, .node 1 2 _ _ _ (by decide) (leaf _ _ _ _) (by decide) (.final 2 _ (by decide) (leaf _ _ _ _))⟩
      .nil)

theorem walkLaw_second : CursorCorrect 2 (secondLeaf 1) ∧ WalkLaw (secondLeaf 1) := by
  have correct := secondLeaf_correct 1
  exact ⟨correct, (walkLaw_iff 2 (secondLeaf 1) correct).mpr
    (Or.inr ⟨⟨_, _, rfl, .val _ _ _ (.val _ _ _ .nil)⟩, Or.inr ⟨by decide, by decide⟩⟩)⟩

/-- Back from the start of the second leaf, the cursor stands in front of the first value. -/
theorem prev_skips_two :
    ¬ ∀ (b : Nat) (c : Cursor Nat), CursorCorrect b c → WalkLaw c := by
  intro all
  have law := all 2 (secondLeaf 0) (secondLeaf_correct 0)
  have moved := law.prev _ _ _ (show cursorElements (secondLeaf 0) = ((2, 20) :: [(1, 10)], _) from rfl)
  exact absurd (congrArg (List.length ∘ Prod.fst) moved) (by decide)

end DeepDB.Model
