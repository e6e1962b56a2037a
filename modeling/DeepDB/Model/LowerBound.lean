import DeepDB.Model.Cursors

/-!
The search of the original B-tree. `make_cursor` follows the keys above the subtrees. What
`treelist_sorted` says of an empty list is nothing, so the key above a subtree need not bound the
values below it, and a value above its bound is not found.
-/

namespace DeepDB.Model

open TreeList

variable {V : Type} {b : Nat}

/-! ### The order of the keys -/

/-- The bits that are left decide, unless they are the same. -/
theorem ltPos_iff (p q : PosNum) (curVal : Bool) :
    ltPos p q curVal = true ↔ (p : Nat) < q ∨ (p : Nat) = q ∧ curVal = true := by
  have positive : ∀ r : PosNum, 0 < (r : Nat) := PosNum.cast_pos
  have least : ((PosNum.one : PosNum) : Nat) = 1 := PosNum.cast_one
  induction p generalizing q curVal with
  | one =>
    cases q with
    | one => simp [ltPos]
    | bit0 q =>
      have := positive q
      simp only [ltPos, least, PosNum.cast_bit0, true_iff]
      omega
    | bit1 q =>
      have := positive q
      simp only [ltPos, least, PosNum.cast_bit1, true_iff]
      omega
  | bit0 p ih =>
    have := positive p
    cases q with
    | one =>
      simp only [ltPos, least, PosNum.cast_bit0, Bool.false_eq_true, false_iff]
      omega
    | bit0 q =>
      simp only [ltPos, ih, PosNum.cast_bit0]
      grind
    | bit1 q =>
      simp only [ltPos, ih, PosNum.cast_bit0, PosNum.cast_bit1]
      grind
  | bit1 p ih =>
    have := positive p
    cases q with
    | one =>
      simp only [ltPos, least, PosNum.cast_bit1, Bool.false_eq_true, false_iff]
      omega
    | bit0 q =>
      simp only [ltPos, ih, PosNum.cast_bit0, PosNum.cast_bit1]
      grind
    | bit1 q =>
      simp only [ltPos, ih, PosNum.cast_bit1]
      grind

theorem ltPos_false (p q : PosNum) : ltPos p q false = true ↔ (p : Nat) < q := by
  rw [ltPos_iff]
  simp

theorem ltKey_int (k1 k2 : Key) : ltKey k1 k2 = true ↔ (k1 : Int) < k2 := by
  have positive : ∀ p : PosNum, 0 < (p : Int) := PosNum.cast_pos
  have same : ∀ p q : PosNum, (p : Nat) < q ↔ (p : Int) < q := fun p q => by
    rw [PosNum.cast_lt, PosNum.cast_lt]
  cases k1 with
  | zero => cases k2 <;> simp [ltKey, positive, (positive _).le]
  | pos p =>
    cases k2 with
    | zero => simp [ltKey, (positive p).le]
    | pos q => rw [ltKey, ltPos_false, same, ZNum.cast_pos, ZNum.cast_pos]
    | neg q =>
      have first := positive p
      have second := positive q
      simp only [ltKey, Bool.false_eq_true, ZNum.cast_pos, ZNum.cast_neg, false_iff]
      omega
  | neg p =>
    cases k2 with
    | zero => simp [ltKey, positive]
    | pos q =>
      have first := positive p
      have second := positive q
      simp only [ltKey, ZNum.cast_pos, ZNum.cast_neg, true_iff]
      omega
    | neg q => rw [ltKey, ltPos_false, same, ZNum.cast_neg, ZNum.cast_neg, neg_lt_neg_iff]

theorem ltKey_iff (k1 k2 : Key) : ltKey k1 k2 = true ↔ k1 < k2 := by
  rw [ltKey_int, ZNum.cast_lt]

theorem ltKey_false (k1 k2 : Key) : ltKey k1 k2 = false ↔ k2 ≤ k1 := by
  rw [← Bool.not_eq_true, ltKey_iff, not_lt]

/-! ### The path of a search -/

/-- The values that a search leaves behind. -/
def passed (x : Key) : TreeList V → List (Key × V)
  | .nil => []
  | .cons (.node k f') f => if ltKey k x then elements f' ++ passed x f else passed x f'
  | .cons (.final f') _ => passed x f'
  | .cons (.val k v) f => if ltKey k x then (k, v) :: passed x f else []
termination_by structural f => f

def ahead (x : Key) : TreeList V → List (Key × V)
  | .nil => []
  | .cons (.node k f') f => if ltKey k x then ahead x f else ahead x f' ++ elements f
  | .cons (.final f') f => ahead x f' ++ elements f
  | .cons (.val k v) f => if ltKey k x then ahead x f else (k, v) :: elements f
termination_by structural f => f

theorem passed_ahead (x : Key) (f : TreeList V) : passed x f ++ ahead x f = elements f := by
  induction f using TreeList.entries with
  | nil => rfl
  | node k f' f ih' ih =>
    rw [passed, ahead, elements_cons, entry]
    split
    · rw [List.append_assoc, ih]
    · rw [← List.append_assoc, ih']
  | final f' f ih' _ => rw [passed, ahead, elements_cons, entry, ← List.append_assoc, ih']
  | val k v f ih =>
    rw [passed, ahead, elements_cons, entry]
    split
    · rw [List.cons_append, ih]
      rfl
    · rfl

/-- The cursor of a search in the entries `f` of `F` from its place `n` on. -/
theorem makeCursorRec_leaf (x : Key) {m n : Nat} {f F : TreeList V} {ci : List Nat}
    {ct : List (TreeList V)} (full : Full b m F) (above : Above b m F ci ct)
    (tail : f.toList = F.toList.drop n) (inside : m = 1 ∨ f.toList ≠ []) :
    AtLeaf b (makeCursorRec x f ci (F :: ct) n) ∧
      cursorElements (makeCursorRec x f ci (F :: ct) n) =
        ((passed x f).reverse ++ leftOf (n :: ci) (F :: ct), ahead x f ++ rightOf ci ct) := by
  have first : ∀ {t : Tree V} {f F : TreeList V} {n : Nat}, (TreeList.cons t f).toList = F.toList.drop n →
      F.toList[n]? = some t ∧ f.toList = F.toList.drop (n + 1) := by
    intro t f F n tail
    constructor
    · rw [← Nat.add_zero n, ← List.getElem?_drop, ← tail]
      rfl
    · rw [← List.drop_drop, ← tail]
      rfl
  have level : ∀ {m n : Nat} {F : TreeList V} {t : Tree V} {g : TreeList V}, Full b m F →
      F.toList[n]? = some t → childOf t = some g → ∃ m', m = m' + 1 ∧ m' ≠ 0 := by
    intro m n F t g full at_n child
    obtain ⟨m, rfl⟩ := Nat.exists_eq_succ_of_ne_zero (level_ne_zero full.balanced)
    refine ⟨m, rfl, ?_⟩
    rintro rfl
    obtain ⟨k, v, rfl⟩ := leaf_entry full.balanced at_n
    cases child
  induction f using TreeList.entries generalizing m n F ci ct with
  | nil =>
    obtain rfl := inside.resolve_right (fun more => more rfl)
    have behind : F.toList.length ≤ n := List.drop_eq_nil_iff.mp tail.symm
    have at_n := List.getElem?_eq_none_iff.mpr behind
    refine ⟨.of full above, ?_⟩
    rw [makeCursorRec, cursorElements_eq, rightOf_last (Nat.le_succ_of_le behind),
      here_nil (by rw [at_n]; exact fun k v no => by cases no)]
    rfl
  | node k f' f ih' ih =>
    obtain ⟨at_n, tail⟩ := first tail
    obtain ⟨m, rfl, hm⟩ := level full at_n rfl
    obtain ⟨g, child, below, more, same, place⟩ := full.entry hm at_n
    obtain rfl := Option.some.inj child
    rw [makeCursorRec, passed, ahead]
    split
    · rcases place with ⟨_, t', -, after⟩ | ⟨no, -⟩
      · have next : f.toList ≠ [] := by
          intro no
          rw [← Nat.add_zero (n + 1), ← List.getElem?_drop, ← tail, no] at after
          cases after
        obtain ⟨leaf, values⟩ := ih full above tail (Or.inr next)
        refine ⟨leaf, ?_⟩
        rw [values, leftOf_succ at_n, same, List.reverse_append, List.append_assoc]
      · cases no
    · obtain ⟨leaf, values⟩ := ih' below (.step hm full at_n rfl above) List.drop_zero.symm (Or.inr more)
      refine ⟨leaf, ?_⟩
      rw [values, leftOf_zero, rightOf, ← tail, ← elements_eq, List.append_assoc]
  | final f' f ih' ih =>
    obtain ⟨at_n, tail⟩ := first tail
    obtain ⟨m, rfl, hm⟩ := level full at_n rfl
    obtain ⟨g, child, below, more, same, place⟩ := full.entry hm at_n
    obtain rfl := Option.some.inj child
    rcases place with ⟨_, _, no, -⟩ | ⟨-, last⟩
    · cases no
    rw [List.drop_of_length_le last.le] at tail
    cases f with
    | cons t f => cases tail
    | nil =>
      obtain ⟨leaf, values⟩ := ih' below (.step hm full at_n rfl above) List.drop_zero.symm (Or.inr more)
      rw [makeCursorRec, passed, ahead]
      refine ⟨leaf, ?_⟩
      rw [values, leftOf_zero, rightOf_last last.le, show elements (.nil : TreeList V) = [] from rfl,
        List.append_nil]
  | val k v f ih =>
    obtain ⟨at_n, tail⟩ := first tail
    obtain ⟨m, rfl⟩ := Nat.exists_eq_succ_of_ne_zero (level_ne_zero full.balanced)
    obtain rfl : m = 0 := by
      by_contra hm
      obtain ⟨g, child, -⟩ := full.entry hm at_n
      cases child
    rw [makeCursorRec, passed, ahead]
    split
    · obtain ⟨leaf, values⟩ := ih full above tail (Or.inl rfl)
      refine ⟨leaf, ?_⟩
      rw [values, leftOf_succ at_n, List.reverse_cons, List.append_assoc]
      rfl
    · refine ⟨.of full above, ?_⟩
      rw [cursorElements_eq, here_val at_n, rightOf, ← tail, ← elements_eq]
      rfl

theorem makeCursor_leaf (x : Key) {m : Nat} {t : TreeList V} (full : Full b m t) :
    AtLeaf b (makeCursor x t) ∧ cursorElements (makeCursor x t) = ((passed x t).reverse, ahead x t) := by
  have inside : m = 1 ∨ t.toList ≠ [] := by
    obtain ⟨m, rfl⟩ := Nat.exists_eq_succ_of_ne_zero (level_ne_zero full.balanced)
    by_cases hm : m = 0
    · exact Or.inl (congrArg (· + 1) hm)
    · exact Or.inr (inner_ne_nil hm full)
  obtain ⟨leaf, values⟩ := makeCursorRec_leaf x full (.root m t) List.drop_zero.symm inside
  refine ⟨leaf, values.trans ?_⟩
  rw [leftOf_zero]
  exact congrArg₂ Prod.mk (List.append_nil _) (List.append_nil _)

/-- What a leaf's cursor reads is the first value on its right. -/
theorem get_leaf {c : Cursor V} (leaf : AtLeaf b c) :
    getKey c = (cursorElements c).2.head?.map Prod.fst ∧ get c = (cursorElements c).2.head?.map Prod.snd := by
  cases leaf with
  | @of n f cn cf full above =>
    unfold getKey get getTree
    rcases nextNode_leaf (n := n) full above with ⟨nothing, none⟩ |
      ⟨i, g, cn', cf', k, k', v, next, full_g, above_g, at_i, same⟩
    · rw [nothing, none]
      exact ⟨rfl, rfl⟩
    · obtain ⟨l, r, split, -⟩ := cursorElements_succ cn' cf' full_g.balanced at_i
      rw [next, ← same, split]
      dsimp only
      rw [linSearch_eq, at_i]
      exact ⟨rfl, rfl⟩

theorem get_makeCursor (x : Key) {m : Nat} {t : TreeList V} (full : Full b m t) :
    getKey (makeCursor x t) = (ahead x t).head?.map Prod.fst ∧
      get (makeCursor x t) = (ahead x t).head?.map Prod.snd := by
  obtain ⟨leaf, values⟩ := makeCursor_leaf x full
  have read := get_leaf leaf
  rw [values] at read
  exact read

/-! ### The keys above the subtrees -/

/-- Every key above a subtree is at least the keys below it. -/
def NodeBounds : TreeList V → Prop
  | .nil => True
  | .cons (.node k f') f => (∀ e ∈ elements f', ltKey k e.1 = false) ∧ NodeBounds f' ∧ NodeBounds f
  | .cons (.final f') f => NodeBounds f' ∧ NodeBounds f
  | .cons (.val _ _) f => NodeBounds f
termination_by structural f => f

/-- The lower end of the range is all that `treelist_sorted` gives for the values. -/
theorem sorted_above {ki kf : Key} {f : TreeList V} (sorted : TreelistSorted ki kf f) :
    ∀ e ∈ elements f, ki < e.1 := by
  induction sorted with
  | nil ki kf => exact fun e no => absurd no List.not_mem_nil
  | node ki ki' kf k f f' rest below le lt ih ih' =>
    rw [ltKey_false] at le
    rw [ltKey_iff] at lt
    intro e mem
    rw [elements_cons, List.mem_append] at mem
    rcases mem with mem | mem
    · exact ih' e mem
    · exact (lt.trans_le le).trans (ih e mem)
  | final ki ki' kf f f' rest below lt ih ih' =>
    rw [ltKey_iff] at lt
    intro e mem
    rw [elements_cons, List.mem_append] at mem
    rcases mem with mem | mem
    · exact ih' e mem
    · exact lt.trans (ih e mem)
  | val ki ki' kf k v f rest le lt ih =>
    rw [ltKey_false] at le
    rw [ltKey_iff] at lt
    intro e mem
    rw [elements_cons, List.mem_append] at mem
    rcases mem with mem | mem
    · obtain rfl := List.mem_singleton.mp mem
      exact lt
    · exact (lt.trans_le le).trans (ih e mem)

section

variable {m : Nat} {ki kf : Key} {f : TreeList V}

/-- With bounds, what a search leaves behind is below its key. -/
theorem passed_lt (bounds : NodeBounds f) (x : Key) : ∀ e ∈ passed x f, e.1 < x := by
  induction f using TreeList.entries with
  | nil => exact fun e no => absurd no List.not_mem_nil
  | node k f' f ih' ih =>
    obtain ⟨bound, below, rest⟩ := bounds
    rw [passed]
    split
    · rename_i less
      rw [ltKey_iff] at less
      intro e mem
      rcases List.mem_append.mp mem with mem | mem
      · exact ((ltKey_false k e.1).mp (bound e mem)).trans_lt less
      · exact ih rest e mem
    · exact ih' below
  | final f' f ih' ih => exact ih' bounds.1
  | val k v f ih =>
    rw [passed]
    split
    · rename_i less
      rw [ltKey_iff] at less
      intro e mem
      rcases List.mem_cons.mp mem with rfl | mem
      · exact less
      · exact ih bounds e mem
    · exact fun e no => absurd no List.not_mem_nil

theorem ahead_le (balanced : BalancedTreelist m f) (sorted : TreelistSorted ki kf f) (x : Key) :
    ∀ e ∈ ahead x f, x ≤ e.1 := by
  induction sorted generalizing m with
  | nil ki kf => exact fun e no => absurd no List.not_mem_nil
  | node ki ki' kf k f f' rest below le lt ih ih' =>
    cases balanced with
    | node m _ _ _ level level' =>
      rw [ltKey_false] at le
      rw [ahead]
      split
      · exact ih level'
      · rename_i more
        rw [Bool.not_eq_true, ltKey_false] at more
        intro e mem
        rcases List.mem_append.mp mem with mem | mem
        · exact ih' level e mem
        · exact (more.trans le).trans (sorted_above rest e mem).le
  | final ki ki' kf f f' rest below lt ih ih' =>
    cases balanced with
    | final m _ level =>
      rw [ahead, show elements (.nil : TreeList V) = [] from rfl, List.append_nil]
      exact ih' level
  | val ki ki' kf k v f rest le lt ih =>
    cases balanced with
    | val _ _ _ level =>
      rw [ltKey_false] at le
      rw [ahead]
      split
      · exact ih level
      · rename_i more
        rw [Bool.not_eq_true, ltKey_false] at more
        intro e mem
        rcases List.mem_cons.mp mem with rfl | mem
        · exact more
        · exact (more.trans le).trans (sorted_above rest e mem).le

theorem elements_increasing (balanced : BalancedTreelist m f) (sorted : TreelistSorted ki kf f)
    (bounds : NodeBounds f) : (elements f).Pairwise (fun e e' => e.1 < e'.1) := by
  induction sorted generalizing m with
  | nil ki kf => exact List.Pairwise.nil
  | node ki ki' kf k f f' rest below le lt ih ih' =>
    cases balanced with
    | node m _ _ _ level level' =>
      obtain ⟨bound, bounds, bounds'⟩ := bounds
      rw [ltKey_false] at le
      rw [elements_cons, List.pairwise_append]
      refine ⟨ih' level bounds, ih level' bounds', fun e mem e' mem' => ?_⟩
      calc e.1 ≤ k := (ltKey_false k e.1).mp (bound e mem)
        _ ≤ ki' := le
        _ < e'.1 := sorted_above rest e' mem'
  | final ki ki' kf f f' rest below lt ih ih' =>
    cases balanced with
    | final m _ level =>
      rw [elements_cons, show elements (.nil : TreeList V) = [] from rfl, List.append_nil]
      exact ih' level bounds.1
  | val ki ki' kf k v f rest le lt ih =>
    cases balanced with
    | val _ _ _ level =>
      rw [ltKey_false] at le
      rw [elements_cons]
      exact List.pairwise_cons.mpr
        ⟨fun e mem => le.trans_lt (sorted_above rest e mem), ih level bounds⟩

/-- Where no value is left behind by the search for its own key, the keys above the subtrees bound
them. -/
theorem nodeBounds_of_passed (balanced : BalancedTreelist m f) (sorted : TreelistSorted ki kf f)
    (found : ∀ e ∈ elements f, ∀ e' ∈ passed e.1 f, e'.1 ≠ e.1) : NodeBounds f := by
  induction sorted generalizing m with
  | nil ki kf => trivial
  | node ki ki' kf k f f' rest below le lt ih ih' =>
    cases balanced with
    | node m _ _ _ level level' =>
      rw [ltKey_false] at le
      rw [elements_cons] at found
      have bound : ∀ e ∈ elements f', ltKey k e.1 = false := by
        intro e mem
        by_contra more
        rw [Bool.not_eq_false] at more
        have lost := found e (List.mem_append_left _ mem) e
        rw [passed, if_pos more] at lost
        exact lost (List.mem_append_left _ mem) rfl
      refine ⟨bound, ih' level fun e mem => ?_, ih level' fun e mem e' mem' => ?_⟩
      · have kept := found e (List.mem_append_left _ mem)
        rw [passed, if_neg (by rw [bound e mem]; exact Bool.false_ne_true)] at kept
        exact kept
      · have less : ltKey k e.1 = true := (ltKey_iff _ _).mpr (le.trans_lt (sorted_above rest e mem))
        have kept := found e (List.mem_append_right _ mem) e'
        rw [passed, if_pos less] at kept
        exact kept (List.mem_append_right _ mem')
  | final ki ki' kf f f' rest below lt ih ih' =>
    cases balanced with
    | final m _ level =>
      rw [elements_cons, show elements (.nil : TreeList V) = [] from rfl, List.append_nil] at found
      exact ⟨ih' level found, trivial⟩
  | val ki ki' kf k v f rest le lt ih =>
    cases balanced with
    | val _ _ _ level =>
      rw [ltKey_false] at le
      rw [elements_cons] at found
      refine ih level fun e mem e' mem' => ?_
      have less : ltKey k e.1 = true := (ltKey_iff _ _).mpr (le.trans_lt (sorted_above rest e mem))
      have kept := found e (List.mem_append_right _ mem) e'
      rw [passed, if_pos less] at kept
      exact kept (List.mem_cons_of_mem _ mem')

end

/-! ### The least value from a key on -/

/-- One entry is not less than `k`, and all others that are not less than `k` are above it. -/
def LeastFrom (k : Key) (l : List (Key × V)) : Option (Key × V) → Prop
  | some e => ltKey e.1 k = false ∧ ∃ l1 l2, l = l1 ++ e :: l2 ∧
      ∀ e' ∈ l1 ++ l2, ltKey e'.1 k = false → ltKey e.1 e'.1 = true
  | none => ∀ e ∈ l, ltKey e.1 k = true

/-- `get_key` and `get` along the cursor of `k` give the least entry from `k` on. -/
def LowerBound (t : TreeList V) (k : Key) : Prop :=
  ∃ o, getKey (makeCursor k t) = o.map Prod.fst ∧ get (makeCursor k t) = o.map Prod.snd ∧
    LeastFrom k (elements t) o

theorem lowerBound_ahead {m : Nat} {t : TreeList V} (full : Full b m t) (k : Key) :
    LowerBound t k ↔ LeastFrom k (elements t) (ahead k t).head? := by
  obtain ⟨key, value⟩ := get_makeCursor k full
  constructor
  · rintro ⟨o, key', value', least⟩
    rw [key] at key'
    rw [value] at value'
    have same : (ahead k t).head? = o := by
      cases o with
      | none => exact Option.map_eq_none_iff.mp key'
      | some e =>
        obtain ⟨e1, head, first⟩ := Option.map_eq_some_iff.mp key'
        rw [head] at value' ⊢
        exact congrArg Option.some (Prod.ext first (Option.some.inj value'))
    rw [same]
    exact least
  · exact fun least => ⟨_, key, value, least⟩

/-- The least entry from its own key on is the only one with this key. -/
theorem leastFrom_once {k : Key} {l1 l2 : List (Key × V)} {e e' : Key × V}
    (least : LeastFrom k (l1 ++ e :: l2) (some e)) (same : e.1 = k) (member : e' ∈ l1) : e'.1 ≠ k := by
  obtain ⟨-, r1, r2, list, others⟩ := least
  intro again
  let p : Key × V → Bool := fun e => decide (e.1 = k)
  have here : p e = true := decide_eq_true same
  have twice : 1 < (l1 ++ e :: l2).countP p := by
    have before : 0 < l1.countP p := List.countP_pos_iff.mpr ⟨e', member, decide_eq_true again⟩
    rw [List.countP_append, List.countP_cons_of_pos here]
    omega
  have once : (r1 ++ e :: r2).countP p = 1 := by
    have none : (r1 ++ r2).countP p = 0 := by
      rw [List.countP_eq_zero]
      intro e0 mem equal
      have equal := of_decide_eq_true equal
      have more := others e0 mem ((ltKey_false _ _).mpr equal.ge)
      rw [ltKey_iff, same, equal] at more
      exact absurd more (lt_irrefl k)
    rw [List.countP_append] at none
    rw [List.countP_append, List.countP_cons_of_pos here]
    omega
  rw [list, once] at twice
  exact absurd twice (lt_irrefl 1)

theorem lowerBound_iff (b : Nat) (t : TreeList V) (balanced : Balanced t) (sorted : Sorted t)
    (fanout : Fanout b t) : ((∀ k, LowerBound t k) ↔ NodeBounds t) ∧
      ∀ k1 k2 : Key, ltKey k1 k2 = true ↔ (k1 : Int) < k2 := by
  refine ⟨?_, ltKey_int⟩
  obtain ⟨m, balanced⟩ := balanced
  obtain ⟨ki, kf, sorted⟩ := sorted
  have full : Full b m t := ⟨balanced, fanout⟩
  constructor
  · intro all
    apply nodeBounds_of_passed balanced sorted
    intro e mem e' mem'
    have least := (lowerBound_ahead full e.1).mp (all e.1)
    have whole := passed_ahead e.1 t
    cases split : ahead e.1 t with
    | nil =>
      rw [split] at least
      have less := least e mem
      rw [ltKey_iff] at less
      exact absurd less (lt_irrefl e.1)
    | cons e0 r =>
      rw [split, ← whole, split] at least
      rw [← whole, split] at mem
      have same : e0.1 = e.1 := by
        obtain ⟨from_e, r1, r2, list, others⟩ := least
        rw [list, List.mem_append, List.mem_cons] at mem
        have above : ∀ e1 ∈ r1 ++ r2, e1 ≠ e := by
          rintro e1 mem1 rfl
          have more := others e1 mem1 ((ltKey_false _ _).mpr le_rfl)
          rw [from_e] at more
          cases more
        rcases mem with mem | rfl | mem
        · exact absurd rfl (above e (List.mem_append_left _ mem))
        · rfl
        · exact absurd rfl (above e (List.mem_append_right _ mem))
      exact leastFrom_once least same mem'
  · intro bounds k
    rw [lowerBound_ahead full k]
    have whole := passed_ahead k t
    have less := passed_lt bounds k
    cases split : ahead k t with
    | nil =>
      rw [split, List.append_nil] at whole
      rw [← whole]
      exact fun e mem => (ltKey_iff _ _).mpr (less e mem)
    | cons e r =>
      have increasing := elements_increasing balanced sorted bounds
      rw [← whole, split, List.pairwise_append, List.pairwise_cons] at increasing
      rw [split] at whole
      refine ⟨?_, passed k t, r, whole.symm, fun e' mem from_k => ?_⟩
      · exact (ltKey_false _ _).mpr (ahead_le balanced sorted k e (by rw [split]; exact List.mem_cons_self))
      · rw [ltKey_false] at from_k
        rw [ltKey_iff]
        rcases List.mem_append.mp mem with mem | mem
        · exact absurd (less e' mem) from_k.not_gt
        · exact increasing.2.1.1 e' mem

theorem lowerBound_twoLeaves : (∀ k, LowerBound twoLeaves k) ∧
    ∀ k1 k2 : Key, ltKey k1 k2 = true ↔ (k1 : Int) < k2 := by
  obtain ⟨-, balanced, sorted, fanout⟩ := secondLeaf_correct 0
  obtain ⟨search, order⟩ := lowerBound_iff 2 twoLeaves
    (by cases balanced with | next _ _ _ _ _ rest => cases rest with | next _ _ _ _ level _ => exact level)
    (by cases sorted with | next _ _ _ _ _ rest => cases rest with | next _ _ _ _ range _ => exact range)
    (by cases fanout with | next _ _ _ _ _ rest => cases rest with | next _ _ _ _ size _ => exact size)
  exact ⟨search.mpr ⟨by decide, trivial, trivial, trivial⟩, order⟩

/-- The first leaf holds a key above its own key, and the search for one below it goes to the last. -/
def looseBound : TreeList Nat :=
  .cons (.node 5 (.cons (.val 1 10) (.cons (.val 10 20) .nil)))
    (.cons (.final (.cons (.val 7 30) (.cons (.val 8 40) .nil))) .nil)

theorem lowerBound_loose : ¬ ∀ (b : Nat) (t : TreeList Nat), Balanced t → Sorted t → Fanout b t →
    ∀ k, LowerBound t k := by
  intro all
  have leaf : ∀ k k' : Key, ∀ v v' : Nat,
      FanoutRestr 2 2 (.cons (.val k v) (.cons (.val k' v') .nil)) := by
    intro k k' v v'
    exact .val 1 _ _ _ (by decide) (.val 0 _ _ _ (by decide) .nil)
  have level : ∀ k k' : Key, ∀ v v' : Nat,
      BalancedTreelist 1 (.cons (.val k v) (.cons (.val k' v') .nil)) := by
    intro k k' v v'
    exact .val _ _ _ (.val _ _ _ .nil)
  have balanced : Balanced looseBound := ⟨2, .node 1 _ _ _ (level _ _ _ _) (.final 1 _ (level _ _ _ _))⟩
  have fanout : Fanout 2 looseBound :=
    ⟨2, .node 1 2 _ _ _ (by decide) (leaf _ _ _ _) (by decide) (.final 2 _ (by decide) (leaf _ _ _ _))⟩
  have sorted : Sorted looseBound := by
    refine ⟨0, 8, .node 0 5 8 5 _ _ ?_ ?_ (by decide) (by decide)⟩
    · refine .final 5 8 8 _ _ (.nil 8 8) ?_ (by decide)
      exact .val 5 7 8 7 30 _ (.val 7 8 8 8 40 _ (.nil 8 8) (by decide) (by decide)) (by decide) (by decide)
    · exact .val 0 1 5 1 10 _ (.val 1 10 5 10 20 _ (.nil 10 5) (by decide) (by decide)) (by decide) (by decide)
  obtain ⟨o, key, -, least⟩ := all 2 looseBound balanced sorted fanout 9
  have nothing : getKey (makeCursor 9 looseBound) = none := by decide
  rw [nothing] at key
  rw [Option.map_eq_none_iff.mp key.symm] at least
  exact absurd (least (10, 20) (by decide)) (by decide)

end DeepDB.Model
