import DeepDB.Functional.Btrees
import DeepDB.Lib.Multiway
import Mathlib.Order.Lattice
import Mathlib.Data.Nat.Basic

/-!
Well-formed nodes of the functional model, and the descent to a key: from any complete cursor
`goToKey` ends where a descent from the root ends.
-/

namespace DeepDB.Functional
open SortedAssoc Multiway

variable {V X : Type}

/-! ### Well-formed nodes -/

def ofRecord (e : Key × V × X) : Entry V X := .keyval e.1 e.2.1 e.2.2

def ofChild (e : Key × Node V X) : Entry V X := .keychild e.1 e.2

def leafNode (recs : List (Key × V × X)) (First Last : Bool) (x : X) : Node V X :=
  .btnode none (recs.map ofRecord) true First Last x

def internNode (t : Node V X) (ts : List (Key × Node V X)) (First Last : Bool) (x : X) :
    Node V X :=
  .btnode (some t) (ts.map ofChild) false First Last x

/-- Balanced at depth `d`, sorted within `r`, at most `Fanout` entries in a node, no empty leaf
below the root, and `First` and `Last` on the outermost nodes. -/
def WellFormed : (d : Nat) → (root : Bool) → Range Key → Node V X → Prop
  | 0, root, r, n => ∃ recs First Last x, n = leafNode recs First Last x ∧
      (First = r.lo.isNone ∧ Last = r.hi.isNone) ∧ Sorted recs ∧ Within r recs ∧
      recs.length ≤ Fanout ∧ (root = false → recs ≠ [])
  | d + 1, _, r, n => ∃ t ts First Last x, n = internNode t ts First Last x ∧
      (First = r.lo.isNone ∧ Last = r.hi.isNone) ∧ Siblings (WellFormed d false) r t ts ∧
      ts.length ≤ Fanout ∧ 0 < ts.length

/-- The nodes of `c` lead from the root to the node `n`. -/
def partialCursorCorrect : Cursor V X → Node V X → Node V X → Prop
  | [], n, root => n = root
  | (n', i) :: c, n, root => partialCursorCorrect c n' root ∧ nthNode i n' = some n

/-- The cursor is at an entry of a leaf or at its end. -/
def completeCursor (c : Cursor V X) (root : Node V X) : Prop :=
  match c with
  | [] => False
  | (n, i) :: c' => partialCursorCorrect c' n root ∧ n.isLeaf = true ∧ 0 ≤ i ∧ i ≤ n.le.length

/-! ### Abstract lists -/

theorem absLe_ofRecord (recs : List (Key × V × X)) :
    absLe (recs.map ofRecord) = recs.map fun e => (e.1, e.2.1) := by
  induction recs with
  | nil => rfl
  | cons e recs ih => simp [absLe, absEntry, ofRecord, ← ih]

theorem absLe_ofChild (ts : List (Key × Node V X)) :
    absLe (ts.map ofChild) = ts.flatMap fun e => absNode e.2 := by
  induction ts with
  | nil => rfl
  | cons e ts ih => simp [absLe, absEntry, ofChild, ← ih]

@[simp] theorem absNode_leafNode (recs : List (Key × V × X)) (F L : Bool) (x : X) :
    absNode (leafNode recs F L x) = recs.map fun e => (e.1, e.2.1) := by
  rw [leafNode, absNode, absPtr0, absLe_ofRecord, List.nil_append]

@[simp] theorem absNode_internNode (t : Node V X) (ts : List (Key × Node V X)) (F L : Bool)
    (x : X) : absNode (internNode t ts F L x) = gather absNode t ts := by
  rw [internNode, absNode, absPtr0, absLe_ofChild, gather]

variable {d : Nat} {root : Bool} {r : Range Key} {key : Key}

theorem wellFormed_within {n : Node V X} (h : WellFormed d root r n) :
    Within r (absNode n) := by
  induction d generalizing root r n with
  | zero =>
    obtain ⟨recs, F, L, x, rfl, -, -, hw, -⟩ := h
    intro y hy
    rw [absNode_leafNode] at hy
    obtain ⟨e, he, rfl⟩ := List.mem_map.mp hy
    exact hw e he
  | succ d ih =>
    obtain ⟨t, ts, F, L, x, rfl, -, hs, -⟩ := h
    rw [absNode_internNode]
    exact siblings_within (P := WellFormed d false) (fun _ _ hx => ih hx) hs

theorem wellFormed_sorted {n : Node V X} (h : WellFormed d root r n) : Sorted (absNode n) := by
  induction d generalizing root r n with
  | zero =>
    obtain ⟨recs, F, L, x, rfl, -, hs, -⟩ := h
    rw [absNode_leafNode, Sorted, List.map_map]
    exact hs
  | succ d ih =>
    obtain ⟨t, ts, F, L, x, rfl, -, hs, -⟩ := h
    rw [absNode_internNode]
    exact siblings_sorted (P := WellFormed d false) (fun _ _ => wellFormed_within)
      (fun _ _ hx => ih hx) hs

theorem wellFormed_nonempty {n : Node V X} (h : WellFormed d false r n) : absNode n ≠ [] := by
  induction d generalizing r n with
  | zero =>
    obtain ⟨recs, F, L, x, rfl, -, -, -, -, hne⟩ := h
    rw [absNode_leafNode]
    simpa using hne rfl
  | succ d ih =>
    obtain ⟨t, ts, F, L, x, rfl, -, hs, -⟩ := h
    obtain ⟨q, hq⟩ := siblings_mem hs t List.mem_cons_self
    rw [absNode_internNode, gather]
    exact fun none => ih hq (List.append_eq_nil_iff.mp none).1

theorem leDepth_ofChild {ts : List (Key × Node V X)} (h : ∀ e ∈ ts, nodeDepth e.2 = d)
    (hne : 0 < ts.length) : leDepth (ts.map ofChild) = d + 1 := by
  induction ts with
  | nil => simp at hne
  | cons e ts ih =>
    have he := h e List.mem_cons_self
    cases ts with
    | nil => simp [leDepth, entryDepth, ofChild, he]
    | cons e' ts =>
      have htail := ih (fun e he => h e (List.mem_cons_of_mem _ he)) (by simp)
      rw [List.map_cons, leDepth, htail]
      simp [entryDepth, ofChild, he]

theorem leDepth_ofRecord (recs : List (Key × V × X)) : leDepth (recs.map ofRecord) = 0 := by
  induction recs with
  | nil => rfl
  | cons e recs ih => simp [leDepth, entryDepth, ofRecord, ih]

theorem wellFormed_depth {n : Node V X} (h : WellFormed d root r n) : nodeDepth n = d := by
  induction d generalizing root r n with
  | zero =>
    obtain ⟨recs, F, L, x, rfl, -⟩ := h
    rw [leafNode, nodeDepth, ptr0Depth, leDepth_ofRecord, max_self]
  | succ d ih =>
    obtain ⟨t, ts, F, L, x, rfl, -, hs, -, hpos⟩ := h
    have all : ∀ y ∈ t :: ts.map Prod.snd, nodeDepth y = d := by
      intro y hy
      obtain ⟨q, hq⟩ := siblings_mem hs y hy
      exact ih hq
    have children := leDepth_ofChild
      (fun e he => all e.2 (List.mem_cons_of_mem _ (List.mem_map_of_mem he))) hpos
    rw [internNode, nodeDepth, ptr0Depth, children, all t List.mem_cons_self, max_self]

/-! ### Indices -/

section
variable {pre : List (Node V X × Key)} {f : Node V X} {post : List (Key × Node V X)}
  {F L : Bool} {x : X}

theorem findChildIndexFrom_eq {le : List (Entry V X)} {A B : List Key} (i : Int)
    (keys : le.map entryKey = A ++ B) (below : ∀ a ∈ A, a ≤ key) (above : ∀ b ∈ B, key < b) :
    findChildIndexFrom key le i = i + A.length := by
  induction le generalizing A i with
  | nil =>
    obtain ⟨rfl, -⟩ := List.append_eq_nil_iff.mp keys.symm
    simp [findChildIndexFrom]
  | cons e le ih =>
    cases A with
    | nil =>
      have he : key < entryKey e := above _ (by
        rw [List.nil_append] at keys
        rw [← keys]
        exact List.mem_cons_self)
      simp [findChildIndexFrom, he]
    | cons a A =>
      simp only [List.map_cons, List.cons_append, List.cons.injEq] at keys
      have he : ¬ key < entryKey e := by
        rw [keys.1]
        exact Nat.not_lt.mpr (below a List.mem_cons_self)
      rw [findChildIndexFrom, if_neg he,
        ih _ keys.2 fun x hx => below x (List.mem_cons_of_mem _ hx)]
      simp only [List.length_cons]
      omega

theorem keys_ofChild (ts : List (Key × Node V X)) :
    (ts.map ofChild).map entryKey = ts.map Prod.fst := by
  simp [Function.comp_def, ofChild, entryKey]

theorem findChildIndex_join (below : ∀ x ∈ pre, x.2 ≤ key) (above : ∀ x ∈ post, key < x.1) :
    findChildIndex (internNode (join pre f post).1 (join pre f post).2 F L x) key =
      (pre.length : Int) - 1 := by
  have keys : (internNode (join pre f post).1 (join pre f post).2 F L x).le.map entryKey =
      pre.map Prod.snd ++ post.map Prod.fst := by
    rw [← join_seps pre f post]
    exact keys_ofChild _
  rw [findChildIndex, findChildIndexFrom_eq (-1) keys (List.forall_mem_map.mpr below)
    (List.forall_mem_map.mpr above), List.length_map]
  omega

theorem nthNode_join :
    nthNode ((pre.length : Int) - 1)
      (internNode (join pre f post).1 (join pre f post).2 F L x) = some f := by
  cases pre with
  | nil => simp [nthNode, internNode]
  | cons e pre =>
    obtain ⟨k, hk⟩ := join_getElem? e pre f post
    have index : ((e :: pre).length : Int) - 1 = (pre.length : Int) := by simp
    have hne : ¬ (pre.length : Int) = -1 := by omega
    have entry : nthOption (pre.length : Int) ((join (e :: pre) f post).2.map ofChild) =
        some (ofChild (k, f)) := by
      rw [nthOption, if_pos (Int.natCast_nonneg _), Int.toNat_natCast, List.getElem?_map, hk]
      rfl
    rw [index, internNode, nthNode, if_neg hne, nthNodeLe, entry]
    rfl

/-- A child that a cursor index leads to is a focus. -/
theorem exists_join {t : Node V X} {ts : List (Key × Node V X)} {i : Int}
    (h : nthNode i (internNode t ts F L x) = some f) :
    ∃ pre post, (t, ts) = join pre f post ∧ i = (pre.length : Int) - 1 := by
  by_cases hi : i = -1
  · rw [internNode, nthNode, if_pos hi] at h
    obtain rfl := Option.some.inj h
    exact ⟨[], ts, rfl, by simpa using hi⟩
  · rw [internNode, nthNode, if_neg hi, nthNodeLe, nthOption] at h
    by_cases hpos : 0 ≤ i
    · rw [if_pos hpos, List.getElem?_map] at h
      cases hx : ts[i.toNat]? with
      | none => simp [hx] at h
      | some e =>
        obtain rfl : e.2 = f := by simpa [hx, ofChild] using h
        obtain ⟨pre, post, hj, hlen⟩ := join_of_getElem? (t := t) hx
        exact ⟨pre, post, hj, by omega⟩
    · simp [hpos] at h

end

/-! ### The descent to a key -/

theorem moveToKey_leaf {n : Node V X} (h : n.isLeaf = true) (c : Cursor V X) :
    moveToKey n key c = (n, findRecordIndex n key) :: c := by
  rw [moveToKey, moveToKeyIn, if_pos h]

/-- One level of the descent. -/
theorem moveToKey_join {pre : List (Node V X × Key)} {f : Node V X}
    {post : List (Key × Node V X)} {F L : Bool} {x : X}
    (h : WellFormed (d + 1) root r (internNode (join pre f post).1 (join pre f post).2 F L x))
    (hf : WellFormed d false (focusRange r pre post) f)
    (below : ∀ x ∈ pre, x.2 ≤ key) (above : ∀ x ∈ post, key < x.1) (c : Cursor V X) :
    moveToKey (internNode (join pre f post).1 (join pre f post).2 F L x) key c =
      moveToKey f key ((internNode (join pre f post).1 (join pre f post).2 F L x,
        (pre.length : Int) - 1) :: c) := by
  rw [moveToKey, wellFormed_depth h, moveToKeyIn, if_neg (by simp [internNode, Node.isLeaf]),
    findChildIndex_join below above, nthNode_join, moveToKey, wellFormed_depth hf]

theorem wellFormed_isLeaf {n : Node V X} (h : WellFormed d root r n) :
    n.isLeaf = true ↔ d = 0 := by
  cases d with
  | zero =>
    obtain ⟨recs, F, L, x, rfl, -⟩ := h
    simp [leafNode, Node.isLeaf]
  | succ d =>
    obtain ⟨t, ts, F, L, x, rfl, -⟩ := h
    simp [internNode, Node.isLeaf]

/-- From a node on the way to its own keys the descent is the descent from the root. -/
theorem moveToKey_partial {n₀ n : Node V X} (h : WellFormed d true Range.full n₀)
    {c : Cursor V X} (hc : partialCursorCorrect c n n₀) :
    ∃ d' root r, WellFormed d' root r n ∧ (c ≠ [] → root = false) ∧
      ∀ key, r.Mem key → moveToKey n key c = moveToKey n₀ key [] := by
  induction c generalizing n with
  | nil =>
    obtain rfl := hc
    exact ⟨d, true, Range.full, h, fun ne => absurd rfl ne, fun _ _ => rfl⟩
  | cons e c ih =>
    obtain ⟨n', i⟩ := e
    obtain ⟨hc, hn⟩ := hc
    obtain ⟨d', root, r, hn', -, same⟩ := ih hc
    cases d' with
    | zero =>
      obtain ⟨recs, F, L, x, rfl, -⟩ := hn'
      simp [leafNode, nthNode] at hn
    | succ d' =>
      have whole := hn'
      obtain ⟨t, ts, F, L, x, rfl, -, hs, -⟩ := hn'
      obtain ⟨pre, post, hj, rfl⟩ := exists_join hn
      obtain ⟨rfl, rfl⟩ := Prod.mk.inj hj
      have hf := siblings_focus hs
      refine ⟨d', false, focusRange r pre post, hf, fun _ => rfl, fun key hk => ?_⟩
      obtain ⟨hr, below, above⟩ := focusRange_seps hs hk
      rw [← same key hr, moveToKey_join whole hf below above]

/-! ### Ascending -/

theorem isNodeParent_mem {n : Node V X} (h : WellFormed d false r n)
    (parent : isNodeParent n key = true) : r.Mem key := by
  cases d with
  | zero =>
    obtain ⟨recs, F, L, x, rfl, ⟨rfl, rfl⟩, -, hw, -, hne⟩ := h
    have hlen : 0 < recs.length := List.length_pos_iff.mpr (hne rfl)
    have some_keys : ¬ (recs.map (ofRecord (V := V) (X := X))).length = 0 := by
      rw [List.length_map]
      omega
    have first : (recs.map (ofRecord (V := V) (X := X)))[0]? = some (ofRecord recs[0]) := by
      rw [List.getElem?_map, List.getElem?_eq_getElem hlen]
      rfl
    have last : (recs.map (ofRecord (V := V) (X := X)))[recs.length - 1]? =
        some (ofRecord recs[recs.length - 1]) := by
      rw [List.getElem?_map, List.getElem?_eq_getElem (by omega)]
      rfl
    rw [leafNode, isNodeParent] at parent
    rw [if_pos rfl, if_neg some_keys, List.length_map, first, last] at parent
    simp only [ofRecord, entryKey, Bool.and_eq_true, Bool.or_eq_true] at parent
    obtain ⟨low, high⟩ := parent
    constructor
    · intro l hl
      rcases low with low | low
      · exact ((hw _ (List.getElem_mem hlen)).1 l hl).trans (of_decide_eq_true low)
      · rw [Option.isNone_iff_eq_none.mp low] at hl
        cases hl
    · intro u hu
      rcases high with high | high
      · exact lt_of_le_of_lt (of_decide_eq_true high) ((hw _ (List.getElem_mem (by omega))).2 u hu)
      · rw [Option.isNone_iff_eq_none.mp high] at hu
        cases hu
  | succ d =>
    obtain ⟨t, ts, F, L, x, rfl, -, hs, -⟩ := h
    obtain ⟨pre, f, post, hj, below, above⟩ := exists_focus key t ts hs
    obtain ⟨rfl, rfl⟩ := Prod.mk.inj hj
    have hi := findChildIndex_join (F := F) (L := L) (x := x) (f := f) below above
    have hlen := length_join pre f post
    rw [internNode, isNodeParent, if_neg (by simp), ← internNode, hi, List.length_map,
      hlen] at parent
    obtain ⟨inside, -⟩ := siblings_seps hs
    have seps : ∀ k ∈ pre.map Prod.snd ++ post.map Prod.fst, r.Inside k := by
      rw [← join_seps pre f post]
      exact List.forall_mem_map.mpr inside
    obtain ⟨e, he⟩ := List.exists_mem_of_ne_nil pre (by rintro rfl; simp at parent)
    obtain ⟨e', he'⟩ := List.exists_mem_of_ne_nil post (by rintro rfl; simp at parent)
    have low := seps _ (List.mem_append_left _ (List.mem_map_of_mem he))
    have high := seps _ (List.mem_append_right _ (List.mem_map_of_mem he'))
    exact ⟨fun l hl => ((low.1 l hl).trans_le (below e he)).le,
      fun u hu => (above e' he').trans (high.2 u hu)⟩

/-- From the nodes on a path to the root `goToKey` is the descent from the root. -/
theorem goToKey_partial {n₀ n : Node V X} (h : WellFormed d true Range.full n₀) {c : Cursor V X}
    (hc : partialCursorCorrect c n n₀) (i : Int) (prel : X) (key : Key) :
    goToKey ((n, i) :: c) (n₀, prel) key = moveToKey n₀ key [] := by
  induction c generalizing n i with
  | nil =>
    obtain rfl := hc
    rfl
  | cons e c ih =>
    obtain ⟨n', i'⟩ := e
    obtain ⟨d', root, r, hn, below, same⟩ := moveToKey_partial h hc
    obtain rfl := below (List.cons_ne_nil _ _)
    by_cases parent : isNodeParent n key = true
    · rw [← same key (isNodeParent_mem hn parent)]
      simp [goToKey, ascendToParent, parent]
    · have step : goToKey ((n, i) :: (n', i') :: c) (n₀, prel) key =
          goToKey ((n', i') :: c) (n₀, prel) key := by
        simp [goToKey, ascendToParent, parent]
      rw [step]
      exact ih hc.1 i'

/-- From any complete cursor `goToKey` is the descent from the root. -/
theorem goToKey_eq {n₀ : Node V X} (h : WellFormed d true Range.full n₀) {c : Cursor V X}
    (hc : completeCursor c n₀) (prel : X) (key : Key) :
    goToKey c (n₀, prel) key = moveToKey n₀ key [] := by
  cases c with
  | nil => exact absurd hc id
  | cons e c => exact goToKey_partial h hc.1 e.2 prel key

end DeepDB.Functional
