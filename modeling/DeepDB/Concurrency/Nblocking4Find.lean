import DeepDB.Concurrency.Nblocking4Rules

/-!
Helping, finding and adding among threads that add and find. Whoever helps an operation leaves its
node in place and the operation out of its node. A search ends at its key, or at an empty pointer
whose node has kept its operation since, or breaks off at a node that another thread is busy with.
-/

namespace DeepDB.Concurrency.Nblocking4
open RelyGuarantee SearchTree

variable {V : Type} {m m' : Mem V} {t : Tree Nat Int V} {n a w id room : Nat} {p : Node V}
  {is_left : Bool} {expected : Ref} {key : Int} {value : V} {Meets : Act V → Mem V → Prop}
  {α : Type}

/-- An action that only reads. -/
theorem ensures_read {a : Act V} {f : a.Result → Code V α} {Q : α → Mem V → Prop}
    (h : ∀ m' t, Good m' t → Keeps m m' → Meets a m' →
      ∃ r, exec a m' = some (r, m') ∧ Ensures exec (rules V) Meets (f r) Q m') :
    Ensures exec (rules V) Meets (Prog.perform a >>= f) Q m := by
  refine ensures_perform fun m' inv keeps meets => ?_
  obtain ⟨t, good⟩ := inv
  obtain ⟨r, run, rest⟩ := h m' t good keeps meets
  exact ⟨r, m', run, ⟨t, good⟩, keeps_refl m', rest⟩

/-! ### Helping -/

/-- The operation is in the node, or its node is in place. -/
def Started (m : Mem V) (n id : Nat) (is_left : Bool) (expected : Ref) (w : Nat) : Prop :=
  ∃ p, m.tree[n]? = some p ∧ m.ops[id]? = some (.childCas is_left expected (.node w)) ∧
    expected.pointer = none ∧ (p.op = id ∨ m.ptr[p.child is_left]? = some (.node w))

def Swung (m : Mem V) (n : Nat) (is_left : Bool) (w : Nat) : Prop :=
  ∃ p, m.tree[n]? = some p ∧ m.ptr[p.child is_left]? = some (.node w)

/-- The operation was in the node, and is not any more. -/
def Cleared (m : Mem V) (n id : Nat) : Prop :=
  ∃ p, m.tree[n]? = some p ∧ id < m.ops.length ∧ p.op ≠ id

theorem Started.later (h : Started m n id is_left expected w) (keeps : Keeps m m') :
    Started m' n id is_left expected w := by
  obtain ⟨p, here, op, null, state⟩ := h
  obtain ⟨op', here', kept⟩ := keeps.nodes n p here
  refine ⟨_, here', ops_later keeps.ops op, null, ?_⟩
  rcases state with rfl | swung
  · exact kept.done is_left expected w op
  · exact .inr (keeps.links _ _ swung)

theorem Swung.later (h : Swung m n is_left w) (keeps : Keeps m m') : Swung m' n is_left w := by
  obtain ⟨p, here, swung⟩ := h
  obtain ⟨op', here', -⟩ := keeps.nodes n p here
  exact ⟨_, here', keeps.links _ _ swung⟩

theorem Cleared.later (h : Cleared m n id) (keeps : Keeps m m') : Cleared m' n id := by
  obtain ⟨p, here, bound, other⟩ := h
  obtain ⟨op', here', kept⟩ := keeps.nodes n p here
  refine ⟨_, here', Nat.lt_of_lt_of_le bound keeps.ops.length_le, ?_⟩
  rcases kept.fresh with rfl | new
  · exact other
  · exact Nat.ne_of_gt (Nat.lt_of_lt_of_le bound new)

theorem helpChildCAS_ensures (started : Started m n id is_left expected w) :
    Ensures exec (rules V) Meets (helpChildCAS (id, .childCas is_left expected (.node w)) n)
      (fun _ m' => Swung m' n is_left w ∧ Cleared m' n id) m := by
  unfold helpChildCAS
  refine ensures_perform fun m1 inv keeps _ => ?_
  obtain ⟨t, good⟩ := inv
  have started := started.later keeps
  obtain ⟨p, here, op, null, state⟩ := started
  obtain ⟨r, child⟩ := good.toShape.child here is_left
  -- after the first compare-and-swap, whoever made it
  suffices ∃ m2, exec (.casChild n is_left expected (.node w)) m1 = some (decide (r = expected), m2) ∧
      (∃ t, Good m2 t) ∧ Keeps m1 m2 ∧ Swung m2 n is_left w by
    obtain ⟨m2, run, inv2, keeps2, swung⟩ := this
    refine ⟨_, m2, run, inv2, keeps2, ensures_perform fun m3 inv3 keeps3 _ => ?_⟩
    obtain ⟨t3, good3⟩ := inv3
    obtain ⟨p3, here3, child3⟩ := swung.later keeps3
    have op3 := ops_later keeps3.ops (ops_later keeps2.ops op)
    have done : ∀ m4, Keeps m3 m4 → Cleared m4 n id → Ensures exec (rules V) Meets
        (Pure.pure () : Code V Unit) (fun _ m' => Swung m' n is_left w ∧ Cleared m' n id) m4 :=
      fun m4 keeps4 cleared => ensures_pure fun m5 _ keeps5 =>
        ⟨(swung.later keeps3).later (keeps_trans keeps4 keeps5), cleared.later keeps5⟩
    by_cases installed : p3.op = id
    · subst installed
      obtain ⟨good4, keeps4⟩ := clear_ok good3 here3 op3 child3
      have run := exec_casOp p3.op .none here3
      rw [if_pos rfl] at run
      refine ⟨_, _, run, ⟨t3, good4⟩, keeps4, done _ keeps4 ⟨{ p3 with op := m3.ops.length }, ?_, ?_, ?_⟩⟩
      · rw [tree_putOp, here3, Option.map_some, if_pos rfl]
      · exact Nat.lt_of_lt_of_le (op_lt op3) keeps4.ops.length_le
      · exact Nat.ne_of_gt (op_lt op3)
    · have run := exec_casOp id .none here3
      rw [if_neg installed] at run
      exact ⟨_, m3, run, ⟨t3, good3⟩, keeps_refl m3,
        done m3 (keeps_refl m3) ⟨p3, here3, op_lt op3, installed⟩⟩
  have run := exec_casChild expected (.node w) here child
  by_cases still : r = expected
  · subst still
    rw [if_pos rfl] at run
    have installed : p.op = id := by
      refine state.resolve_right fun swung => ?_
      rw [child] at swung
      cases swung
      cases null
    subst installed
    obtain ⟨good2, keeps2⟩ := swing_ok good here op child
    refine ⟨_, by rw [run, decide_eq_true rfl], good2, keeps2, p, here, ?_⟩
    exact List.getElem?_set_self (List.getElem?_eq_some_iff.mp child).1
  · rw [if_neg still] at run
    refine ⟨m1, by rw [run, decide_eq_false still], ⟨t, good⟩, keeps_refl m1, p, here, ?_⟩
    rcases state with rfl | swung
    · rcases good.ops n p here with none | ⟨b, e, w', op', -, state⟩
      · rw [op] at none
        cases none
      · rw [op] at op'
        cases op'
        refine state.resolve_right fun waits => still ?_
        have there := waits.1
        rw [child] at there
        exact Option.some.inj there
    · exact swung

/-! ### Finding -/

/-- The node has an operation that is not finished. -/
def Busy (m : Mem V) (n : Nat) : Prop :=
  ∃ p o, m.tree[n]? = some p ∧ m.ops[p.op]? = some o ∧ GET_FLAG o ≠ .NONE

/-- The search may come to a node other than the sentinel that is busy. -/
def Disturbed (Meets : Act V → Mem V → Prop) : Prop :=
  ∃ n m, n ≠ 0 ∧ Busy m n ∧ Meets (.loadOp n) m

def Found.side (out : Found V) : Bool := out.result = .NOTFOUND_L

/-- While the node still has the operation that was loaded, the child on the side of the result is
empty, and the search for the key comes there. -/
def Missed (m : Mem V) (key : Int) (out : Found V) : Prop :=
  ∃ n p, m.ptr[out.curr]? = some (.node n) ∧ m.tree[n]? = some p ∧ out.curr_op < m.ops.length ∧
    (p.op = out.curr_op → m.ops[out.curr_op]? = some .none ∧ Way m key (p.child out.side) ∧
      ∃ r, m.ptr[p.child out.side]? = some r ∧ r.pointer = none)

theorem Missed.later {out : Found V} (h : Missed m key out) (keeps : Keeps m m') :
    Missed m' key out := by
  obtain ⟨n, p, full, here, bound, still⟩ := h
  obtain ⟨op, here', -⟩ := keeps.nodes n p here
  refine ⟨n, _, keeps.links _ _ full, here', Nat.lt_of_lt_of_le bound keeps.ops.length_le, fun same => ?_⟩
  obtain ⟨old, quiet⟩ := keeps.op here here' bound same
  obtain ⟨none, way, r, child, empty⟩ := still old
  exact ⟨ops_later keeps.ops none, way.later keeps, r, (quiet none out.side).trans child, empty⟩

/-- The children of the node are the same as long as it has the operation that was loaded. -/
theorem Missed.child {out : Found V} {p' : Node V} (missed : Missed m key out) (keeps : Keeps m m')
    (full : m.ptr[out.curr]? = some (.node n)) (here : m.tree[n]? = some p)
    (here' : m'.tree[n]? = some p') (same : p'.op = out.curr_op) (is_left : Bool) :
    m'.ptr[p'.child is_left]? = m.ptr[p.child is_left]? := by
  obtain ⟨n₁, p₁, full₁, here₁, bound, still⟩ := missed
  rw [full] at full₁
  cases full₁
  rw [here] at here₁
  cases here₁
  obtain ⟨old, quiet⟩ := keeps.op here here' bound same
  exact quiet (still old).1 is_left

/-- What `find` leaves, where `held` says that the key was in the tree before. -/
structure FindPost (Meets : Act V → Mem V → Prop) (held : Prop) (key : Int) (out : Found V)
    (m : Mem V) : Prop where
  node : ∃ n, m.ptr[out.curr]? = some (.node n)
  found : out.result = .FOUND → Held m key
  missed : out.result ≠ .FOUND → Missed m key out ∧ (held → Disturbed Meets)

theorem FindPost.later {held : Prop} {out : Found V} (h : FindPost Meets held key out m)
    (keeps : Keeps m m') : FindPost Meets held key out m' where
  node := by
    obtain ⟨n, full⟩ := h.node
    exact ⟨n, keeps.links _ _ full⟩
  found := fun result => (h.found result).later keeps
  missed := fun result => ⟨(h.missed result).1.later keeps, (h.missed result).2⟩

/-- The inner loop stands at `next`, from which it has loaded `tp_next`. -/
def At (Meets : Act V → Mem V → Prop) (held : Prop) (key : Int) (out : Found V) (next : Nat)
    (tp_next : Ref) (m : Mem V) : Prop :=
  match tp_next with
  | .node n => (∃ n, m.ptr[out.curr]? = some (.node n)) ∧ Way m key next ∧
      m.ptr[next]? = some (.node n) ∧ out.result ≠ .FOUND
  | _ => FindPost Meets held key out m

theorem at_child {held : Prop} {r : Ref} (out : Found V) (good : Good m t) (was : held → Held m key)
    (full : m.ptr[out.curr]? = some (.node n)) (here : m.tree[n]? = some p)
    (none : m.ops[out.curr_op]? = some .none) (way : Way m key (p.child out.side))
    (result : out.result ≠ .FOUND) (child : m.ptr[p.child out.side]? = some r) :
    At Meets held key out (p.child out.side) r m := by
  have empty : r.pointer = .none → FindPost Meets held key out m := fun null =>
    ⟨⟨n, full⟩, fun found => absurd found result, fun _ =>
      ⟨⟨n, p, full, here, op_lt none, fun _ => ⟨none, way, r, child, null⟩⟩,
        fun before => absurd null ((was before).full good.toShape way child)⟩⟩
  cases r with
  | NULL => exact empty rfl
  | tagged => exact empty rfl
  | node n' => exact ⟨⟨n, full⟩, way, child, result⟩

theorem descend_ensures {held : Prop} {out : Found V} {next : Nat} {tp_next : Ref}
    (was : held → Held m key) (at_ : At Meets held key out next tp_next m) :
    Ensures exec (rules V) Meets (descend key room out next tp_next)
      (FindPost Meets held key) m := by
  induction room generalizing out next tp_next m with
  | zero =>
    unfold descend
    trivial
  | succ room ih =>
    cases tp_next with
    | NULL => exact ensures_pure fun m' _ keeps => FindPost.later at_ keeps
    | tagged => exact ensures_pure fun m' _ keeps => FindPost.later at_ keeps
    | node n =>
      obtain ⟨⟨n₀, full₀⟩, way, full, result⟩ := at_
      rw [descend]
      refine ensures_read fun m1 t1 good1 keeps1 meets => ?_
      have way1 := way.later keeps1
      have full1 := keeps1.links _ _ full
      obtain ⟨p, here, inside⟩ := way1.pointer full1 good1.toShape
      rcases good1.ops n p here with none | ⟨b, e, w, op, null, -⟩
      · refine ⟨_, exec_loadOp here none, ?_⟩
        rw [if_neg (show ¬(GET_FLAG ((p.op, .none) : Nat × Operation V).2 ≠ .NONE) from not_not.mpr rfl)]
        refine ensures_read fun m2 t2 good2 keeps2 _ => ?_
        obtain ⟨p2, here2, key2⟩ := keeps2.node here
        refine ⟨_, exec_loadKey here2, ?_⟩
        have way2 := way1.later keeps2
        have full2 := keeps2.links _ _ full1
        have was2 : held → Held m2 key := fun h => ((was h).later keeps1).later keeps2
        by_cases less : key < p2.key
        · rw [if_pos less]
          refine ensures_read fun m3 t3 good3 keeps3 _ => ?_
          obtain ⟨p3, here3, key3⟩ := keeps3.node here2
          obtain ⟨r, child⟩ := good3.toShape.child here3 true
          have was3 : held → Held m3 key := fun h => (was2 h).later keeps3
          refine ⟨_, exec_loadChild here3 child, ih was3 ?_⟩
          exact at_child { out.go next p.op with result := .NOTFOUND_L } good3 was3
            (keeps3.links _ _ full2) here3 (ops_later keeps3.ops (ops_later keeps2.ops none))
            (.left (way2.later keeps3) (keeps3.links _ _ full2) here3 (key3 ▸ less))
            (fun same => by cases same) child
        · rw [if_neg less]
          by_cases more : p2.key < key
          · rw [if_pos more]
            refine ensures_read fun m3 t3 good3 keeps3 _ => ?_
            obtain ⟨p3, here3, key3⟩ := keeps3.node here2
            obtain ⟨r, child⟩ := good3.toShape.child here3 false
            have was3 : held → Held m3 key := fun h => (was2 h).later keeps3
            refine ⟨_, exec_loadChild here3 child, ih was3 ?_⟩
            exact at_child { out.go next p.op with result := .NOTFOUND_R } good3 was3
              (keeps3.links _ _ full2) here3 (ops_later keeps3.ops (ops_later keeps2.ops none))
              (.right (way2.later keeps3) (keeps3.links _ _ full2) here3 (key3 ▸ more))
              (fun same => by cases same) child
          · rw [if_neg more]
            refine ensures_read fun m3 t3 good3 keeps3 _ => ?_
            obtain ⟨p3, here3, key3⟩ := keeps3.node here2
            refine ⟨_, exec_loadValue here3, ensures_pure fun m4 _ keeps4 => ?_⟩
            have here4 : Held m3 key := ⟨next, n, _, way2.later keeps3, keeps3.links _ _ full2, here3,
              key3.trans (le_antisymm (not_lt.mp less) (not_lt.mp more))⟩
            exact ⟨⟨n, keeps4.links _ _ (keeps3.links _ _ full2)⟩, fun _ => here4.later keeps4,
              fun no => absurd rfl no⟩
      · refine ⟨_, exec_loadOp here op, ?_⟩
        have flag : GET_FLAG ((p.op, .childCas b e (.node w)) : Nat × Operation V).2 ≠ .NONE :=
          fun same => by cases same
        have other : n ≠ 0 := by
          rintro rfl
          exact good1.zero (List.mem_map.mpr ⟨_, inside, rfl⟩)
        have disturbed : Disturbed Meets := ⟨n, m1, other, ⟨p, _, here, op, flag⟩, meets⟩
        rw [if_pos flag]
        refine ensures_read fun m2 t2 good2 keeps2 _ => ?_
        have full2 := keeps2.links _ _ full1
        have started : Started m1 n p.op b e w := ⟨p, here, op, null, .inl rfl⟩
        refine ⟨n₀, exec_loadNode (keeps2.links _ _ (keeps1.links _ _ full₀)),
          ensures_call (helpChildCAS_ensures (started.later keeps2)) fun _ m3 _ keeps3 helped =>
            ensures_pure fun m4 _ keeps4 => ?_⟩
        obtain ⟨p4, here4, bound, cleared⟩ := helped.2.later keeps4
        have full4 := keeps4.links _ _ (keeps3.links _ _ full2)
        exact ⟨⟨n, full4⟩, fun found => absurd found result, fun _ =>
          ⟨⟨n, p4, full4, here4, bound, fun same => absurd same cleared⟩, fun _ => disturbed⟩⟩

theorem find_ensures {pred : Option (Nat × Nat)} {rounds : Nat} (held : Prop)
    (was : held → Held m key) : Ensures exec (rules V) Meets (find key pred base_root room rounds)
      (FindPost Meets held key) m := by
  induction rounds generalizing m with
  | zero =>
    unfold find
    trivial
  | succ rounds ih =>
    rw [find]
    refine ensures_read fun m1 t1 good1 keeps1 _ =>
      ⟨(0 : Nat), exec_loadNode good1.base, ?_⟩
    refine ensures_read fun m2 t2 good2 keeps2 _ => ?_
    obtain ⟨p, here⟩ := good2.sentinel
    have was2 : held → Held m2 key := fun h => ((was h).later keeps1).later keeps2
    rcases good2.ops 0 p here with none | ⟨b, e, w, op, null, -⟩
    · refine ⟨_, exec_loadOp here none, ?_⟩
      rw [if_neg (show ¬(GET_FLAG ((p.op, .none) : Nat × Operation V).2 ≠ .NONE) from not_not.mpr rfl)]
      refine ensures_read fun m3 t3 good3 keeps3 _ => ?_
      obtain ⟨p3, here3, -⟩ := keeps3.node here
      obtain ⟨r, child⟩ := good3.toShape.child here3 false
      have was3 : held → Held m3 key := fun h => (was2 h).later keeps3
      refine ⟨_, exec_loadChild here3 child, descend_ensures was3 ?_⟩
      have way : Way m3 key (p3.child false) := by
        rw [good3.sides 0 p3 here3]
        exact .root
      exact at_child ⟨.NOTFOUND_R, pred, base_root, p.op, .none⟩ good3 was3 good3.base here3
        (ops_later keeps3.ops none) way (fun same => by cases same) child
    · have flag : GET_FLAG ((p.op, .childCas b e (.node w)) : Nat × Operation V).2 ≠ .NONE :=
        fun same => by cases same
      refine ⟨_, exec_loadOp here op, ?_⟩
      rw [if_pos flag, if_pos rfl]
      exact ensures_call (helpChildCAS_ensures ⟨p, here, op, null, .inl rfl⟩) fun _ m3 _ keeps3 _ =>
        ih fun h => (was2 h).later keeps3

/-! ### Adding -/

/-- After the operation of an add is installed. -/
theorem add_swings {old : Ref} (good : Good m t) (here : m.tree[n]? = some p)
    (none : m.ops[p.op]? = some .none) (child : m.ptr[p.child is_left]? = some old)
    (empty : old.pointer = .none) (way : Way m key (p.child is_left)) :
    Ensures exec (rules V) Meets
      (helpChildCAS (m.ops.length + 1, .childCas is_left old (.node m.tree.length)) n)
      (fun _ m' => Held m' key)
      ((m.newNode key value).putOp n (.childCas is_left old (.node m.tree.length))) := by
  have length : (m.newNode key value).ops.length = m.ops.length + 1 := List.length_append
  have inside : n < m.tree.length := (List.getElem?_eq_some_iff.mp here).1
  obtain ⟨-, keeps⟩ := install_ok value good here none child empty
    (way.onPath good.toShape)
  have here' : ((m.newNode key value).putOp n (.childCas is_left old (.node m.tree.length))).tree[n]?
      = some { p with op := m.ops.length + 1 } := by
    rw [tree_putOp, tree_newNode here, Option.map_some, if_pos rfl, length]
  have started : Started ((m.newNode key value).putOp n (.childCas is_left old (.node m.tree.length))) n
      (m.ops.length + 1) is_left old m.tree.length := by
    refine ⟨_, here', ?_, empty, .inl rfl⟩
    rw [← length]
    exact List.getElem?_concat_length
  have new : ((m.newNode key value).putOp n
      (.childCas is_left old (.node m.tree.length))).tree[m.tree.length]?
        = some ⟨key, value, m.ops.length, m.ptr.length, m.ptr.length + 1⟩ := by
    have added : (m.newNode key value).tree[m.tree.length]?
        = some ⟨key, value, m.ops.length, m.ptr.length, m.ptr.length + 1⟩ :=
      List.getElem?_concat_length
    rw [tree_putOp, added, Option.map_some, if_neg (Nat.ne_of_lt inside)]
  refine ensures_mono (ensures_keeps (helpChildCAS_ensures started)) fun _ m' _ helped => ?_
  obtain ⟨⟨⟨p', stored, swung⟩, -⟩, keeps'⟩ := helped
  obtain ⟨op, stored', -⟩ := (keeps_trans keeps keeps').nodes n p here
  rw [stored] at stored'
  cases stored'
  obtain ⟨q, new', same⟩ := Keeps.node keeps' new
  exact ⟨_, _, q, way.later (keeps_trans keeps keeps'), swung, new', same⟩

theorem add_ensures {rounds : Nat} : Ensures exec (rules V) Meets (add key value room rounds)
    (fun _ m => Held m key) m := by
  induction rounds generalizing m with
  | zero =>
    unfold add
    trivial
  | succ rounds ih =>
    rw [add]
    refine ensures_call (find_ensures False (fun no => no.elim)) fun out m1 _ _ post => ?_
    refine ensures_read fun m2 t2 good2 keeps2 _ => ?_
    have post2 := post.later keeps2
    obtain ⟨n, full⟩ := post2.node
    refine ⟨n, exec_loadNode full, ?_⟩
    by_cases result : out.result = .FOUND
    · rw [if_pos result]
      exact ensures_pure fun m3 _ keeps3 => (post2.found result).later keeps3
    rw [if_neg result]
    obtain ⟨n', p2, full', here2, bound, -⟩ := (post2.missed result).1
    obtain rfl : n = n' := by
      rw [full] at full'
      cases full'
      rfl
    refine ensures_read fun m3 t3 good3 keeps3 _ => ?_
    obtain ⟨p3, here3, -⟩ := keeps3.node here2
    obtain ⟨left, leftChild⟩ := good3.toShape.child here3 true
    refine ⟨_, exec_loadChild here3 leftChild, ensures_read fun m4 t4 good4 keeps4 _ => ?_⟩
    obtain ⟨p4, here4, -⟩ := keeps4.node here3
    obtain ⟨right, rightChild⟩ := good4.toShape.child here4 false
    refine ⟨_, exec_loadChild here4 rightChild, ensures_perform fun m5 inv5 keeps5 _ => ?_⟩
    obtain ⟨t5, good5⟩ := inv5
    obtain ⟨p5, here5, -⟩ := keeps5.node here4
    have run := exec_casOpNode out.curr_op out.side
      (if out.result = .NOTFOUND_L then left else right) key value here5
    by_cases installed : p5.op = out.curr_op
    · have missed3 := (post2.missed result).1.later keeps3
      have missed4 := missed3.later keeps4
      have full3 := keeps3.links _ _ full
      have full4 := keeps4.links _ _ full3
      obtain ⟨n₅, p', full₅, stored, -, still⟩ := missed4.later keeps5
      rw [keeps5.links _ _ full4] at full₅
      cases full₅
      rw [here5] at stored
      cases stored
      obtain ⟨none, way, r, child, empty⟩ := still installed
      -- the node has the operation that `find` loaded, so the child is what was loaded since
      have old : r = if out.result = .NOTFOUND_L then left else right := by
        by_cases side : out.result = .NOTFOUND_L
        · have isLeft : out.side = true := decide_eq_true side
          have same := missed3.child (keeps_trans keeps4 keeps5) full3 here3 here5 installed true
          rw [isLeft, same, leftChild] at child
          rw [if_pos side]
          exact (Option.some.inj child).symm
        · have isRight : out.side = false := decide_eq_false side
          have same := missed4.child keeps5 full4 here4 here5 installed false
          rw [isRight, same, rightChild] at child
          rw [if_neg side]
          exact (Option.some.inj child).symm
      subst old
      rw [if_pos installed] at run
      have none' : m5.ops[p5.op]? = some .none := installed ▸ none
      obtain ⟨good6, keeps6⟩ := install_ok value good5 here5 none' child empty
        (way.onPath good5.toShape)
      refine ⟨_, _, run, ⟨t5, good6⟩, keeps6, ?_⟩
      exact add_swings good5 here5 none' child empty way
    · rw [if_neg installed] at run
      exact ⟨_, m5, run, ⟨t5, good5⟩, keeps_refl m5, ih⟩

end DeepDB.Concurrency.Nblocking4
