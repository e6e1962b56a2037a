import DeepDB.Concurrency.HandOverHandChange

/-!
Every step of a thread, one by one. An insert and a lookup take effect when they have found the
place of their key; a delete when the node is removed, at the end of its way down.
-/

namespace DeepDB.Concurrency.HandOverHand
open Linearizability SearchTree

variable {T V : Type} [DecidableEq T] {tb : Nat} {u : T} {s : State T V}
  {t : Tree Nat Int (Option V)} {new : Block}

def status : Pc V → Status (MapOp Int V) (MapResult V)
  | .idle => .idle
  | .enter op => .pending op
  | .top op _ _ => .pending op
  | .next op _ _ _ => .pending op
  | .drop op _ _ _ => .pending op
  | .push x _ => .pending (.delete x)
  | .pushNext x _ _ _ => .pending (.delete x)
  | .pushed x _ _ _ => .pending (.delete x)
  | .pushLeft x _ _ _ _ => .pending (.delete x)
  | .pushFree x _ _ _ _ => .pending (.delete x)
  | .pushDrop x _ _ => .pending (.delete x)
  | .unlock _ r => .done r
  | .done r => .done r

/-- What a step does to the map: nothing, or the operation of its thread. -/
def Effect (pc : Pc V) (t : Tree Nat Int (Option V)) (pc' : Pc V)
    (t' : Tree Nat Int (Option V)) : Prop :=
  (status pc' = status pc ∧ contents t' = contents t) ∨
    ∃ op, status pc = .pending op ∧ contents t' = (op.apply (contents t)).1 ∧
      status pc' = .done (op.apply (contents t)).2

/-- A step waits for a lock, or it is taken and keeps the invariant. -/
def Progress (tb : Nat) (s : State T V) (t : Tree Nat Int (Option V)) (u : T) (new : Block) : Prop :=
  exec tb u new s.mem (s.pc u) = .error .blocked ∨
    ∃ m' pc' t', exec tb u new s.mem (s.pc u) = .ok (m', pc') ∧
      Inv tb { mem := m', pc := Function.update s.pc u pc' } t' ∧ Effect (s.pc u) t pc' t'

omit [DecidableEq T] in
theorem at_node {m : Mem T V} (h : Good tb m t) {k : Int} {b p : Nat} {x : Node V}
    (path : OnPath k t b) (hx : At m b p x) :
    ∃ c l r, t = plug c (.node b p x.key x.value l r) ∧ Goes k c ∧ l.root = x.left ∧
      r.root = x.right := by
  obtain ⟨c, key, value, l, r, rfl, hg, hnode⟩ := path_node h.repr cell_unique path hx.1
  obtain rfl := Option.some.inj (hnode.symm.trans hx.2)
  exact ⟨c, l, r, rfl, hg, rfl, rfl⟩

omit [DecidableEq T] in
/-- The children of a node in the way are there. -/
theorem children {m : Mem T V} (h : Good tb m t) {k : Int} {b p : Nat} {x : Node V}
    (path : OnPath k t b) (hx : At m b p x) :
    (∃ y, m.box x.left = some y) ∧ (∃ y, m.box x.right = some y) ∧ x.left ∈ t.cells ∧
      x.right ∈ t.cells ∧ (k < x.key → OnPath k t x.left) ∧ (x.key < k → OnPath k t x.right) := by
  obtain ⟨c, l, r, rfl, hg, hl, hr⟩ := at_node h path hx
  have left : x.left ∈ (plug c (.node b p x.key x.value l r)).cells :=
    mem_cells_plug.mpr (Or.inl (List.mem_cons_of_mem _ (List.mem_append_left _
      (hl ▸ root_mem_cells l))))
  have right : x.right ∈ (plug c (.node b p x.key x.value l r)).cells :=
    mem_cells_plug.mpr (Or.inl (List.mem_cons_of_mem _ (List.mem_append_right _
      (hr ▸ root_mem_cells r))))
  obtain ⟨o, lock, hleft⟩ := good_box h left
  obtain ⟨o', lock', hright⟩ := good_box h right
  refine ⟨⟨_, hleft⟩, ⟨_, hright⟩, left, right, fun hlt => ?_, fun hlt => ?_⟩
  · exact onPath_plug hg (Or.inr (Or.inl ⟨hlt, hl ▸ onPath_root k l⟩))
  · exact onPath_plug hg (Or.inr (Or.inr ⟨hlt, hr ▸ onPath_root k r⟩))

omit [DecidableEq T] in
theorem descend_ok {m : Mem T V} {child : Nat} {y : Box T} (hy : m.box child = some y)
    (op : MapOp Int V) (old p : Nat) :
    descend m op old p child = .ok (m, .next op old child (some p)) := by
  simp only [descend, readBox_ok hy, bind, Except.bind]

omit [DecidableEq T] in
theorem reload_ok {m : Mem T V} {tgt : Nat} {o : Option Nat} (hc : cell m tgt o)
    (op : MapOp Int V) (p : Option Nat) :
    ∃ p', reload m op tgt p = .ok p' ∧ Reads m op tgt p' := by
  obtain ⟨lock, hbox⟩ := hc
  cases op with
  | lookup k =>
    refine ⟨o, ?_, fun _ _ => ⟨lock, hbox⟩⟩
    simp only [reload, readBox_ok hbox, bind, Except.bind]
  | insert k v => exact ⟨p, rfl, fun _ same => by cases same⟩
  | delete k => exact ⟨p, rfl, fun _ same => by cases same⟩

/-! ### Steps that move on -/

/-- A step that changes nothing but the place of the thread. -/
theorem progress_move (h : Inv tb s t) (pc' : Pc V)
    (hexec : exec tb u new s.mem (s.pc u) = .ok (s.mem, pc')) (own : ThreadOk s.mem t u pc')
    (effect : Effect (s.pc u) t pc' t) : Progress tb s t u new :=
  Or.inr ⟨_, _, t, hexec, inv_update h u h.good (keeps_refl u _ _) own, effect⟩

theorem progress_enter (h : Inv tb s t) {op : MapOp Int V} (hpc : s.pc u = .enter op) :
    Progress tb s t u new := by
  have root := root_mem_cells t
  rw [h.good.root] at root
  obtain ⟨o, lock, hbox⟩ := good_box h.good root
  rcases acquire_spec u hbox with blocked | ⟨rfl, got⟩
  · left
    rw [hpc]
    simp only [exec, blocked, bind, Except.bind]
  · have hc : cell (s.mem.setBox tb (some ⟨o, some u⟩)) tb o :=
      cell_lock hbox ⟨none, hbox⟩
    obtain ⟨p, hread, reads⟩ := reload_ok hc op none
    refine Or.inr ⟨_, .top op tb p, t, ?_,
      inv_update h u (good_lock h.good hbox) (keeps_lock hbox (Or.inl rfl))
        ⟨held_lock root, ?_, reads⟩, Or.inl ⟨by rw [hpc]; rfl, rfl⟩⟩
    · rw [hpc]
      simp only [exec, got, hread, bind, Except.bind]
    · have path := onPath_root (opKey op) t
      rwa [h.good.root] at path

theorem progress_next (h : Inv tb s t) {op : MapOp Int V} {old tgt : Nat} {p : Option Nat}
    (hpc : s.pc u = .next op old tgt p) : Progress tb s t u new := by
  have ok := h.threads u
  rw [hpc] at ok
  obtain ⟨hold, path, p₀, x, hx, dir⟩ := ok
  obtain ⟨⟨y, hl⟩, ⟨z, hr⟩, memL, memR, pathL, pathR⟩ := children h.good path hx
  have child : (∃ y, s.mem.box tgt = some y) ∧ tgt ∈ t.cells ∧ OnPath (opKey op) t tgt := by
    rcases dir with ⟨hlt, rfl⟩ | ⟨hlt, rfl⟩
    · exact ⟨⟨y, hl⟩, memL, pathL hlt⟩
    · exact ⟨⟨z, hr⟩, memR, pathR hlt⟩
  obtain ⟨⟨⟨o, lock⟩, hbox⟩, mem, path'⟩ := child
  rcases acquire_spec u hbox with blocked | ⟨rfl, got⟩
  · left
    rw [hpc]
    simp only [exec, blocked, bind, Except.bind]
  · have hne : old ≠ tgt := by
      rintro rfl
      obtain ⟨-, o', held⟩ := hold
      cases hbox.symm.trans held
    have hc : cell (s.mem.setBox tgt (some ⟨o, some u⟩)) tgt o := cell_lock hbox ⟨none, hbox⟩
    obtain ⟨p', hread, reads⟩ := reload_ok hc op p
    refine Or.inr ⟨_, .drop op old tgt p', t, ?_,
      inv_update h u (good_lock h.good hbox) (keeps_lock hbox (Or.inl rfl))
        ⟨held_other hold hne, held_lock mem, hne, path', reads⟩, Or.inl ⟨by rw [hpc]; rfl, rfl⟩⟩
    rw [hpc]
    simp only [exec, got, hread, bind, Except.bind]

theorem progress_drop (h : Inv tb s t) {op : MapOp Int V} {old tgt : Nat} {p : Option Nat}
    (hpc : s.pc u = .drop op old tgt p) : Progress tb s t u new := by
  have ok := h.threads u
  rw [hpc] at ok
  obtain ⟨⟨-, o, hbox⟩, hold, hne, path, reads⟩ := ok
  refine Or.inr ⟨s.mem.setBox old (some ⟨o, none⟩), .top op tgt p, t, ?_,
    inv_update h u (good_lock h.good hbox) (keeps_lock hbox (Or.inr rfl))
      ⟨held_other hold hne.symm, path, fun k hk => cell_lock hbox (reads k hk)⟩,
    Or.inl ⟨by rw [hpc]; rfl, rfl⟩⟩
  rw [hpc]
  simp only [exec, release_spec hbox, bind, Except.bind]

theorem progress_pushDrop (h : Inv tb s t) {x : Int} {old tgp : Nat}
    (hpc : s.pc u = .pushDrop x old tgp) : Progress tb s t u new := by
  have ok := h.threads u
  rw [hpc] at ok
  obtain ⟨⟨-, o, hbox⟩, hold, hne, path, p, y, hy, key⟩ := ok
  refine Or.inr ⟨s.mem.setBox old (some ⟨o, none⟩), .push x tgp, t, ?_,
    inv_update h u (good_lock h.good hbox) (keeps_lock hbox (Or.inr rfl))
      ⟨held_other hold hne.symm, path, p, y, ⟨cell_lock hbox hy.1, hy.2⟩, key⟩,
    Or.inl ⟨by rw [hpc]; rfl, rfl⟩⟩
  rw [hpc]
  simp only [exec, release_spec hbox, bind, Except.bind]

theorem progress_unlock (h : Inv tb s t) {b : Nat} {r : MapResult V}
    (hpc : s.pc u = .unlock b r) : Progress tb s t u new := by
  have ok := h.threads u
  rw [hpc] at ok
  obtain ⟨-, o, hbox⟩ := ok
  refine Or.inr ⟨s.mem.setBox b (some ⟨o, none⟩), .done r, t, ?_,
    inv_update h u (good_lock h.good hbox) (keeps_lock hbox (Or.inr rfl)) trivial,
    Or.inl ⟨by rw [hpc]; rfl, rfl⟩⟩
  rw [hpc]
  simp only [exec, release_spec hbox, bind, Except.bind]

/-! ### The place of the key -/

omit [DecidableEq T] in
theorem contents_nil {m : Mem T V} (h : Good tb m t) {k : Int} {b : Nat} (path : OnPath k t b)
    (empty : cell m b none) : contents t k = none := by
  obtain ⟨c, rfl, hg⟩ := path_nil h.repr cell_unique path empty
  rw [contents, find_plug hg]
  rfl

omit [DecidableEq T] in
theorem contents_at {m : Mem T V} (h : Good tb m t) {b p : Nat} {x : Node V}
    (path : OnPath x.key t b) (hx : At m b p x) : contents t x.key = x.value := by
  obtain ⟨c, l, r, rfl, hg, -, -⟩ := at_node h path hx
  rw [contents, find_plug hg]
  simp [SearchTree.find]

theorem progress_insert (h : Inv tb s t) {x : Int} {v : Option V} {tgt : Nat} {p₀ : Option Nat}
    (fresh : Fresh s.mem new) (hpc : s.pc u = .top (.insert x v) tgt p₀) :
    Progress tb s t u new := by
  have ok := h.threads u
  rw [hpc] at ok
  obtain ⟨hold, path, -⟩ := ok
  obtain ⟨hmem, o, hbox⟩ := id hold
  cases o with
  | none =>
    obtain ⟨c, rfl, hg⟩ := path_nil h.good.repr cell_unique path ⟨_, hbox⟩
    refine Or.inr ⟨grow s.mem tgt (some u) x v new, .unlock tgt .done, plug c (grown tgt x v new),
      ?_, inv_update h u (grow_good h.good hg fresh) (grow_keeps h.good hold fresh) ?_,
      Or.inr ⟨.insert x v, by rw [hpc]; rfl, grow_contents hg, rfl⟩⟩
    · rw [hpc]
      simp only [exec, readBox_ok hbox, bind, Except.bind]
      rfl
    · exact ⟨mem_cells_plug.mpr (Or.inl List.mem_cons_self), some new.node,
        Function.update_self _ _ _⟩
  | some p =>
    obtain ⟨c, key, w, l, r, rfl, hg, hnode⟩ := path_node h.good.repr cell_unique path ⟨_, hbox⟩
    have hx : At s.mem tgt p ⟨key, w, l.root, r.root⟩ := ⟨⟨_, hbox⟩, hnode⟩
    obtain ⟨⟨y, hl⟩, ⟨z, hr⟩, -⟩ := children h.good path hx
    have run : exec tb u new s.mem (s.pc u) =
        if x < key then .ok (s.mem, .next (.insert x v) tgt l.root (some p))
        else if key < x then .ok (s.mem, .next (.insert x v) tgt r.root (some p))
        else .ok (s.mem.setNode p (some ⟨key, v, l.root, r.root⟩), .unlock tgt .done) := by
      rw [hpc]
      simp only [exec, readBox_ok hbox, readNode_ok hnode, descend_ok hl, descend_ok hr, bind,
        Except.bind]
    by_cases hlt : x < key
    · rw [if_pos hlt] at run
      exact progress_move h _ run ⟨hold, path, p, _, hx, Or.inl ⟨hlt, rfl⟩⟩
        (Or.inl ⟨by rw [hpc]; rfl, rfl⟩)
    · by_cases hgt : key < x
      · rw [if_neg hlt, if_pos hgt] at run
        exact progress_move h _ run ⟨hold, path, p, _, hx, Or.inr ⟨hgt, rfl⟩⟩
          (Or.inl ⟨by rw [hpc]; rfl, rfl⟩)
      · rw [if_neg hlt, if_neg hgt] at run
        obtain rfl : x = key := by omega
        refine Or.inr ⟨_, _, plug c (.node tgt p x v l r), run,
          inv_update h u (value_good h.good v) (value_keeps h.good hold v) ?_,
          Or.inr ⟨.insert x v, by rw [hpc]; rfl, value_contents h.good.ordered v, rfl⟩⟩
        exact ⟨mem_cells_plug.mpr (Or.inl List.mem_cons_self), some p, hbox⟩

theorem progress_lookup (h : Inv tb s t) {x : Int} {tgt : Nat} {p : Option Nat}
    (hpc : s.pc u = .top (.lookup x) tgt p) : Progress tb s t u new := by
  have ok := h.threads u
  rw [hpc] at ok
  obtain ⟨hold, path, reads⟩ := ok
  have hcell := reads x rfl
  cases p with
  | none =>
    refine progress_move h (.unlock tgt (.value none)) (by rw [hpc]; rfl) hold
      (Or.inr ⟨.lookup x, by rw [hpc]; rfl, rfl, ?_⟩)
    have absent : contents t x = none := contents_nil h.good path hcell
    simp only [status, MapOp.apply, absent]
  | some p =>
    obtain ⟨c, key, w, l, r, same, hg, hnode⟩ := path_node h.good.repr cell_unique path hcell
    have hx : At s.mem tgt p ⟨key, w, l.root, r.root⟩ := ⟨hcell, hnode⟩
    obtain ⟨⟨y, hl⟩, ⟨z, hr⟩, -⟩ := children h.good path hx
    have run : exec tb u new s.mem (s.pc u) =
        if x < key then .ok (s.mem, .next (.lookup x) tgt l.root (some p))
        else if key < x then .ok (s.mem, .next (.lookup x) tgt r.root (some p))
        else .ok (s.mem, .unlock tgt (.value w)) := by
      rw [hpc]
      simp only [exec, readNode_ok hnode, descend_ok hl, descend_ok hr, bind, Except.bind]
    by_cases hlt : x < key
    · rw [if_pos hlt] at run
      exact progress_move h _ run ⟨hold, path, p, _, hx, Or.inl ⟨hlt, rfl⟩⟩
        (Or.inl ⟨by rw [hpc]; rfl, rfl⟩)
    · by_cases hgt : key < x
      · rw [if_neg hlt, if_pos hgt] at run
        exact progress_move h _ run ⟨hold, path, p, _, hx, Or.inr ⟨hgt, rfl⟩⟩
          (Or.inl ⟨by rw [hpc]; rfl, rfl⟩)
      · rw [if_neg hlt, if_neg hgt] at run
        obtain rfl : x = key := by omega
        refine progress_move h _ run hold (Or.inr ⟨.lookup x, by rw [hpc]; rfl, rfl, ?_⟩)
        have present : contents t x = w := contents_at h.good path hx
        simp only [status, MapOp.apply, present]

theorem progress_delete (h : Inv tb s t) {x : Int} {tgt : Nat} {p₀ : Option Nat}
    (hpc : s.pc u = .top (.delete x) tgt p₀) : Progress tb s t u new := by
  have ok := h.threads u
  rw [hpc] at ok
  obtain ⟨hold, path, -⟩ := ok
  obtain ⟨hmem, o, hbox⟩ := id hold
  cases o with
  | none =>
    refine progress_move h (.unlock tgt .done) ?_ hold
      (Or.inr ⟨.delete x, by rw [hpc]; rfl, ?_, rfl⟩)
    · rw [hpc]
      simp only [exec, readBox_ok hbox, bind, Except.bind]
    · have absent : contents t x = none := contents_nil h.good path ⟨_, hbox⟩
      simp only [MapOp.apply]
      rw [← absent, Function.update_eq_self]
  | some p =>
    obtain ⟨c, key, w, l, r, same, hg, hnode⟩ := path_node h.good.repr cell_unique path ⟨_, hbox⟩
    have hx : At s.mem tgt p ⟨key, w, l.root, r.root⟩ := ⟨⟨_, hbox⟩, hnode⟩
    obtain ⟨⟨y, hl⟩, ⟨z, hr⟩, -⟩ := children h.good path hx
    have run : exec tb u new s.mem (s.pc u) =
        if x < key then .ok (s.mem, .next (.delete x) tgt l.root (some p))
        else if key < x then .ok (s.mem, .next (.delete x) tgt r.root (some p))
        else .ok (s.mem, .push x tgt) := by
      rw [hpc]
      simp only [exec, readBox_ok hbox, readNode_ok hnode, descend_ok hl, descend_ok hr, bind,
        Except.bind]
    by_cases hlt : x < key
    · rw [if_pos hlt] at run
      exact progress_move h _ run ⟨hold, path, p, _, hx, Or.inl ⟨hlt, rfl⟩⟩
        (Or.inl ⟨by rw [hpc]; rfl, rfl⟩)
    · by_cases hgt : key < x
      · rw [if_neg hlt, if_pos hgt] at run
        exact progress_move h _ run ⟨hold, path, p, _, hx, Or.inr ⟨hgt, rfl⟩⟩
          (Or.inl ⟨by rw [hpc]; rfl, rfl⟩)
      · rw [if_neg hlt, if_neg hgt] at run
        obtain rfl : x = key := by omega
        exact progress_move h _ run ⟨hold, path, p, _, hx, rfl⟩ (Or.inl ⟨by rw [hpc]; rfl, rfl⟩)

/-! ### pushdown_left -/

theorem progress_push (h : Inv tb s t) {x : Int} {tgp : Nat} (hpc : s.pc u = .push x tgp) :
    Progress tb s t u new := by
  have ok := h.threads u
  rw [hpc] at ok
  obtain ⟨hold, path, p, y, hy, key⟩ := ok
  obtain ⟨lock, hbox⟩ := hy.1
  obtain ⟨-, ⟨z, hr⟩, -⟩ := children h.good path hy
  refine progress_move h (.pushNext x tgp p y.right) ?_ ⟨hold, path, y, hy, key, rfl⟩
    (Or.inl ⟨by rw [hpc]; rfl, rfl⟩)
  rw [hpc]
  simp only [exec, readBox_ok hbox, deref, readNode_ok hy.2, readBox_ok hr, bind, Except.bind]

theorem progress_pushNext (h : Inv tb s t) {x : Int} {tgp p tgq : Nat}
    (hpc : s.pc u = .pushNext x tgp p tgq) : Progress tb s t u new := by
  have ok := h.threads u
  rw [hpc] at ok
  obtain ⟨hold, path, y, hy, key, rfl⟩ := ok
  obtain ⟨-, ⟨⟨o, lock⟩, hbox⟩, -, mem, -⟩ := children h.good path hy
  rcases acquire_spec u hbox with blocked | ⟨rfl, got⟩
  · left
    rw [hpc]
    simp only [exec, blocked, bind, Except.bind]
  · have hne : tgp ≠ y.right := by
      intro same
      obtain ⟨-, o', held⟩ := hold
      rw [same, hbox] at held
      cases held
    refine Or.inr ⟨s.mem.setBox y.right (some ⟨o, some u⟩), .pushed x tgp p y.right, t, ?_,
      inv_update h u (good_lock h.good hbox) (keeps_lock hbox (Or.inl rfl))
        ⟨held_other hold hne, held_lock mem, path, y, ⟨cell_lock hbox hy.1, hy.2⟩, key, rfl⟩,
      Or.inl ⟨by rw [hpc]; rfl, rfl⟩⟩
    rw [hpc]
    simp only [exec, got, bind, Except.bind]

theorem progress_pushLeft (h : Inv tb s t) {x : Int} {tgp p tgq tgl : Nat}
    (hpc : s.pc u = .pushLeft x tgp p tgq tgl) : Progress tb s t u new := by
  have ok := h.threads u
  rw [hpc] at ok
  obtain ⟨holdp, holdq, path, empty, y, hy, key, rfl, rfl⟩ := ok
  obtain ⟨⟨⟨o, lock⟩, hbox⟩, -, mem, -⟩ := children h.good path hy
  rcases acquire_spec u hbox with blocked | ⟨rfl, got⟩
  · left
    rw [hpc]
    simp only [exec, blocked, bind, Except.bind]
  · have other : ∀ b, Held s.mem t u b → b ≠ y.left := by
      intro b hold same
      obtain ⟨-, o', held⟩ := hold
      rw [same, hbox] at held
      cases held
    refine Or.inr ⟨s.mem.setBox y.left (some ⟨o, some u⟩), .pushFree x tgp p y.right y.left, t, ?_,
      inv_update h u (good_lock h.good hbox) (keeps_lock hbox (Or.inl rfl))
        ⟨held_other holdp (other _ holdp), held_other holdq (other _ holdq), held_lock mem, path,
          cell_lock hbox empty, y, ⟨cell_lock hbox hy.1, hy.2⟩, key, rfl, rfl⟩,
      Or.inl ⟨by rw [hpc]; rfl, rfl⟩⟩
    rw [hpc]
    simp only [exec, got, bind, Except.bind]

theorem progress_pushed (h : Inv tb s t) {x : Int} {tgp p tgq : Nat}
    (hpc : s.pc u = .pushed x tgp p tgq) : Progress tb s t u new := by
  have ok := h.threads u
  rw [hpc] at ok
  obtain ⟨holdp, holdq, path, y, hy, rfl, rfl⟩ := ok
  obtain ⟨-, o, hboxq⟩ := id holdq
  obtain ⟨c, L, R, same, hg, hl, hr⟩ := at_node h.good path hy
  cases o with
  | none =>
    obtain ⟨⟨z, hleft⟩, -⟩ := children h.good path hy
    refine progress_move h (.pushLeft y.key tgp p y.right y.left) ?_
      ⟨holdp, holdq, path, ⟨_, hboxq⟩, y, hy, rfl, rfl, rfl⟩ (Or.inl ⟨by rw [hpc]; rfl, rfl⟩)
    rw [hpc]
    simp only [exec, readBox_ok hboxq, readNode_ok hy.2, readBox_ok hleft, bind, Except.bind]
  | some q =>
    have good := h.good
    rw [same] at good
    obtain ⟨hcellp, hnodep, -, reprR⟩ := repr_plug good.repr
    cases R with
    | nil b =>
      obtain rfl : b = y.right := hr
      cases cell_unique _ _ _ reprR ⟨_, hboxq⟩
    | node b q' k w M C =>
      obtain rfl : b = y.right := hr
      obtain ⟨hcellq, hnodeq, -, -⟩ := reprR
      obtain rfl := Option.some.inj (cell_unique _ _ _ ⟨_, hboxq⟩ hcellq)
      obtain ⟨boxes, -, -⟩ := leaning_cells good.cells
      obtain ⟨nodes, -, -⟩ := leaning_pointers good.pointers
      have hboxp : s.mem.box tgp = some ⟨some p, some u⟩ := by
        obtain ⟨-, o, hbox⟩ := holdp
        obtain rfl := cell_unique _ _ _ ⟨_, hbox⟩ hy.1
        exact hbox
      have made : (⟨y.key, y.value, L.root, y.right⟩ : Node V) = y := by rw [hl]
      have turning := turnLeft_spec hboxp hboxq hy.2 hnodeq boxes nodes
      have turnGood := turn_good good (some u) (some u)
      have turnKeeps := turn_keeps (u := u) good (same ▸ holdp) (same ▸ holdq) (some u) (some u) y
        ⟨k, w, M.root, C.root⟩
      rw [made] at turnGood
      rw [leaning, ← same] at turnKeeps
      have stored : (turn s.mem tgp y.right p q (some u) (some u) y
          ⟨k, w, M.root, C.root⟩).node q = some ⟨k, w, y.right, C.root⟩ :=
        Function.update_self _ _ _
      obtain ⟨hxy, -⟩ := leaning_ordered (ordered_plug good.ordered).2
      refine Or.inr ⟨_, .pushDrop y.key tgp y.right, _, ?_,
        inv_update h u turnGood turnKeeps ⟨⟨?_, some q, ?_⟩, ⟨?_, some p, ?_⟩, boxes, ?_,
          p, { y with right := M.root }, ⟨⟨some u, ?_⟩, ?_⟩, rfl⟩,
        Or.inl ⟨by rw [hpc]; rfl, ?_⟩⟩
      · rw [hpc]
        simp only [exec, readBox_ok hboxq, turning, readNode_ok stored, bind, Except.bind]
      · exact mem_cells_plug.mpr (Or.inl List.mem_cons_self)
      · exact (Function.update_of_ne boxes _ _).trans (Function.update_self _ _ _)
      · exact mem_cells_plug.mpr (Or.inl (List.mem_cons_of_mem _ (List.mem_append_left _
          List.mem_cons_self)))
      · exact Function.update_self _ _ _
      · exact onPath_plug hg (Or.inr (Or.inl ⟨hxy, Or.inl rfl⟩))
      · exact Function.update_self _ _ _
      · exact (Function.update_of_ne nodes _ _).trans (Function.update_self _ _ _)
      · rw [turn_contents good.ordered, leaning, ← same]

theorem progress_pushFree (h : Inv tb s t) {x : Int} {tgp p tgq tgl : Nat}
    (hpc : s.pc u = .pushFree x tgp p tgq tgl) : Progress tb s t u new := by
  have ok := h.threads u
  rw [hpc] at ok
  obtain ⟨holdp, holdq, holdl, path, empty, y, hy, rfl, rfl, rfl⟩ := ok
  obtain ⟨c, L, R, rfl, hg, hl, hr⟩ := at_node h.good path hy
  have good := h.good
  obtain ⟨hcellp, hnodep, -, reprR⟩ := repr_plug good.repr
  obtain ⟨lockq, hboxq⟩ := empty
  cases R with
  | node b q k w M C =>
    obtain rfl : b = y.right := hr
    cases cell_unique _ _ _ reprR.1 ⟨_, hboxq⟩
  | nil b =>
    obtain rfl : b = y.right := hr
    obtain ⟨-, o, hboxl⟩ := id holdl
    have hboxp : s.mem.box tgp = some ⟨some p, some u⟩ := by
      obtain ⟨-, o', hbox⟩ := holdp
      obtain rfl := cell_unique _ _ _ ⟨_, hbox⟩ hy.1
      exact hbox
    have hcell : cell s.mem L.root o := hl ▸ ⟨_, hboxl⟩
    rw [← hl] at holdl hboxl
    obtain ⟨boxes, htgp, -, -⟩ := last_cells good.cells
    have rootL : tgp ≠ L.root := fun same => htgp (same ▸ root_mem_cells L)
    refine Or.inr ⟨removal s.mem tgp y.right L.root p o (some u), .unlock tgp .done, _, ?_,
      inv_update h u (removal_good good hcell (some u))
        (removal_keeps good holdp holdq holdl (some u)) ⟨?_, o, ?_⟩,
      Or.inr ⟨.delete y.key, by rw [hpc]; rfl, removal_contents good.ordered, rfl⟩⟩
    · rw [hpc, ← hl]
      simp only [exec, readBox_ok hboxl, readBox_ok hboxp, bind, Except.bind]
      rfl
    · have root := root_mem_cells (moveTo tgp L)
      rw [root_moveTo] at root
      exact mem_cells_plug.mpr (Or.inl root)
    · exact (setBox_ne rootL _).trans ((setBox_ne boxes _).trans (Function.update_self _ _ _))

/-! ### All steps -/

theorem exec_inv (h : Inv tb s t) (u : T) (fresh : Fresh s.mem new) : Progress tb s t u new := by
  cases hpc : s.pc u with
  | idle => exact Or.inl (by rw [hpc]; rfl)
  | done r => exact Or.inl (by rw [hpc]; rfl)
  | enter op => exact progress_enter h hpc
  | top op tgt p =>
    cases op with
    | insert x v => exact progress_insert h fresh hpc
    | lookup x => exact progress_lookup h hpc
    | delete x => exact progress_delete h hpc
  | next op old tgt p => exact progress_next h hpc
  | drop op old tgt p => exact progress_drop h hpc
  | push x tgp => exact progress_push h hpc
  | pushNext x tgp p tgq => exact progress_pushNext h hpc
  | pushed x tgp p tgq => exact progress_pushed h hpc
  | pushLeft x tgp p tgq tgl => exact progress_pushLeft h hpc
  | pushFree x tgp p tgq tgl => exact progress_pushFree h hpc
  | pushDrop x old tgp => exact progress_pushDrop h hpc
  | unlock b r => exact progress_unlock h hpc

end DeepDB.Concurrency.HandOverHand
