import DeepDB.Concurrency.HandOverHand
import DeepDB.Lib.SearchTree
import Mathlib.Order.Lattice
import Mathlib.Algebra.Order.Ring.Int

/-!
What holds between the steps of the tree with hand-over-hand locking. The memory holds a search
tree, and what a thread knows of it is about boxes whose lock it has: no other thread changes them,
and a search for its key comes to them.
-/

namespace DeepDB.Concurrency.HandOverHand
open Linearizability SearchTree

variable {T V : Type} {tb : Nat} {m m' : Mem T V} {t t' : Tree Nat Int (Option V)} {u w : T}

/-! ### The tree -/

def cell (m : Mem T V) (a : Nat) (o : Option Nat) : Prop := ∃ lock, m.box a = some ⟨o, lock⟩

def node (m : Mem T V) (n : Nat) (key : Int) (value : Option V) (l r : Nat) : Prop :=
  m.node n = some ⟨key, value, l, r⟩

theorem cell_unique (a : Nat) (o o' : Option Nat) (h : cell m a o) (h' : cell m a o') : o = o' := by
  obtain ⟨lock, h⟩ := h
  obtain ⟨lock', h'⟩ := h'
  cases h.symm.trans h'
  rfl

structure Good (tb : Nat) (m : Mem T V) (t : Tree Nat Int (Option V)) : Prop where
  repr : Repr (cell m) (node m) t
  root : t.root = tb
  cells : t.cells.Nodup
  pointers : t.pointers.Nodup
  ordered : Ordered t

/-- The map that the tree stands for. -/
def contents (t : Tree Nat Int (Option V)) (k : Int) : Option V := (SearchTree.find k t).bind id

theorem good_box (h : Good tb m t) {a : Nat} (ha : a ∈ t.cells) : ∃ o, cell m a o := by
  obtain ⟨c, s, rfl, rfl⟩ := exists_plug_cell ha
  have hs := repr_plug h.repr
  cases s with
  | nil a => exact ⟨none, hs⟩
  | node a n key value l r => exact ⟨some n, hs.1⟩

/-! ### The threads -/

def opKey : MapOp Int V → Int
  | .insert k _ => k
  | .lookup k => k
  | .delete k => k

/-- The box is in the tree and `u` has its lock. -/
def Held (m : Mem T V) (t : Tree Nat Int (Option V)) (u : T) (b : Nat) : Prop :=
  b ∈ t.cells ∧ ∃ o, m.box b = some ⟨o, some u⟩

/-- Box `b` points to node `p`, which is `x`. -/
def At (m : Mem T V) (b p : Nat) (x : Node V) : Prop := cell m b (some p) ∧ m.node p = some x

/-- What a lookup has read. -/
def Reads (m : Mem T V) (op : MapOp Int V) (tgt : Nat) (p : Option Nat) : Prop :=
  ∀ k, op = .lookup k → cell m tgt p

def ThreadOk (m : Mem T V) (t : Tree Nat Int (Option V)) (u : T) : Pc V → Prop
  | .idle => True
  | .enter _ => True
  | .top op tgt p => Held m t u tgt ∧ OnPath (opKey op) t tgt ∧ Reads m op tgt p
  | .next op old tgt _ => Held m t u old ∧ OnPath (opKey op) t old ∧ ∃ p x, At m old p x ∧
      (opKey op < x.key ∧ tgt = x.left ∨ x.key < opKey op ∧ tgt = x.right)
  | .drop op old tgt p => Held m t u old ∧ Held m t u tgt ∧ old ≠ tgt ∧
      OnPath (opKey op) t tgt ∧ Reads m op tgt p
  | .push k tgp => Held m t u tgp ∧ OnPath k t tgp ∧ ∃ p x, At m tgp p x ∧ x.key = k
  | .pushNext k tgp p tgq => Held m t u tgp ∧ OnPath k t tgp ∧ ∃ x, At m tgp p x ∧ x.key = k ∧
      x.right = tgq
  | .pushed k tgp p tgq => Held m t u tgp ∧ Held m t u tgq ∧ OnPath k t tgp ∧
      ∃ x, At m tgp p x ∧ x.key = k ∧ x.right = tgq
  | .pushLeft k tgp p tgq tgl => Held m t u tgp ∧ Held m t u tgq ∧ OnPath k t tgp ∧
      cell m tgq none ∧ ∃ x, At m tgp p x ∧ x.key = k ∧ x.right = tgq ∧ x.left = tgl
  | .pushFree k tgp p tgq tgl => Held m t u tgp ∧ Held m t u tgq ∧ Held m t u tgl ∧
      OnPath k t tgp ∧ cell m tgq none ∧ ∃ x, At m tgp p x ∧ x.key = k ∧ x.right = tgq ∧ x.left = tgl
  | .pushDrop k old tgp => Held m t u old ∧ Held m t u tgp ∧ old ≠ tgp ∧ OnPath k t tgp ∧
      ∃ p x, At m tgp p x ∧ x.key = k
  | .unlock b _ => Held m t u b
  | .done _ => True

structure Inv (tb : Nat) (s : State T V) (t : Tree Nat Int (Option V)) : Prop where
  good : Good tb s.mem t
  threads : ∀ u, ThreadOk s.mem t u (s.pc u)

/-- What a step of `u` leaves to a thread `w` that has the lock of a box. -/
structure KeepsAt (m m' : Mem T V) (t t' : Tree Nat Int (Option V)) (b : Nat) : Prop where
  mem : b ∈ t'.cells
  box : m'.box b = m.box b
  node : ∀ p, cell m b (some p) → m'.node p = m.node p
  path : ∀ k, OnPath k t b → OnPath k t' b

def Keeps (u : T) (m m' : Mem T V) (t t' : Tree Nat Int (Option V)) : Prop :=
  ∀ w b, w ≠ u → Held m t w b → KeepsAt m m' t t' b

section
variable {b : Nat} (h : KeepsAt m m' t t' b)
include h

theorem keeps_held (hb : Held m t w b) : Held m' t' w b := by
  obtain ⟨-, o, hbox⟩ := hb
  exact ⟨h.mem, o, h.box.trans hbox⟩

theorem keeps_cell {o : Option Nat} (hc : cell m b o) : cell m' b o := by
  obtain ⟨lock, hbox⟩ := hc
  exact ⟨lock, h.box.trans hbox⟩

theorem keeps_at {p : Nat} {x : Node V} (hp : At m b p x) : At m' b p x :=
  ⟨keeps_cell h hp.1, (h.node p hp.1).trans hp.2⟩

theorem keeps_reads {op : MapOp Int V} {p : Option Nat} (hr : Reads m op b p) : Reads m' op b p :=
  fun k hk => keeps_cell h (hr k hk)

end

theorem threadOk_keeps (keeps : Keeps u m m' t t') (hne : w ≠ u) {pc : Pc V}
    (ok : ThreadOk m t w pc) : ThreadOk m' t' w pc := by
  have at_ := fun b => keeps w b hne
  cases pc with
  | idle => trivial
  | enter op => trivial
  | top op tgt p =>
    obtain ⟨hold, path, reads⟩ := ok
    have k := at_ _ hold
    exact ⟨keeps_held k hold, k.path _ path, keeps_reads k reads⟩
  | next op old tgt p =>
    obtain ⟨hold, path, p', x, hx, dir⟩ := ok
    have k := at_ _ hold
    exact ⟨keeps_held k hold, k.path _ path, p', x, keeps_at k hx, dir⟩
  | drop op old tgt p =>
    obtain ⟨hold, hold', hne, path, reads⟩ := ok
    have k := at_ _ hold'
    exact ⟨keeps_held (at_ _ hold) hold, keeps_held k hold', hne, k.path _ path, keeps_reads k reads⟩
  | push x tgp =>
    obtain ⟨hold, path, p, x, hx, key⟩ := ok
    have k := at_ _ hold
    exact ⟨keeps_held k hold, k.path _ path, p, x, keeps_at k hx, key⟩
  | pushNext x tgp p tgq =>
    obtain ⟨hold, path, x, hx, rest⟩ := ok
    have k := at_ _ hold
    exact ⟨keeps_held k hold, k.path _ path, x, keeps_at k hx, rest⟩
  | pushed x tgp p tgq =>
    obtain ⟨hold, hold', path, x, hx, rest⟩ := ok
    have k := at_ _ hold
    exact ⟨keeps_held k hold, keeps_held (at_ _ hold') hold', k.path _ path, x, keeps_at k hx, rest⟩
  | pushLeft x tgp p tgq tgl =>
    obtain ⟨hold, hold', path, empty, x, hx, rest⟩ := ok
    have k := at_ _ hold
    have k' := at_ _ hold'
    exact ⟨keeps_held k hold, keeps_held k' hold', k.path _ path, keeps_cell k' empty, x,
      keeps_at k hx, rest⟩
  | pushFree x tgp p tgq tgl =>
    obtain ⟨hold, hold', hold'', path, empty, x, hx, rest⟩ := ok
    have k := at_ _ hold
    have k' := at_ _ hold'
    exact ⟨keeps_held k hold, keeps_held k' hold', keeps_held (at_ _ hold'') hold'', k.path _ path,
      keeps_cell k' empty, x, keeps_at k hx, rest⟩
  | pushDrop x old tgp =>
    obtain ⟨hold, hold', hne, path, p, x, hx, key⟩ := ok
    have k := at_ _ hold'
    exact ⟨keeps_held (at_ _ hold) hold, keeps_held k hold', hne, k.path _ path, p, x,
      keeps_at k hx, key⟩
  | unlock b r => exact keeps_held (at_ _ ok) ok
  | done r => trivial

theorem inv_update [DecidableEq T] {s : State T V} (h : Inv tb s t) (u : T) {pc' : Pc V}
    (good : Good tb m' t') (keeps : Keeps u s.mem m' t t') (own : ThreadOk m' t' u pc') :
    Inv tb { mem := m', pc := Function.update s.pc u pc' } t' := by
  refine ⟨good, fun w => ?_⟩
  show ThreadOk m' t' w (Function.update s.pc u pc' w)
  by_cases same : w = u
  · subst same
    rwa [Function.update_self]
  · rw [Function.update_of_ne same]
    exact threadOk_keeps keeps same (h.threads w)

theorem keepsAt_refl {b : Nat} (hb : b ∈ t.cells) : KeepsAt m m t t b :=
  ⟨hb, rfl, fun _ _ => rfl, fun _ hp => hp⟩

theorem keeps_refl (u : T) (m : Mem T V) (t : Tree Nat Int (Option V)) : Keeps u m m t t :=
  fun _ _ _ hold => keepsAt_refl hold.1

/-- A lock has one holder. -/
theorem held_unique {b : Nat} (h : Held m t u b) (h' : Held m t w b) : u = w := by
  obtain ⟨-, o, hbox⟩ := h
  obtain ⟨-, o', hbox'⟩ := h'
  cases hbox.symm.trans hbox'
  rfl

/-! ### Locks -/

section
variable {b : Nat} {o : Option Nat} {lock lock' : Option T}

theorem cell_lock (hbox : m.box b = some ⟨o, lock⟩) {a : Nat} {o' : Option Nat}
    (ha : cell m a o') : cell (m.setBox b (some ⟨o, lock'⟩)) a o' := by
  by_cases same : a = b
  · subst same
    obtain rfl := cell_unique _ _ _ ⟨lock, hbox⟩ ha
    exact ⟨lock', Function.update_self _ _ _⟩
  · obtain ⟨lock₀, ha⟩ := ha
    exact ⟨lock₀, (Function.update_of_ne same _ _).trans ha⟩

theorem good_lock (h : Good tb m t) (hbox : m.box b = some ⟨o, lock⟩) :
    Good tb (m.setBox b (some ⟨o, lock'⟩)) t :=
  { h with
    repr := repr_frame h.repr (fun _ _ _ ha => cell_lock hbox ha) fun _ _ _ _ hn => hn }

/-- The lock of a box matters to its holder only. -/
theorem keeps_lock (hbox : m.box b = some ⟨o, lock⟩) (mine : lock = none ∨ lock = some u) :
    Keeps u m (m.setBox b (some ⟨o, lock'⟩)) t t := by
  intro w a hne hold
  refine ⟨hold.1, Function.update_of_ne ?_ _ _, fun _ _ => rfl, fun _ hp => hp⟩
  rintro rfl
  obtain ⟨-, o', held⟩ := hold
  cases hbox.symm.trans held
  rcases mine with none | same
  · cases none
  · exact hne (Option.some.inj same)

theorem held_lock (hb : b ∈ t.cells) : Held (m.setBox b (some ⟨o, some u⟩)) t u b :=
  ⟨hb, o, Function.update_self _ _ _⟩

theorem held_other {a : Nat} (hold : Held m t u a) (hne : a ≠ b) {x : Option (Box T)} :
    Held (m.setBox b x) t u a := by
  obtain ⟨hmem, o', hbox⟩ := hold
  exact ⟨hmem, o', (Function.update_of_ne hne _ _).trans hbox⟩

theorem acquire_spec (u : T) (hbox : m.box b = some ⟨o, lock⟩) :
    acquire u b m = .error .blocked ∨
      lock = none ∧ acquire u b m = .ok (m.setBox b (some ⟨o, some u⟩)) := by
  have read : readBox m b = .ok ⟨o, lock⟩ := by rw [readBox, hbox]
  cases lock with
  | none => exact Or.inr ⟨rfl, by rw [acquire, read]; rfl⟩
  | some v => exact Or.inl (by rw [acquire, read]; rfl)

theorem release_spec [DecidableEq T] (hbox : m.box b = some ⟨o, some u⟩) :
    release u b m = .ok (m.setBox b (some ⟨o, none⟩)) := by
  have read : readBox m b = .ok ⟨o, some u⟩ := by rw [readBox, hbox]
  rw [release, read]
  exact if_pos rfl

end

end DeepDB.Concurrency.HandOverHand
