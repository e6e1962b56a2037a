import DeepDB.Lib.Linearizability

/-!
The tree with hand-over-hand locking of `concurrency/bst_conc.c`. A `tree_t` and its lock are
allocated and freed together, so that the lock is a part of the box: the thread that holds it. Each
step acquires a lock, releases one, or does what lies between. What `surely_malloc` returns is any
address that is free; freed addresses may be used again.
-/

namespace DeepDB.Concurrency.HandOverHand
open Linearizability

/-- `tree`. -/
structure Node (V : Type) where
  key : Int
  value : Option V
  left : Nat
  right : Nat

/-- `tree_t`. -/
structure Box (T : Type) where
  t : Option Nat
  lock : Option T

structure Mem (T V : Type) where
  box : Nat → Option (Box T)
  node : Nat → Option (Node V)

/-- The addresses that `insert` allocates: `p`, `p1` and `p2`. -/
structure Block where
  node : Nat
  left : Nat
  right : Nat

variable {T V : Type}

def Fresh (m : Mem T V) (new : Block) : Prop :=
  m.node new.node = none ∧ m.box new.left = none ∧ m.box new.right = none ∧ new.left ≠ new.right

/-- A step cannot be taken now, or a pointer leads to no object. -/
inductive Stop where
  | blocked
  | fault

abbrev Exec := Except Stop

/-! ### Memory -/

def readBox (m : Mem T V) (b : Nat) : Exec (Box T) :=
  match m.box b with
  | some x => .ok x
  | none => .error .fault

def readNode (m : Mem T V) (p : Nat) : Exec (Node V) :=
  match m.node p with
  | some x => .ok x
  | none => .error .fault

/-- Following a pointer that may be NULL. -/
def deref (p : Option Nat) : Exec Nat :=
  match p with
  | some p => .ok p
  | none => .error .fault

def Mem.setBox (m : Mem T V) (b : Nat) (x : Option (Box T)) : Mem T V :=
  { m with box := Function.update m.box b x }

def Mem.setNode (m : Mem T V) (p : Nat) (x : Option (Node V)) : Mem T V :=
  { m with node := Function.update m.node p x }

theorem readBox_ok {m : Mem T V} {b : Nat} {x : Box T} (h : m.box b = some x) :
    readBox m b = .ok x := by
  rw [readBox, h]

theorem readNode_ok {m : Mem T V} {p : Nat} {x : Node V} (h : m.node p = some x) :
    readNode m p = .ok x := by
  rw [readNode, h]

theorem setBox_ne {m : Mem T V} {a b : Nat} (h : a ≠ b) (x : Option (Box T)) :
    (m.setBox b x).box a = m.box a :=
  Function.update_of_ne h _ _

theorem setNode_ne {m : Mem T V} {p q : Nat} (h : p ≠ q) (x : Option (Node V)) :
    (m.setNode q x).node p = m.node p :=
  Function.update_of_ne h _ _

def acquire (u : T) (b : Nat) (m : Mem T V) : Exec (Mem T V) := do
  let x ← readBox m b
  match x.lock with
  | none => .ok (m.setBox b (some { x with lock := some u }))
  | some _ => .error .blocked

/-- Only the holder may release a lock. -/
def release [DecidableEq T] (u : T) (b : Nat) (m : Mem T V) : Exec (Mem T V) := do
  let x ← readBox m b
  if x.lock = some u then .ok (m.setBox b (some { x with lock := none })) else .error .fault

/-! ### The functions -/

/-- What a thread is about to do, with its local variables: `enter` acquires the lock of the root;
`top` holds the lock of `tgt` at the top of the loop; `next` acquires the lock of the child and
`drop` releases the one of the parent. The others are in `pushdown_left`; `unlock` is the release
before the return. -/
inductive Pc (V : Type) where
  | idle
  | enter (op : MapOp Int V)
  | top (op : MapOp Int V) (tgt : Nat) (p : Option Nat)
  | next (op : MapOp Int V) (old tgt : Nat) (p : Option Nat)
  | drop (op : MapOp Int V) (old tgt : Nat) (p : Option Nat)
  | push (x : Int) (tgp : Nat)
  | pushNext (x : Int) (tgp p tgq : Nat)
  | pushed (x : Int) (tgp p tgq : Nat)
  | pushLeft (x : Int) (tgp p tgq tgl : Nat)
  | pushFree (x : Int) (tgp p tgq tgl : Nat)
  | pushDrop (x : Int) (old tgp : Nat)
  | unlock (b : Nat) (r : MapResult V)
  | done (r : MapResult V)

/-- `lookup` reads the node of a box as soon as it has the lock, before it releases the old one. -/
def reload (m : Mem T V) (op : MapOp Int V) (tgt : Nat) (p : Option Nat) : Exec (Option Nat) :=
  match op with
  | .lookup _ => do
    let x ← readBox m tgt
    .ok x.t
  | _ => .ok p

/-- The child of `p` on the way to `x`; the read of its `lock` field comes before `acquire`. -/
def descend (m : Mem T V) (op : MapOp Int V) (old : Nat) (p : Nat) (child : Nat) :
    Exec (Mem T V × Pc V) := do
  let _ ← readBox m child
  .ok (m, .next op old child (some p))

/-- `turn_left`. -/
def turnLeft (m : Mem T V) (tgl tgr : Nat) : Exec (Mem T V) := do
  let boxr ← readBox m tgr
  let r ← deref boxr.t
  let noder ← readNode m r
  let mid := noder.left
  let boxl ← readBox m tgl
  let l ← deref boxl.t
  let nodel ← readNode m l
  let m := m.setNode l (some { nodel with right := mid })
  let noder ← readNode m r
  let m := m.setNode r (some { noder with left := tgr })
  let m := m.setBox tgl (some { boxl with t := some r })
  let boxr ← readBox m tgr
  .ok (m.setBox tgr (some { boxr with t := some l }))

def exec [DecidableEq T] (tb : Nat) (u : T) (new : Block) (m : Mem T V) :
    Pc V → Exec (Mem T V × Pc V)
  | .enter op => do
    let m ← acquire u tb m
    let p ← reload m op tb none
    .ok (m, .top op tb p)
  | .top (.insert x v) tgt _ => do
    let box ← readBox m tgt
    match box.t with
    | none =>
      let m := m.setBox new.left (some ⟨none, none⟩)
      let m := m.setBox new.right (some ⟨none, none⟩)
      let m := m.setBox tgt (some { box with t := some new.node })
      let m := m.setNode new.node (some ⟨x, v, new.left, new.right⟩)
      .ok (m, .unlock tgt .done)
    | some p =>
      let node ← readNode m p
      if x < node.key then descend m (.insert x v) tgt p node.left
      else if node.key < x then descend m (.insert x v) tgt p node.right
      else .ok (m.setNode p (some { node with value := v }), .unlock tgt .done)
  | .top (.lookup x) tgt p =>
    match p with
    | none => .ok (m, .unlock tgt (.value none))
    | some p => do
      let node ← readNode m p
      if x < node.key then descend m (.lookup x) tgt p node.left
      else if node.key < x then descend m (.lookup x) tgt p node.right
      else .ok (m, .unlock tgt (.value node.value))
  | .top (.delete x) tgt _ => do
    let box ← readBox m tgt
    match box.t with
    | none => .ok (m, .unlock tgt .done)
    | some p =>
      let node ← readNode m p
      if x < node.key then descend m (.delete x) tgt p node.left
      else if node.key < x then descend m (.delete x) tgt p node.right
      else .ok (m, .push x tgt)
  | .next op old tgt p => do
    let m ← acquire u tgt m
    let p ← reload m op tgt p
    .ok (m, .drop op old tgt p)
  | .drop op old tgt p => do
    let m ← release u old m
    .ok (m, .top op tgt p)
  | .push x tgp => do
    let box ← readBox m tgp
    let p ← deref box.t
    let node ← readNode m p
    let _ ← readBox m node.right
    .ok (m, .pushNext x tgp p node.right)
  | .pushNext x tgp p tgq => do
    let m ← acquire u tgq m
    .ok (m, .pushed x tgp p tgq)
  | .pushed x tgp p tgq => do
    let box ← readBox m tgq
    match box.t with
    | none =>
      let node ← readNode m p
      let _ ← readBox m node.left
      .ok (m, .pushLeft x tgp p tgq node.left)
    | some q =>
      let m ← turnLeft m tgp tgq
      let node ← readNode m q
      .ok (m, .pushDrop x tgp node.left)
  | .pushLeft x tgp p tgq tgl => do
    let m ← acquire u tgl m
    .ok (m, .pushFree x tgp p tgq tgl)
  | .pushFree _ tgp p tgq tgl => do
    let boxl ← readBox m tgl
    let boxp ← readBox m tgp
    let m := m.setBox tgp (some { boxp with t := boxl.t })
    let m := m.setNode p none
    let m := m.setBox tgq none
    .ok (m.setBox tgl none, .unlock tgp .done)
  | .pushDrop x old tgp => do
    let m ← release u old m
    .ok (m, .push x tgp)
  | .unlock b r => do
    let m ← release u b m
    .ok (m, .done r)
  | .idle => .error .blocked
  | .done _ => .error .blocked

structure State (T V : Type) where
  mem : Mem T V
  pc : T → Pc V

/-- `treebox_new`. -/
def start (tb : Nat) : State T V where
  mem :=
    { box := Function.update (fun _ => none) tb (some ⟨none, none⟩)
      node := fun _ => none }
  pc := fun _ => .idle

inductive Step [DecidableEq T] (tb : Nat) :
    State T V → Option (Event T (MapOp Int V) (MapResult V)) → State T V → Prop where
  | call {s : State T V} (u : T) (op : MapOp Int V) : s.pc u = .idle →
      Step tb s (some (.call u op)) { s with pc := Function.update s.pc u (.enter op) }
  | run {s : State T V} (u : T) {new : Block} {mem : Mem T V} {pc : Pc V} : Fresh s.mem new →
      exec tb u new s.mem (s.pc u) = .ok (mem, pc) →
      Step tb s none { mem, pc := Function.update s.pc u pc }
  | ret {s : State T V} (u : T) (r : MapResult V) : s.pc u = .done r →
      Step tb s (some (.ret u r)) { s with pc := Function.update s.pc u .idle }

def system (T V : Type) [DecidableEq T] (tb : Nat) :
    System T (MapOp Int V) (MapResult V) where
  State := State T V
  Init s := s = start tb
  Step := Step tb

end DeepDB.Concurrency.HandOverHand
