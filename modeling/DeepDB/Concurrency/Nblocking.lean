import DeepDB.Lib.Linearizability

/-!
The lock-free tree of `concurrency/bst_conc_nblocking.c`. Threads interleave at the atomic loads,
compare-and-swaps and stores, and at the allocation and release of a node that is not yet in the
tree. Addresses are numbers; the atomic pointers to nodes and those to values have address spaces of
their own, and so have the nodes. What `surely_malloc` returns is any address that is free.
-/

namespace DeepDB.Concurrency.Nblocking
open Linearizability

/-- `struct tree`. -/
structure Node where
  key : Int
  value : Nat
  left : Nat
  right : Nat
  deriving DecidableEq

variable {T V : Type}

structure Mem (V : Type) where
  tree : Nat → Option Node
  ptr : Nat → Option (Option Nat)
  val : Nat → Option (Option V)

/-- The addresses of a new node: `p`, `val`, `left` and `right` of `insert`. -/
structure Block where
  node : Nat
  value : Nat
  left : Nat
  right : Nat

def Fresh (m : Mem V) (b : Block) : Prop :=
  m.tree b.node = none ∧ m.val b.value = none ∧ m.ptr b.left = none ∧ m.ptr b.right = none ∧
    b.left ≠ b.right

/-- What a thread is about to do. `insert` is at its atomic load, at the allocation after a load of
NULL, at the compare-and-swap, at the release after a failure, or at the store of a value; `lookup`
is at the load of a node or of a value. -/
inductive Pc (V : Type) where
  | idle
  | load (x : Int) (v : Option V) (temp : Nat) (ref : Option Nat)
  | alloc (x : Int) (v : Option V) (temp : Nat) (ref : Option Nat)
  | cas (x : Int) (v : Option V) (temp : Nat) (ref : Option Nat) (b : Block)
  | release (x : Int) (v : Option V) (temp : Nat) (ref : Option Nat) (b : Block)
  | store (x : Int) (v : Option V) (value : Nat)
  | inserted (x : Int)
  | find (x : Int) (ap : Nat)
  | fetch (x : Int) (value : Nat)
  | found (x : Int) (v : Option V)

/-- The next step of a thread; it has no value when a pointer leads to no object. -/
def exec (new : Block) (m : Mem V) : Pc V → Option (Mem V × Pc V)
  | .load x v temp ref => do
    match ← m.ptr temp with
    | none => some (m, .alloc x v temp ref)
    | some tp =>
      let p ← m.tree tp
      if x < p.key then some (m, .load x v p.left ref)
      else if p.key < x then some (m, .load x v p.right ref)
      else some (m, .store x v p.value)
  | .alloc x v temp ref =>
    some ({ tree := Function.update m.tree new.node (some ⟨x, new.value, new.left, new.right⟩)
            ptr := Function.update (Function.update m.ptr new.left (some none)) new.right
              (some none)
            val := Function.update m.val new.value (some v) }, .cas x v temp ref new)
  | .cas x v temp ref b => do
    let c ← m.ptr temp
    if c = ref then
      some ({ m with ptr := Function.update m.ptr temp (some (some b.node)) }, .inserted x)
    else some (m, .release x v temp c b)
  | .release x v temp ref b =>
    some ({ tree := Function.update m.tree b.node none
            ptr := Function.update (Function.update m.ptr b.left none) b.right none
            val := Function.update m.val b.value none }, .load x v temp ref)
  | .store x v value => do
    let _ ← m.val value
    some ({ m with val := Function.update m.val value (some v) }, .inserted x)
  | .find x ap => do
    match ← m.ptr ap with
    | none => some (m, .found x none)
    | some p =>
      let p ← m.tree p
      if x < p.key then some (m, .find x p.left)
      else if p.key < x then some (m, .find x p.right)
      else some (m, .fetch x p.value)
  | .fetch x value => do
    let v ← m.val value
    some (m, .found x v)
  | _ => none

/-- `insert` and `lookup` on the tree in the box `tb`. -/
def enter (tb : Nat) : MapOp Int V → Option (Pc V)
  | .insert x v => some (.load x v tb none)
  | .lookup x => some (.find x tb)
  | .delete _ => none

def answer : Pc V → Option (MapResult V)
  | .inserted _ => some .done
  | .found _ v => some (.value v)
  | _ => none

/-- The thread is inside `insert` or `lookup`. -/
def Pc.Running : Pc V → Prop
  | .idle => False
  | .inserted _ => False
  | .found _ _ => False
  | _ => True

structure State (T V : Type) where
  mem : Mem V
  pc : T → Pc V

/-- `treebox_new`. -/
def start (tb : Nat) : State T V where
  mem :=
    { tree := fun _ => none
      ptr := Function.update (fun _ => none) tb (some none)
      val := fun _ => none }
  pc := fun _ => .idle

inductive Step [DecidableEq T] (tb : Nat) :
    State T V → Option (Event T (MapOp Int V) (MapResult V)) → State T V → Prop where
  | call {s : State T V} (t : T) {op : MapOp Int V} {pc : Pc V} : s.pc t = .idle →
      enter tb op = some pc →
      Step tb s (some (.call t op)) { s with pc := Function.update s.pc t pc }
  | run {s : State T V} (t : T) {new : Block} {mem : Mem V} {pc : Pc V} : Fresh s.mem new →
      exec new s.mem (s.pc t) = some (mem, pc) →
      Step tb s none { mem, pc := Function.update s.pc t pc }
  | ret {s : State T V} (t : T) {r : MapResult V} : answer (s.pc t) = some r →
      Step tb s (some (.ret t r)) { s with pc := Function.update s.pc t .idle }

def system (T V : Type) [DecidableEq T] (tb : Nat) :
    System T (MapOp Int V) (MapResult V) where
  State := State T V
  Init s := s = start tb
  Step := Step tb

end DeepDB.Concurrency.Nblocking
