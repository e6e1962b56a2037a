import DeepDB.Lib.RelyGuarantee

/-!
The lock-free tree with helping, `concurrency/bst_conc_nblocking4.c`. Threads interleave at the
loads, stores and compare-and-swaps. Nodes, atomic pointers to nodes and operations have addresses of
their own, numbered as they are allocated; what other threads may have seen is not freed. A new
object that only a compare-and-swap shows to others is allocated with it, and not at all if that fails.
The records of hazard pointers are not used.
-/

namespace DeepDB.Concurrency.Nblocking4
open RelyGuarantee

/-- A pointer to a node: `NULL`, `SET_NULL(NULL)` or a node. -/
inductive Ref where
  | NULL
  | tagged
  | node (n : Nat)
  deriving DecidableEq

def IS_NULL : Ref → Bool
  | .tagged => true
  | _ => false

inductive OperationState where
  | ONGOING
  | SUCCESSFUL
  | FAILED
  deriving DecidableEq

inductive FlagType where
  | NONE
  | MARK
  | CHILDCAS
  | RELOCATE
  deriving DecidableEq

inductive FindResult where
  | ABORT
  | NOTFOUND_L
  | NOTFOUND_R
  | FOUND
  deriving DecidableEq

/-- `operation` with the record that its type says. `dest` is an atomic pointer, `dest_op` an
operation. -/
inductive Operation (V : Type) where
  | none
  | mark
  | childCas (is_left : Bool) (expected update : Ref)
  | relocate (state : OperationState) (dest dest_op : Nat) (remove_key replace_key : Int)
      (replace_value : V)

def GET_FLAG {V : Type} : Operation V → FlagType
  | .none => .NONE
  | .mark => .MARK
  | .childCas _ _ _ => .CHILDCAS
  | .relocate _ _ _ _ _ _ => .RELOCATE

/-- `tree`: `op` is an operation, `left` and `right` are atomic pointers. -/
structure Node (V : Type) where
  key : Int
  value : V
  op : Nat
  left : Nat
  right : Nat

def Node.child {V : Type} (p : Node V) (is_left : Bool) : Nat := if is_left then p.left else p.right

structure Mem (V : Type) where
  tree : List (Node V)
  ptr : List Ref
  ops : List (Operation V)

variable {V : Type}

def base_root : Nat := 0

/-- The memory when `main` starts the threads; `null` is the value `NULL`. -/
def start (null : V) : Mem V where
  tree := [⟨-1, null, 0, 1, 2⟩]
  ptr := [.node 0, .NULL, .NULL]
  ops := [.none]

def Mem.modify (m : Mem V) (n : Nat) (f : Node V → Node V) : Mem V :=
  { m with tree := m.tree.modify n f }

def Mem.setOp (m : Mem V) (n op : Nat) : Mem V := m.modify n fun p => { p with op }

/-- A new operation is put into a node. -/
def Mem.putOp (m : Mem V) (n : Nat) (new : Operation V) : Mem V :=
  { m.setOp n m.ops.length with ops := m.ops ++ [new] }

/-- A new node without children, with an operation of its own. -/
def Mem.newNode (m : Mem V) (key : Int) (value : V) : Mem V where
  tree := m.tree ++ [⟨key, value, m.ops.length, m.ptr.length, m.ptr.length + 1⟩]
  ptr := m.ptr ++ [.tagged, .tagged]
  ops := m.ops ++ [.none]

/-! ### Atomic actions -/

inductive Act (V : Type) where
  /-- A load whose result is used as a node. -/
  | loadNode (a : Nat)
  /-- A load of a child of a node. -/
  | loadChild (n : Nat) (is_left : Bool)
  | loadOp (n : Nat)
  | loadKey (n : Nat)
  | loadValue (n : Nat)
  | storeKey (n : Nat) (key : Int)
  | storeValue (n : Nat) (value : V)
  | casChild (n : Nat) (is_left : Bool) (expected update : Ref)
  /-- A new operation is put into a node. -/
  | casOp (n expected : Nat) (new : Operation V)
  /-- A new `childCas` operation whose update is a new node. -/
  | casOpNode (n expected : Nat) (is_left : Bool) (old : Ref) (key : Int) (value : V)
  | newOp (new : Operation V)
  | loadState (op : Nat)
  | casState (op : Nat) (expected new : OperationState)
  /-- The operation `op` is put into the node in the place of its `dest_op`. -/
  | casDest (n op : Nat)
  /-- The record of an operation of another type is used, or a variable that was not written. -/
  | fault

def Act.Result : Act V → Type
  | .loadNode _ => Nat
  | .loadChild _ _ => Nat × Ref
  | .loadOp _ => Nat × Operation V
  | .loadKey _ => Int
  | .loadValue _ => V
  | .storeKey _ _ => Unit
  | .storeValue _ _ => Unit
  | .casChild _ _ _ _ => Bool
  | .casOp _ _ _ => Option (Nat × Operation V)
  | .casOpNode _ _ _ _ _ _ => Option (Nat × Operation V)
  | .newOp _ => Nat
  | .loadState _ => OperationState
  | .casState _ _ _ => Bool
  | .casDest _ _ => Bool
  | .fault => Unit

def exec : (a : Act V) → Mem V → Option (a.Result × Mem V)
  | .loadNode a, m =>
    match m.ptr[a]? with
    | some (.node n) => some (n, m)
    | _ => none
  | .loadChild n is_left, m => do
    let p ← m.tree[n]?
    return ((p.child is_left, ← m.ptr[p.child is_left]?), m)
  | .loadOp n, m => do
    let p ← m.tree[n]?
    return ((p.op, ← m.ops[p.op]?), m)
  | .loadKey n, m => do return ((← m.tree[n]?).key, m)
  | .loadValue n, m => do return ((← m.tree[n]?).value, m)
  | .storeKey n key, m => do
    let _ ← m.tree[n]?
    return ((), m.modify n fun p => { p with key })
  | .storeValue n value, m => do
    let _ ← m.tree[n]?
    return ((), m.modify n fun p => { p with value })
  | .casChild n is_left expected update, m => do
    let p ← m.tree[n]?
    if (← m.ptr[p.child is_left]?) = expected then
      return (true, { m with ptr := m.ptr.set (p.child is_left) update })
    else return (false, m)
  | .casOp n expected new, m => do
    if (← m.tree[n]?).op = expected then return (some (m.ops.length, new), m.putOp n new)
    else return (none, m)
  | .casOpNode n expected is_left old key value, m => do
    if (← m.tree[n]?).op = expected then
      let new : Operation V := .childCas is_left old (.node m.tree.length)
      return (some (m.ops.length + 1, new), (m.newNode key value).putOp n new)
    else return (none, m)
  | .newOp new, m => some (m.ops.length, { m with ops := m.ops ++ [new] })
  | .loadState op, m =>
    match m.ops[op]? with
    | some (.relocate state _ _ _ _ _) => some (state, m)
    | _ => none
  | .casState op expected new, m =>
    match m.ops[op]? with
    | some (.relocate state dest dest_op remove_key replace_key replace_value) =>
      if state = expected then
        some (true, { m with
          ops := m.ops.set op (.relocate new dest dest_op remove_key replace_key replace_value) })
      else some (false, m)
    | _ => none
  | .casDest n op, m =>
    match m.ops[op]? with
    | some (.relocate state dest dest_op remove_key replace_key replace_value) => do
      let p ← m.tree[n]?
      if p.op = dest_op then return (true, m.setOp n op)
      else return (false, { m with
        ops := m.ops.set op (.relocate state dest p.op remove_key replace_key replace_value) })
    | _ => none
  | .fault, _ => none

abbrev Code (V : Type) := Prog (Act V) Act.Result

def loadNode (a : Nat) : Code V Nat := .perform (Act.loadNode a)
def loadChild (n : Nat) (is_left : Bool) : Code V (Nat × Ref) := .perform (Act.loadChild n is_left)
def loadOp (n : Nat) : Code V (Nat × Operation V) := .perform (Act.loadOp n)
def loadKey (n : Nat) : Code V Int := .perform (Act.loadKey n)
def loadValue (n : Nat) : Code V V := .perform (Act.loadValue n)
def storeKey (n : Nat) (key : Int) : Code V Unit := .perform (Act.storeKey n key)
def storeValue (n : Nat) (value : V) : Code V Unit := .perform (Act.storeValue n value)
def casChild (n : Nat) (is_left : Bool) (expected update : Ref) : Code V Bool :=
  .perform (Act.casChild n is_left expected update)
def casOp (n expected : Nat) (new : Operation V) : Code V (Option (Nat × Operation V)) :=
  .perform (Act.casOp n expected new)
def casOpNode (n expected : Nat) (is_left : Bool) (old : Ref) (key : Int) (value : V) :
    Code V (Option (Nat × Operation V)) := .perform (Act.casOpNode n expected is_left old key value)
def newOp (new : Operation V) : Code V Nat := .perform (Act.newOp new)
def loadState (op : Nat) : Code V OperationState := .perform (Act.loadState op)
def casState (op : Nat) (expected new : OperationState) : Code V Bool :=
  .perform (Act.casState op expected new)
def casDest (n op : Nat) : Code V Bool := .perform (Act.casDest n op)
def fault : Code V Unit := .perform Act.fault

/-! ### Helping -/

/-- An operation comes with its address. -/
def helpChildCAS (op : Nat × Operation V) (dest : Nat) : Code V Unit :=
  match op.2 with
  | .childCas is_left expected update => do
    let _ ← casChild dest is_left expected update
    let _ ← casOp dest op.1 .none
    return ()
  | _ => fault

/-- `IS_NULL(curr->left)` and `IS_NULL(curr->right)` test the address of an atomic pointer, which is
never odd, so that `new_ref` is always the left child. -/
def helpMarked (pred pred_op curr : Nat) : Code V Unit := do
  let (_, new_ref) ← loadChild curr true
  let (_, left) ← loadChild pred true
  let cas_op : Operation V := .childCas (left = .node curr) (.node curr) new_ref
  match ← casOp pred pred_op cas_op with
  | some new_op => helpChildCAS new_op pred
  | none => return ()

/-- The state that `helpRelocate` goes on with. -/
def decideState (op real_dest : Nat) (seen_state : OperationState) : Code V OperationState :=
  if seen_state = .ONGOING then do
    let old_op ← loadOp real_dest
    let success ← casDest real_dest op
    if success || old_op.1 == op then
      let _ ← casState op .ONGOING .SUCCESSFUL
      return .SUCCESSFUL
    else
      let seen_state ← loadState op
      let _ ← casState op .ONGOING .FAILED
      return seen_state
  else return seen_state

def storeDest (op real_dest : Nat) (replace_key : Int) (replace_value : V) : Code V Unit := do
  storeKey real_dest replace_key
  storeValue real_dest replace_value
  let _ ← casOp real_dest op .none
  return ()

def helpRelocate (op : Nat × Operation V) (pred pred_op curr : Nat) : Code V Bool :=
  match op.2 with
  | .relocate _ dest _ _ replace_key replace_value => do
    let seen_state ← loadState op.1
    let real_dest ← loadNode dest
    let seen_state ← decideState op.1 real_dest seen_state
    let result : Bool := seen_state = .SUCCESSFUL
    if result then storeDest op.1 real_dest replace_key replace_value
    if real_dest = curr then return result
    else
      let _ ← casOp curr op.1 (if result then .mark else .none)
      if result then
        if real_dest = pred then
          let pred_op ← newOp .none
          helpMarked pred pred_op curr
        else helpMarked pred pred_op curr
      return result
  | _ => do
    fault
    return false

def help (pred pred_op curr : Nat) (curr_op : Nat × Operation V) : Code V Unit :=
  match GET_FLAG curr_op.2 with
  | .CHILDCAS => helpChildCAS curr_op curr
  | .RELOCATE => do
    let _ ← helpRelocate curr_op pred pred_op curr
    return ()
  | .MARK => helpMarked pred pred_op curr
  | .NONE => return ()

/-! ### `find`, `add` and `delete` -/

/-- The result of `find` and what it writes to its arguments, `pred` with `pred_op`. -/
structure Found (V : Type) where
  result : FindResult
  pred : Option (Nat × Nat)
  curr : Nat
  curr_op : Nat
  value : Option V

/-- `*pred = *curr`, `*pred_op = *curr_op`, `*curr = next` and `*curr_op` is loaded. -/
def Found.go (out : Found V) (next op : Nat) : Found V :=
  { out with pred := some (out.curr, out.curr_op), curr := next, curr_op := op }

/-- The inner loop, for `room` rounds: `next` is the atomic pointer from which `tp_next` was loaded. -/
def descend (key : Int) : Nat → Found V → Nat → Ref → Code V (Found V)
  | 0, _, _, _ => .stop
  | room + 1, out, next, tp_next =>
    match tp_next with
    | .node tp_next => do
      let op ← loadOp tp_next
      if GET_FLAG op.2 ≠ .NONE then
        let pred ← loadNode out.curr
        help pred out.curr_op tp_next op
        return out.go next op.1
      else
        let curr_key ← loadKey tp_next
        if key < curr_key then
          let child ← loadChild tp_next true
          descend key room { out.go next op.1 with result := .NOTFOUND_L } child.1 child.2
        else if curr_key < key then
          let child ← loadChild tp_next false
          descend key room { out.go next op.1 with result := .NOTFOUND_R } child.1 child.2
        else
          let value ← loadValue tp_next
          return { out.go next op.1 with result := .FOUND, value := some value }
    | _ => return out

/-- `find` for some rounds, each with `room` for its inner loop, from what `pred` was before. -/
def find (key : Int) (pred : Option (Nat × Nat)) (auxRoot room : Nat) : Nat → Code V (Found V)
  | 0 => .stop
  | rounds + 1 => do
    let tp ← loadNode auxRoot
    let op ← loadOp tp
    if GET_FLAG op.2 ≠ .NONE then
      if auxRoot = base_root then
        helpChildCAS op tp
        find key pred auxRoot room rounds
      else return ⟨.ABORT, pred, auxRoot, op.1, none⟩
    else
      let child ← loadChild tp false
      descend key room ⟨.NOTFOUND_R, pred, auxRoot, op.1, none⟩ child.1 child.2

def add (key : Int) (value : V) (room : Nat) : Nat → Code V Unit
  | 0 => .stop
  | rounds + 1 => do
    let out ← find key none base_root room room
    let tp ← loadNode out.curr
    if out.result = .FOUND then return ()
    else
      let left_child ← loadChild tp true
      let right_child ← loadChild tp false
      let is_left := out.result = .NOTFOUND_L
      let old := if is_left then left_child.2 else right_child.2
      match ← casOpNode tp out.curr_op is_left old key value with
      | some new_op => helpChildCAS new_op tp
      | none => add key value room rounds

def delete (key : Int) (room : Nat) : Nat → Code V Unit
  | 0 => .stop
  | rounds + 1 => do
    let out ← find key none base_root room room
    if out.result ≠ .FOUND then return ()
    else
      let tp ← loadNode out.curr
      let left ← loadChild tp true
      let right ← loadChild tp false
      if IS_NULL right.2 || IS_NULL left.2 then
        match ← casOp tp out.curr_op .mark with
        | some _ =>
          match out.pred with
          | some (pred, pred_op) => do
            let pred ← loadNode pred
            helpMarked pred pred_op tp
          | none => fault
        | none => delete key room rounds
      else
        let out' ← find key out.pred out.curr room room
        if out'.result = .ABORT then delete key room rounds
        else
          let op ← loadOp tp
          if op.1 ≠ out.curr_op then delete key room rounds
          else
            match out'.pred with
            | some (pred, pred_op) => do
              let replace_real ← loadNode out'.curr
              let pred_real ← loadNode pred
              let replace_key ← loadKey replace_real
              let replace_value ← loadValue replace_real
              match ← casOp replace_real out'.curr_op
                (.relocate .ONGOING out.curr out.curr_op key replace_key replace_value) with
              | some new_op =>
                if ← helpRelocate new_op pred_real pred_op replace_real then return ()
                else delete key room rounds
              | none => delete key room rounds
            | none => fault

end DeepDB.Concurrency.Nblocking4
