import Mathlib.Data.Num.ZNum
import DeepDB.Lib.SortedAssoc

/-!
The original functional B-tree, `model/BTrees.v`. A tree list is a leaf of values or an interior
node whose subtrees carry the key above them, the last one none. A cursor holds the indices and the
tree lists from the leaf up to the root. Keys are binary integers, `lt_key` compares them bit by
bit.
-/

namespace DeepDB.Model

abbrev Key := ZNum

mutual

inductive Tree (V : Type) where
  | node (k : Key) (f : TreeList V)
  | final (f : TreeList V)
  | val (k : Key) (v : V)

inductive TreeList (V : Type) where
  | nil
  | cons (t : Tree V) (f : TreeList V)

end

/-- The indices and the tree lists, the leaf first. -/
abbrev Cursor (V : Type) := List Nat × List (TreeList V)

inductive SplitPair (V : Type) where
  | One (f : TreeList V)
  | Two (f1 : TreeList V) (k : Key) (f2 : TreeList V)

/-! ### Keys -/

def eqPos : PosNum → PosNum → Bool
  | .bit1 p1, .bit1 p2 => eqPos p1 p2
  | .bit0 p1, .bit0 p2 => eqPos p1 p2
  | .one, .one => true
  | _, _ => false

def eqKey : Key → Key → Bool
  | .zero, .zero => true
  | .pos p1, .pos p2 => eqPos p1 p2
  | .neg p1, .neg p2 => eqPos p1 p2
  | _, _ => false

/-- `curVal` says which number was smaller in the last bit where they differed. -/
def ltPos : PosNum → PosNum → Bool → Bool
  | .one, .one, curVal => curVal
  | .one, _, _ => true
  | .bit0 _, .one, _ => false
  | .bit0 p1, .bit0 p2, curVal => ltPos p1 p2 curVal
  | .bit0 p1, .bit1 p2, _ => ltPos p1 p2 true
  | .bit1 _, .one, _ => false
  | .bit1 p1, .bit0 p2, _ => ltPos p1 p2 false
  | .bit1 p1, .bit1 p2, curVal => ltPos p1 p2 curVal

def ltKey : Key → Key → Bool
  | .pos p1, .pos p2 => ltPos p1 p2 false
  | .pos _, _ => false
  | .zero, .pos _ => true
  | .zero, _ => false
  | .neg p1, .neg p2 => ltPos p2 p1 false
  | .neg _, _ => true

variable {V : Type}

/-! ### Tree lists -/

namespace TreeList

/-- `treelist_length`. -/
def length : TreeList V → Nat
  | nil => 0
  | cons _ f => f.length + 1

/-- `lin_search`. -/
def linSearch : Nat → TreeList V → Option (Tree V)
  | _, nil => none
  | 0, cons t _ => some t
  | n + 1, cons _ f => linSearch n f

/-- The subtrees before an index, the one there and those after it. -/
def point : Nat → TreeList V → TreeList V × Option (Tree V) × TreeList V
  | _, nil => (nil, none, nil)
  | 0, cons t f => (nil, some t, f)
  | n + 1, cons t f =>
    match point n f with
    | (f1, t', f2) => (cons t f1, t', f2)

end TreeList

open TreeList

/-- Half of `n`, rounded up when `flip`. -/
def divTwo : Nat → Bool → Nat
  | 0, _ => 0
  | n + 1, true => divTwo n false + 1
  | n + 1, false => divTwo n true

/-! ### Cursors -/

/-- The walk along one tree list, and into the subtree where the key belongs. -/
def makeCursorRec (x : Key) : TreeList V → List Nat → List (TreeList V) → Nat → Cursor V
  | .nil, ci, ct, n => (n :: ci, ct)
  | .cons (.node k f') f, ci, ct, n =>
    if ltKey k x then makeCursorRec x f ci ct (n + 1)
    else makeCursorRec x f' (n :: ci) (f' :: ct) 0
  | .cons (.final f') .nil, ci, ct, n => makeCursorRec x f' (n :: ci) (f' :: ct) 0
  | .cons (.val k _) f, ci, ct, n =>
    if ltKey k x then makeCursorRec x f ci ct (n + 1) else (n :: ci, ct)
  | _, _, _, _ => ([], [])
termination_by structural f => f

def makeCursor (x : Key) (f : TreeList V) : Cursor V := makeCursorRec x f [] [f] 0

/-- The cursor at the next value and the key met on the way. -/
def nextNode : List Nat → List (TreeList V) → Option (Cursor V × Key)
  | n :: cn', f :: cf' =>
    match point n f with
    | (_, some (.node k _), .cons (.node _ _) _) => some (((n + 1) :: cn', f :: cf'), k)
    | (_, some (.node k _), .cons (.final _) _) => some (((n + 1) :: cn', f :: cf'), k)
    | (_, some (.val k _), _) => some ((n :: cn', f :: cf'), k)
    | _ =>
      match nextNode cn' cf' with
      | some ((n' :: cn, f' :: cf), k) =>
        match point n' f' with
        | (_, some (.node _ f1), _) => some ((0 :: n' :: cn, f1 :: f' :: cf), k)
        | (_, some (.final f1), _) => some ((0 :: n' :: cn, f1 :: f' :: cf), k)
        | _ => none
      | _ => none
  | _, _ => none

def prevNode : List Nat → List (TreeList V) → Option (Cursor V × Key)
  | (n + 1) :: cn', f :: cf' =>
    match point n f with
    | (_, some (.node k _), _) => some ((n :: cn', f :: cf'), k)
    | (_, some (.final _), _) => none
    | (_, some (.val k _), _) => some (((n + 1) :: cn', f :: cf'), k)
    | (_, none, _) => none
  | 0 :: cn', _ :: cf' =>
    match prevNode cn' cf' with
    | some ((n :: cn, f :: cf), k) =>
      match point n f with
      | (_, some (.node _ f'), _) => some (((f'.length - 1) :: n :: cn, f' :: f :: cf), k)
      | (_, some (.final f'), _) => some (((f'.length - 1) :: n :: cn, f' :: f :: cf), k)
      | _ => none
    | _ => none
  | _, _ => none

def moveToNext (c : Cursor V) : Cursor V :=
  match nextNode c.1 c.2 with
  | some ((n :: cn', cf'), _) => ((n + 1) :: cn', cf')
  | _ => c

def moveToPrev (c : Cursor V) : Cursor V :=
  match prevNode c.1 c.2 with
  | some (((n + 1) :: cn', cf'), _) => (n :: cn', cf')
  | _ => c

def getTree (c : Cursor V) : Option (Tree V) :=
  match nextNode c.1 c.2 with
  | some ((n :: _, f :: _), _) => linSearch n f
  | _ => none

def getKey (c : Cursor V) : Option Key :=
  match getTree c with
  | some (.val k _) => some k
  | _ => none

def get (c : Cursor V) : Option V :=
  match getTree c with
  | some (.val _ v) => some v
  | _ => none

/-- The last tree list of a cursor. -/
def getRoot : List (TreeList V) → TreeList V
  | [] => .nil
  | [f] => f
  | _ :: cf => getRoot cf

def getTreelist (c : Cursor V) : TreeList V := getRoot c.2

/-- The key belongs at the cursor: above the value before it, not above the one at it. -/
def keyRel (k : Key) (c : Cursor V) : Bool :=
  match getKey c with
  | some k1 =>
    match getKey (moveToPrev c) with
    | some k2 => ltKey k2 k && !ltKey k1 k
    | none => !ltKey k1 k
  | none =>
    match getKey (moveToPrev c) with
    | some k2 => ltKey k2 k
    | none => true

/-! ### Insertion -/

/-- Takes a tree list apart after its entry `n`. -/
def split : TreeList V → Nat → SplitPair V
  | .nil, _ => .One .nil
  | .cons (.node k f'') f', 0 => .Two (.cons (.final f'') .nil) k f'
  | .cons (.val k v) f', 0 => .Two (.cons (.val k v) .nil) k f'
  | .cons (.final f'') f', 0 => .One (.cons (.final f'') f')
  | .cons t f', n + 1 =>
    match split f' n with
    | .One f1 => .One (.cons t f1)
    | .Two f1 k' f2 => .Two (.cons t f1) k' f2

def decideSplit (b : Nat) (f : TreeList V) : SplitPair V :=
  if f.length ≤ b then .One f else split f (divTwo f.length false)

/-- Puts what became of a child in its place. The source's last child splits in front of the old
one: its tail `f'` is still the list the call was given. -/
def insertAcross (s : SplitPair V) : TreeList V → Nat → TreeList V
  | .cons (.node k _) f', 0 =>
    match s with
    | .One f => .cons (.node k f) f'
    | .Two f1 k' f2 => .cons (.node k' f1) (.cons (.node k f2) f')
  | .cons (.node k f) f', n + 1 => .cons (.node k f) (insertAcross s f' n)
  | .cons (.final old) .nil, 0 =>
    match s with
    | .One f => .cons (.final f) .nil
    | .Two f1 k' f2 => .cons (.node k' f1) (.cons (.final f2) (.cons (.final old) .nil))
  | .cons (.final f) .nil, _ + 1 => .cons (.final f) .nil
  | _, _ => .nil

def insertUp (b : Nat) (s : SplitPair V) : List Nat → List (TreeList V) → Cursor V
  | n :: cn, f :: cf =>
    match decideSplit b (insertAcross s f n) with
    | .One f =>
      match insertUp b (.One f) cn cf with
      | (cn, cf) => (n :: cn, f :: cf)
    | .Two f1 k f2 =>
      match insertUp b (.Two f1 k f2) cn cf with
      | (cn, cf) =>
        if f1.length ≤ n then ((n - f1.length) :: cn, f2 :: cf) else (n :: cn, f1 :: cf)
  | _, _ => ([], [])

def insertVal (x : Key) (v : V) : Nat → TreeList V → Nat × TreeList V
  | 0, .cons (.val k v') f =>
    if eqKey k x then (0, .cons (.val k v) f)
    else (1, .cons (.val x v) (.cons (.val k v') f))
  | n + 1, .cons (.val k v') f =>
    match insertVal x v n f with
    | (n, f) => (n + 1, .cons (.val k v') f)
  | _, _ => (1, .cons (.val x v) .nil)

/-- The cursor to insert at, none when the key is not in its range. -/
def positionForInsert (c : Cursor V) (x : Key) : Option (Cursor V) :=
  match nextNode c.1 c.2 with
  | some (c1, k1) =>
    match prevNode c.1 c.2 with
    | some (c2, k2) =>
      if ltKey k1 x then some c1
      else if !ltKey k2 x then some c2
      else none
    | none => if ltKey k1 x then none else some c
  | none =>
    match prevNode c.1 c.2 with
    | some (_, k2) => if ltKey k2 x then some c else none
    | none => none

def insert (b : Nat) (x : Key) (v : V) (c : Cursor V) : Cursor V :=
  match positionForInsert c x with
  | some (n :: cn, f :: cf) =>
    match insertVal x v n f with
    | (n', f') =>
      match decideSplit b f' with
      | .One f'' =>
        match insertUp b (.One f'') cn cf with
        | (cn', cf') => (n' :: cn', f'' :: cf')
      | .Two f1 k f2 =>
        match insertUp b (.Two f1 k f2) cn cf with
        | (cn', cf') =>
          if f1.length ≤ n' then ((n' - f1.length) :: cn', f2 :: cf') else (n' :: cn', f1 :: cf')
  | some _ => ([1], [.cons (.val x v) .nil])
  | none => c

/-! ### Elements and correctness -/

/-- `elements'`. -/
def elementsBase : TreeList V → List (Key × V) → List (Key × V)
  | .cons (.node _ f1) f2, base => elementsBase f1 (elementsBase f2 base)
  | .cons (.final f1) f2, base => elementsBase f1 (elementsBase f2 base)
  | .cons (.val k v) f2, base => (k, v) :: elementsBase f2 base
  | .nil, base => base
termination_by structural f => f

def elements (f : TreeList V) : List (Key × V) := elementsBase f []

def rightEl : TreeList V → List (Key × V) → List (Key × V)
  | .cons (.node _ f1) f2, base => rightEl f2 (rightEl f1 base)
  | .cons (.final f1) f2, base => rightEl f2 (rightEl f1 base)
  | .cons (.val k v) f2, base => rightEl f2 (base ++ [(k, v)])
  | .nil, base => base
termination_by structural f => f

/-- The value nearest to the end of the list comes first. -/
def leftEl : TreeList V → List (Key × V) → List (Key × V)
  | .cons (.node _ f1) f2, base => leftEl f1 (leftEl f2 base)
  | .cons (.final f1) f2, base => leftEl f1 (leftEl f2 base)
  | .cons (.val k v) f2, base => leftEl f2 base ++ [(k, v)]
  | .nil, base => base
termination_by structural f => f

/-- `cursor_elements'`. -/
def cursorElementsAux : List Nat → List (TreeList V) → List (Key × V) → List (Key × V) →
    List (Key × V) × List (Key × V)
  | n :: cn, f :: cf, left, right =>
    match point n f with
    | (f1, _, f2) => cursorElementsAux cn cf (leftEl f1 left) (rightEl f2 right)
  | _, _, left, right => (left, right)

def cursorElements : Cursor V → List (Key × V) × List (Key × V)
  | (n :: cn, f :: cf) =>
    match point n f with
    | (_, some (.val k v), _) => cursorElementsAux (n :: cn) (f :: cf) [] [(k, v)]
    | _ => cursorElementsAux (n :: cn) (f :: cf) [] []
  | _ => ([], [])

inductive TreelistSorted : Key → Key → TreeList V → Prop
  | nil (ki kf : Key) : TreelistSorted ki kf .nil
  | node (ki ki' kf k : Key) (f f' : TreeList V) (rest : TreelistSorted ki' kf f)
      (below : TreelistSorted ki k f') (le : ltKey ki' k = false) (lt : ltKey ki k = true) :
      TreelistSorted ki kf (.cons (.node k f') f)
  | final (ki ki' kf : Key) (f f' : TreeList V) (rest : TreelistSorted ki' kf f)
      (below : TreelistSorted ki ki' f') (lt : ltKey ki ki' = true) :
      TreelistSorted ki kf (.cons (.final f') f)
  | val (ki ki' kf k : Key) (v : V) (f : TreeList V) (rest : TreelistSorted ki' kf f)
      (le : ltKey ki' k = false) (lt : ltKey ki k = true) :
      TreelistSorted ki kf (.cons (.val k v) f)

def Sorted (f : TreeList V) : Prop := ∃ ki kf, TreelistSorted ki kf f

inductive BalancedTreelist : Nat → TreeList V → Prop
  | nil : BalancedTreelist 1 .nil
  | val (k : Key) (v : V) (f : TreeList V) (rest : BalancedTreelist 1 f) :
      BalancedTreelist 1 (.cons (.val k v) f)
  | node (n : Nat) (k : Key) (f f' : TreeList V) (below : BalancedTreelist n f)
      (rest : BalancedTreelist (n + 1) f') : BalancedTreelist (n + 1) (.cons (.node k f) f')
  | final (n : Nat) (f : TreeList V) (below : BalancedTreelist n f) :
      BalancedTreelist (n + 1) (.cons (.final f) .nil)

def Balanced (f : TreeList V) : Prop := ∃ n, BalancedTreelist n f

inductive FanoutRestr (b : Nat) : Nat → TreeList V → Prop
  | nil : FanoutRestr b 0 .nil
  | val (n : Nat) (f : TreeList V) (k : Key) (v : V) (room : n < b) (rest : FanoutRestr b n f) :
      FanoutRestr b (n + 1) (.cons (.val k v) f)
  | node (n n' : Nat) (k : Key) (f f' : TreeList V) (enough : n' > divTwo b false)
      (below : FanoutRestr b n' f') (room : n < b) (rest : FanoutRestr b n f) :
      FanoutRestr b (n + 1) (.cons (.node k f') f)
  | final (n : Nat) (f : TreeList V) (enough : n > divTwo b false) (below : FanoutRestr b n f) :
      FanoutRestr b 1 (.cons (.final f) .nil)

def Fanout (b : Nat) (f : TreeList V) : Prop := ∃ n, FanoutRestr b n f

inductive CursorCorrectStruct : Cursor V → Prop
  | nil : CursorCorrectStruct ([], [])
  | first (n : Nat) (f : TreeList V) : CursorCorrectStruct ([n], [f])
  | node (n n' : Nat) (k : Key) (f f' : TreeList V) (ci : List Nat) (ct : List (TreeList V))
      (above : CursorCorrectStruct (n :: ci, f :: ct)) (here : linSearch n f = some (.node k f')) :
      CursorCorrectStruct (n' :: n :: ci, f' :: f :: ct)
  | final (n n' : Nat) (f f' : TreeList V) (ci : List Nat) (ct : List (TreeList V))
      (above : CursorCorrectStruct (n :: ci, f :: ct)) (here : linSearch n f = some (.final f')) :
      CursorCorrectStruct (n' :: n :: ci, f' :: f :: ct)

inductive RecProp (P : TreeList V → Prop) : Cursor V → Prop
  | nil : RecProp P ([], [])
  | next (n : Nat) (f : TreeList V) (cn : List Nat) (cf : List (TreeList V)) (here : P f)
      (rest : RecProp P (cn, cf)) : RecProp P (n :: cn, f :: cf)

structure CursorCorrect (b : Nat) (c : Cursor V) : Prop where
  struct : CursorCorrectStruct c
  balanced : RecProp Balanced c
  sorted : RecProp Sorted c
  fanout : RecProp (Fanout b) c

end DeepDB.Model
