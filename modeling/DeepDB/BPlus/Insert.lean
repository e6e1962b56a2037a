import Mathlib.Order.Basic
import Mathlib.Data.List.Basic
import Mathlib.Data.List.GetD
import Mathlib.Order.Lattice

/-!
The second functional B+-tree, `verif/btrees/btrees_functional.v`. A node is a leaf of records or
a first subtree followed by keyed subtrees, the keys of a subtree lie above its own entry's key and
at or below the next one's. A cursor lists the indices and nodes from the root down to a leaf, and
`insert_aux` rebuilds the nodes along it.
-/

namespace DeepDB.BPlus

inductive Node (K V I : Type) where
  | leaf (records : List (K × V)) (info : I)
  | internal (ptr0 : Node K V I) (children : List (K × Node K V I)) (info : I)

namespace Node

variable {K V I : Type}

/-- The source's `node_ind`, with the subtrees of the entries together. -/
@[elab_as_elim]
theorem ind {motive : Node K V I → Prop}
    (leaf : ∀ records info, motive (.leaf records info))
    (internal : ∀ ptr0 children info, motive ptr0 → (∀ e ∈ children, motive e.2) →
      motive (.internal ptr0 children info)) : ∀ n, motive n
  | .leaf records info => leaf records info
  | .internal ptr0 children info =>
    internal ptr0 children info (ind leaf internal ptr0) fun e _ => ind leaf internal e.2
decreasing_by
  · simp
    omega
  · rename_i he
    have := List.sizeOf_lt_of_mem he
    cases e
    simp_all
    omega

end Node

variable {K V I : Type}

instance [Inhabited I] : Inhabited (Node K V I) := ⟨.leaf [] default⟩

mutual

def flatten : Node K V I → List (K × V)
  | .leaf records _ => records
  | .internal ptr0 children _ => flatten ptr0 ++ flattenChildren children

/-- `flat_map (flatten oo snd)`. -/
def flattenChildren : List (K × Node K V I) → List (K × V)
  | [] => []
  | (_, n) :: tl => flatten n ++ flattenChildren tl

end

mutual

def card : Node K V I → Nat
  | .leaf records _ => records.length
  | .internal ptr0 children _ => card ptr0 + cardChildren children

/-- `fold_right Nat.add 0 (map (card oo snd) children)`. -/
def cardChildren : List (K × Node K V I) → Nat
  | [] => 0
  | (_, n) :: tl => card n + cardChildren tl

end

/-- All paths from the node to a leaf have the given length. -/
inductive Balanced : Nat → Node K V I → Prop
  | leaf {records : List (K × V)} {info : I} : Balanced 0 (.leaf records info)
  | internal {depth : Nat} {ptr0 : Node K V I} {children : List (K × Node K V I)} {info : I}
      (first : Balanced depth ptr0) (rest : ∀ e ∈ children, Balanced depth e.2) :
      Balanced (depth + 1) (.internal ptr0 children info)

/-! ### Lists by position -/

section Positions

variable {α : Type}

/-- `Znth`: the default past the end. -/
def nth [Inhabited α] (i : Nat) (l : List α) : α := l.getD i default

def sublist (lo hi : Nat) (l : List α) : List α := (l.take hi).drop lo

/-- `upd_Znth`. -/
def update (i : Nat) (l : List α) (x : α) : List α := l.set i x

end Positions

/-! ### Search and insertion -/

section Insertion

variable [LinearOrder K]

mutual

/-- A search tree with its keys between `min` and `max`. -/
def WellSorted (min max : K) : Node K V I → Prop
  | .leaf records _ =>
    (records.map Prod.fst).Pairwise (· < ·) ∧ min ≤ max ∧
      ∀ k ∈ records.map Prod.fst, min ≤ k ∧ k ≤ max
  | .internal ptr0 children _ =>
    ∃ maxPtr0, WellSorted min maxPtr0 ptr0 ∧ WellSortedChildren maxPtr0 max children

def WellSortedChildren (min max : K) : List (K × Node K V I) → Prop
  | [] => min ≤ max
  | (k, n) :: tl =>
    min ≤ k ∧ ∃ minN maxN, k < minN ∧ WellSorted minN maxN n ∧ WellSortedChildren maxN max tl

end

def findIndexAux {α : Type} (k0 : K) : List (K × α) → Nat → Nat
  | [], i => i
  | (k, _) :: tl, i => if k < k0 then findIndexAux k0 tl (i + 1) else i

/-- The index of the first key that is not below `k0`. -/
def findIndex {α : Type} (k0 : K) (l : List (K × α)) : Nat := findIndexAux k0 l 0

theorem findIndexAux_eq {α : Type} (k0 : K) (l : List (K × α)) (i : Nat) :
    findIndexAux k0 l i = findIndex k0 l + i := by
  induction l generalizing i with
  | nil => simp [findIndex, findIndexAux]
  | cons e tl ih =>
    obtain ⟨k, x⟩ := e
    simp only [findIndex, findIndexAux]
    split
    · rw [ih (i + 1), ih (0 + 1)]
      omega
    · omega

theorem findIndex_cons {α : Type} (k0 k : K) (x : α) (tl : List (K × α)) :
    findIndex k0 ((k, x) :: tl) = if k < k0 then findIndex k0 tl + 1 else 0 := by
  conv_lhs => unfold findIndex findIndexAux
  rw [findIndexAux_eq]

theorem findIndex_le {α : Type} (k0 : K) (l : List (K × α)) : findIndex k0 l ≤ l.length := by
  induction l with
  | nil => simp [findIndex, findIndexAux]
  | cons e tl ih =>
    rw [findIndex_cons]
    split <;> simp [ih]

variable [Inhabited I]

/-- The subtree a search at index `i` goes to. -/
def childAt (i : Nat) (ptr0 : Node K V I) (children : List (K × Node K V I)) : Node K V I :=
  if i = 0 then ptr0 else nth (i - 1) (children.map Prod.snd)

theorem sizeOf_childAt (k0 : K) (ptr0 : Node K V I) (children : List (K × Node K V I)) (info : I) :
    sizeOf (childAt (findIndex k0 children) ptr0 children)
      < sizeOf (Node.internal ptr0 children info) := by
  have bound := findIndex_le k0 children
  unfold childAt
  split
  · simp
    omega
  · have inside : findIndex k0 children - 1 < (children.map Prod.snd).length := by
      rw [List.length_map]
      omega
    have member : nth (findIndex k0 children - 1) (children.map Prod.snd) ∈ children.map Prod.snd := by
      unfold nth
      rw [List.getD_eq_getElem _ _ inside]
      exact List.getElem_mem inside
    obtain ⟨⟨k, n⟩, he, hn⟩ := List.mem_map.mp member
    have smaller := List.sizeOf_lt_of_mem he
    rw [← hn]
    simp at smaller ⊢
    omega

/-- The path from the root to the place of `k0` in a leaf. -/
def getCursor (k0 : K) : Node K V I → List (Nat × Node K V I)
  | .leaf records info => [(findIndex k0 records, .leaf records info)]
  | .internal ptr0 children info =>
    (findIndex k0 children, .internal ptr0 children info)
      :: getCursor k0 (childAt (findIndex k0 children) ptr0 children)
termination_by n => sizeOf n
decreasing_by exact sizeOf_childAt k0 ptr0 children info

variable [Inhabited K] (minFanout : Nat)

/-- The leaf of the new records, in two when they are too many. -/
def splitLeaf (records : List (K × V)) (info : I) : Node K V I × Option (K × Node K V I) :=
  if 2 * minFanout < records.length then
    (.leaf (sublist 0 minFanout records) info,
      some (nth (minFanout - 1) (records.map Prod.fst),
        .leaf (sublist minFanout records.length records) info))
  else (.leaf records info, none)

/-- The internal node of the new children, in two when they are too many. -/
def splitInternal (ptr0 : Node K V I) (children : List (K × Node K V I)) (info : I) :
    Node K V I × Option (K × Node K V I) :=
  if 2 * minFanout < children.length then
    (.internal ptr0 (sublist 0 minFanout children) info,
      some ((nth minFanout children).1,
        .internal (nth minFanout children).2 (sublist (minFanout + 1) children.length children) info))
  else (.internal ptr0 children info, none)

/-- The updated node and the entry its parent has to insert after it. -/
def insertAux (k0 : K) (e : V) :
    List (Nat × Node K V I) → Node K V I × Option (K × Node K V I)
  | [] => (default, none)
  | (i, .leaf records info) :: _ =>
    if i < records.length ∧ k0 = nth i (records.map Prod.fst) then
      (.leaf (update i records (k0, e)) info, none)
    else
      splitLeaf minFanout
        (sublist 0 i records ++ (k0, e) :: sublist i records.length records) info
  | (i, .internal ptr0 children info) :: tl =>
    match insertAux k0 e tl with
    | (toUpdate, some newChild) =>
      if i = 0 then splitInternal minFanout toUpdate (newChild :: children) info
      else
        splitInternal minFanout ptr0
          (sublist 0 (i - 1) children ++
            (nth (i - 1) (children.map Prod.fst), toUpdate) :: newChild ::
              sublist i children.length children) info
    | (toUpdate, none) =>
      if i = 0 then (.internal toUpdate children info, none)
      else
        (.internal ptr0
          (update (i - 1) children (nth (i - 1) (children.map Prod.fst), toUpdate)) info, none)

/-- A new root is made when the old one splits. -/
def insert (k0 : K) (e : V) (newInfo : I) (root : Node K V I) : Node K V I :=
  match insertAux minFanout k0 e (getCursor k0 root) with
  | (root, none) => root
  | (root, some newChild) => .internal root [newChild] newInfo

/-- `insert_list` of the tests: one insertion after another. -/
def insertList (newInfo : I) (n : Node K V I) : List (K × V) → Node K V I
  | [] => n
  | (k, v) :: tl => insertList newInfo (insert minFanout k v newInfo n) tl

end Insertion

mutual

/-- Between `minFanout` and twice as many entries. -/
def WellSized (minFanout : Nat) : Node K V I → Prop
  | .leaf records _ => minFanout ≤ records.length ∧ records.length ≤ 2 * minFanout
  | .internal ptr0 children _ =>
    WellSized minFanout ptr0 ∧ WellSizedChildren minFanout children ∧
      minFanout ≤ children.length ∧ children.length ≤ 2 * minFanout

def WellSizedChildren (minFanout : Nat) : List (K × Node K V I) → Prop
  | [] => True
  | (_, n) :: tl => WellSized minFanout n ∧ WellSizedChildren minFanout tl

end

/-- The root has no least number of entries. -/
def WellSizedRoot (minFanout : Nat) : Node K V I → Prop
  | .leaf records _ => records.length ≤ 2 * minFanout
  | .internal ptr0 children _ =>
    WellSized minFanout ptr0 ∧ WellSizedChildren minFanout children ∧
      children.length ≤ 2 * minFanout

end DeepDB.BPlus
