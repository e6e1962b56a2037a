import Mathlib.Order.Lattice
import Mathlib.Order.Defs.LinearOrder
import Mathlib.Data.Int.Order.Basic

/-!
The pure search trees of `concurrency/puretree.v`. `delete` hands the left subtree of the key down
along the left edge of the right one.
-/

namespace DeepDB.Concurrency.PureTree

abbrev Key := Int

inductive Tree (V : Type) where
  | E
  | T (l : Tree V) (k : Key) (v : V) (r : Tree V)

variable {V : Type}

open Tree

inductive In (k : Key) : Tree V → Prop where
  | root {x : Key} {v : V} {l r : Tree V} : k = x → In k (.T l x v r)
  | left {x : Key} {v : V} {l r : Tree V} : In k l → In k (.T l x v r)
  | right {x : Key} {v : V} {l r : Tree V} : In k r → In k (.T l x v r)

def lt (t : Tree V) (k : Key) : Prop := ∀ x, In x t → k < x

def gt (t : Tree V) (k : Key) : Prop := ∀ x, In x t → k > x

inductive SortedTree : Tree V → Prop where
  | empty : SortedTree .E
  | tree {x : Key} {v : V} {l r : Tree V} : SortedTree l → SortedTree r → gt l x → lt r x →
      SortedTree (.T l x v r)

def lookup (default : V) (x : Key) : Tree V → V
  | .E => default
  | .T tl k v tr => if x < k then lookup default x tl else if k < x then lookup default x tr else v

def insert (x : Key) (v : V) : Tree V → Tree V
  | .E => .T .E x v .E
  | .T a y v' b =>
    if x < y then .T (insert x v a) y v' b
    else if y < x then .T a y v' (insert x v b)
    else .T a x v b

def pushdownLeft (a : Tree V) : Tree V → Tree V
  | .E => a
  | .T b y vy c => .T (pushdownLeft a b) y vy c

def delete (x : Key) : Tree V → Tree V
  | .E => .E
  | .T a y v' b =>
    if x < y then .T (delete x a) y v' b
    else if y < x then .T a y v' (delete x b)
    else pushdownLeft a b

/-- The keys with their values. -/
def entries : Tree V → List (Key × V)
  | .E => []
  | .T l k v r => entries l ++ (k, v) :: entries r

def height : Tree V → Nat
  | .E => 0
  | .T l _ _ r => max (height l) (height r) + 1

/-! ### Deletion -/

theorem in_iff {k : Key} {t : Tree V} : In k t ↔ ∃ v, (k, v) ∈ entries t := by
  induction t with
  | E =>
    constructor
    · intro no
      cases no
    · rintro ⟨v, no⟩
      cases no
  | T l x w r ihl ihr =>
    constructor
    · intro member
      cases member with
      | root same =>
        subst same
        exact ⟨w, List.mem_append_right _ List.mem_cons_self⟩
      | left member =>
        obtain ⟨v, member⟩ := ihl.mp member
        exact ⟨v, List.mem_append_left _ member⟩
      | right member =>
        obtain ⟨v, member⟩ := ihr.mp member
        exact ⟨v, List.mem_append_right _ (List.mem_cons_of_mem _ member)⟩
    · rintro ⟨v, member⟩
      rcases List.mem_append.mp member with member | member
      · exact .left (ihl.mpr ⟨v, member⟩)
      · rcases List.mem_cons.mp member with same | member
        · exact .root (congrArg Prod.fst same)
        · exact .right (ihr.mpr ⟨v, member⟩)

theorem entries_pushdownLeft (a b : Tree V) :
    entries (pushdownLeft a b) = entries a ++ entries b := by
  induction b with
  | E => exact (List.append_nil _).symm
  | T b y vy c ihb _ => rw [pushdownLeft, entries, entries, ihb, List.append_assoc]

theorem in_pushdownLeft {a b : Tree V} {k : Key} : In k (pushdownLeft a b) ↔ In k a ∨ In k b := by
  simp only [in_iff, entries_pushdownLeft, List.mem_append, exists_or]

theorem pushdownLeft_sorted {a b : Tree V} (ha : SortedTree a) (hb : SortedTree b)
    (less : ∀ x y, In x a → In y b → x < y) : SortedTree (pushdownLeft a b) := by
  induction hb with
  | empty => exact ha
  | @tree y vy b c hb hc below above ihb _ =>
    refine .tree (ihb fun x z hx hz => less x z hx (.left hz)) hc ?_ above
    intro z hz
    rcases in_pushdownLeft.mp hz with hz | hz
    · exact less z y hz (.root rfl)
    · exact below z hz

/-- A sorted tree loses the entry of the key and keeps all others. -/
theorem entries_delete {t : Tree V} (sorted : SortedTree t) (x k : Key) (v : V) :
    (k, v) ∈ entries (delete x t) ↔ (k, v) ∈ entries t ∧ k ≠ x := by
  have inside : ∀ {t : Tree V} {k : Key} {v : V}, (k, v) ∈ entries t → In k t := fun member =>
    in_iff.mpr ⟨_, member⟩
  induction sorted with
  | empty => simp [delete, entries]
  | @tree y w l r hl hr below above ihl ihr =>
    have left : (k, v) ∈ entries l → k < y := fun member => below k (inside member)
    have right : (k, v) ∈ entries r → y < k := fun member => above k (inside member)
    rw [delete]
    split
    · rename_i less
      simp only [entries, List.mem_append, List.mem_cons, ihl, Prod.mk.injEq]
      constructor
      · rintro (⟨member, ne⟩ | ⟨rfl, rfl⟩ | member)
        · exact ⟨Or.inl member, ne⟩
        · exact ⟨Or.inr (Or.inl ⟨rfl, rfl⟩), less.ne'⟩
        · exact ⟨Or.inr (Or.inr member), (less.trans (right member)).ne'⟩
      · rintro ⟨member | member | member, ne⟩
        · exact Or.inl ⟨member, ne⟩
        · exact Or.inr (Or.inl member)
        · exact Or.inr (Or.inr member)
    · rename_i notLess
      split
      · rename_i more
        simp only [entries, List.mem_append, List.mem_cons, ihr, Prod.mk.injEq]
        constructor
        · rintro (member | ⟨rfl, rfl⟩ | ⟨member, ne⟩)
          · exact ⟨Or.inl member, ((left member).trans more).ne⟩
          · exact ⟨Or.inr (Or.inl ⟨rfl, rfl⟩), more.ne⟩
          · exact ⟨Or.inr (Or.inr member), ne⟩
        · rintro ⟨member | member | member, ne⟩
          · exact Or.inl member
          · exact Or.inr (Or.inl member)
          · exact Or.inr (Or.inr ⟨member, ne⟩)
      · rename_i notMore
        obtain rfl : x = y := le_antisymm (not_lt.mp notMore) (not_lt.mp notLess)
        rw [entries_pushdownLeft, entries, List.mem_append, List.mem_append, List.mem_cons]
        constructor
        · rintro (member | member)
          · exact ⟨Or.inl member, (left member).ne⟩
          · exact ⟨Or.inr (Or.inr member), (right member).ne'⟩
        · rintro ⟨member | same | member, ne⟩
          · exact Or.inl member
          · exact absurd (congrArg Prod.fst same) ne
          · exact Or.inr member

theorem delete_sorted {t : Tree V} (sorted : SortedTree t) (x : Key) : SortedTree (delete x t) := by
  have kept : ∀ {t : Tree V} {k : Key}, SortedTree t → In k (delete x t) → In k t := by
    intro t k sorted member
    obtain ⟨v, member⟩ := in_iff.mp member
    exact in_iff.mpr ⟨v, ((entries_delete sorted x k v).mp member).1⟩
  induction sorted with
  | empty => exact .empty
  | @tree y w l r hl hr below above ihl ihr =>
    rw [delete]
    split
    · exact .tree ihl hr (fun k member => below k (kept hl member)) above
    · split
      · exact .tree hl ihr below fun k member => above k (kept hr member)
      · exact pushdownLeft_sorted hl hr fun k k' member member' =>
          (below k member).trans (above k' member')

end DeepDB.Concurrency.PureTree
