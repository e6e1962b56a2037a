import Mathlib.Logic.Function.Basic
import Mathlib.Data.List.Nodup

/-!
Null-terminated linked lists in a memory. `Linked mem null p l` says that the links from `p` visit
the nodes `l` and end at `null`; the link of a node is the word at its own address. A `Segment` comes to
any address behind its nodes.
-/

namespace DeepDB.Chain

variable {A : Type} {null : A}

def Linked (mem : A → A) (null : A) : A → List A → Prop
  | p, [] => p = null
  | p, q :: l => p = q ∧ q ≠ null ∧ Linked mem null (mem q) l

theorem linked_null {mem : A → A} {l : List A} (h : Linked mem null null l) : l = [] := by
  cases l with
  | nil => rfl
  | cons q l => exact absurd h.1.symm h.2.1

theorem linked_of_ne {mem : A → A} {p : A} {l : List A} (h : Linked mem null p l) (hp : p ≠ null) :
    ∃ l', l = p :: l' ∧ Linked mem null (mem p) l' := by
  cases l with
  | nil => exact absurd h hp
  | cons q l =>
    obtain ⟨rfl, -, h⟩ := h
    exact ⟨l, rfl, h⟩

theorem linked_ne_null {mem : A → A} {p : A} {l : List A} (h : Linked mem null p l) :
    ∀ q ∈ l, q ≠ null := by
  induction l generalizing p with
  | nil => simp
  | cons q l ih =>
    obtain ⟨rfl, hne, h⟩ := h
    intro x hx
    rcases List.mem_cons.mp hx with rfl | hx
    · exact hne
    · exact ih h x hx

/-- The links determine the nodes. -/
theorem linked_unique {mem : A → A} {p : A} {l l' : List A} (h : Linked mem null p l)
    (h' : Linked mem null p l') : l = l' := by
  induction l generalizing p l' with
  | nil =>
    obtain rfl := h
    exact (linked_null h').symm
  | cons q l ih =>
    obtain ⟨rfl, hne, h⟩ := h
    obtain ⟨rest, rfl, hrest⟩ := linked_of_ne h' hne
    rw [ih h hrest]

theorem linked_split {mem : A → A} {p : A} {l r : List A} {q : A}
    (h : Linked mem null p (l ++ q :: r)) : Linked mem null q (q :: r) := by
  induction l generalizing p with
  | nil =>
    obtain ⟨rfl, h⟩ := h
    exact ⟨rfl, h⟩
  | cons x l ih => exact ih h.2.2

/-- A list that ends has no cycle. -/
theorem linked_nodup {mem : A → A} {p : A} {l : List A} (h : Linked mem null p l) : l.Nodup := by
  induction l generalizing p with
  | nil => exact List.nodup_nil
  | cons q l ih =>
    refine List.nodup_cons.mpr ⟨fun hq => ?_, ih h.2.2⟩
    obtain ⟨a, b, rfl⟩ := List.append_of_mem hq
    obtain ⟨rfl, hne, -⟩ := id h
    have again := linked_unique h (linked_split (l := p :: a) h)
    have := congrArg List.length again
    simp only [List.length_cons, List.length_append] at this
    omega

/-- A write beside the nodes keeps the list. -/
theorem linked_frame {mem mem' : A → A} {p : A} {l : List A} (h : Linked mem null p l)
    (same : ∀ q ∈ l, mem' q = mem q) : Linked mem' null p l := by
  induction l generalizing p with
  | nil => exact h
  | cons q l ih =>
    obtain ⟨rfl, hne, h⟩ := h
    refine ⟨rfl, hne, ?_⟩
    rw [same p List.mem_cons_self]
    exact ih h fun x hx => same x (List.mem_cons_of_mem _ hx)

/-- Storing the head of a list as the link of a new node. -/
theorem linked_push [DecidableEq A] {mem : A → A} {p q : A} {l : List A} (h : Linked mem null p l)
    (hq : q ≠ null) (fresh : q ∉ l) : Linked (Function.update mem q p) null q (q :: l) := by
  refine ⟨rfl, hq, ?_⟩
  rw [Function.update_self]
  refine linked_frame h fun x hx => Function.update_of_ne ?_ _ _
  rintro rfl
  exact fresh hx

/-! ### Segments -/

/-- The links from `p` visit the nodes `l` and come to `last`. -/
def Segment (mem : A → A) (last : A) : A → List A → Prop
  | p, [] => p = last
  | p, q :: l => p = q ∧ Segment mem last (mem q) l

theorem segment_append_linked {mem : A → A} {last p : A} {l r : List A} (h : Segment mem last p l)
    (ne : ∀ q ∈ l, q ≠ null) (rest : Linked mem null last r) : Linked mem null p (l ++ r) := by
  induction l generalizing p with
  | nil =>
    obtain rfl := h
    exact rest
  | cons q l ih =>
    obtain ⟨rfl, h⟩ := h
    exact ⟨rfl, ne p List.mem_cons_self, ih h fun x hx => ne x (List.mem_cons_of_mem _ hx)⟩

end DeepDB.Chain
