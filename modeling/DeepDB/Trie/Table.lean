import DeepDB.Lib.SortedAssoc
import Mathlib.Order.Basic
import Mathlib.Algebra.Order.Group.Int

/-!
The tables a layer of the trie is made of, `functional/cursored_kv.v`. The sorted list is the
meaning of every table: a cursor is a position in it, and reading at a cursor gives the first entry
that is not before it. A table with a contract of its own is a parameter of the trie.
-/

namespace DeepDB.Trie

open SortedAssoc

/-! ### The sorted list -/

namespace Flattened

variable {K V : Type} [LinearOrder K]

def makeCursor (k : K) : List (K × V) → Nat
  | [] => 0
  | (k', _) :: t => if k' < k then 1 + makeCursor k t else 0

def get (c : Nat) (t : List (K × V)) : Option (K × V) := t[c]?

def getValue (c : Nat) (t : List (K × V)) : Option V :=
  match get c t with
  | some (_, v) => some v
  | none => none

def getExact (k : K) (t : List (K × V)) : Option V :=
  match get (makeCursor k t) t with
  | some (k', v) => if k = k' then some v else none
  | none => none

/-- `put_aux`. -/
abbrev putAux (k : K) (v : V) (t : List (K × V)) : List (K × V) := SortedAssoc.put k v t

def Put (k : K) (v : V) (_c1 : Nat) (t1 : List (K × V)) (c2 : Nat) (t2 : List (K × V)) : Prop :=
  t2 = putAux k v t1 ∧ c2 = makeCursor k t2

def nextCursor (c : Nat) (t : List (K × V)) : Nat := if c < t.length then c + 1 else c

def firstCursor (_t : List (K × V)) : Nat := 0

def KeyRel (k : K) (c : Nat) (t : List (K × V)) : Prop :=
  ∀ c', (c' < c → ∃ e, get c' t = some e ∧ e.1 < k) ∧
    (c ≤ c' ∧ c' < t.length → ∃ e, get c' t = some e ∧ ¬e.1 < k)

abbrev TableCorrect (t : List (K × V)) : Prop := Sorted t

def AbsRel (c : Nat) (t : List (K × V)) : Prop := TableCorrect t ∧ c ≤ t.length

theorem makeCursor_eq {k : K} {t : List (K × V)} (h : Sorted t) : makeCursor k t = rank k t := by
  induction t with
  | nil => rfl
  | cons e t ih =>
    obtain ⟨k', v⟩ := e
    obtain ⟨above, rest⟩ := sorted_cons.mp h
    unfold makeCursor
    split
    · rename_i below
      rw [ih rest, rank, rank, List.countP_cons_of_pos (by simpa using below), Nat.add_comm]
    · rename_i notBelow
      refine (rank_of_le ?_).symm
      intro x hx
      rcases List.mem_cons.mp hx with rfl | hx
      · exact not_lt.mp notBelow
      · exact (not_lt.mp notBelow).trans (above x hx).le

/-- Only the number of smaller keys is a key's place. -/
theorem keyRel_iff {k : K} {c : Nat} {t : List (K × V)} (h : AbsRel c t) :
    KeyRel k c t ↔ c = rank k t := by
  obtain ⟨hs, hc⟩ := h
  obtain ⟨below, above⟩ := rank_split (k := k) hs
  constructor
  · intro rel
    apply Nat.le_antisymm
    · by_contra more
      obtain ⟨e, he, lt⟩ := (rel (rank k t)).1 (Nat.lt_of_not_le more)
      exact absurd lt (not_lt.mpr (getElem?_rank hs he).1)
    · by_contra less
      have lt := Nat.lt_of_not_le less
      have inside : c < t.length := Nat.lt_of_lt_of_le lt (rank_le_length k t)
      obtain ⟨e, he, notBelow⟩ := (rel c).2 ⟨Nat.le_refl c, inside⟩
      refine notBelow (below e (List.mem_take_iff_getElem.mpr ⟨c, ?_, ?_⟩))
      · omega
      · exact (List.getElem?_eq_some_iff.mp he).2
  · rintro rfl c'
    constructor
    · intro lt
      have inside : c' < t.length := Nat.lt_of_lt_of_le lt hc
      refine ⟨t[c'], List.getElem?_eq_getElem inside, below _ ?_⟩
      exact List.mem_take_iff_getElem.mpr ⟨c', by omega, rfl⟩
    · intro ⟨le, inside⟩
      refine ⟨t[c'], List.getElem?_eq_getElem inside, not_lt.mpr (above _ ?_)⟩
      exact List.mem_drop_iff_getElem.mpr ⟨c' - rank k t, by omega, by
        congr 1
        omega⟩

theorem getExact_eq {k : K} {t : List (K × V)} (h : Sorted t) : getExact k t = lookup k t := by
  unfold getExact get
  rw [makeCursor_eq h]
  cases hl : lookup k t with
  | some v => simp [getElem?_rank_of_mem h (mem_of_lookup hl)]
  | none =>
    split
    · rename_i k' v he
      split
      · rename_i same
        subst same
        exact absurd (List.mem_map_of_mem (List.mem_of_getElem? he)) (lookup_eq_none.mp hl)
      · rfl
    · rfl

theorem next_cursor_abs {c : Nat} {t : List (K × V)} (h : AbsRel c t) : AbsRel (nextCursor c t) t := by
  obtain ⟨sorted, inside⟩ := h
  refine ⟨sorted, ?_⟩
  unfold nextCursor
  split
  · assumption
  · exact inside

end Flattened

/-! ### The contract of a table -/

/-- A table over slices, the module type `FLATTENABLE_TABLE` for an ordered map. What a put does is
the source's `put_permute`: its axiom `get_put_diff` is about the first entry at or after a key,
which a put of another key can change. There is an empty table, and every put has a result. -/
structure FlattenableTable (Val : Type) where
  Table : Type
  Cursor : Type
  Empty : Table → Prop
  makeCursor : Int → Table → Cursor
  get : Cursor → Table → Option (Int × Val)
  Put : Int → Val → Cursor → Table → Cursor → Table → Prop
  nextCursor : Cursor → Table → Cursor
  firstCursor : Table → Cursor
  AbsRel : Cursor → Table → Prop
  KeyRel : Int → Cursor → Table → Prop
  TableCorrect : Table → Prop
  flatten : Table → List (Int × Val)
  abs_correct : ∀ {c t}, AbsRel c t → TableCorrect t
  first_cursor_abs : ∀ {t}, TableCorrect t → AbsRel (firstCursor t) t
  make_cursor_key : ∀ {k t}, TableCorrect t → KeyRel k (makeCursor k t) t
  make_cursor_abs : ∀ {k t}, TableCorrect t → AbsRel (makeCursor k t) t
  flatten_invariant : ∀ {t}, TableCorrect t → Flattened.TableCorrect (flatten t) ∧
    ∀ {k c1 c2}, KeyRel k c1 t → Flattened.KeyRel k c2 (flatten t) → AbsRel c1 t →
      Flattened.AbsRel c2 (flatten t) → get c1 t = Flattened.get c2 (flatten t)
  put_correct : ∀ {k v c1 t1 c2 t2}, AbsRel c1 t1 → Put k v c1 t1 c2 t2 → TableCorrect t2
  put_permute : ∀ {k v c1 t1 c2 t2}, AbsRel c1 t1 → Put k v c1 t1 c2 t2 →
    flatten t2 = Flattened.putAux k v (flatten t1)
  put_exists : ∀ {c t}, AbsRel c t → ∀ k v, ∃ c' t', Put k v c t c' t'
  empty_correct : ∀ {t}, Empty t → TableCorrect t
  flatten_empty : ∀ {t}, Empty t → flatten t = []
  empty_exists : ∃ t, Empty t

namespace FlattenableTable

variable {Val : Type} (N : FlattenableTable Val)

def getKey (c : N.Cursor) (t : N.Table) : Option Int :=
  match N.get c t with
  | some (k, _) => some k
  | none => none

variable {N} {t : N.Table} {k : Int}

theorem flatten_sorted (h : N.TableCorrect t) : Sorted (N.flatten t) := (N.flatten_invariant h).1

/-- Reading at the cursor of a key gives the first entry that is not below it. -/
theorem get_makeCursor (h : N.TableCorrect t) (k : Int) :
    N.get (N.makeCursor k t) t = (N.flatten t)[rank k (N.flatten t)]? := by
  have abs : Flattened.AbsRel (rank k (N.flatten t)) (N.flatten t) :=
    ⟨flatten_sorted h, rank_le_length k _⟩
  exact (N.flatten_invariant h).2 (N.make_cursor_key h) ((Flattened.keyRel_iff abs).mpr rfl)
    (N.make_cursor_abs h) abs

theorem getKey_makeCursor (h : N.TableCorrect t) (hm : k ∈ (N.flatten t).map Prod.fst) :
    N.getKey (N.makeCursor k t) t = some k := by
  obtain ⟨⟨k', v⟩, he, rfl⟩ := List.mem_map.mp hm
  unfold getKey
  rw [get_makeCursor h, getElem?_rank_of_mem (flatten_sorted h) he]

theorem get_makeCursor_of_mem {v : Val} (h : N.TableCorrect t) (hm : (k, v) ∈ N.flatten t) :
    N.get (N.makeCursor k t) t = some (k, v) := by
  rw [get_makeCursor h, getElem?_rank_of_mem (flatten_sorted h) hm]

/-- Only the keys of the table are found at their cursors. -/
theorem mem_of_getKey_makeCursor (h : N.TableCorrect t)
    (hk : N.getKey (N.makeCursor k t) t = some k) : k ∈ (N.flatten t).map Prod.fst := by
  unfold getKey at hk
  rw [get_makeCursor h] at hk
  split at hk
  · rename_i k' v he
    cases hk
    exact List.mem_map_of_mem (List.mem_of_getElem? he)
  · cases hk

end FlattenableTable

/-- Where the cursors of a table stand among its sorted keys, which the source says in words: all
keys to the left of a cursor are less than its key, `get` reads the first entry to the right, and
`next_cursor` goes past this entry. -/
structure Positions {Val : Type} (N : FlattenableTable Val) where
  position : N.Cursor → N.Table → Nat
  first_cursor : ∀ {t}, N.TableCorrect t → position (N.firstCursor t) t = 0
  make_cursor : ∀ {k t}, N.TableCorrect t → position (N.makeCursor k t) t = rank k (N.flatten t)
  next_cursor : ∀ {c t}, N.AbsRel c t → position c t < (N.flatten t).length →
    position (N.nextCursor c t) t = position c t + 1
  next_cursor_abs : ∀ {c t}, N.AbsRel c t → N.AbsRel (N.nextCursor c t) t
  get : ∀ {c t}, N.AbsRel c t → N.get c t = (N.flatten t)[position c t]?

/-- The sorted list is such a table. -/
def sortedListTable (Val : Type) : FlattenableTable Val where
  Table := List (Int × Val)
  Cursor := Nat
  Empty t := t = []
  makeCursor := Flattened.makeCursor
  get := Flattened.get
  Put := Flattened.Put
  nextCursor := Flattened.nextCursor
  firstCursor := Flattened.firstCursor
  AbsRel := Flattened.AbsRel
  KeyRel := Flattened.KeyRel
  TableCorrect := Flattened.TableCorrect
  flatten t := t
  abs_correct := fun h => h.1
  first_cursor_abs := fun h => ⟨h, Nat.zero_le _⟩
  make_cursor_key := fun {k _} h => by
    have abs : Flattened.AbsRel (rank k _) _ := ⟨h, rank_le_length k _⟩
    rw [Flattened.makeCursor_eq h]
    exact (Flattened.keyRel_iff abs).mpr rfl
  make_cursor_abs := fun {k _} h => by
    rw [Flattened.makeCursor_eq h]
    exact ⟨h, rank_le_length k _⟩
  flatten_invariant := fun h => ⟨h, fun rel rel' abs abs' => by
    rw [(Flattened.keyRel_iff abs).mp rel, (Flattened.keyRel_iff abs').mp rel']⟩
  put_correct := fun abs h => by
    rw [h.1]
    exact sorted_put abs.1
  put_permute := fun _ h => h.1
  put_exists := fun _ _ _ => ⟨_, _, rfl, rfl⟩
  empty_correct := fun h => by
    rw [h]
    exact sorted_nil
  flatten_empty := fun h => h
  empty_exists := ⟨[], rfl⟩

/-- Its cursors are the positions. -/
def sortedListPositions (Val : Type) : Positions (sortedListTable Val) where
  position c _ := c
  first_cursor _ := rfl
  make_cursor h := Flattened.makeCursor_eq h
  next_cursor _ inside := if_pos inside
  next_cursor_abs abs := Flattened.next_cursor_abs abs
  get _ := rfl

end DeepDB.Trie
