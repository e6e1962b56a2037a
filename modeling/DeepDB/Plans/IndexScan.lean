import DeepDB.Plans.SeqScan

/-!
The indexes that an index join can use, from `verif/db/plans/SeqIndexScan.v`, `BitmapIndexScan.v` and
`HashIndexScan.v`: none at all, a bitmap for each value, and a hash table of cursors.
-/

namespace DeepDB.Plans
variable {o₁ o₂ : Type} {O₁ : Oeset o₁} {O₂ : Oeset o₂} {proj : o₁ → o₂}

/-! ### SeqIndexScan -/

namespace SeqIndexScan

def build (O₁ : Oeset o₁) (O₂ : Oeset o₂) (proj : o₁ → o₂)
    (proj_eq : ∀ {x y}, O₁.compare x y = .eq → O₂.compare (proj x) (proj y) = .eq) : IndexRcd O₁ O₂ where
  proj := proj
  proj_eq := proj_eq
  P := fun _ _ => true
  P_eq_1 := fun _ => rfl
  P_eq_2 := fun _ => rfl
  C1 := SeqScan.build O₁
  containers := List o₁
  c1 := fun l => l
  dummy_containers := []
  i := fun c _ => ⟨[], c, c⟩
  i_collection := fun c _ => .of_eq (List.filter_true c).symm
  i_visited := fun _ _ => rfl
  i_coherent := fun _ _ => rfl

end SeqIndexScan

/-! ### BitmapIndexScan -/

namespace BitmapIndexScan

/-- A bitmap for each value of the index, as long as the relation. -/
structure Containers (proj : o₁ → o₂) (P : o₂ → o₂ → Bool) where
  size : Nat
  collection : Vector o₁ size
  bitmap : o₂ → Vector Bool size
  coherent : ∀ (n : Fin size) x, (bitmap x)[n] = P x (proj collection[n])

variable {P : o₂ → o₂ → Bool}

/-- The bitmaps of a relation. -/
def Containers.of {size : Nat} (collection : Vector o₁ size) : Containers proj P where
  size := size
  collection := collection
  bitmap := fun x => collection.map fun y => P x (proj y)
  coherent := fun n x => Vector.getElem_map _ n.isLt

/-- The rows whose bit is set. -/
def select (bits : List Bool) (rows : List o₁) : List o₁ :=
  ((bits.zip rows).foldl (fun acc b => if b.1 then b.2 :: acc else acc) []).reverse

theorem select_map (f : o₁ → Bool) (rows : List o₁) : select (rows.map f) rows = rows.filter f := by
  suffices ∀ acc, ((rows.map f).zip rows).foldl (fun acc b => if b.1 then b.2 :: acc else acc) acc =
      (rows.filter f).reverse ++ acc by
    unfold select
    rw [this, List.append_nil, List.reverse_reverse]
  induction rows with
  | nil => exact fun _ => rfl
  | cons a rows ih =>
    intro acc
    rw [List.map_cons, List.zip_cons_cons, List.foldl_cons, ih]
    by_cases set : f a = true
    · rw [if_pos set, List.filter_cons_of_pos set, List.reverse_cons, List.append_assoc]
      rfl
    · rw [if_neg set, List.filter_cons_of_neg set]

theorem Containers.bitmap_eq (c : Containers proj P) (x : o₂) :
    (c.bitmap x).toList = c.collection.toList.map fun y => P x (proj y) := by
  apply List.ext_getElem
  · simp
  · intro n hn _
    have bit := c.coherent ⟨n, by simpa using hn⟩ x
    simpa using bit

def build (O₁ : Oeset o₁) (O₂ : Oeset o₂) (proj : o₁ → o₂)
    (proj_eq : ∀ {x y}, O₁.compare x y = .eq → O₂.compare (proj x) (proj y) = .eq) (P : o₂ → o₂ → Bool)
    (P_eq_1 : ∀ {x₁ x₂ y}, O₂.compare x₁ x₂ = .eq → P x₁ y = P x₂ y)
    (P_eq_2 : ∀ {x y₁ y₂}, O₂.compare y₁ y₂ = .eq → P x y₁ = P x y₂) : IndexRcd O₁ O₂ where
  proj := proj
  proj_eq := proj_eq
  P := P
  P_eq_1 := P_eq_1
  P_eq_2 := P_eq_2
  C1 := SeqScan.build O₁
  containers := Containers proj P
  c1 := fun c => c.collection.toList
  dummy_containers := ⟨0, #v[], fun _ => #v[], fun n => n.elim0⟩
  i := fun c x =>
    let col := select (c.bitmap x).toList c.collection.toList
    ⟨[], col, col⟩
  i_collection := fun c x => .of_eq (by rw [← select_map, ← c.bitmap_eq]; rfl)
  i_visited := fun _ _ => rfl
  i_coherent := fun _ _ => rfl

end BitmapIndexScan

/-! ### HashIndexScan -/

namespace HashIndexScan

section
variable {E : Type} (O₂)

/-- `FMapWeakList.find`. -/
def find (k : o₂) : List (o₂ × E) → Option E
  | [] => none
  | x :: s' => if O₂.compare k x.1 = .eq then some x.2 else find k s'

/-- `FMapWeakList.add`: the new element takes the place of the old one of its key. -/
def add (k : o₂) (e : E) : List (o₂ × E) → List (o₂ × E)
  | [] => [(k, e)]
  | x :: l => if O₂.compare k x.1 = .eq then (k, e) :: l else x :: add k e l

variable {O₂} {k x : o₂} {e : E} {s : List (o₂ × E)}

theorem find_add : find O₂ x (add O₂ k e s) = if O₂.compare x k = .eq then some e else find O₂ x s := by
  induction s with
  | nil => rfl
  | cons y s ih =>
    rw [add]
    by_cases old : O₂.compare k y.1 = .eq
    · rw [if_pos old, find, find]
      by_cases new : O₂.compare x k = .eq
      · rw [if_pos new, if_pos new]
      · have other : O₂.compare x y.1 ≠ .eq :=
          fun same => new (O₂.compare_eq_trans same (Oeset.compare_eq_sym old))
        rw [if_neg new, if_neg new, if_neg other]
    · rw [if_neg old, find, find, ih]
      by_cases here : O₂.compare x y.1 = .eq
      · have other : O₂.compare x k ≠ .eq :=
          fun same => old (O₂.compare_eq_trans (Oeset.compare_eq_sym same) here)
        rw [if_pos here, if_pos here, if_neg other]
      · rw [if_neg here, if_neg here]

theorem mem_add {y : o₂ × E} (member : y ∈ add O₂ k e s) : y = (k, e) ∨ y ∈ s := by
  induction s with
  | nil => exact Or.inl (List.mem_singleton.mp member)
  | cons z s ih =>
    rw [add] at member
    split at member
    · rcases List.mem_cons.mp member with rfl | member
      · exact Or.inl rfl
      · exact Or.inr (List.mem_cons_of_mem _ member)
    · rcases List.mem_cons.mp member with rfl | member
      · exact Or.inr List.mem_cons_self
      · exact (ih member).imp id (List.mem_cons_of_mem _)

theorem noDup_add (noDup : s.Pairwise fun a b => O₂.compare a.1 b.1 ≠ .eq) :
    (add O₂ k e s).Pairwise fun a b => O₂.compare a.1 b.1 ≠ .eq := by
  induction s with
  | nil => exact List.pairwise_singleton _ _
  | cons y s ih =>
    obtain ⟨first, noDup⟩ := List.pairwise_cons.mp noDup
    rw [add]
    by_cases old : O₂.compare k y.1 = .eq
    · rw [if_pos old, List.pairwise_cons]
      exact ⟨fun z hz same => first z hz (O₂.compare_eq_trans (Oeset.compare_eq_sym old) same), noDup⟩
    · rw [if_neg old, List.pairwise_cons]
      refine ⟨fun z hz => ?_, ih noDup⟩
      rcases mem_add hz with rfl | hz
      · exact fun same => old (Oeset.compare_eq_sym same)
      · exact first z hz

/-- The key is not in the table. -/
theorem find_none (none : find O₂ x s = none) : ∀ y ∈ s, O₂.compare x y.1 ≠ .eq := by
  induction s with
  | nil => exact fun _ no => absurd no List.not_mem_nil
  | cons z s ih =>
    rw [find] at none
    split at none
    · cases none
    · rename_i other
      exact List.forall_mem_cons.mpr ⟨other, ih none⟩

end

section
variable (C1 : CursorRcd O₁) (O₂) (proj : o₁ → o₂)

def P (x y : o₂) : Bool :=
  match O₂.compare x y with
  | .eq => true
  | _ => false

variable {O₂} in
theorem P_eq {x y : o₂} : P O₂ x y = true ↔ O₂.compare x y = .eq := by
  unfold P
  cases O₂.compare x y <;> simp

variable {O₂} in
theorem P_eq_1 {x₁ x₂ y : o₂} (same : O₂.compare x₁ x₂ = .eq) : P O₂ x₁ y = P O₂ x₂ y := by
  rw [Bool.eq_iff_iff, P_eq, P_eq]
  exact Oeset.compare_eq_iff same

variable {O₂} in
theorem P_eq_2 {x y₁ y₂ : o₂} (same : O₂.compare y₁ y₂ = .eq) : P O₂ x y₁ = P O₂ x y₂ := by
  rw [Bool.eq_iff_iff, P_eq, P_eq]
  exact ⟨fun h => O₂.compare_eq_trans h same, fun h => O₂.compare_eq_trans h (Oeset.compare_eq_sym same)⟩

structure Containers where
  hash : List (o₂ × C1.cursor)
  keys : ∀ x ∈ hash, ∀ a ∈ C1.collection x.2, P O₂ x.1 (proj a) = true
  noDup : hash.Pairwise fun a b => O₂.compare a.1 b.1 ≠ .eq

variable {C1 O₂ proj}

def Containers.c1 (c : Containers O₂ C1 proj) : List o₁ := c.hash.flatMap fun x => C1.materialize x.2

def Containers.i (c : Containers O₂ C1 proj) (x : o₂) : C1.cursor :=
  match find O₂ x c.hash with
  | none => C1.emptyCursor
  | some l => C1.reset l

variable (proj_eq : ∀ {x y}, O₁.compare x y = .eq → O₂.compare (proj x) (proj y) = .eq)
include proj_eq

theorem materialize_keys {x : o₂} {e : C1.cursor} (keys : ∀ a ∈ C1.collection e, P O₂ x (proj a) = true) :
    ∀ a ∈ C1.materialize e, P O₂ x (proj a) = true :=
  (CursorRcd.materialize_collection e).forall_mem
    (fun same => by rw [P_eq_2 (proj_eq same)]; exact id) keys

theorem filter_other {x : o₂} {s : List (o₂ × C1.cursor)}
    (keys : ∀ y ∈ s, ∀ a ∈ C1.collection y.2, P O₂ y.1 (proj a) = true)
    (other : ∀ y ∈ s, O₂.compare x y.1 ≠ .eq) :
    (s.flatMap fun y => C1.materialize y.2).filter (fun y => P O₂ x (proj y)) = [] := by
  rw [List.filter_eq_nil_iff]
  intro a ha here
  obtain ⟨y, hy, ha⟩ := List.mem_flatMap.mp ha
  have there := materialize_keys proj_eq (keys y hy) a ha
  rw [P_eq] at here there
  exact other y hy (O₂.compare_eq_trans here (Oeset.compare_eq_sym there))

/-- A lookup gives the rows of the table that have the value. -/
theorem Containers.i_collection (c : Containers O₂ C1 proj) (x : o₂) :
    O₁.Same (C1.collection (c.i x)) (c.c1.filter fun y => P O₂ x (proj y)) := by
  obtain ⟨s, keys, noDup⟩ := c
  unfold i c1
  dsimp only
  induction s with
  | nil => exact .of_eq C1.emptyCursor_collection
  | cons y s ih =>
    obtain ⟨first, noDup⟩ := List.pairwise_cons.mp noDup
    obtain ⟨keys₁, keys⟩ := List.forall_mem_cons.mp keys
    have rows := materialize_keys proj_eq keys₁
    rw [find, List.flatMap_cons, List.filter_append]
    by_cases here : O₂.compare x y.1 = .eq
    · have other : ∀ z ∈ s, O₂.compare x z.1 ≠ .eq :=
        fun z hz same => first z hz (O₂.compare_eq_trans (Oeset.compare_eq_sym here) same)
      have all : (C1.materialize y.2).filter (fun y => P O₂ x (proj y)) = C1.materialize y.2 := by
        rw [List.filter_eq_self]
        intro a ha
        rw [P_eq_1 here]
        exact rows a ha
      rw [if_pos here, all, filter_other proj_eq keys other, List.append_nil]
      dsimp only
      rw [C1.reset_collection]
      exact (CursorRcd.materialize_collection y.2).symm
    · have none : (C1.materialize y.2).filter (fun y => P O₂ x (proj y)) = [] := by
        rw [List.filter_eq_nil_iff]
        intro a ha found
        have there := rows a ha
        rw [P_eq] at found there
        exact here (O₂.compare_eq_trans found (Oeset.compare_eq_sym there))
      rw [if_neg here, none, List.nil_append]
      exact ih keys noDup

omit proj_eq in
theorem Containers.i_visited (c : Containers O₂ C1 proj) (x : o₂) : C1.visited (c.i x) = [] := by
  unfold i
  split
  · exact CursorRcd.empty_collection C1.emptyCursor_coherent C1.emptyCursor_collection
  · exact C1.reset_visited _

omit proj_eq in
theorem Containers.i_coherent (c : Containers O₂ C1 proj) (x : o₂) : C1.coherent (c.i x) := by
  unfold i
  split
  · exact C1.emptyCursor_coherent
  · exact C1.reset_coherent _

variable (O₂ C1) in
def build : IndexRcd O₁ O₂ where
  proj := proj
  proj_eq := proj_eq
  P := P O₂
  P_eq_1 := P_eq_1
  P_eq_2 := P_eq_2
  C1 := C1
  containers := Containers O₂ C1 proj
  c1 := Containers.c1
  dummy_containers := ⟨[], fun _ no => absurd no List.not_mem_nil, .nil⟩
  i := Containers.i
  i_collection := Containers.i_collection proj_eq
  i_visited := Containers.i_visited
  i_coherent := Containers.i_coherent

end

/-! ### The table of a list -/

section
variable (O₂) (C1 : CursorRcd O₁) (proj : o₁ → o₂)
  (proj_eq : ∀ {x y}, O₁.compare x y = .eq → O₂.compare (proj x) (proj y) = .eq)
  (mk_cursor : List o₁ → C1.cursor)

def mk_hash_aux : List o₁ → List (o₂ × C1.cursor)
  | [] => []
  | t :: ts => add O₂ (proj t) (mk_cursor [t]) (mk_hash_aux ts)

variable {mk_cursor}

include proj_eq in
theorem mk_hash_keys (mk_cursor_collection : ∀ l, ∀ x ∈ C1.collection (mk_cursor l), ∃ y ∈ l, O₁.compare x y = .eq)
    (l : List o₁) : ∀ x ∈ mk_hash_aux O₂ C1 proj mk_cursor l, ∀ a ∈ C1.collection x.2, P O₂ x.1 (proj a) = true := by
  induction l with
  | nil => exact fun _ no => absurd no List.not_mem_nil
  | cons t ts ih =>
    intro x hx a ha
    rcases mem_add hx with rfl | hx
    · obtain ⟨y, hy, same⟩ := mk_cursor_collection _ a ha
      obtain rfl := List.mem_singleton.mp hy
      exact P_eq.mpr (Oeset.compare_eq_sym (proj_eq same))
    · exact ih x hx a ha

theorem mk_hash_noDup (l : List o₁) :
    (mk_hash_aux O₂ C1 proj mk_cursor l).Pairwise fun a b => O₂.compare a.1 b.1 ≠ .eq := by
  induction l with
  | nil => exact .nil
  | cons t ts ih => exact noDup_add ih

/-- A key has the cursor of the first row that has it; later rows with the same key are not kept. -/
theorem find_mk_hash (x : o₂) (l : List o₁) : find O₂ x (mk_hash_aux O₂ C1 proj mk_cursor l) =
    (l.find? fun t => P O₂ x (proj t)).map fun t => mk_cursor [t] := by
  induction l with
  | nil => rfl
  | cons t ts ih =>
    rw [mk_hash_aux, find_add, ih]
    by_cases here : O₂.compare x (proj t) = .eq
    · rw [if_pos here, List.find?_cons, P_eq.mpr here]
      rfl
    · rw [if_neg here, List.find?_cons, Bool.eq_false_iff.mpr (mt P_eq.mp here)]

variable (mk_cursor)

def mk_hash_index_scan (unhashed_elem : List o₁)
    (mk_cursor_collection : ∀ l, ∀ x ∈ C1.collection (mk_cursor l), ∃ y ∈ l, O₁.compare x y = .eq) :
    Containers O₂ C1 proj :=
  ⟨mk_hash_aux O₂ C1 proj mk_cursor unhashed_elem, mk_hash_keys O₂ C1 proj proj_eq mk_cursor_collection _,
    mk_hash_noDup O₂ C1 proj _⟩

theorem collection_mk_hash {unhashed_elem : List o₁}
    {mk_cursor_collection : ∀ l, ∀ x ∈ C1.collection (mk_cursor l), ∃ y ∈ l, O₁.compare x y = .eq} (x : o₂) :
    C1.collection ((mk_hash_index_scan O₂ C1 proj proj_eq mk_cursor unhashed_elem mk_cursor_collection).i x) =
      match unhashed_elem.find? fun t => P O₂ x (proj t) with
      | none => []
      | some t => C1.collection (mk_cursor [t]) := by
  unfold Containers.i mk_hash_index_scan
  dsimp only
  rw [find_mk_hash]
  cases unhashed_elem.find? fun t => P O₂ x (proj t) with
  | none => exact C1.emptyCursor_collection
  | some t => exact C1.reset_collection _

end

/-! ### Simple and filtered tables -/

section
variable (O₁ O₂) (proj_eq : ∀ {x y}, O₁.compare x y = .eq → O₂.compare (proj x) (proj y) = .eq)

def simple_build : IndexRcd O₁ O₂ := build O₂ (SeqScan.build O₁) proj_eq

def mk_simple_hash_index_scan (l : List o₁) : (simple_build O₁ O₂ proj_eq).containers :=
  mk_hash_index_scan O₂ (SeqScan.build O₁) proj proj_eq SeqScan.mk_seqcursor l
    fun _ x hx => ⟨x, hx, O₁.compare_eq_refl x⟩

variable (theta : o₁ → Bool) (theta_eq : ∀ {x y}, O₁.compare x y = .eq → theta x = theta y)

def filter_build : IndexRcd O₁ O₂ := build O₂ (Filter.build theta theta_eq (SeqScan.build O₁)) proj_eq

def mk_filter_hash_index_scan (l : List o₁) : (filter_build O₁ O₂ proj_eq theta theta_eq).containers :=
  mk_hash_index_scan O₂ (Filter.build theta theta_eq (SeqScan.build O₁)) proj proj_eq SeqScan.mk_seqcursor l
    fun _ x hx => ⟨x, List.mem_of_mem_filter hx, O₁.compare_eq_refl x⟩

/-- The first row of the list that has the value. -/
theorem collection_simple (l : List o₁) (x : o₂) :
    (simple_build O₁ O₂ proj_eq).C1.collection
        ((simple_build O₁ O₂ proj_eq).i (mk_simple_hash_index_scan O₁ O₂ proj_eq l) x) =
      (l.find? fun t => P O₂ x (proj t)).toList := by
  refine (collection_mk_hash O₂ (SeqScan.build O₁) proj proj_eq SeqScan.mk_seqcursor x).trans ?_
  cases l.find? fun t => P O₂ x (proj t) <;> rfl

/-- The first row of the list that has the value, if it passes the filter. -/
theorem collection_filter (l : List o₁) (x : o₂) :
    (filter_build O₁ O₂ proj_eq theta theta_eq).C1.collection
        ((filter_build O₁ O₂ proj_eq theta theta_eq).i
          (mk_filter_hash_index_scan O₁ O₂ proj_eq theta theta_eq l) x) =
      (l.find? fun t => P O₂ x (proj t)).toList.filter theta := by
  refine (collection_mk_hash O₂ (Filter.build theta theta_eq (SeqScan.build O₁)) proj proj_eq
    SeqScan.mk_seqcursor x).trans ?_
  cases l.find? fun t => P O₂ x (proj t) <;> rfl

end

end HashIndexScan

end DeepDB.Plans
