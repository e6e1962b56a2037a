import DeepDB.DbOps.IndexLaw
import Mathlib.Data.List.Induction
import Mathlib.Data.List.Nodup

/-!
The cursors of `db_ops/stringlist.c`. A cursor is a position in the list, and behind the last one the
next move goes back to the last entry. The cursor of a key that is not there stands at the first entry,
and a position without an entry is read from an uninitialised pointer. Positions are `int`s; counting
beyond the greatest has no value.
-/

namespace DeepDB.DbOps

/-! ### The functions -/

def INT_MAX : Int := 2147483647

/-- `n++`. -/
def increment (n : Int) : Option Int := if n < INT_MAX then some (n + 1) else none

/-- A `struct kvpair *`; NULL is `none`. -/
abbrev KvPair := Option (CString × Value)

/-- The loop of `stringlist_cardinality`. -/
def cardinalityLoop : List Scell → Int → Option Int
  | [], size => some size
  | _ :: r, size => do cardinalityLoop r (← increment size)

def stringlistCardinality (p : List Scell) : Option Int := cardinalityLoop p 0

/-- The loop of `stringlist_get_cursor`. -/
def getCursorLoop (key : CString) : List Scell → Int → Option Int
  | [], _ => some 0
  | q :: r, cur => if q.key = key then some cur else do getCursorLoop key r (← increment cur)

def stringlistGetCursor (p : List Scell) (key : CString) : Option Int := getCursorLoop key p 0

/-- The loop of `stringlist_get_pair`; behind it the pointer that is returned was never set. -/
def getPairLoop (cur : Int) : List Scell → Int → Option KvPair
  | [], _ => none
  | q :: r, position =>
    if cur = position then some (some (q.key, q.value))
    else do getPairLoop cur r (← increment position)

def stringlistGetPair (p : List Scell) (cur : Int) : Option KvPair := getPairLoop cur p 0

def stringlistMoveToNext (p : List Scell) (cur : Int) : Option Int := do
  let length ← stringlistCardinality p
  let cur ← increment cur
  if cur > length then return length - 1
  else if cur ≤ 0 then return 0
  else return cur

def stringlistMoveToFirst : Int := 0

/-- The list that inserts make. -/
def built (inserts : List (CString × Value)) : Option (List Scell) :=
  inserts.foldlM (fun p e => (stringlistInsert p e.1 e.2).map Prod.fst) []

/-- The cursor after some moves from the first position. -/
def cursorAfter (p : List Scell) : Nat → Option Int
  | 0 => some stringlistMoveToFirst
  | moves + 1 => do stringlistMoveToNext p (← cursorAfter p moves)

/-! ### What a list holds -/

section

variable {p : List Scell} {k : CString} {inserts : List (CString × Value)}

theorem mem_iff_find (nodup : (p.map Scell.key).Nodup) {q : Scell} :
    q ∈ p ↔ p.find? (fun q' => q'.key = q.key) = some q := by
  constructor
  · intro member
    induction p with
    | nil => cases member
    | cons q' r ih =>
      rw [List.map_cons, List.nodup_cons] at nodup
      rcases List.mem_cons.mp member with rfl | member
      · simp
      · have other : q'.key ≠ q.key := fun same =>
          nodup.1 (same ▸ List.mem_map_of_mem member)
        rw [List.find?_cons_of_neg (by simpa using other)]
        exact ih nodup.2 member
  · exact List.mem_of_find?_eq_some

/-- The value of the last insert of a key. -/
def lastValue (k : CString) (inserts : List (CString × Value)) : Option Value :=
  (inserts.reverse.find? fun e => e.1 = k).map Prod.snd

theorem built_snoc {k : CString} {v : Value} (made : built (inserts ++ [(k, v)]) = some p) :
    ∃ p₀, built inserts = some p₀ ∧ p = setCell p₀ k v := by
  rw [built, List.foldlM_append] at made
  obtain ⟨p₀, first, made⟩ := Option.bind_eq_some_iff.mp made
  rw [List.foldlM_cons] at made
  obtain ⟨p₁, last, same⟩ := Option.bind_eq_some_iff.mp made
  obtain rfl : p₁ = p := Option.some.inj same
  obtain ⟨⟨p₂, old⟩, insert, rfl⟩ := Option.map_eq_some_iff.mp last
  exact ⟨p₀, first, stringlistInsert_some insert⟩

theorem built_spec (made : built inserts = some p) :
    (p.map Scell.key).Nodup ∧
      ∀ k, (p.find? fun q => q.key = k).map Scell.value = lastValue k inserts := by
  induction inserts using List.reverseRecOn generalizing p with
  | nil =>
    obtain rfl : [] = p := Option.some.inj made
    exact ⟨List.nodup_nil, fun _ => rfl⟩
  | append_singleton inserts e ih =>
    obtain ⟨k, v⟩ := e
    obtain ⟨p₀, first, rfl⟩ := built_snoc made
    obtain ⟨nodup, values⟩ := ih first
    constructor
    · rw [keys_setCell]
      split
      · exact nodup
      · rename_i fresh
        apply List.nodup_append.mpr
        refine ⟨nodup, List.nodup_singleton k, ?_⟩
        intro a ha b hb same
        rw [List.mem_singleton.mp hb] at same
        exact fresh (same ▸ ha)
    · intro x
      rw [find_setCell, lastValue, List.reverse_append, List.reverse_singleton,
        List.singleton_append, List.find?_cons]
      by_cases same : k = x
      · simp [same]
      · rw [if_neg (Ne.symm same), values x, lastValue]
        simp [same]

theorem mem_built (made : built inserts = some p) (k : CString) (v : Value) :
    (⟨k, v⟩ : Scell) ∈ p ↔ lastValue k inserts = some v := by
  obtain ⟨nodup, values⟩ := built_spec made
  rw [mem_iff_find nodup, ← values k]
  constructor
  · intro found
    rw [found, Option.map_some]
  · intro value
    obtain ⟨q, found, same⟩ := Option.map_eq_some_iff.mp value
    have key : q.key = k := by simpa using List.find?_some found
    rw [found, ← same, ← key]

/-! ### Positions -/

theorem cardinalityLoop_eq (p : List Scell) {size : Int} (low : size ≤ INT_MAX) :
    cardinalityLoop p size = if size + p.length ≤ INT_MAX then some (size + p.length) else none := by
  induction p generalizing size with
  | nil =>
    unfold cardinalityLoop
    rw [List.length_nil, Int.natCast_zero, Int.add_zero, if_pos low]
  | cons q r ih =>
    unfold cardinalityLoop increment
    rw [List.length_cons, Int.natCast_succ]
    by_cases more : size < INT_MAX
    · rw [if_pos more, Option.bind_eq_bind, Option.bind_some, ih (by omega), Int.add_right_comm,
        Int.add_assoc]
    · rw [if_neg more, if_neg (by omega)]
      rfl

theorem cardinality_eq (p : List Scell) :
    stringlistCardinality p = if p.length ≤ INT_MAX then some (p.length : Int) else none := by
  rw [stringlistCardinality, cardinalityLoop_eq p (by decide), Int.zero_add]

theorem getPairLoop_eq (p : List Scell) (i : Nat) (position : Int)
    (low : position + i ≤ INT_MAX) :
    getPairLoop (position + i) p position = (p[i]?).map fun q => some (q.key, q.value) := by
  induction p generalizing i position with
  | nil => rfl
  | cons q r ih =>
    rw [getPairLoop]
    cases i with
    | zero => rw [if_pos (by simp)]; rfl
    | succ i =>
      rw [Int.natCast_succ] at low ⊢
      unfold increment
      rw [if_neg (by omega), if_pos (by omega), Option.bind_eq_bind, Option.bind_some,
        List.getElem?_cons_succ, ← ih i (position + 1) (by omega)]
      congr 1
      omega

/-- A position behind the end gives no defined pointer. -/
theorem getPair_nat (p : List Scell) {i : Nat} (low : i ≤ INT_MAX) :
    stringlistGetPair p i = (p[i]?).map fun q => some (q.key, q.value) := by
  have read := getPairLoop_eq p i 0 (by omega)
  rwa [Int.zero_add] at read

/-- NULL is never returned. -/
theorem getPairLoop_ne (cur : Int) (p : List Scell) (position : Int) :
    getPairLoop cur p position ≠ some none := by
  induction p generalizing position with
  | nil => exact nofun
  | cons q r ih =>
    unfold getPairLoop increment
    split
    · exact nofun
    · split
      · exact ih _
      · exact nofun

/-- Up to the end every move goes one entry on. -/
theorem cursorAfter_le (p : List Scell) {moves : Nat} (le : moves ≤ p.length)
    (count : 0 < moves → p.length ≤ INT_MAX) : cursorAfter p moves = some (moves : Int) := by
  induction moves with
  | zero => rfl
  | succ moves ih =>
    have fits := count (Nat.succ_pos moves)
    have low : (moves : Int) < INT_MAX := by omega
    have next : increment moves = some ((moves : Int) + 1) := if_pos low
    have count : stringlistCardinality p = some (p.length : Int) := by
      rw [cardinality_eq, if_pos fits]
    have inside : ¬(moves : Int) + 1 > p.length := by omega
    have positive : ¬(moves : Int) + 1 ≤ 0 := by omega
    rw [cursorAfter, ih (Nat.le_of_succ_le le) fun _ => fits, Option.bind_eq_bind, Option.bind_some,
      stringlistMoveToNext, count, next]
    simp only [Option.bind_eq_bind, Option.bind_some, if_neg inside, if_neg positive]
    rfl

/-- The move after the end goes back to the last entry, if the position can be counted. -/
theorem cursorAfter_behind {c : Int} (after : cursorAfter p (p.length + 1) = some c) :
    c = p.length - 1 := by
  rw [cursorAfter] at after
  obtain ⟨cur, before, move⟩ := Option.bind_eq_some_iff.mp after
  unfold stringlistMoveToNext at move
  rw [cardinality_eq] at move
  by_cases fits : (p.length : Int) ≤ INT_MAX
  · obtain rfl : (p.length : Int) = cur :=
      Option.some.inj ((cursorAfter_le p (Nat.le_refl _) fun _ => fits).symm.trans before)
    unfold increment at move
    rw [if_pos fits, Option.bind_eq_bind, Option.bind_some] at move
    split at move
    · rw [Option.bind_some, if_pos (by omega)] at move
      exact (Option.some.inj move).symm
    · cases move
  · rw [if_neg fits] at move
    cases move

/-- Beyond the greatest `int` the entries cannot be counted. -/
theorem cursorAfter_uncounted (long : ¬(p.length : Int) ≤ INT_MAX) : cursorAfter p 1 = none := by
  simp only [cursorAfter, stringlistMoveToNext, cardinality_eq, if_neg long]
  rfl

theorem getCursorLoop_found {cur : Int} (stored : k ∈ p.map Scell.key) (low : cur ≤ INT_MAX) :
    getCursorLoop k p cur = if cur + (p.map Scell.key).idxOf k ≤ INT_MAX
      then some (cur + (p.map Scell.key).idxOf k) else none := by
  induction p generalizing cur with
  | nil => cases stored
  | cons q r ih =>
    unfold getCursorLoop increment
    rw [List.map_cons] at stored ⊢
    by_cases here : q.key = k
    · rw [if_pos here, here, List.idxOf_cons_self, Int.natCast_zero, Int.add_zero, if_pos low]
    · have later : k ∈ r.map Scell.key := (List.mem_cons.mp stored).resolve_left (Ne.symm here)
      rw [if_neg here, List.idxOf_cons_ne _ here, Int.natCast_succ]
      by_cases more : cur < INT_MAX
      · rw [if_pos more, Option.bind_eq_bind, Option.bind_some, ih later (by omega), Int.add_right_comm,
          Int.add_assoc]
      · rw [if_neg more, if_neg (by omega)]
        rfl

theorem getCursor_found (stored : k ∈ p.map Scell.key) :
    stringlistGetCursor p k = if (p.map Scell.key).idxOf k ≤ INT_MAX
      then some ((p.map Scell.key).idxOf k : Int) else none := by
  rw [stringlistGetCursor, getCursorLoop_found stored (by decide), Int.zero_add]

end

/-! ### The law -/

/-- A scan that reads and moves `reads` times reads the pairs in order, and after the last one NULL; with
`more` moves after it the cursor stays behind the end. The cursor of `k` reads the pair of `k` only. -/
structure CursorLaw (inserts : List (CString × Value)) (p : List Scell) (reads more : Nat) (k : CString) :
    Prop where
  once : (p.map Scell.key).Nodup
  pairs : ∀ k v, (⟨k, v⟩ : Scell) ∈ p ↔ lastValue k inserts = some v
  scan : ∀ i < reads, (cursorAfter p i).bind (stringlistGetPair p) =
    some ((p[i]?).map fun q => (q.key, q.value))
  moves : ∀ i ≤ reads + more, ∃ c, cursorAfter p i = some c ∧ if i < p.length then c = i else p.length ≤ c
  found : ∀ v, lastValue k inserts = some v →
    (stringlistGetCursor p k).bind (stringlistGetPair p) = some (some (k, v))
  absent : lastValue k inserts = none →
    (stringlistGetCursor p k).bind (stringlistGetPair p) = some none

theorem lastValue_stored {inserts : List (CString × Value)} {p : List Scell}
    (made : built inserts = some p) (k : CString) :
    k ∈ p.map Scell.key ↔ ∃ v, lastValue k inserts = some v := by
  constructor
  · intro stored
    obtain ⟨⟨_, v⟩, member, rfl⟩ := List.mem_map.mp stored
    exact ⟨v, (mem_built made _ v).mp member⟩
  · rintro ⟨v, last⟩
    exact List.mem_map_of_mem ((mem_built made k v).mpr last)

theorem getPair_found {inserts : List (CString × Value)} {p : List Scell} {k : CString} {v : Value}
    (made : built inserts = some p) (last : lastValue k inserts = some v)
    (low : (p.map Scell.key).idxOf k ≤ INT_MAX) :
    (stringlistGetCursor p k).bind (stringlistGetPair p) = some (some (k, v)) := by
  have stored := (lastValue_stored made k).mpr ⟨v, last⟩
  have at_ : (p.map Scell.key)[(p.map Scell.key).idxOf k]? = some k := List.getElem?_idxOf stored
  rw [List.getElem?_map] at at_
  obtain ⟨⟨_, v'⟩, entry, rfl⟩ := Option.map_eq_some_iff.mp at_
  have last' := (mem_built made _ v').mp (List.mem_of_getElem? entry)
  obtain rfl := Option.some.inj (last'.symm.trans last)
  rw [getCursor_found stored, if_pos low, Option.bind_some, getPair_nat p low, entry]
  rfl

/-- A scan goes wrong at the end: the pointer read there is not set, and the next move goes back. The
cursor of a key that is not there reads another one, or that pointer. -/
theorem cursorLaw_iff {inserts : List (CString × Value)} {p : List Scell}
    (made : built inserts = some p) (reads more : Nat) (k : CString) :
    CursorLaw inserts p reads more k ↔
      (reads + more ≤ p.length ∧ (0 < reads + more → p.length ≤ INT_MAX)) ∧
        k ∈ p.map Scell.key ∧ (p.map Scell.key).idxOf k ≤ INT_MAX := by
  constructor
  · intro law
    have stored : k ∈ p.map Scell.key := by
      by_contra missing
      have none : lastValue k inserts = none := by
        apply Option.eq_none_iff_forall_ne_some.mpr
        exact fun v last => missing ((lastValue_stored made k).mpr ⟨v, last⟩)
      obtain ⟨cur, -, read⟩ := Option.bind_eq_some_iff.mp (law.absent none)
      exact getPairLoop_ne cur p 0 read
    refine ⟨⟨?_, fun some_move => ?_⟩, stored, ?_⟩
    · by_contra more_
      obtain ⟨c, after, behind⟩ := law.moves (p.length + 1) (by omega)
      obtain rfl := cursorAfter_behind after
      rw [if_neg (by omega)] at behind
      omega
    · by_contra long
      obtain ⟨c, after, -⟩ := law.moves 1 some_move
      rw [cursorAfter_uncounted long] at after
      cases after
    · by_contra far
      obtain ⟨v, last⟩ := (lastValue_stored made k).mp stored
      have read := law.found v last
      rw [getCursor_found stored, if_neg far] at read
      cases read
  · rintro ⟨⟨few, count⟩, stored, low⟩
    obtain ⟨v, last⟩ := (lastValue_stored made k).mp stored
    refine ⟨(built_spec made).1, mem_built made, fun i hi => ?_, fun i hi => ?_, fun v' last' => ?_,
      fun none => ?_⟩
    · have inside : i < p.length := by omega
      have fits := count (by omega)
      rw [cursorAfter_le p inside.le fun _ => fits, Option.bind_some, getPair_nat p (by omega),
        List.getElem?_eq_getElem inside]
      rfl
    · refine ⟨i, cursorAfter_le p (by omega) fun some_move => count (by omega), ?_⟩
      split
      · rfl
      · omega
    · exact getPair_found made last' low
    · rw [none] at last
      cases last

/-- Two entries, read one after another; the cursor ends behind them. -/
theorem cursorLaw_iff_two : ∃ p, built [([98], 7), ([97], 5), ([98], 6)] = some p ∧
    CursorLaw [([98], 7), ([97], 5), ([98], 6)] p 2 0 [97] := by
  have made : built [([98], 7), ([97], 5), ([98], 6)] = some [⟨[98], 6⟩, ⟨[97], 5⟩] := rfl
  exact ⟨_, made, (cursorLaw_iff made 2 0 [97]).mpr ⟨⟨by decide, fun _ => by decide⟩, by decide,
    by decide⟩⟩

/-- After the end of a list of one entry the next move reads the entry again. -/
theorem cursorLaw_repeats :
    (∃ p, built [([97], 5)] = some p ∧
      (cursorAfter p 2).bind (stringlistGetPair p) = some (some ([97], 5)) ∧
      (stringlistGetCursor p [98]).bind (stringlistGetPair p) = some (some ([97], 5)) ∧
      (cursorAfter p 1).bind (stringlistGetPair p) = none) ∧
      ¬∀ inserts p reads more k, built inserts = some p → CursorLaw inserts p reads more k := by
  have made : built [([97], 5)] = some [⟨[97], 5⟩] := rfl
  refine ⟨⟨_, made, by decide, by decide, by decide⟩, fun all => ?_⟩
  obtain ⟨c, after, behind⟩ := (all _ _ 1 1 [97] made).moves 2 (Nat.le_refl 2)
  obtain rfl : c = 0 := cursorAfter_behind after
  exact absurd behind (by decide)

end DeepDB.DbOps
