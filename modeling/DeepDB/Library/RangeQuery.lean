import DeepDB.Library.Contents

/-!
The range query of `btrees_and_tries/relapps.c`. `alloc n` says whether the allocator has room for an
array of `n` pointers. The result array is the list of its cells, of which those that are not written yet
hold nothing; `arrLength` stays what it was at first.
-/

namespace DeepDB.Library
open SortedAssoc
open BTree (Key Relation Cursor MAX_TREE_DEPTH leafEntries)

variable {R : Type} {alloc : Nat → Bool} {rel : Relation R} {π : Cursor} {pos fuel n : Nat}
  {lower upper : Key} {entries rest : List (Key × R)} {done : List R} {cells : List (Option R)}

/-! ### The functions -/

def RL_MoveToNextValid (rel : Relation R) (cursor : Cursor) : Option (Cursor × Bool) := do
  let cursor ← RL_MoveToNext rel cursor
  return (cursor, ← RL_CursorIsValid rel cursor)

/-- The array that `realloc` returns, NULL if there is no room. -/
def UTIL_ResizeArray (alloc : Nat → Bool) (array : Option (List (Option R)))
    (currLength desiredLength : Nat) : Option (Option (List (Option R))) := do
  let cells ← array
  if currLength = 0 then none
  else if alloc desiredLength then
    return some (cells.take desiredLength ++ List.replicate (desiredLength - cells.length) none)
  else return none

/-- The loop of `RLAPP_RangeQuery`; without `fuel` it has no value. -/
def rangeQueryLoop (alloc : Nat → Bool) (rel : Relation R) (upper : Key) :
    Nat → Cursor → Option (List (Option R)) → Nat → Nat →
      Option (Cursor × Option (List (Option R)) × Nat)
  | 0, _, _, _, _ => none
  | fuel + 1, cursor, records, arrLength, numRecords => do
    let (cursor, currKey) ← RL_GetKey rel cursor
    if upper < currKey then return (cursor, records, numRecords)
    let records ← if arrLength = numRecords then
        UTIL_ResizeArray alloc records arrLength (arrLength * 2)
      else some records
    if arrLength = numRecords ∧ arrLength = 0 then return (cursor, none, 0)
    let (cursor, currRecord) ← RL_GetRecord rel cursor
    let cells ← records
    if numRecords < cells.length then
      let records := some (cells.set numRecords (some currRecord))
      let (cursor, notAtLast) ← RL_MoveToNextValid rel cursor
      if notAtLast then rangeQueryLoop alloc rel upper fuel cursor records arrLength (numRecords + 1)
      else return (cursor, records, numRecords + 1)
    else none

/-- The returned array and `*numRecords`. -/
def RLAPP_RangeQuery (alloc : Nat → Bool) (rel : Relation R) (fuel : Nat) (cursor : Cursor)
    (lower upper : Key) : Option (Cursor × Option (List (Option R)) × Nat) := do
  if !(← RL_CursorIsValid rel cursor) then none
  else if alloc 2 then
    let records := some (List.replicate 2 none)
    let (cursor, found) ← RL_MoveToKey rel cursor lower
    let moveCursorRes : Int := if found then 1 else 0
    let (cursor, valid) ← if moveCursorRes < 0 then RL_MoveToNextValid rel cursor
      else some (cursor, true)
    if valid then
      let (cursor, records, numRecords) ← rangeQueryLoop alloc rel upper fuel cursor records 2 0
      if numRecords = 0 then return (cursor, none, 0)
      else return (cursor, records, numRecords)
    else return (cursor, none, 0)
  else return (cursor, none, 0)

/-! ### The loop -/

/-- The stored records with a key up to `upper`. -/
def upTo (upper : Key) (entries : List (Key × R)) : List R :=
  (entries.filter fun e => e.1 ≤ upper).map Prod.snd

theorem upTo_below {e : Key × R} (within : e.1 ≤ upper) :
    upTo upper (e :: rest) = e.2 :: upTo upper rest := by
  simp [upTo, within]

theorem upTo_above {e : Key × R} (sorted : Sorted (e :: rest)) (above : upper < e.1) :
    upTo upper (e :: rest) = [] := by
  have behind : ∀ x ∈ e :: rest, ¬ x.1 ≤ upper := by
    intro x hx
    rcases List.mem_cons.mp hx with rfl | hx
    · exact Nat.not_le.mpr above
    · exact Nat.not_le.mpr (above.trans ((sorted_cons.mp sorted).1 x hx))
  rw [upTo, List.map_eq_nil_iff, List.filter_eq_nil_iff]
  simpa using behind

/-- The array after the records of `done`: two cells, and four once there is a third record. -/
def Filled (cells : List (Option R)) (done : List R) : Prop :=
  cells.length = (if done.length ≤ 2 then 2 else 4) ∧ done.length ≤ 4 ∧
    cells.take done.length = done.map some

/-- There is room for `m` more records. -/
def Fits (alloc : Nat → Bool) (n m : Nat) : Prop :=
  n + m ≤ 4 ∧ (n ≤ 2 → 2 < n + m → alloc 4 = true)

theorem fits_step (within : Fits alloc n 1) {m : Nat} : Fits alloc n (m + 1) ↔ Fits alloc (n + 1) m := by
  obtain ⟨few, grown⟩ := within
  unfold Fits
  constructor
  · rintro ⟨most, more⟩
    exact ⟨by omega, fun less many => more (by omega) (by omega)⟩
  · rintro ⟨most, more⟩
    refine ⟨by omega, fun less many => ?_⟩
    rcases Nat.lt_or_ge n 2 with early | last
    · exact more (by omega) (by omega)
    · exact grown less (by omega)

theorem fits_zero {m : Nat} : Fits alloc 0 m ↔ m ≤ 4 ∧ (2 < m → alloc 4 = true) := by
  simp [Fits]

theorem fits_one {m : Nat} (fits : Fits alloc n (m + 1)) : Fits alloc n 1 := by
  obtain ⟨most, grown⟩ := fits
  exact ⟨by omega, fun less many => grown less (by omega)⟩

/-- The array that the loop writes the next record to. -/
def roomFor (alloc : Nat → Bool) (cells : List (Option R)) (n : Nat) : Option (List (Option R)) :=
  if n = 2 then if alloc 4 then some (cells.take 4 ++ List.replicate (4 - cells.length) none) else none
  else some cells

theorem set_filled {v : R} (long : done.length < cells.length)
    (same : cells.take done.length = done.map some) :
    (cells.set done.length (some v)).take (done ++ [v]).length = (done ++ [v]).map some := by
  rw [List.length_append, List.length_singleton, List.take_add_one, List.take_set_of_le (Nat.le_refl _),
    same, List.getElem?_set_self long]
  simp

/-- A record that fits is written inside the array. -/
theorem roomFor_fits {v : R} (filled : Filled cells done) (within : Fits alloc done.length 1) :
    ∃ cells', roomFor alloc cells done.length = some cells' ∧ done.length < cells'.length ∧
      Filled (cells'.set done.length (some v)) (done ++ [v]) := by
  obtain ⟨size, few, same⟩ := filled
  obtain ⟨most, grown⟩ := within
  have next : (done ++ [v]).length = done.length + 1 := by simp
  by_cases two : done.length = 2
  · have granted : alloc 4 = true := grown (by omega) (by omega)
    have size : cells.length = 2 := by
      rw [if_pos (by omega)] at size
      exact size
    have longer : (cells.take 4 ++ List.replicate (4 - cells.length) (none : Option R)).length = 4 := by
      simp [size]
    have kept : (cells.take 4 ++ List.replicate (4 - cells.length) (none : Option R)).take done.length =
        done.map some := by
      rw [List.take_append_of_le_length (by simp [size, two]), List.take_take, ← same]
      congr 1
      omega
    refine ⟨cells.take 4 ++ List.replicate (4 - cells.length) none,
      by rw [roomFor, if_pos two, if_pos granted], by omega, ?_, by omega, set_filled (by omega) kept⟩
    rw [List.length_set, longer, if_neg (by omega)]
  · refine ⟨cells, by rw [roomFor, if_neg two], ?_, ?_, by omega, set_filled ?_ same⟩
    · split at size <;> omega
    · rw [List.length_set, size]
      split <;> split <;> omega
    · split at size <;> omega

/-- One that does not fit is written behind the array or through NULL. -/
theorem roomFor_full (filled : Filled cells done) (many : ¬ Fits alloc done.length 1) :
    ∀ cells', roomFor alloc cells done.length = some cells' → ¬ done.length < cells'.length := by
  obtain ⟨size, few, -⟩ := filled
  intro cells' room
  unfold roomFor at room
  unfold Fits at many
  split at room
  · split at room
    · rename_i two granted
      exact absurd ⟨by omega, fun _ _ => granted⟩ many
    · cases room
  · obtain rfl := Option.some.inj room
    split at size
    · exact absurd ⟨by omega, fun _ _ => by omega⟩ many
    · intro inside
      exact many ⟨by omega, fun _ _ => by omega⟩

theorem rangeQueryLoop_above {e : Key × R} (alloc : Nat → Bool) (fuel n : Nat)
    (records : Option (List (Option R)))
    (leaves : leafEntries rel.nodes MAX_TREE_DEPTH rel.root = some entries) (at_ : At rel π pos)
    (here : entries[pos]? = some e) (above : upper < e.1) :
    ∃ π', rangeQueryLoop alloc rel upper (fuel + 1) π records 2 n = some (π', records, n) := by
  obtain ⟨π', get, -⟩ := RL_GetKey_at leaves at_ here
  refine ⟨π', ?_⟩
  rw [rangeQueryLoop, get]
  simp only [Option.bind_eq_bind, Option.bind_some, if_pos above]
  rfl

theorem rangeQueryLoop_below {e : Key × R} (alloc : Nat → Bool)
    (leaves : leafEntries rel.nodes MAX_TREE_DEPTH rel.root = some entries) (at_ : At rel π pos)
    (here : entries[pos]? = some e) (within : e.1 ≤ upper) :
    ∃ π', At rel π' (pos + 1) ∧ ∀ fuel cells n,
      rangeQueryLoop alloc rel upper (fuel + 1) π (some cells) 2 n =
        (roomFor alloc cells n).bind fun cells =>
          if n < cells.length then
            if pos + 1 < entries.length then
              rangeQueryLoop alloc rel upper fuel π' (some (cells.set n (some e.2))) 2 (n + 1)
            else some (π', some (cells.set n (some e.2)), n + 1)
          else none := by
  obtain ⟨inside, -⟩ := List.getElem?_eq_some_iff.mp here
  obtain ⟨π₁, key, at₁⟩ := RL_GetKey_at leaves at_ here
  obtain ⟨π₂, record, at₂⟩ := RL_GetRecord_at leaves at₁ here
  obtain ⟨π₃, next, at₃⟩ := RL_MoveToNext_at leaves at₂ inside
  have moved : RL_MoveToNextValid rel π₂ = some (π₃, decide (pos + 1 < entries.length)) := by
    rw [RL_MoveToNextValid, next, Option.bind_eq_bind, Option.bind_some, RL_CursorIsValid_at leaves at₃]
    rfl
  refine ⟨π₃, at₃, fun fuel cells n => ?_⟩
  rw [rangeQueryLoop, key]
  simp only [Option.bind_eq_bind, Option.bind_some, if_neg (Nat.not_lt.mpr within), record, moved,
    UTIL_ResizeArray, roomFor, eq_comm (a := n)]
  by_cases two : 2 = n
  · subst two
    by_cases granted : alloc 4 = true
    · simp [granted]
    · simp [granted]
  · simp [two]

/-- Everything up to `upper` is written, and nothing outside the array. -/
theorem rangeQueryLoop_fits {e : Key × R}
    (leaves : leafEntries rel.nodes MAX_TREE_DEPTH rel.root = some entries) (sorted : Sorted (e :: rest))
    (ahead : entries.drop pos = e :: rest) (at_ : At rel π pos) (filled : Filled cells done)
    (fits : Fits alloc done.length (upTo upper (e :: rest)).length) (enough : rest.length < fuel) :
    ∃ π' cells', rangeQueryLoop alloc rel upper fuel π (some cells) 2 done.length =
        some (π', some cells', (done ++ upTo upper (e :: rest)).length) ∧
      Filled cells' (done ++ upTo upper (e :: rest)) := by
  induction fuel generalizing e rest pos π cells done with
  | zero => omega
  | succ fuel ih =>
    obtain ⟨here, -, behind⟩ := drop_step ahead
    by_cases within : e.1 ≤ upper
    · rw [upTo_below within] at fits ⊢
      have one := fits_one fits
      obtain ⟨π', at', step⟩ := rangeQueryLoop_below alloc leaves at_ here within
      obtain ⟨cells', room, inside, filled'⟩ := roomFor_fits (v := e.2) filled one
      have split : done ++ e.2 :: upTo upper rest = done ++ [e.2] ++ upTo upper rest := by simp
      rw [step, room, Option.bind_some, if_pos inside, split]
      cases rest with
      | nil =>
        rw [if_neg (Nat.not_lt.mpr (List.drop_eq_nil_iff.mp behind))]
        exact ⟨π', cells'.set done.length (some e.2), by simp [upTo], by simpa [upTo] using filled'⟩
      | cons x rest =>
        rw [if_pos (drop_step behind).2.1]
        have later := (fits_step one).mp fits
        rw [← List.length_singleton (a := e.2), ← List.length_append] at later ⊢
        exact ih (sorted_cons.mp sorted).2 behind at' filled' later (Nat.lt_of_succ_lt_succ enough)
    · obtain ⟨π', stop⟩ := rangeQueryLoop_above alloc fuel done.length (some cells) leaves
        at_ here (Nat.lt_of_not_le within)
      rw [upTo_above sorted (Nat.lt_of_not_le within), List.append_nil]
      exact ⟨π', cells, stop, filled⟩

/-- Where they do not all fit, the loop does not return. -/
theorem rangeQueryLoop_full {e : Key × R}
    (leaves : leafEntries rel.nodes MAX_TREE_DEPTH rel.root = some entries) (sorted : Sorted (e :: rest))
    (ahead : entries.drop pos = e :: rest) (at_ : At rel π pos) (filled : Filled cells done)
    (full : ¬ Fits alloc done.length (upTo upper (e :: rest)).length)
    (some_ : upTo upper (e :: rest) ≠ []) :
    rangeQueryLoop alloc rel upper fuel π (some cells) 2 done.length = none := by
  induction fuel generalizing e rest pos π cells done with
  | zero => rfl
  | succ fuel ih =>
    obtain ⟨here, -, behind⟩ := drop_step ahead
    have within : e.1 ≤ upper := by
      by_contra above
      exact some_ (upTo_above sorted (Nat.lt_of_not_le above))
    rw [upTo_below within] at full
    obtain ⟨π', at', step⟩ := rangeQueryLoop_below alloc leaves at_ here within
    rw [step]
    by_cases one : Fits alloc done.length 1
    · obtain ⟨cells', room, inside, filled'⟩ := roomFor_fits (v := e.2) filled one
      rw [room, Option.bind_some, if_pos inside]
      have later := mt (fits_step one).mpr full
      cases rest with
      | nil => exact absurd one full
      | cons x rest =>
        rw [if_pos (drop_step behind).2.1]
        have more : upTo upper (x :: rest) ≠ [] := by
          intro none
          rw [none] at full
          exact full one
        rw [← List.length_singleton (a := e.2), ← List.length_append] at later ⊢
        exact ih (sorted_cons.mp sorted).2 behind at' filled' later more
    · cases room : roomFor alloc cells done.length with
      | none => rfl
      | some cells' => exact if_neg (roomFor_full filled one cells' room)

/-! ### The query -/

/-- The stored records with keys from `lower` to `upper`. -/
def inRange (lower upper : Key) (entries : List (Key × R)) : List R :=
  (entries.filter fun e => lower ≤ e.1 ∧ e.1 ≤ upper).map Prod.snd

/-- A returned array and number are the records. -/
def Delivers (records : Option (List (Option R))) (numRecords : Nat) (wanted : List R) : Prop :=
  numRecords = wanted.length ∧
    if wanted = [] then records = none
    else ∃ cells, records = some cells ∧ cells.take numRecords = wanted.map some

/-- The query returns the records in the range, or memory is short and it returns NULL and 0. -/
def RangeLaw (alloc : Nat → Bool) (rel : Relation R) (π : Cursor) (lower upper : Key)
    (entries : List (Key × R)) : Prop :=
  ∃ fuel π' records numRecords,
    RLAPP_RangeQuery alloc rel fuel π lower upper = some (π', records, numRecords) ∧
      (Delivers records numRecords (inRange lower upper entries) ∨
        (∃ size, alloc size = false) ∧ records = none ∧ numRecords = 0)

theorem inRange_drop (sorted : Sorted entries) :
    inRange lower upper entries = upTo upper (entries.drop (rank lower entries)) := by
  obtain ⟨below, above⟩ := rank_split (k := lower) sorted
  have none : inRange lower upper (entries.take (rank lower entries)) = [] := by
    rw [inRange, List.map_eq_nil_iff, List.filter_eq_nil_iff]
    intro e he within
    exact absurd (of_decide_eq_true within).1 (Nat.not_le.mpr (below e he))
  have rest : inRange lower upper (entries.drop (rank lower entries)) =
      upTo upper (entries.drop (rank lower entries)) := by
    rw [inRange, upTo]
    congr 1
    apply List.filter_congr
    intro e he
    have from_ : lower ≤ e.1 := above e he
    simp [from_]
  calc inRange lower upper entries
      = inRange lower upper (entries.take (rank lower entries) ++ entries.drop (rank lower entries)) := by
        rw [List.take_append_drop]
    _ = inRange lower upper (entries.take (rank lower entries)) ++
        inRange lower upper (entries.drop (rank lower entries)) := by
        simp only [inRange, List.filter_append, List.map_append]
    _ = upTo upper (entries.drop (rank lower entries)) := by rw [none, rest, List.nil_append]

/-- What a query does with a valid cursor when there is room for the first array: it loops from the least
key that is not below `lower`. -/
theorem rangeQuery_loop (lower upper : Key)
    (leaves : leafEntries rel.nodes MAX_TREE_DEPTH rel.root = some entries)
    (at_ : At rel π pos) (valid : pos < entries.length) (granted : alloc 2 = true) :
    ∃ π', At rel π' (rank lower entries) ∧ ∀ fuel, RLAPP_RangeQuery alloc rel fuel π lower upper =
      (rangeQueryLoop alloc rel upper fuel π' (some (List.replicate 2 none)) 2 0).map fun x =>
        if x.2.2 = 0 then (x.1, none, 0) else x := by
  obtain ⟨π', move, at'⟩ := RL_MoveToKey_at leaves at_ lower
  refine ⟨π', at', fun fuel => ?_⟩
  have notBelow : ∀ b : Bool, ¬ (if b then 1 else 0 : Int) < 0 := by decide
  rw [RLAPP_RangeQuery, RL_CursorIsValid_at leaves at_, decide_eq_true valid, move]
  simp only [Option.bind_eq_bind, Option.bind_some, Bool.not_true, Bool.false_eq_true, if_false, granted,
    if_true, if_neg (notBelow _)]
  cases rangeQueryLoop alloc rel upper fuel π' (some (List.replicate 2 none)) 2 0 with
  | none => rfl
  | some x =>
    rw [Option.bind_some, Option.map_some]
    by_cases empty : x.2.2 = 0
    · rw [if_pos empty, if_pos empty]
      rfl
    · rw [if_neg empty, if_neg empty]
      rfl

theorem filled_first : Filled (List.replicate 2 (none : Option R)) [] := ⟨rfl, Nat.zero_le _, rfl⟩

/-- Behind the last entry. -/
theorem rangeQueryLoop_end (leaves : leafEntries rel.nodes MAX_TREE_DEPTH rel.root = some entries)
    (at_ : At rel π entries.length) (records : Option (List (Option R))) :
    rangeQueryLoop alloc rel upper fuel π records 2 n = none := by
  cases fuel with
  | zero => rfl
  | succ fuel =>
    rw [rangeQueryLoop, RL_GetKey_end leaves at_]
    rfl

theorem rangeQuery_delivers {e : Key × R}
    (leaves : leafEntries rel.nodes MAX_TREE_DEPTH rel.root = some entries) (sorted : Sorted entries)
    (at_ : At rel π pos) (valid : pos < entries.length) (granted : alloc 2 = true)
    (ahead : entries.drop (rank lower entries) = e :: rest)
    (fits : Fits alloc 0 (inRange lower upper entries).length) :
    RangeLaw alloc rel π lower upper entries := by
  obtain ⟨π', at', query⟩ := rangeQuery_loop lower upper leaves at_ valid granted
  have sorted' : Sorted (e :: rest) := by
    rw [← List.take_append_drop (rank lower entries) entries, ahead] at sorted
    exact (sorted_append.mp sorted).2.1
  rw [inRange_drop sorted, ahead] at fits
  have enough : rest.length < rest.length + 1 := Nat.lt_succ_self _
  obtain ⟨π'', cells, loop, -, -, same⟩ :=
    rangeQueryLoop_fits leaves sorted' ahead at' filled_first fits enough
  rw [RangeLaw, inRange_drop sorted, ahead]
  rw [List.nil_append] at loop same
  rw [List.length_nil] at loop
  by_cases none : upTo upper (e :: rest) = []
  · refine ⟨rest.length + 1, π'', Option.none, 0, ?_, Or.inl ?_⟩
    · rw [query, loop]
      simp [none]
    · simp [Delivers, none]
  · refine ⟨rest.length + 1, π'', some cells, (upTo upper (e :: rest)).length, ?_, Or.inl ⟨rfl, ?_⟩⟩
    · rw [query, loop]
      simp [none]
    · rw [if_neg none]
      exact ⟨cells, rfl, same⟩

theorem rangeQuery_full {e : Key × R}
    (leaves : leafEntries rel.nodes MAX_TREE_DEPTH rel.root = some entries) (sorted : Sorted entries)
    (at_ : At rel π pos) (valid : pos < entries.length) (granted : alloc 2 = true)
    (ahead : entries.drop (rank lower entries) = e :: rest)
    (full : ¬ Fits alloc 0 (inRange lower upper entries).length) (fuel : Nat) :
    RLAPP_RangeQuery alloc rel fuel π lower upper = none := by
  obtain ⟨π', at', query⟩ := rangeQuery_loop lower upper leaves at_ valid granted
  have sorted' : Sorted (e :: rest) := by
    rw [← List.take_append_drop (rank lower entries) entries, ahead] at sorted
    exact (sorted_append.mp sorted).2.1
  rw [inRange_drop sorted, ahead] at full
  have some_ : upTo upper (e :: rest) ≠ [] := by
    intro none
    rw [none] at full
    exact full (fits_zero.mpr ⟨Nat.zero_le _, fun more => absurd more (by simp)⟩)
  have loop : rangeQueryLoop alloc rel upper fuel π' (some (List.replicate 2 none)) 2 0 = none :=
    rangeQueryLoop_full leaves sorted' ahead at' filled_first full some_
  rw [query, loop]
  rfl

/-- Where the query is right, for a cursor anywhere on a relation. -/
theorem rangeLaw_iff (leaves : leafEntries rel.nodes MAX_TREE_DEPTH rel.root = some entries)
    (sorted : Sorted entries) (at_ : At rel π pos) :
    RangeLaw alloc rel π lower upper entries ↔ RL_CursorIsValid rel π = some true ∧
      (alloc 2 = false ∨ ((∃ e ∈ entries, lower ≤ e.1) ∧
        Fits alloc 0 (inRange lower upper entries).length)) := by
  have valid := RL_CursorIsValid_at leaves at_
  by_cases inside : pos < entries.length
  · rw [decide_eq_true inside] at valid
    cases granted : alloc 2 with
    | false =>
      refine iff_of_true ⟨0, π, none, 0, ?_, Or.inr ⟨⟨2, granted⟩, rfl, rfl⟩⟩ ⟨valid, Or.inl rfl⟩
      rw [RLAPP_RangeQuery, valid]
      simp [granted]
    | true =>
      obtain ⟨π', at', query⟩ := rangeQuery_loop lower upper leaves at_ inside granted
      cases ahead : entries.drop (rank lower entries) with
      | nil =>
        have last : rank lower entries = entries.length :=
          Nat.le_antisymm (rank_le_length lower entries) (List.drop_eq_nil_iff.mp ahead)
        rw [last] at at'
        refine iff_of_false ?_ ?_
        · rintro ⟨fuel, π'', records, numRecords, returned, -⟩
          rw [query, rangeQueryLoop_end leaves at'] at returned
          cases returned
        · rintro ⟨-, refused | ⟨⟨e, he, above⟩, -⟩⟩
          · cases refused
          · exact absurd (rank_eq_length.mp last e he) (Nat.not_lt.mpr above)
      | cons e rest =>
        have member : e ∈ entries.drop (rank lower entries) := by
          rw [ahead]
          exact List.mem_cons_self
        have above : ∃ x ∈ entries, lower ≤ x.1 :=
          ⟨e, List.mem_of_mem_drop member, (rank_split sorted).2 e member⟩
        by_cases fits : Fits alloc 0 (inRange lower upper entries).length
        · exact iff_of_true (rangeQuery_delivers leaves sorted at_ inside granted ahead fits)
            ⟨valid, Or.inr ⟨above, fits⟩⟩
        · refine iff_of_false ?_ ?_
          · rintro ⟨fuel, π'', records, numRecords, returned, -⟩
            rw [rangeQuery_full leaves sorted at_ inside granted ahead fits] at returned
            cases returned
          · rintro ⟨-, refused | ⟨-, fits'⟩⟩
            · cases refused
            · exact fits fits'
  · rw [decide_eq_false inside] at valid
    refine iff_of_false ?_ fun right => ?_
    · rintro ⟨fuel, π', records, numRecords, returned, -⟩
      rw [RLAPP_RangeQuery, valid] at returned
      cases returned
    · rw [valid] at right
      cases right.1

/-- After any calls and for any cursor on the relation, the query is right exactly when the cursor is valid
and either there is no room for the first array or some stored key is not below `lower`, at most four
records are in the range and there is room for four if there are more than two. -/
theorem rangeQuery_iff (alloc : Nat → Bool) (calls : List (Call R)) (s : State R)
    (built : run calls = some s) :
    ∃ entries, leafEntries s.rel.nodes MAX_TREE_DEPTH s.rel.root = some entries ∧ Sorted entries ∧
      (∀ k, lookup k entries = lastPut k calls) ∧ (∃ pos, At s.rel s.cursor pos) ∧
      ∀ π pos lower upper, At s.rel π pos →
        (RangeLaw alloc s.rel π lower upper entries ↔ RL_CursorIsValid s.rel π = some true ∧
          (alloc 2 = false ∨ ((∃ e ∈ entries, lower ≤ e.1) ∧
            (inRange lower upper entries).length ≤ 4 ∧
              (2 < (inRange lower upper entries).length → alloc 4 = true)))) := by
  obtain ⟨entries, leaves, sorted, found⟩ := run_holding built
  refine ⟨entries, leaves, sorted, found, run_at built, fun π pos lower upper at_ => ?_⟩
  rw [rangeLaw_iff leaves sorted at_, fits_zero]

theorem rangeQuery_iff_two : ∃ s : State Nat,
    run [.put 3 30, .put 1 10, .put 7 70, .moveToFirst] = some s ∧
      RangeLaw (fun _ => true) s.rel s.cursor 2 6 [(1, 10), (3, 30), (7, 70)] := by
  refine ⟨_, rfl, ?_⟩
  obtain ⟨entries, leaves, -, -, ⟨pos, at_⟩, law⟩ :=
    rangeQuery_iff (fun _ => true) [.put 3 30, .put 1 10, .put 7 70, .moveToFirst] _ rfl
  obtain rfl : [(1, 10), (3, 30), (7, 70)] = entries := Option.some.inj (leaves.symm.trans (by rfl)).symm
  exact (law _ _ 2 6 at_).mpr ⟨rfl, Or.inr (by decide)⟩

/-- The fifth record is written behind the array. -/
theorem rangeQuery_overflows : ∃ s : State Nat,
    run [.put 1 10, .put 2 20, .put 3 30, .put 4 40, .put 5 50, .moveToFirst] = some s ∧
      RL_CursorIsValid s.rel s.cursor = some true ∧
      leafEntries s.rel.nodes MAX_TREE_DEPTH s.rel.root =
        some [(1, 10), (2, 20), (3, 30), (4, 40), (5, 50)] ∧
      ¬ RangeLaw (fun _ => true) s.rel s.cursor 1 5 [(1, 10), (2, 20), (3, 30), (4, 40), (5, 50)] := by
  refine ⟨_, rfl, rfl, rfl, ?_⟩
  have built : run [.put 1 10, .put 2 20, .put 3 30, .put 4 40, .put 5 50, .moveToFirst] =
    some (_ : State Nat) := rfl
  obtain ⟨pos, at_⟩ := run_at built
  intro law
  obtain ⟨-, right⟩ := (rangeLaw_iff rfl (by simp [Sorted]) at_).mp law
  rw [fits_zero] at right
  exact absurd right (by decide)

end DeepDB.Library
