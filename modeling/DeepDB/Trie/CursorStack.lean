import DeepDB.Trie.IndexString
import Mathlib.Data.List.Induction

/-!
The stack of a cursor on the string index. `new_cursor` requests the bytes of a pointer for the structure
it fills, and `usable n` is how many bytes of a block for `n` can be written. The array of slices has the
cells that were requested; a write behind them and a read of what was never written have no result.
-/

namespace DeepDB.IndexString

/-! ### The functions -/

/-- `struct CursorSlice_T`; a field that is not written yet holds nothing. -/
structure CursorSlice (I C : Type) where
  node : Option I
  nodeCursor : Option C
  bnodeCursor : Option Nat

/-- `struct Cursor_T`; `content` is `NULL` or an array. -/
structure SCursor (I C : Type) where
  capacity : Nat
  size : Nat
  content : Option (List (CursorSlice I C))

variable {I C : Type}

/-- `sizeof(SCursor)`. -/
def sizeofPointer : Nat := 8

/-- `sizeof(struct Cursor_T)`. -/
def sizeofCursor : Nat := 24

/-- `sizeof(struct CursorSlice_T)`. -/
def sizeofCursorSlice : Nat := 24

/-- A new array of `n` slices. -/
def newContent (n : Nat) : List (CursorSlice I C) :=
  List.replicate (surely_malloc (sizeofCursorSlice * n) / sizeofCursorSlice) ⟨none, none, none⟩

def new_cursor (usable : Nat → Nat) : Option (SCursor I C) :=
  if sizeofCursor ≤ usable (surely_malloc sizeofPointer) then some ⟨0, 0, none⟩ else none

/-- The loop of `push_cursor` that fills the longer array. -/
def copySlices (content : List (CursorSlice I C)) (size : Nat) (new_addr : List (CursorSlice I C)) :
    Option (List (CursorSlice I C)) :=
  (List.range size).foldlM (fun new_addr i => do
    let old ← content[i]?
    let new ← new_addr[i]?
    return new_addr.set i { new with nodeCursor := old.nodeCursor, bnodeCursor := old.bnodeCursor })
    new_addr

def push_cursor (node : I) (nodeCursor : C) (bnodeCursor : Nat) (cursor : SCursor I C) : Option (SCursor I C) := do
  let cursor ←
    if cursor.capacity = 0 then some { cursor with content := some (newContent 1) }
    else if cursor.capacity ≤ cursor.size then do
      let capacity := cursor.capacity * 2
      let new_addr ← copySlices (← cursor.content) cursor.size (newContent capacity)
      return { cursor with capacity, content := some new_addr }
    else some cursor
  let content ← cursor.content
  if cursor.size < content.length then
    return { cursor with
      content := some (content.set cursor.size
        ⟨some node, some nodeCursor, some (bnodeCursor % 2 ^ 32)⟩),
      size := cursor.size + 1 }
  else none

/-- `Ifree_cursor` gets the node cursor of the slice. -/
def pop_cursor (cursor : SCursor I C) : Option (SCursor I C) :=
  if cursor.size ≠ 0 then do
    let slice ← (← cursor.content)[cursor.size - 1]?
    let _ ← slice.nodeCursor
    return { cursor with size := cursor.size - 1 }
  else some cursor

/-- The slice it points to. -/
def top_cursor (cursor : SCursor I C) : Option (Option (CursorSlice I C)) :=
  if cursor.size ≠ 0 then do
    let slice ← (← cursor.content)[cursor.size - 1]?
    return some slice
  else some none

/-! ### Sequences of calls -/

inductive StackOp (I C : Type) where
  | push (node : I) (nodeCursor : C) (bnodeCursor : Nat)
  | pop

def stackStep (cursor : SCursor I C) : StackOp I C → Option (SCursor I C)
  | .push node nodeCursor bnodeCursor => push_cursor node nodeCursor bnodeCursor cursor
  | .pop => pop_cursor cursor

def runStack (usable : Nat → Nat) (ops : List (StackOp I C)) : Option (SCursor I C) := do
  ops.foldlM stackStep (← new_cursor usable)

/-- The stack that the calls are meant to keep, the top first. -/
def entriesOf (ops : List (StackOp I C)) : List (I × C × Nat) :=
  ops.foldl (fun entries op => match op with
    | .push node nodeCursor bnodeCursor => (node, nodeCursor, bnodeCursor) :: entries
    | .pop => entries.tail) []

/-- A slice with all of its fields. -/
def sliceOf (entry : I × C × Nat) : CursorSlice I C :=
  ⟨some entry.1, some entry.2.1, some entry.2.2⟩

structure Represents (cursor : SCursor I C) (entries : List (I × C × Nat)) : Prop where
  size : cursor.size = entries.length
  within : cursor.size ≤ cursor.capacity
  contents : (cursor.content.getD []).take cursor.size = (entries.map sliceOf).reverse
  top : top_cursor cursor = some (entries.head?.map sliceOf)

/-- After every call of the sequence the cursor is the stack. -/
def StackLaw (usable : Nat → Nat) (ops : List (StackOp I C)) : Prop :=
  ∀ ops', ops' <+: ops → ∃ cursor, runStack usable ops' = some cursor ∧
    Represents cursor (entriesOf ops')

variable {usable : Nat → Nat} {ops : List (StackOp I C)} {op : StackOp I C} {cursor cursor' : SCursor I C}

theorem runStack_snoc (usable : Nat → Nat) (ops : List (StackOp I C)) (op : StackOp I C) :
    runStack usable (ops ++ [op]) = (runStack usable ops).bind fun cursor => stackStep cursor op := by
  cases made : (new_cursor usable : Option (SCursor I C)) <;> simp [runStack, made, List.foldlM_append]

/-! ### The capacity -/

/-- The first array is allocated without a capacity. -/
theorem push_cursor_capacity {node : I} {nodeCursor : C} {bnodeCursor : Nat}
    (unset : cursor.capacity = 0) (push : push_cursor node nodeCursor bnodeCursor cursor = some cursor') :
    cursor'.capacity = 0 := by
  rw [push_cursor, if_pos unset] at push
  simp only [Option.bind_eq_bind, Option.bind_some] at push
  split at push
  · rw [← Option.some.inj push]
    exact unset
  · cases push

theorem pop_cursor_capacity (pop : pop_cursor cursor = some cursor') :
    cursor'.capacity = cursor.capacity := by
  rw [pop_cursor] at pop
  split at pop
  · simp only [Option.bind_eq_bind, Option.bind_eq_some_iff] at pop
    obtain ⟨content, -, slice, -, nodeCursor, -, same⟩ := pop
    rw [← Option.some.inj same]
  · rw [Option.some.inj pop]

theorem stackStep_capacity (unset : cursor.capacity = 0) (step : stackStep cursor op = some cursor') :
    cursor'.capacity = 0 := by
  cases op with
  | push node nodeCursor bnodeCursor => exact push_cursor_capacity unset step
  | pop => exact (pop_cursor_capacity step).trans unset

/-- In no run is the array ever copied to a longer one. -/
theorem runStack_capacity (run : runStack usable ops = some cursor) : cursor.capacity = 0 := by
  induction ops using List.reverseRecOn generalizing cursor with
  | nil =>
    obtain ⟨first, made, same⟩ := Option.bind_eq_some_iff.mp run
    rw [new_cursor] at made
    split at made
    · rw [← Option.some.inj same, ← Option.some.inj made]
    · cases made
  | append_singleton ops op ih =>
    rw [runStack_snoc] at run
    obtain ⟨before, run', step⟩ := Option.bind_eq_some_iff.mp run
    exact stackStep_capacity (ih run') step

/-- After a push the size is above it. -/
theorem not_represents_push {node : I} {nodeCursor : C} {bnodeCursor : Nat}
    (run : runStack usable (ops ++ [.push node nodeCursor bnodeCursor]) = some cursor) :
    ¬ Represents cursor (entriesOf (ops ++ [.push node nodeCursor bnodeCursor])) := by
  intro represents
  have size := represents.size
  have within := represents.within
  rw [runStack_capacity run, Nat.le_zero] at within
  rw [entriesOf, List.foldl_append, within] at size
  cases size

/-! ### Without a push -/

theorem runStack_pops (room : sizeofCursor ≤ usable (surely_malloc sizeofPointer))
    (pops : ∀ op ∈ ops, op = .pop) : runStack usable ops = some ⟨0, 0, none⟩ := by
  induction ops using List.reverseRecOn with
  | nil =>
    rw [runStack, new_cursor, if_pos room]
    rfl
  | append_singleton ops op ih =>
    obtain ⟨before, last⟩ := List.forall_mem_append.mp pops
    rw [runStack_snoc, ih before, last op List.mem_cons_self]
    rfl

theorem entriesOf_pops (pops : ∀ op ∈ ops, op = .pop) : entriesOf ops = [] := by
  induction ops using List.reverseRecOn with
  | nil => rfl
  | append_singleton ops op ih =>
    obtain ⟨before, last⟩ := List.forall_mem_append.mp pops
    rw [entriesOf, List.foldl_append, ← entriesOf, ih before, last op List.mem_cons_self]
    rfl

theorem represents_empty : Represents (⟨0, 0, none⟩ : SCursor I C) [] where
  size := rfl
  within := Nat.le_refl _
  contents := rfl
  top := rfl

/-- For every sequence of calls: the cursor is the stack after each of them exactly when the block for a
pointer has room for the structure, and no call is a push. -/
theorem stackLaw_iff (usable : Nat → Nat) (ops : List (StackOp I C)) :
    StackLaw usable ops ↔ sizeofCursor ≤ usable sizeofPointer ∧ ∀ op ∈ ops, op = .pop := by
  constructor
  · intro law
    constructor
    · obtain ⟨cursor, run, -⟩ := law [] List.nil_prefix
      obtain ⟨first, made, -⟩ := Option.bind_eq_some_iff.mp run
      rw [new_cursor] at made
      by_contra short
      rw [if_neg (show ¬ sizeofCursor ≤ usable (surely_malloc sizeofPointer) from short)] at made
      cases made
    · intro op member
      cases op with
      | pop => rfl
      | push node nodeCursor bnodeCursor =>
        obtain ⟨before, after, split⟩ := List.append_of_mem member
        have started : before ++ [.push node nodeCursor bnodeCursor] <+: ops := ⟨after, by simp [split]⟩
        obtain ⟨cursor, run, represents⟩ := law _ started
        exact absurd represents (not_represents_push run)
  · rintro ⟨room, pops⟩ ops' started
    have pops' : ∀ op ∈ ops', op = .pop := fun op member => pops op (started.subset member)
    refine ⟨⟨0, 0, none⟩, runStack_pops room pops', ?_⟩
    rw [entriesOf_pops pops']
    exact represents_empty

/-- The second push writes behind an array of one slice, which has lost the first. -/
theorem stackLaw_twoPushes :
    runStack (fun n => max n 24) [.push 'a' 'b' 3, .push 'c' 'd' 9] = none ∧
      ¬ StackLaw (fun n => max n 24) [.push 'a' 'b' 3, .push 'c' 'd' 9] := by
  have fails : runStack (fun n => max n 24) [.push 'a' 'b' 3, .push 'c' 'd' 9] = none := rfl
  refine ⟨fails, fun law => ?_⟩
  obtain ⟨cursor, run, -⟩ := law _ (List.prefix_refl _)
  rw [fails] at run
  cases run

end DeepDB.IndexString
