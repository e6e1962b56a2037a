import Mathlib.Logic.Function.Basic
import Mathlib.Data.Int.Notation
import Mathlib.Algebra.Order.Ring.Int

/-!
The memory manager of `memmgr/malloc.c`. Memory is the word stored at each address; the allocator
itself reads and writes whole aligned words only. `bin` is the static array of free lists.

The operating system is the list of its future answers to `mmap0` and the list of the regions that
are mapped. An answer is NULL, or a region with what it holds; an answer that is not a fresh
aligned region counts as NULL. `blocks` records the big blocks that have been cut into chunks and
`live` what the client holds; the code has neither.
-/

namespace DeepDB.Memmgr

def WORD : Nat := 8

def ALIGN : Nat := 2

def WASTE : Nat := WORD * ALIGN - WORD

def BIGBLOCK : Nat := (2 <<< 16) * WORD

def BINS : Nat := 50

/-- The number of values of `size_t`. -/
def SIZE : Nat := 2 ^ 64

def INT_MAX : Int := 2 ^ 31 - 1

def NULL : Nat := 0

/-- The word at each address. -/
abbrev Mem := Nat → Nat

/-- A pointer in the client's hands, the size it asked for, and for a large one the region that was
mapped for it. -/
structure Live where
  ptr : Nat
  n : Nat
  mapped : Option (Nat × Nat)
  deriving DecidableEq

structure State where
  mem : Mem
  bin : Int → Nat
  regions : List (Nat × Nat)
  answers : List (Option (Nat × Mem))
  blocks : List (Nat × Int)
  live : List Live

/-! ### The operating system -/

def Apart (r r' : Nat × Nat) : Prop := r.1 + r.2 ≤ r'.1 ∨ r'.1 + r'.2 ≤ r.1

instance (r r' : Nat × Nat) : Decidable (Apart r r') := inferInstanceAs (Decidable (_ ∨ _))

/-- An aligned region of the address space apart from the regions in use. -/
def Fresh (regions : List (Nat × Nat)) (p : Nat) (len : Nat) : Prop :=
  p ≠ NULL ∧ p % (WORD * ALIGN) = 0 ∧ p + len ≤ SIZE ∧ ∀ r ∈ regions, Apart (p, len) r

instance (regions : List (Nat × Nat)) (p : Nat) (len : Nat) : Decidable (Fresh regions p len) :=
  inferInstanceAs (Decidable (_ ∧ _ ∧ _ ∧ ∀ r ∈ regions, _))

def mmap0 (len : Nat) (s : State) : Nat × State :=
  match s.answers with
  | some (p, contents) :: answers =>
    if Fresh s.regions p len then
      (p, { s with
        answers
        regions := (p, len) :: s.regions
        mem := fun a => if p ≤ a ∧ a < p + len then contents a else s.mem a })
    else (NULL, { s with answers })
  | none :: answers => (NULL, { s with answers })
  | [] => (NULL, s)

/-- Unmapping anything but a mapped region has no value. -/
def munmap (p : Nat) (len : Nat) (s : State) : Option State :=
  if (p, len) ∈ s.regions then some { s with regions := s.regions.erase (p, len) } else none

/-! ### Sizes and bins -/

def bin2size (b : Int) : Nat := ((((b + 1) * ALIGN - 1) * WORD) % SIZE).toNat

def size2bin (s : Nat) : Int :=
  if bin2size (BINS - 1) < s then -1
  else ((s + (WORD * (ALIGN - 1) - 1)) / (WORD * ALIGN) : Nat)

/-- `(BIGBLOCK - WASTE) / (s + WORD)`. -/
def nblocks (s : Nat) : Nat := (BIGBLOCK - WASTE) / ((s + WORD) % SIZE)

/-! ### Carving a block -/

/-- The loop of `list_from_block` with `j` rounds to go before the last block. -/
def linkBlocks (s : Nat) (tl : Nat) : (j : Nat) → (q : Nat) → Mem → Mem
  | 0, q, mem => Function.update (Function.update mem q s) (q + WORD) tl
  | j + 1, q, mem =>
    linkBlocks s tl j (q + (s + WORD))
      (Function.update (Function.update mem q s) (q + WORD) (q + WORD + (s + WORD)))

/-- No value when the number of blocks is a division by zero, or zero and the loop misses its
bound. -/
def listFromBlock (s : Nat) (p tl : Nat) (mem : Mem) : Option (Nat × Mem) :=
  if 0 < nblocks s then
    some (p + WASTE + WORD, linkBlocks s tl (nblocks s - 1) (p + WASTE) mem)
  else none

def preFill (n : Nat) (p : Nat) (s : State) : Option State := do
  let b := size2bin n
  let (l, mem) ← listFromBlock (bin2size b) p (s.bin b) s.mem
  return { s with mem, bin := Function.update s.bin b l, blocks := (p, b) :: s.blocks }

/-- The loop of `try_pre_fill`; `rounds` bounds the number of its rounds. -/
def tryPreFillLoop (n : Nat) (req chunks : Int) : (rounds : Nat) → (ful : Int) → State →
    Option (Int × State)
  | 0, _, _ => none
  | rounds + 1, ful, s =>
    if 0 < req - ful then
      if INT_MAX - ful < chunks then some (ful, s)
      else
        let (p, s) := mmap0 BIGBLOCK s
        if p = NULL then some (ful, s)
        else (preFill n p s).bind fun s => tryPreFillLoop n req chunks rounds (ful + chunks) s
    else some (ful, s)

def tryPreFill (n : Nat) (req : Int) (s : State) : Option (Int × State) :=
  if bin2size (BINS - 1) < n then some (0, s)
  else tryPreFillLoop n req (nblocks (bin2size (size2bin n))) (req.toNat + 1) 0 s

/-! ### Allocation -/

def fillBin (b : Int) (s : State) : Option (Nat × State) :=
  let (p, s) := mmap0 BIGBLOCK s
  if p = NULL then some (NULL, s)
  else do
    let (l, mem) ← listFromBlock (bin2size b) p NULL s.mem
    return (l, { s with mem, blocks := (p, b) :: s.blocks })

/-- The end of `malloc_small`: the first block of the list leaves it. -/
def popBin (b : Int) (p : Nat) (s : State) : Nat × State :=
  (p, { s with bin := Function.update s.bin b (s.mem p) })

def mallocSmall (nbytes : Nat) (s : State) : Option (Nat × State) :=
  let b := size2bin nbytes
  let p := s.bin b
  if p = NULL then do
    let (p, s) ← fillBin b s
    if p = NULL then return (NULL, s)
    else return popBin b p { s with bin := Function.update s.bin b p }
  else some (popBin b p s)

def mallocLarge (nbytes : Nat) (s : State) : Nat × State :=
  let (p, s) := mmap0 ((nbytes + WASTE + WORD) % SIZE) s
  if p = NULL then (NULL, s)
  else (p + WASTE + WORD, { s with mem := Function.update s.mem (p + WASTE) nbytes })

def malloc (nbytes : Nat) (s : State) : Option (Nat × State) :=
  if bin2size (BINS - 1) < nbytes then some (mallocLarge nbytes s) else mallocSmall nbytes s

def freeSmall (p : Nat) (sz : Nat) (s : State) : State :=
  let b := size2bin sz
  { s with mem := Function.update s.mem p (s.bin b), bin := Function.update s.bin b p }

def freeLarge (p : Nat) (sz : Nat) (s : State) : Option State :=
  munmap (p - (WASTE + WORD)) ((sz + WASTE + WORD) % SIZE) s

def free (p : Nat) (s : State) : Option State :=
  if p = NULL then some s
  else
    let sz := s.mem (p - WORD)
    if sz ≤ bin2size (BINS - 1) then some (freeSmall p sz s) else freeLarge p sz s

/-! ### The client -/

inductive Op where
  | malloc (n : Nat)
  | free (p : Nat)
  | preFill (n : Nat) (p : Nat)
  | tryPreFill (n : Nat) (req : Int)
  | write (p : Nat) (contents : Mem)

inductive Result where
  | done
  | ptr (p : Nat)
  | count (ful : Int)

/-- What the client may do: it frees only what it holds, once, and fills bins only with fresh
blocks. -/
def Allowed (s : State) : Op → Prop
  | .malloc n => n ≤ SIZE - 1 - (WASTE + WORD)
  | .free p => p = NULL ∨ ∃ l ∈ s.live, l.ptr = p
  | .preFill n p => n ≤ SIZE - 1 - (WASTE + WORD) ∧ Fresh s.regions p BIGBLOCK
  | .tryPreFill n _ => n ≤ SIZE - 1 - (WASTE + WORD)
  | .write p _ => ∃ l ∈ s.live, l.ptr = p

def step (s : State) : Op → Option (State × Result)
  | .malloc n => do
    let (p, s') ← malloc n s
    if p = NULL then return (s', .ptr NULL)
    else
      let mapped := if bin2size (BINS - 1) < n then s'.regions.head? else none
      return ({ s' with live := ⟨p, n, mapped⟩ :: s'.live }, .ptr p)
  | .free p => do
    let s' ← free p s
    return ({ s' with live := s'.live.filter fun l => l.ptr ≠ p }, .done)
  | .preFill n p => do
    let s' ← preFill n p { s with regions := (p, BIGBLOCK) :: s.regions }
    return (s', .done)
  | .tryPreFill n req => do
    let (ful, s') ← tryPreFill n req s
    return (s', .count ful)
  | .write p contents =>
    let usable := s.mem (p - WORD)
    some ({ s with mem := fun a => if p ≤ a ∧ a < p + usable then contents a else s.mem a }, .done)

def start (mem : Mem) (answers : List (Option (Nat × Mem))) : State :=
  { mem, bin := fun _ => NULL, regions := [], answers, blocks := [], live := [] }

inductive Reachable : State → Prop where
  | start (mem : Mem) (answers : List (Option (Nat × Mem))) : Reachable (start mem answers)
  | step {s s' : State} {op : Op} {r : Result} : Reachable s → Allowed s op →
      step s op = some (s', r) → Reachable s'

end DeepDB.Memmgr
