import DeepDB.DbOps.Queue
import DeepDB.DbOps.SeqScan

/-!
`materialize` of `db_ops/db_operations_light.c`: a queue of all that an iterator gives. It closes the
iterator at its end; that further calls of `next` return NULL is said of the iterator before it is closed.
-/

namespace DeepDB.DbOps
open SortedAssoc
open BTree (Cursor MAX_TREE_DEPTH leafEntries)
open Library (At)

variable {E : Type} {h : Heap} {rel : Relation} {c : Cursor} {q : Value} {data : List Value} {F : Set Nat}
  {pos fuel : Nat} {entries rest : List (BTree.Key × Value)}

/-- The loop of `materialize`; without `fuel` it has no value. -/
def materializeLoop (it : Iterator E) (res : Value) : Nat → Heap → E → Option (Heap × E)
  | 0, _, _ => none
  | fuel + 1, h, e => do
    let (h, e, a) ← it.next h e
    if a = NULL then return (h, e)
    let (h, p) := makeElem h a
    let h ← fifoPut h res p
    materializeLoop it res fuel h e

def materialize (it : Iterator E) (fuel : Nat) (h : Heap) (e : E) : Option (Heap × E × Value) := do
  let (h, res) := fifoNew h
  let (h, e) ← it.init h e
  let (h, e) ← materializeLoop it res fuel h e
  let (h, e) ← it.close h e
  return (h, e, res)

/-- What `n` calls of `next` return. -/
def nexts (it : Iterator E) : Nat → Heap → E → Option (List Value)
  | 0, _, _ => some []
  | n + 1, h, e => do
    let (h, e, a) ← it.next h e
    return a :: (← nexts it n h e)

theorem nexts_end (last : seqScanNext rel c = some (c, NULL)) (n : Nat) :
    nexts (seqScan rel) n h (.live c) = some (List.replicate n NULL) := by
  induction n with
  | zero => rfl
  | succ n ih =>
    rw [nexts, seqScan_next last]
    simp only [Option.bind_eq_bind, Option.bind_some, ih]
    rfl

/-- The rest of the entries, from any of them on. -/
theorem materializeLoop_seqScan
    (leaves : leafEntries rel.pkIndex.nodes MAX_TREE_DEPTH rel.pkIndex.root = some entries)
    (live : ∀ e ∈ entries, e.2 ≠ NULL) (ahead : entries.drop pos = rest) (at_ : At rel.pkIndex c pos)
    (inside : pos ≤ entries.length) (ok : h.Ok) (hq : Queue h q data F) (enough : rest.length < fuel) :
    ∃ h' c' F', materializeLoop (seqScan rel) q fuel h (.live c) = some (h', .live c') ∧
      Queue h' q (data ++ rest.map Prod.snd) F' ∧ seqScanNext rel c' = some (c', NULL) := by
  induction rest generalizing pos c h data F fuel with
  | nil =>
    obtain ⟨fuel, rfl⟩ : ∃ n, fuel = n + 1 := ⟨fuel - 1, by simp at enough; omega⟩
    obtain rfl : pos = entries.length := Nat.le_antisymm inside (List.drop_eq_nil_iff.mp ahead)
    have last := seqScanNext_end leaves at_
    refine ⟨h, c, F, ?_, by simpa using hq, last⟩
    rw [materializeLoop, seqScan_next last]
    rfl
  | cons e rest ih =>
    obtain ⟨fuel, rfl⟩ : ∃ n, fuel = n + 1 := ⟨fuel - 1, by simp at enough; omega⟩
    obtain ⟨here, before, behind⟩ := Library.drop_step ahead
    obtain ⟨c', next, at'⟩ := seqScanNext_at leaves at_ here
    have record := live e (List.mem_of_getElem? here)
    obtain ⟨h₁, F₁, put, hq₁, grows⟩ := put_queue ok hq e.2
    have fewer : rest.length < fuel := by simpa using enough
    obtain ⟨h', c'', F', loop, hq', last⟩ := ih behind at' before grows.ok hq₁ fewer
    refine ⟨h', c'', F', ?_, ?_, last⟩
    · rw [materializeLoop, seqScan_next next]
      simp only [Option.bind_eq_bind, Option.bind_some, if_neg record, put, loop]
    · rw [List.append_assoc] at hq'
      exact hq'

/-- Materialising the scan of a relation, after any calls that have put no NULL, gives a queue of the last
record put under each key, in the order of the keys. When its loop has ended, before it closes the scan,
every further call of `next` returns NULL. -/
theorem materialize_seqScan (calls : List (Library.Call Value)) (s : Library.State Value)
    (built : Library.run calls = some s) (records : ∀ k, Library.Call.put k NULL ∉ calls)
    (rel : Relation) (index : s.rel = rel.pkIndex) (h : Heap) (ok : h.Ok) (e : BtreeCursor) :
    ∃ entries : List (BTree.Key × Value), Sorted entries ∧
      (∀ k, lookup k entries = Library.lastPut k calls) ∧
      ∀ fuel, entries.length < fuel → ∃ e₀ h' e₁ e' F,
        (seqScan rel).init (fifoNew h).1 e = some ((fifoNew h).1, e₀) ∧
          materializeLoop (seqScan rel) (fifoNew h).2 fuel (fifoNew h).1 e₀ = some (h', e₁) ∧
          (∀ n, nexts (seqScan rel) n h' e₁ = some (List.replicate n NULL)) ∧
          materialize (seqScan rel) fuel h e = some (h', e', (fifoNew h).2) ∧
          Queue h' (fifoNew h).2 (entries.map Prod.snd) F := by
  obtain ⟨entries, leaves, sorted, found⟩ := Library.run_holding built
  refine ⟨entries, sorted, found, fun fuel enough => ?_⟩
  rw [index] at leaves
  have live : ∀ e ∈ entries, e.2 ≠ NULL := by
    rintro ⟨k, v⟩ he rfl
    have last := found k
    rw [lookup_of_mem sorted he] at last
    exact records k (Library.lastPut_mem last.symm)
  obtain ⟨-, c₀, init, at_⟩ := seqScanInit_at ⟨calls, s, built, index⟩ leaves
  obtain ⟨-, empty, grows⟩ := fifoNew_queue ok
  obtain ⟨h', c', F, loop, queue, last⟩ := materializeLoop_seqScan leaves live (List.drop_zero) at_
    (Nat.zero_le _) grows.ok empty enough
  have began : (seqScan rel).init (fifoNew h).1 e = some ((fifoNew h).1, .live c₀) := by
    rw [seqScan, init]
    rfl
  have ended : (seqScan rel).close h' (.live c') = some (h', .freed) := rfl
  refine ⟨.live c₀, h', .live c', .freed, F, began, loop, nexts_end last, ?_, queue⟩
  rw [materialize]
  simp only [began, Option.bind_eq_bind, Option.bind_some, loop, ended]
  rfl

theorem materialize_seqScan_three : ∃ (s : Library.State Value) (h : Heap) (e : BtreeCursor) (q : Value)
    (F : Set Nat), Library.run [.put 5 50, .put 2 21, .put 3 30, .put 2 20] = some s ∧
      materialize (seqScan ⟨[], [], s.rel⟩) 4 ⟨fun _ => none, 1⟩ .null = some (h, e, q) ∧
        Queue h q [20, 30, 50] F := by
  obtain ⟨s, built⟩ : ∃ s : Library.State Value,
      Library.run [.put 5 50, .put 2 21, .put 3 30, .put 2 20] = some s := ⟨_, rfl⟩
  obtain ⟨entries, sorted, found, enough⟩ := materialize_seqScan _ s built (by simp [NULL])
    ⟨[], [], s.rel⟩ rfl ⟨fun _ => none, 1⟩ ⟨Nat.one_pos, fun _ _ => rfl⟩ .null
  obtain rfl : entries = [(2, 20), (3, 30), (5, 50)] := by
    apply sorted_ext sorted (by simp [Sorted])
    intro k
    rw [found]
    simp only [Library.lastPut, List.foldl_cons, List.foldl_nil, lookup]
    grind
  obtain ⟨-, h, -, e, F, -, -, -, made, queue⟩ := enough 4 (by decide)
  exact ⟨s, h, e, _, F, built, made, queue⟩

end DeepDB.DbOps
