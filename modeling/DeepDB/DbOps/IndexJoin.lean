import DeepDB.DbOps.IndexScan
import DeepDB.Lib.Join

/-!
The index join of `db_ops/db_operations_light.c`: for every tuple of the outer iterator it looks up the
queue of the inner tuples with the same key, and it takes the inner tuples out of the queue, which is
the index's own. So the matches of a key are there for the first outer tuple with this key only, and for
no second run.
-/

namespace DeepDB.DbOps
open SortedAssoc Join

variable {E : Type}

/-! ### The functions -/

/-- What `index_join` puts into the environment and nothing changes. -/
structure IndexJoin (E : Type) where
  outer : Iterator E
  outerAttrs : AttributeList
  outerJoinAttrs : AttributeList
  innerAttrs : AttributeList
  innerJoinAttrs : AttributeList
  indOnInner : Nat
  indOnInnerSch : Option Schema

structure JoinEnv (E : Type) where
  outer : E
  currentInner : Value
  currentOuter : Value

def indexJoin (outerAttrs innerAttrs outerJoinAttrs innerJoinAttrs : AttributeList)
    (outer : Iterator E) (indOnInner : Nat) : Option (IndexJoin E) := do
  guard (outerJoinAttrs.length = innerJoinAttrs.length)
  return { outer, outerAttrs, outerJoinAttrs, innerAttrs, innerJoinAttrs, indOnInner,
           indOnInnerSch := getSchema innerJoinAttrs }

def indexJoinInit (j : IndexJoin E) (h : Heap) (e : JoinEnv E) : Option (Heap × JoinEnv E) := do
  let (h, outer) ← j.outer.init h e.outer
  return (h, ⟨outer, NULL, NULL⟩)

def indexJoinClose (j : IndexJoin E) (h : Heap) (e : JoinEnv E) : Option (Heap × JoinEnv E) := do
  let (h, outer) ← j.outer.close h e.outer
  return (h, { e with outer })

/-- `current_inner == NULL || fifo_empty(current_inner)`. -/
def innerDone (h : Heap) (currentInner : Value) : Option Bool :=
  if currentInner = NULL then some true else fifoEmpty h currentInner

/-- The loop of `index_join_next`; without `fuel` it has no value. -/
def nextOuter (j : IndexJoin E) : Nat → Heap → JoinEnv E → Option (Heap × JoinEnv E)
  | 0, _, _ => none
  | fuel + 1, h, e => do
    if !(← innerDone h e.currentInner) then return (h, e)
    let (h, outer, t) ← j.outer.next h e.outer
    if t = NULL then return (h, { e with outer, currentOuter := t })
    let proj ← getProjection h j.outerAttrs t j.outerJoinAttrs
    let l ← indexLookup (← j.indOnInnerSch) h j.indOnInner proj
    nextOuter j fuel h ⟨outer, l, t⟩

/-- The first `n` words of a tuple, for `memcpy`. -/
def tupleWords (h : Heap) (t : Value) (n : Nat) : Option Tuple :=
  match h.obj t with
  | some (.tuple words) => if n ≤ words.length then some (words.take n) else none
  | _ => none

/-- The loop over the inner attributes: the words of those that are not join attributes. -/
def innerWords (h : Heap) (innerAttrs innerJoinAttrs : AttributeList) (innerT : Value) :
    AttributeList → Option Tuple
  | [] => some []
  | l :: rest => do
    let innerOfs ← getOffset innerAttrs l.id l.domain
    if (← getOffset innerJoinAttrs l.id l.domain) < 0 then
      let word ← tupleWord h innerT innerOfs
      return word :: (← innerWords h innerAttrs innerJoinAttrs innerT rest)
    else innerWords h innerAttrs innerJoinAttrs innerT rest

/-- The memory of the new tuple is taken when all its words are known; what is written must fit. -/
def indexJoinNext (j : IndexJoin E) (fuel : Nat) (h : Heap) (e : JoinEnv E) :
    Option (Heap × JoinEnv E × Value) := do
  let (h, e) ← nextOuter j fuel h e
  if e.currentOuter = NULL then return (h, e, NULL)
  let outerWords ← tupleWords h e.currentOuter j.outerAttrs.length
  let (h, p) ← fifoGet h e.currentInner
  let innerT ← elemData h p
  let rest ← innerWords h j.innerAttrs j.innerJoinAttrs innerT j.innerAttrs
  guard ((outerWords.length + rest.length : Int) ≤
    j.outerAttrs.length + j.innerAttrs.length - j.innerJoinAttrs.length + 1)
  let (h, newT) := h.alloc (.tuple (outerWords ++ rest))
  return (h, e, newT)

/-- The calls of `next` up to NULL, with the values of the tuples that they return. -/
def collect (j : IndexJoin E) (fuel : Nat) : Nat → Heap → JoinEnv E →
    Option (Heap × JoinEnv E × List Tuple)
  | 0, _, _ => none
  | n + 1, h, e => do
    let (h, e, t) ← indexJoinNext j fuel h e
    if t = NULL then return (h, e, [])
    let words := wordsAt h t
    let (h, e, rest) ← collect j fuel n h e
    return (h, e, words :: rest)

/-- Initialise the join and run it. -/
def runJoin (j : IndexJoin E) (fuel : Nat) (h : Heap) (e : JoinEnv E) :
    Option (Heap × JoinEnv E × List Tuple) := do
  let (h, e) ← indexJoinInit j h e
  collect j fuel fuel h e

/-! ### The joined tuple -/

/-- The outer tuple, and the inner one without its join attributes. -/
def joinTuple (innerAttrs innerJoinAttrs : AttributeList) (outer inner : Tuple) : Tuple :=
  outer ++ ((innerAttrs.zip inner).filter fun p => p.1 ∉ innerJoinAttrs).map Prod.snd


section
variable {h : Heap} {t : Value} {words : Tuple} {innerAttrs innerJoinAttrs : AttributeList}
  {a : Attribute}

theorem attributeOf_nodup {attrs : AttributeList} (names : (attrs.map Attribute.id).Nodup)
    (member : a ∈ attrs) : AttributeOf attrs a :=
  ⟨member, fun _ hx same => List.inj_on_of_nodup_map names hx member same⟩

theorem getOffsetFrom_absent {id : CString} {dom : Domain} {attrs : AttributeList}
    (absent : ∀ x ∈ attrs, id ≠ x.id) (res : Int) : getOffsetFrom id dom attrs res = some (-1) := by
  induction attrs generalizing res with
  | nil => rfl
  | cons x rest ih =>
    obtain ⟨here, later⟩ := List.forall_mem_cons.mp absent
    rw [getOffsetFrom, if_neg here]
    exact ih later _

/-- The test that leaves the join attributes out. -/
theorem getOffset_neg (names : (innerAttrs.map Attribute.id).Nodup) (filled : innerJoinAttrs ≠ [])
    (sub : innerJoinAttrs ⊆ innerAttrs) (member : a ∈ innerAttrs) :
    ∃ ofs, getOffset innerJoinAttrs a.id a.domain = some ofs ∧ (ofs < 0 ↔ a ∉ innerJoinAttrs) := by
  have only : ∀ x ∈ innerJoinAttrs, x.id = a.id → x = a := fun x hx same =>
    List.inj_on_of_nodup_map names (sub hx) member same
  by_cases joined : a ∈ innerJoinAttrs
  · refine ⟨_, getOffset_idxOf ⟨joined, only⟩, fun neg => ?_, fun no => absurd joined no⟩
    exact absurd neg (by omega)
  · refine ⟨-1, ?_, fun _ => joined, fun _ => by decide⟩
    rw [getOffset, if_neg filled]
    exact getOffsetFrom_absent (fun x hx same => joined (only x hx same.symm ▸ hx)) 0

theorem innerWords_suffix (tuple : TupleAt h innerAttrs t words)
    (names : (innerAttrs.map Attribute.id).Nodup) (filled : innerJoinAttrs ≠ [])
    (sub : innerJoinAttrs ⊆ innerAttrs) {pre attrs : AttributeList} {preWords rest : Tuple}
    (all : innerAttrs = pre ++ attrs) (allWords : words = preWords ++ rest)
    (same : preWords.length = pre.length) (length : rest.length = attrs.length) :
    innerWords h innerAttrs innerJoinAttrs t attrs =
      some (((attrs.zip rest).filter fun p => p.1 ∉ innerJoinAttrs).map Prod.snd) := by
  induction attrs generalizing pre preWords rest with
  | nil => rfl
  | cons l attrs ih =>
    cases rest with
    | nil => cases length
    | cons e rest =>
      have member : l ∈ innerAttrs := by
        rw [all]
        exact List.mem_append_right _ List.mem_cons_self
      have nodup := List.Nodup.of_map _ names
      have first : innerAttrs.idxOf l = pre.length := by
        have before : l ∉ pre := by
          rw [all, List.nodup_append] at nodup
          exact fun hl => nodup.2.2 l hl l List.mem_cons_self rfl
        rw [all, List.idxOf_append_of_notMem before, List.idxOf_cons_self, Nat.add_zero]
      have read := tupleWord_offset tuple (attributeOf_nodup names member)
      have word : words[innerAttrs.idxOf l]? = some e := by
        rw [first, allWords, List.getElem?_append_right (Nat.le_of_eq same), same, Nat.sub_self]
        rfl
      rw [getOffset_idxOf (attributeOf_nodup names member), Option.bind_some, word] at read
      obtain ⟨ofs, offset, neg⟩ := getOffset_neg names filled sub member
      have later := ih (show innerAttrs = (pre ++ [l]) ++ attrs by simp [all])
        (show words = (preWords ++ [e]) ++ rest by simp [allWords]) (by simp [same])
        (Nat.succ.inj length)
      rw [innerWords, getOffset_idxOf (attributeOf_nodup names member), offset]
      simp only [Option.bind_eq_bind, Option.bind_some, read, later]
      by_cases joined : l ∈ innerJoinAttrs
      · rw [if_neg fun lt => neg.mp lt joined, List.zip_cons_cons,
          List.filter_cons_of_neg (by simpa using joined)]
      · rw [if_pos (neg.mpr joined), List.zip_cons_cons,
          List.filter_cons_of_pos (by simpa using joined)]
        rfl

/-- The words of the inner tuple that are copied, which fit behind the outer tuple. -/
theorem innerWords_tuple (tuple : TupleAt h innerAttrs t words)
    (names : (innerAttrs.map Attribute.id).Nodup) (filled : innerJoinAttrs ≠ [])
    (sub : innerJoinAttrs ⊆ innerAttrs) (once : innerJoinAttrs.Nodup) :
    ∃ rest, innerWords h innerAttrs innerJoinAttrs t innerAttrs = some rest ∧
      (∀ o, joinTuple innerAttrs innerJoinAttrs o words = o ++ rest) ∧
      rest.length + innerJoinAttrs.length ≤ innerAttrs.length := by
  have length : words.length = innerAttrs.length := by
    have := congrArg List.length tuple.domains
    simpa using this
  refine ⟨_, innerWords_suffix tuple names filled sub (List.nil_append _).symm
    (List.nil_append _).symm rfl length, fun _ => rfl, ?_⟩
  have copied : (((innerAttrs.zip words).filter fun p => p.1 ∉ innerJoinAttrs).map Prod.snd).length =
      (innerAttrs.filter (· ∉ innerJoinAttrs)).length := by
    have first : (innerAttrs.zip words).map Prod.fst = innerAttrs :=
      List.map_fst_zip (Nat.le_of_eq length.symm)
    conv_rhs => rw [← first, List.filter_map]
    simp [Function.comp_def]
  have joined : innerJoinAttrs.length ≤ (innerAttrs.filter (· ∈ innerJoinAttrs)).length := by
    refine (List.subperm_of_subset once fun a ha => ?_).length_le
    exact List.mem_filter.mpr ⟨sub ha, by simpa using ha⟩
  have split := List.length_eq_length_filter_add (l := innerAttrs) (· ∈ innerJoinAttrs)
  rw [copied]
  simp only [decide_not] at *
  omega

end

/-! ### The state of a join -/

/-- The attribute lists fit together, and the inner ones are those of a schema. -/
structure JoinOk (j : IndexJoin E) (sch : Schema) : Prop where
  indOnInnerSch : j.indOnInnerSch = some sch
  schema : getSchema j.outerJoinAttrs = some sch
  outer : ∀ a ∈ j.outerJoinAttrs, AttributeOf j.outerAttrs a
  names : (j.innerAttrs.map Attribute.id).Nodup
  filled : j.innerJoinAttrs ≠ []
  sub : j.innerJoinAttrs ⊆ j.innerAttrs
  once : j.innerJoinAttrs.Nodup

section
variable {j : IndexJoin E} {sch : Schema} {ts : List Tuple} {value : Value → Tuple} {h h' : Heap}
  {G G' F F' I : Set Nat} {Q : Key → Set Nat} {m : Key → Value}
  {found : Option Key → List Value} {k : Key} {d : Value} {ds : List Value} {e : JoinEnv E}
  {us pending : List Tuple}

/-- The index with its queues lies apart from the objects `G` of the outer iterator, and the queues hold
inner tuples, at `t` one with the values `value t`. -/
structure Shares (j : IndexJoin E) (sch : Schema) (value : Value → Tuple) (h : Heap) (G : Set Nat)
    (found : Option Key → List Value) (m : Key → Value) (I : Set Nat) (Q : Key → Set Nat) : Prop where
  ok : h.Ok
  index : QueueIndex sch h j.indOnInner m (fun k => found (some k)) I Q
  apartI : Disjoint G I
  apartQ : ∀ k, sch.Accepts k → Disjoint G (Q k)
  inner : ∀ k, sch.Accepts k → ∀ t ∈ found (some k), TupleAt h j.innerAttrs t (value t)

/-- The outer iterator changes its own objects. -/
theorem shares_outer (hs : Shares j sch value h G found m I Q) (hg : Grows h h' G G')
    (same : SameTuples h h') : Shares j sch value h' G' found m I Q where
  ok := hg.ok
  index := queueIndex_grows hs.ok hs.index hg hs.apartI hs.apartQ
  apartI := grows_disjoint hg hs.apartI (stores_lt hs.ok hs.index.stores)
  apartQ := fun k hk => grows_disjoint hg (hs.apartQ k hk) (queueAt_lt hs.ok (hs.index.each k hk).1)
  inner := fun k hk t ht => tupleAt_same (hs.inner k hk t ht) same

/-- A new object. -/
theorem shares_alloc (hs : Shares j sch value h G found m I Q) (o : Obj) :
    Shares j sch value (h.alloc o).1 G found m I Q where
  ok := (grows_alloc hs.ok o).ok
  index := queueIndex_grows hs.ok hs.index (grows_alloc hs.ok o) (Set.empty_disjoint _)
    fun _ _ => Set.empty_disjoint _
  apartI := hs.apartI
  apartQ := hs.apartQ
  inner := fun k hk t ht => tupleAt_same (hs.inner k hk t ht)
    (sameTuples_grows hs.ok (grows_alloc hs.ok o) fun _ no => no.elim)

theorem update_some (found : Option Key → List Value) (k : Key) (ds : List Value) :
    (fun k' => Function.update found (some k) ds (some k')) =
      Function.update (fun k' => found (some k')) k ds := by
  funext k'
  by_cases same : k' = k
  · rw [same, Function.update_self, Function.update_self]
  · rw [Function.update_of_ne same, Function.update_of_ne fun eq => same (Option.some.inj eq)]

/-- A match is taken out of the queue of its key. -/
theorem shares_get (hs : Shares j sch value h G found m I Q) (hk : sch.Accepts k)
    (some_ : found (some k) = d :: ds) :
    ∃ h' p, fifoGet h (m k) = some (h', p) ∧ elemData h' p = some d ∧
      Shares j sch value h' G (Function.update found (some k) ds) m I Q ∧
      Grows h h' (Q k) (Q k) ∧ SameTuples h h' := by
  obtain ⟨queueAt, left⟩ := hs.index.each k hk
  rw [some_] at queueAt
  obtain ⟨-, none, -⟩ | ⟨live, queue⟩ := queueAt
  · cases none
  obtain ⟨h', p, get, data, queue', grows⟩ := fifoGet_queue hs.ok queue
  have same : SameTuples h h' := by
    refine sameTuples_grows hs.ok grows fun x hx words tuple => ?_
    rcases queue_obj queue x hx with ⟨head, tail, obj⟩ | ⟨d, n, obj⟩
    · rw [obj] at tuple
      cases tuple
    · rw [obj] at tuple
      cases tuple
  have stores : Stores sch h' j.indOnInner (Function.update m k (m k)) I := by
    rw [Function.update_eq_self]
    exact stores_grows hs.ok hs.index.stores grows left.symm
  have index := queueIndex_update hs.ok hs.index hk grows (Or.inr ⟨live, queue'⟩)
    (grows_refl grows.ok I) stores
  rw [Function.update_eq_self, Function.update_eq_self, ← update_some] at index
  refine ⟨h', p, get, data, ⟨grows.ok, index, hs.apartI, hs.apartQ, fun k' hk' t ht => ?_⟩, grows,
    same⟩
  refine tupleAt_same (hs.inner k' hk' t ?_) same
  by_cases eq : k' = k
  · subst eq
    rw [Function.update_self] at ht
    rw [some_]
    exact List.mem_cons_of_mem _ ht
  · rwa [Function.update_of_ne fun same => eq (Option.some.inj same)] at ht

theorem innerDone_shares (hs : Shares j sch value h G found m I Q) (hk : sch.Accepts k) :
    innerDone h (m k) = some (found (some k)).isEmpty := by
  rcases (hs.index.each k hk).1 with ⟨null, none, -⟩ | ⟨live, queue⟩
  · rw [innerDone, if_pos null]
    rw [show found (some k) = [] from none]
    rfl
  · rw [innerDone, if_neg live]
    exact fifoEmpty_queue queue

/-! ### One call -/

/-- The key of an outer tuple. -/
def outerKey (j : IndexJoin E) (o : Tuple) : Option Key := projection j.outerAttrs o j.outerJoinAttrs

def joinWith (j : IndexJoin E) (value : Value → Tuple) (o : Tuple) (t : Value) : Tuple :=
  joinTuple j.innerAttrs j.innerJoinAttrs o (value t)

/-- The queue of the tuple `o` is the current one. -/
structure Current (j : IndexJoin E) (sch : Schema) (h : Heap) (e : JoinEnv E) (m : Key → Value)
    (o : Tuple) (k : Key) : Prop where
  accepts : sch.Accepts k
  key : outerKey j o = some k
  tuple : TupleAt h j.outerAttrs e.currentOuter o
  inner : e.currentInner = m k

/-- Between two calls the outer tuples `pending` have matches to come, or are themselves to come. -/
def Joining (D : Delivery j.outer j.outerAttrs ts) (sch : Schema) (value : Value → Tuple) (h : Heap)
    (e : JoinEnv E) (found : Option Key → List Value) (pending : List Tuple) : Prop :=
  ∃ G m I Q us, Shares j sch value h G found m I Q ∧ D.Ready h e.outer us G ∧
    ((e.currentInner = NULL ∧ pending = us) ∨
      ∃ o k, Current j sch h e m o k ∧ pending = o :: us)

/-- Before or after a run. -/
def Idle (D : Delivery j.outer j.outerAttrs ts) (sch : Schema) (value : Value → Tuple) (h : Heap)
    (outer : E) (found : Option Key → List Value) : Prop :=
  ∃ G m I Q, Shares j sch value h G found m I Q ∧ D.Own h outer G

/-- The loop has come to the end, or to a tuple with a match. -/
def Found (D : Delivery j.outer j.outerAttrs ts) (sch : Schema) (value : Value → Tuple) (h : Heap)
    (e : JoinEnv E) (found : Option Key → List Value) (pending : List Tuple) : Prop :=
  (pending = [] ∧ e.currentOuter = NULL ∧ Idle D sch value h e.outer found) ∨
    ∃ G m I Q o us k d ds, pending = o :: us ∧ Shares j sch value h G found m I Q ∧
      D.Ready h e.outer us G ∧ Current j sch h e m o k ∧ found (some k) = d :: ds

/-- The tuples that the loop passes over have no matches. -/
theorem nextOuter_advance (ok : JoinOk j sch) (D : Delivery j.outer j.outerAttrs ts) {fuel : Nat}
    (hs : Shares j sch value h G found m I Q) (ready : D.Ready h e.outer us G)
    (done : innerDone h e.currentInner = some true) (enough : us.length + 1 < fuel) :
    ∃ h' e' skip pending, nextOuter j fuel h e = some (h', e') ∧ us = skip ++ pending ∧
      (∀ o ∈ skip, found (outerKey j o) = []) ∧ Found D sch value h' e' found pending := by
  induction us generalizing fuel h e G with
  | nil =>
    obtain ⟨fuel, rfl⟩ := Nat.exists_eq_succ_of_ne_zero (Nat.ne_of_gt (Nat.zero_lt_of_lt enough))
    obtain ⟨h', outer, G', last, ready', grows, same⟩ := D.last hs.ok ready
    refine ⟨h', { e with outer, currentOuter := NULL }, [], [], ?_, rfl, by simp,
      Or.inl ⟨rfl, rfl, G', m, I, Q, shares_outer hs grows same, D.own ready'⟩⟩
    simp only [nextOuter, done, last, Option.bind_eq_bind, Option.bind_some]
    rfl
  | cons o us ih =>
    obtain ⟨fuel, rfl⟩ := Nat.exists_eq_succ_of_ne_zero (Nat.ne_of_gt (Nat.zero_lt_of_lt enough))
    obtain ⟨h₁, outer, t, G₁, next, tuple, ready₁, grows, same⟩ := D.next hs.ok ready
    have hs₁ := shares_outer hs grows same
    obtain ⟨k, get, key, accepts⟩ := getProjection_tuple tuple ok.outer ok.schema
    have lookup : indexLookup sch h₁ j.indOnInner k = some (m k) :=
      lookup_stores hs₁.index.stores accepts
    have step : nextOuter j (fuel + 1) h e = nextOuter j fuel h₁ ⟨outer, m k, t⟩ := by
      simp only [nextOuter, done, next, get, ok.indOnInnerSch, lookup, if_neg tuple.live,
        Option.bind_eq_bind, Option.bind_some]
      rfl
    have inner := innerDone_shares hs₁ accepts
    have current : Current j sch h₁ ⟨outer, m k, t⟩ m o k := ⟨accepts, key, tuple, rfl⟩
    rw [step]
    cases matches_ : found (some k) with
    | nil =>
      rw [matches_] at inner
      obtain ⟨h', e', skip, pending, run, rfl, none, result⟩ :=
        ih (e := ⟨outer, m k, t⟩) hs₁ ready₁ inner (by simp at enough; omega)
      refine ⟨h', e', o :: skip, pending, run, rfl, ?_, result⟩
      refine List.forall_mem_cons.mpr ⟨?_, none⟩
      rw [show outerKey j o = some k from key]
      exact matches_
    | cons d ds =>
      rw [matches_] at inner
      obtain ⟨fuel, rfl⟩ := Nat.exists_eq_succ_of_ne_zero (show fuel ≠ 0 by simp at enough; omega)
      refine ⟨h₁, ⟨outer, m k, t⟩, [], o :: us, ?_, rfl, by simp,
        Or.inr ⟨G₁, m, I, Q, o, us, k, d, ds, rfl, hs₁, ready₁, current, matches_⟩⟩
      simp only [nextOuter, inner, Option.bind_eq_bind, Option.bind_some]
      rfl

theorem nextOuter_spec (ok : JoinOk j sch) (D : Delivery j.outer j.outerAttrs ts) {fuel : Nat}
    (hs : Joining D sch value h e found pending) (enough : pending.length + 1 < fuel) :
    ∃ h' e' skip rest, nextOuter j fuel h e = some (h', e') ∧ pending = skip ++ rest ∧
      (∀ o ∈ skip, found (outerKey j o) = []) ∧ Found D sch value h' e' found rest := by
  obtain ⟨G, m, I, Q, us, hs, ready, ⟨null, rfl⟩ | ⟨o, k, current, rfl⟩⟩ := hs
  · refine nextOuter_advance ok D hs ready ?_ enough
    rw [innerDone, if_pos null]
  · have inner := innerDone_shares hs current.accepts
    rw [← current.inner] at inner
    cases matches_ : found (some k) with
    | nil =>
      rw [matches_] at inner
      obtain ⟨h', e', skip, rest, run, rfl, none, result⟩ :=
        nextOuter_advance ok D hs ready inner (Nat.lt_of_succ_lt enough)
      refine ⟨h', e', o :: skip, rest, run, rfl, List.forall_mem_cons.mpr ⟨?_, none⟩, result⟩
      rw [current.key]
      exact matches_
    | cons d ds =>
      rw [matches_] at inner
      obtain ⟨fuel, rfl⟩ := Nat.exists_eq_succ_of_ne_zero (Nat.ne_of_gt (Nat.zero_lt_of_lt enough))
      refine ⟨h, e, [], o :: us, ?_, rfl, by simp,
        Or.inr ⟨G, m, I, Q, o, us, k, d, ds, rfl, hs, ready, current, matches_⟩⟩
      simp only [nextOuter, inner, Option.bind_eq_bind, Option.bind_some]
      rfl

/-- A call returns the next of the pairs, and NULL when there are no more. -/
theorem indexJoinNext_spec (ok : JoinOk j sch) (D : Delivery j.outer j.outerAttrs ts) {fuel : Nat}
    (hs : Joining D sch value h e found pending) (enough : pending.length + 1 < fuel) :
    ∃ h' e' t, indexJoinNext j fuel h e = some (h', e', t) ∧
      ((t = NULL ∧ usedUp (outerKey j) (joinWith j value) found pending = [] ∧
          Idle D sch value h' e'.outer (leftOver (outerKey j) found pending)) ∨
        ∃ found' pending', t ≠ NULL ∧ pending'.length ≤ pending.length ∧
          usedUp (outerKey j) (joinWith j value) found pending =
            wordsAt h' t :: usedUp (outerKey j) (joinWith j value) found' pending' ∧
          leftOver (outerKey j) found pending = leftOver (outerKey j) found' pending' ∧
          Joining D sch value h' e' found' pending') := by
  obtain ⟨h₁, e₁, skip, rest, run, rfl, none, result⟩ := nextOuter_spec ok D hs enough
  have passed : usedUp (outerKey j) (joinWith j value) found (skip ++ rest) =
        usedUp (outerKey j) (joinWith j value) found rest ∧
      leftOver (outerKey j) found (skip ++ rest) = leftOver (outerKey j) found rest := by
    clear run result enough hs
    induction skip with
    | nil => exact ⟨rfl, rfl⟩
    | cons o skip ih =>
      obtain ⟨here, later⟩ := List.forall_mem_cons.mp none
      rw [List.cons_append, usedUp_skip _ _ here, leftOver_skip _ here]
      exact ih later
  rw [passed.1, passed.2]
  rcases result with ⟨rfl, null, idle⟩ | ⟨G, m, I, Q, o, us, k, d, ds, rfl, shares, ready, current,
    matches_⟩
  · refine ⟨h₁, e₁, NULL, ?_, Or.inl ⟨rfl, rfl, ?_⟩⟩
    · simp only [indexJoinNext, run, Option.bind_eq_bind, Option.bind_some, if_pos null]
      rfl
    · have all : leftOver (outerKey j) found [] = found := rfl
      rw [all]
      exact idle
  · obtain ⟨accepts, key, tuple, inner⟩ := current
    obtain ⟨h₂, p, get, data, shares₂, grows, same⟩ := shares_get shares accepts matches_
    have innerTuple : TupleAt h₂ j.innerAttrs d (value d) :=
      tupleAt_same (shares.inner k accepts d (matches_ ▸ List.mem_cons_self)) same
    obtain ⟨words, copy, joined, fits⟩ :=
      innerWords_tuple innerTuple ok.names ok.filled ok.sub ok.once
    have outerLength : o.length = j.outerAttrs.length := by
      have := congrArg List.length tuple.domains
      simpa using this
    have outerWords : tupleWords h₁ e₁.currentOuter j.outerAttrs.length = some o := by
      rw [tupleWords, tuple.obj]
      simp only [outerLength, Nat.le_refl, if_true]
      rw [← outerLength, List.take_length]
    have room : (o.length + words.length : Int) ≤
        j.outerAttrs.length + j.innerAttrs.length - j.innerJoinAttrs.length + 1 := by
      omega
    have alloc := grows_alloc grows.ok (.tuple (o ++ words))
    have same₃ : SameTuples h₂ (h₂.alloc (.tuple (o ++ words))).1 :=
      sameTuples_grows grows.ok alloc fun _ no => no.elim
    have ready₃ := D.readyFrame grows.ok
      (D.readyFrame shares.ok ready grows (shares.apartQ k accepts).symm same) alloc
      (Set.empty_disjoint _) same₃
    have here : found (outerKey j o) = d :: ds := by
      rw [key]
      exact matches_
    have new : wordsAt (h₂.alloc (.tuple (o ++ words))).1 h₂.next = joinWith j value o d := by
      have obj : (h₂.alloc (.tuple (o ++ words))).1.obj h₂.next = some (.tuple (o ++ words)) :=
        Function.update_self _ _ _
      rw [wordsAt, obj]
      exact (joined o).symm
    refine ⟨(h₂.alloc (.tuple (o ++ words))).1, e₁, h₂.next, ?_, Or.inr
      ⟨Function.update found (outerKey j o) ds, o :: us, Nat.ne_of_gt grows.ok.pos, ?_, ?_, ?_, ?_⟩⟩
    · simp only [indexJoinNext, run, if_neg tuple.live, outerWords, inner, get, data, copy,
        Option.bind_eq_bind, Option.bind_some, room, guard_true, Option.pure_def]
      rfl
    · rw [List.length_append]
      exact Nat.le_add_left _ _
    · rw [new]
      exact usedUp_take _ _ here
    · exact (leftOver_take _ found ds).symm
    · refine ⟨G, m, I, Q, us, ?_, ready₃, Or.inr ⟨o, k, ⟨accepts, key, ?_, inner⟩, rfl⟩⟩
      · rw [key]
        exact shares_alloc shares₂ _
      · exact tupleAt_same (tupleAt_same tuple same) same₃

/-- Between two calls the join can be closed, and the index stays for another run. -/
theorem indexJoinClose_joining (D : Delivery j.outer j.outerAttrs ts)
    (hs : Joining D sch value h e found pending) :
    ∃ h' e', indexJoinClose j h e = some (h', e') ∧ Idle D sch value h' e'.outer found := by
  obtain ⟨G, m, I, Q, us, shares, ready, -⟩ := hs
  obtain ⟨h', outer, G', close, own, grows, same⟩ := D.close shares.ok ready
  refine ⟨h', { e with outer }, ?_, G', m, I, Q, shares_outer shares grows same, own⟩
  simp only [indexJoinClose, close, Option.bind_eq_bind, Option.bind_some]
  rfl

/-! ### A run -/

theorem collect_spec (ok : JoinOk j sch) (D : Delivery j.outer j.outerAttrs ts) {fuel n : Nat}
    (hs : Joining D sch value h e found pending) (enough : pending.length + 1 < fuel)
    (long : (usedUp (outerKey j) (joinWith j value) found pending).length < n) :
    ∃ h' e', collect j fuel n h e =
        some (h', e', usedUp (outerKey j) (joinWith j value) found pending) ∧
      Idle D sch value h' e'.outer (leftOver (outerKey j) found pending) := by
  induction n generalizing h e found pending with
  | zero => exact absurd long (Nat.not_lt_zero _)
  | succ n ih =>
    obtain ⟨h', e', t, next, ⟨rfl, none, idle⟩ | ⟨found', pending', live, fewer, some_, left,
      joining⟩⟩ := indexJoinNext_spec ok D hs enough
    · refine ⟨h', e', ?_, idle⟩
      rw [none]
      simp only [collect, next, Option.bind_eq_bind, Option.bind_some, if_true]
      rfl
    · rw [some_] at long ⊢
      obtain ⟨h'', e'', rest, idle⟩ := ih joining (by omega) (Nat.lt_of_succ_lt_succ long)
      refine ⟨h'', e'', ?_, left ▸ idle⟩
      rw [collect, next]
      simp only [Option.bind_eq_bind, Option.bind_some, if_neg live, rest]
      rfl

theorem runJoin_spec (ok : JoinOk j sch) (D : Delivery j.outer j.outerAttrs ts) {fuel : Nat}
    (hs : Idle D sch value h e.outer found) (enough : ts.length + 1 < fuel)
    (long : (usedUp (outerKey j) (joinWith j value) found ts).length < fuel) :
    ∃ h' e', runJoin j fuel h e =
        some (h', e', usedUp (outerKey j) (joinWith j value) found ts) ∧
      Idle D sch value h' e'.outer (leftOver (outerKey j) found ts) := by
  obtain ⟨G, m, I, Q, shares, own⟩ := hs
  obtain ⟨h₁, outer, G₁, init, ready, grows, same⟩ := D.init shares.ok own
  have joining : Joining D sch value h₁ ⟨outer, NULL, NULL⟩ found ts :=
    ⟨G₁, m, I, Q, ts, shares_outer shares grows same, ready, Or.inl ⟨rfl, rfl⟩⟩
  obtain ⟨h', e', run, idle⟩ := collect_spec ok D joining enough long
  refine ⟨h', e', ?_, idle⟩
  simp only [runJoin, indexJoinInit, init, Option.bind_eq_bind, Option.bind_some, Option.pure_def]
  exact run

end

/-! ### The join of two relations -/

/-- One joined tuple for every pair that agrees on the join attributes. -/
def nestedLoop (outerAttrs innerAttrs outerJoinAttrs innerJoinAttrs : AttributeList)
    (outer inner : List Tuple) : List Tuple :=
  outer.flatMap fun o => (inner.filter fun i =>
    projection innerAttrs i innerJoinAttrs = projection outerAttrs o outerJoinAttrs).map
      (joinTuple innerAttrs innerJoinAttrs o)

section
variable {h : Heap} {inner : Relation} {entries : List (BTree.Key × Value)}
  {outerAttrs outerJoinAttrs innerJoinAttrs : AttributeList} {j : IndexJoin E} {sch : Schema}
  {ts : List Tuple}

/-- The matches of a key after the index scan. -/
def scanned (h : Heap) (inner : Relation) (innerJoinAttrs : AttributeList)
    (entries : List (BTree.Key × Value)) : Option Key → List Value
  | none => []
  | some k => tuplesWith h inner innerJoinAttrs entries k

theorem scanned_matches (stored : Stored h inner entries) (filled : innerJoinAttrs ≠ [])
    (of : ∀ a ∈ innerJoinAttrs, AttributeOf inner.attrs a) (k : Option Key) (f : Tuple → Tuple) :
    (scanned h inner innerJoinAttrs entries k).map (fun t => f (wordsAt h t)) =
      ((entries.map fun e => wordsAt h e.2).filter fun i =>
        projection inner.attrs i innerJoinAttrs = k).map f := by
  obtain ⟨sch, schema⟩ := getSchema_some filled
  have key : ∀ e ∈ entries, ∃ k, tupleKey h inner innerJoinAttrs e.2 = some k ∧
      projection inner.attrs (wordsAt h e.2) innerJoinAttrs = some k := by
    intro e he
    obtain ⟨words, tuple, -⟩ := stored.tuples e he
    obtain ⟨k, -, project, -⟩ := getProjection_tuple tuple of schema
    rw [wordsAt_tuple tuple, tupleKey, tuple.obj]
    exact ⟨k, project, project⟩
  rw [List.filter_map, List.map_map]
  cases k with
  | none =>
    have none : (entries.filter ((fun i => decide (projection inner.attrs i innerJoinAttrs = none)) ∘
        fun e => wordsAt h e.2)) = [] := by
      refine List.filter_eq_nil_iff.mpr fun e he => ?_
      obtain ⟨k, -, project⟩ := key e he
      simp [project]
    rw [none]
    rfl
  | some k =>
    rw [scanned, tuplesWith, List.map_map]
    refine congrArg (List.map _) (List.filter_congr fun e he => ?_)
    obtain ⟨k', first, second⟩ := key e he
    simp [first, second]

theorem pairs_scanned (j : IndexJoin E) (ts : List Tuple) (stored : Stored h inner entries)
    (attrs : j.innerAttrs = inner.attrs)
    (filled : j.innerJoinAttrs ≠ []) (of : ∀ a ∈ j.innerJoinAttrs, AttributeOf inner.attrs a) :
    pairs (outerKey j) (joinWith j (wordsAt h)) (scanned h inner j.innerJoinAttrs entries) ts =
      nestedLoop j.outerAttrs j.innerAttrs j.outerJoinAttrs j.innerJoinAttrs ts
        (entries.map fun e => wordsAt h e.2) := by
  unfold pairs nestedLoop
  refine congrArg (fun f => ts.flatMap f) (funext fun o => ?_)
  rw [attrs]
  have matched := scanned_matches stored filled of (outerKey j o)
    (joinTuple inner.attrs j.innerJoinAttrs o)
  rw [← attrs] at matched ⊢
  exact matched

theorem scanned_nil_iff (stored : Stored h inner entries) (filled : innerJoinAttrs ≠ [])
    (of : ∀ a ∈ innerJoinAttrs, AttributeOf inner.attrs a) (k : Option Key) :
    scanned h inner innerJoinAttrs entries k = [] ↔
      ∀ x ∈ entries, projection inner.attrs (wordsAt h x.2) innerJoinAttrs ≠ k := by
  have matched := scanned_matches stored filled of k id
  rw [← List.map_eq_nil_iff (f := fun t => id (wordsAt h t)), matched, List.map_id,
    List.filter_eq_nil_iff]
  constructor
  · intro none x hx
    simpa using none _ (List.mem_map_of_mem hx)
  · intro none i hi
    obtain ⟨x, hx, rfl⟩ := List.mem_map.mp hi
    simpa using none x hx

theorem nestedLoop_nil_iff (outer inner : List Tuple) (innerAttrs : AttributeList) :
    nestedLoop outerAttrs innerAttrs outerJoinAttrs innerJoinAttrs outer inner = [] ↔
      ∀ o ∈ outer, ∀ i ∈ inner,
        projection innerAttrs i innerJoinAttrs ≠ projection outerAttrs o outerJoinAttrs := by
  simp [nestedLoop, List.flatMap_eq_nil_iff, List.filter_eq_nil_iff]

/-- After the index scan of the inner relation the join can be run. -/
theorem idle_scanned {h₁ : Heap} {outer : E} {G : Set Nat}
    (stored : Stored h inner entries) (attrs : j.innerAttrs = inner.attrs)
    (D : Delivery j.outer j.outerAttrs ts) (own : D.Own h outer G)
    (hs : Scanned h sch h₁ j.indOnInner (tuplesWith h inner j.innerJoinAttrs entries)) :
    Idle D sch (wordsAt h) h₁ outer (scanned h inner j.innerJoinAttrs entries) := by
  obtain ⟨okH, next, same, m, I, Q, index, freshI, fresh⟩ := hs
  have grows : Grows h h₁ ∅ ∅ :=
    ⟨okH, next, fun x _ old => same x old, Set.Subset.rfl, fun _ no => no.elim⟩
  have tuples : SameTuples h h₁ := sameTuples_grows stored.ok grows fun _ no => no.elim
  have late : ∀ F : Set Nat, (∀ x ∈ F, h.next ≤ x) → Disjoint G F := by
    intro F later
    rw [Set.disjoint_left]
    exact fun x hG hF => absurd (D.old stored.ok own x hG) (Nat.not_lt.mpr (later x hF))
  refine ⟨G, m, I, Q, ⟨okH, index, late I freshI, fun k hk => late _ (fresh k hk).2,
    fun k _ t ht => ?_⟩, D.ownFrame stored.ok own grows (Set.empty_disjoint G) tuples⟩
  obtain ⟨x, hx, rfl⟩ := List.mem_map.mp (show t ∈ (entries.filter _).map Prod.snd from ht)
  obtain ⟨words, tuple, -⟩ := stored.tuples x (List.mem_filter.mp hx).1
  rw [attrs, wordsAt_tuple tuple]
  exact tupleAt_same tuple tuples

/-- The first run uses the matches up, and the second one finds none. -/
theorem runJoin_twice {h₁ : Heap} {e : JoinEnv E} {found : Option Key → List Value}
    {value : Value → Tuple} (ok : JoinOk j sch) (D : Delivery j.outer j.outerAttrs ts)
    (idle : Idle D sch value h₁ e.outer found) :
    ∃ bound, ∀ fuel, bound ≤ fuel → ∃ h₂ e₂ h₃ e₃,
      runJoin j fuel h₁ e = some (h₂, e₂, usedUp (outerKey j) (joinWith j value) found ts) ∧
      runJoin j fuel h₂ e₂ = some (h₃, e₃, []) := by
  refine ⟨ts.length + (usedUp (outerKey j) (joinWith j value) found ts).length + 2,
    fun fuel enough => ?_⟩
  have long : ts.length + 1 < fuel := by omega
  obtain ⟨h₂, e₂, first, idle₂⟩ := runJoin_spec ok D idle long (by omega)
  have none := usedUp_leftOver (outerKey j) (joinWith j value) found ts
  obtain ⟨h₃, e₃, second, -⟩ := runJoin_spec ok D idle₂ long (by
    rw [none, List.length_nil]
    omega)
  rw [none] at second
  exact ⟨h₂, e₂, h₃, e₃, first, second⟩

/-- Two runs of the join over the index of the inner relation both give the nested loop join exactly
when no outer tuple agrees with an inner one. The first run alone gives it exactly when no two outer
tuples with the same key have matches. -/
theorem indexJoin_iff {it : Iterator E} (stored : Stored h inner entries)
    (names : (inner.attrs.map Attribute.id).Nodup) (filled : innerJoinAttrs ≠ [])
    (sub : innerJoinAttrs ⊆ inner.attrs) (once : innerJoinAttrs.Nodup)
    (of : ∀ a ∈ outerJoinAttrs, AttributeOf outerAttrs a)
    (domains : outerJoinAttrs.map Attribute.domain = innerJoinAttrs.map Attribute.domain)
    {scanFuel ind : Nat} {h₁ : Heap} (scan : indexScan scanFuel h inner innerJoinAttrs = some (h₁, ind))
    (D : Delivery it outerAttrs ts) {e : JoinEnv E} {G : Set Nat} (own : D.Own h e.outer G) :
    ∃ j bound, indexJoin outerAttrs inner.attrs outerJoinAttrs innerJoinAttrs it ind = some j ∧
      ∀ fuel, bound ≤ fuel → ∃ h₂ e₂ first h₃ e₃ second,
        runJoin j fuel h₁ e = some (h₂, e₂, first) ∧
        runJoin j fuel h₂ e₂ = some (h₃, e₃, second) ∧
        let joined := nestedLoop outerAttrs inner.attrs outerJoinAttrs innerJoinAttrs ts
          (entries.map fun x => wordsAt h x.2)
        let apart := fun o => ∀ x ∈ entries, projection inner.attrs (wordsAt h x.2) innerJoinAttrs ≠
          projection outerAttrs o outerJoinAttrs
        ((first.Perm joined ∧ second.Perm joined) ↔ ∀ o ∈ ts, apart o) ∧
          (first.Perm joined ↔ ts.Pairwise fun o o' =>
            projection outerAttrs o outerJoinAttrs = projection outerAttrs o' outerJoinAttrs →
              apart o) := by
  have innerOf : ∀ a ∈ innerJoinAttrs, AttributeOf inner.attrs a := fun a ha =>
    attributeOf_nodup names (sub ha)
  obtain ⟨sch, schema, hs, -⟩ := indexScan_scanned stored innerOf scan
  have lengths : outerJoinAttrs.length = innerJoinAttrs.length := by
    simpa using congrArg List.length domains
  let j : IndexJoin E := ⟨it, outerAttrs, outerJoinAttrs, inner.attrs, innerJoinAttrs, ind,
    getSchema innerJoinAttrs⟩
  have made : indexJoin outerAttrs inner.attrs outerJoinAttrs innerJoinAttrs it ind = some j := by
    simp [indexJoin, lengths, j]
  have ok : JoinOk j sch :=
    ⟨schema, (getSchema_domains domains).trans schema, of, names, filled, sub, once⟩
  obtain ⟨bound, runs⟩ := runJoin_twice ok D (idle_scanned (j := j) stored rfl D own hs)
  refine ⟨j, bound, made, fun fuel enough => ?_⟩
  obtain ⟨h₂, e₂, h₃, e₃, first, second⟩ := runs fuel enough
  refine ⟨h₂, e₂, _, h₃, e₃, [], first, second, ?_⟩
  intro joined apart
  have same := pairs_scanned j ts stored rfl filled innerOf
  have nil : joined = [] ↔ ∀ o ∈ ts, apart o := by
    rw [nestedLoop_nil_iff]
    exact ⟨fun none o ho x hx => none o ho _ (List.mem_map_of_mem hx), fun none o ho =>
      List.forall_mem_map.mpr (none o ho)⟩
  constructor
  · constructor
    · rintro ⟨-, none⟩
      exact nil.mp (List.nil_perm.mp none)
    · intro none
      rw [nil.mpr none]
      refine ⟨?_, List.Perm.nil⟩
      rw [usedUp_none]
      intro o ho
      exact (scanned_nil_iff stored filled innerOf _).mpr (none o ho)
  · rw [show joined = _ from same.symm, usedUp_perm_iff]
    refine List.Pairwise.iff fun o o' => ?_
    exact imp_congr_right fun _ => scanned_nil_iff stored filled innerOf _

/-- The outer tuple has no match. -/
theorem indexJoin_iff_unmatched : ∃ outer inner : Library.State Value,
    Library.run [.put 1 1] = some outer ∧ Library.run [.put 10 2] = some inner ∧
    ∃ h₁ ind j bound,
      indexScan 2 (tupleHeap [[.int 1, .str [120]], [.str [121], .int 10]])
        ⟨[⟨[66], .Str⟩, ⟨[67], .Int⟩], [⟨[67], .Int⟩], inner.rel⟩ [⟨[66], .Str⟩] = some (h₁, ind) ∧
      indexJoin [⟨[65], .Int⟩, ⟨[66], .Str⟩] [⟨[66], .Str⟩, ⟨[67], .Int⟩] [⟨[66], .Str⟩] [⟨[66], .Str⟩]
        (seqScan ⟨[⟨[65], .Int⟩, ⟨[66], .Str⟩], [⟨[65], .Int⟩], outer.rel⟩) ind = some j ∧
      ∀ fuel, bound ≤ fuel → ∃ h₂ e₂ first h₃ e₃ second,
        runJoin j fuel h₁ ⟨.null, NULL, NULL⟩ = some (h₂, e₂, first) ∧
        runJoin j fuel h₂ e₂ = some (h₃, e₃, second) ∧ first = [] ∧ second = [] := by
  have outerFacts : (Library.run [.put 1 1]).bind (fun s : Library.State Value =>
      BTree.leafEntries s.rel.nodes BTree.MAX_TREE_DEPTH s.rel.root) = some [(1, 1)] := by
    decide +kernel
  have innerFacts : (Library.run [.put 10 2]).bind (fun s : Library.State Value =>
      BTree.leafEntries s.rel.nodes BTree.MAX_TREE_DEPTH s.rel.root) = some [(10, 2)] := by
    decide +kernel
  obtain ⟨outer, runOuter, leavesOuter⟩ := Option.bind_eq_some_iff.mp outerFacts
  obtain ⟨inner, runInner, leavesInner⟩ := Option.bind_eq_some_iff.mp innerFacts
  have storedOuter : Stored (tupleHeap [[.int 1, .str [120]], [.str [121], .int 10]])
      ⟨[⟨[65], .Int⟩, ⟨[66], .Str⟩], [⟨[65], .Int⟩], outer.rel⟩ [(1, 1)] := by
    refine ⟨tupleHeap_ok _, ⟨_, outer, runOuter, rfl⟩, leavesOuter, List.forall_mem_singleton.mpr ?_⟩
    exact ⟨_, ⟨by decide, rfl, rfl⟩, rfl⟩
  have storedInner : Stored (tupleHeap [[.int 1, .str [120]], [.str [121], .int 10]])
      ⟨[⟨[66], .Str⟩, ⟨[67], .Int⟩], [⟨[67], .Int⟩], inner.rel⟩ [(10, 2)] := by
    refine ⟨tupleHeap_ok _, ⟨_, inner, runInner, rfl⟩, leavesInner, List.forall_mem_singleton.mpr ?_⟩
    exact ⟨_, ⟨by decide, rfl, rfl⟩, rfl⟩
  have filled : [(⟨[66], .Str⟩ : Attribute)] ≠ [] := List.cons_ne_nil _ _
  obtain ⟨h₁, ind, scan⟩ := indexScan_some storedInner filled (by simp [AttributeOf]) (by
    intro x here a member e word
    obtain rfl := List.mem_singleton.mp here
    obtain rfl := List.mem_singleton.mp member
    obtain rfl := Option.some.inj word
    decide) (Nat.lt_succ_self 1)
  obtain ⟨j, bound, join, runs⟩ := indexJoin_iff storedInner (by simp) filled (by simp) (by decide)
    (by simp [AttributeOf]) rfl scan (seqScanDelivery storedOuter)
    (e := ⟨.null, NULL, NULL⟩) (G := ∅) ⟨rfl, fun _ _ tuple => tuple⟩
  refine ⟨outer, inner, runOuter, runInner, h₁, ind, j, bound, scan, join, fun fuel enough => ?_⟩
  obtain ⟨h₂, e₂, first, h₃, e₃, second, run₁, run₂, both, -⟩ := runs fuel enough
  obtain ⟨perm₁, perm₂⟩ := both.mpr (by
    simp only [List.map_cons, List.map_nil, List.forall_mem_singleton]
    decide)
  exact ⟨h₂, e₂, first, h₃, e₃, second, run₁, run₂, List.perm_nil.mp perm₁, List.perm_nil.mp perm₂⟩

/-- Two outer tuples with the key of the inner one: the first run finds one pair, the second none. -/
theorem indexJoin_loses : ∃ outer inner : Library.State Value,
    Library.run [.put 1 1, .put 2 2] = some outer ∧ Library.run [.put 10 3] = some inner ∧
    ∃ h₁ ind j h₂ e₂ first h₃ e₃ second,
      indexScan 2 (tupleHeap [[.int 1, .str [120]], [.int 2, .str [120]], [.str [120], .int 10]])
        ⟨[⟨[66], .Str⟩, ⟨[67], .Int⟩], [⟨[67], .Int⟩], inner.rel⟩ [⟨[66], .Str⟩] = some (h₁, ind) ∧
      indexJoin [⟨[65], .Int⟩, ⟨[66], .Str⟩] [⟨[66], .Str⟩, ⟨[67], .Int⟩] [⟨[66], .Str⟩] [⟨[66], .Str⟩]
        (seqScan ⟨[⟨[65], .Int⟩, ⟨[66], .Str⟩], [⟨[65], .Int⟩], outer.rel⟩) ind = some j ∧
      runJoin j 6 h₁ ⟨.null, NULL, NULL⟩ = some (h₂, e₂, first) ∧
      runJoin j 6 h₂ e₂ = some (h₃, e₃, second) ∧
      ¬ first.Perm (nestedLoop [⟨[65], .Int⟩, ⟨[66], .Str⟩] [⟨[66], .Str⟩, ⟨[67], .Int⟩] [⟨[66], .Str⟩]
        [⟨[66], .Str⟩] [[.int 1, .str [120]], [.int 2, .str [120]]] [[.str [120], .int 10]]) ∧
      ¬ second.Perm first := by
  have facts : (Library.run [.put 1 1, .put 2 2]).bind (fun outer : Library.State Value =>
      (Library.run [.put 10 3]).bind fun inner : Library.State Value =>
      (indexScan 2 (tupleHeap [[.int 1, .str [120]], [.int 2, .str [120]], [.str [120], .int 10]])
        ⟨[⟨[66], .Str⟩, ⟨[67], .Int⟩], [⟨[67], .Int⟩], inner.rel⟩ [⟨[66], .Str⟩]).bind fun x =>
      (indexJoin [⟨[65], .Int⟩, ⟨[66], .Str⟩] [⟨[66], .Str⟩, ⟨[67], .Int⟩] [⟨[66], .Str⟩]
        [⟨[66], .Str⟩] (seqScan ⟨[⟨[65], .Int⟩, ⟨[66], .Str⟩], [⟨[65], .Int⟩], outer.rel⟩)
        x.2).bind fun j =>
      (runJoin j 6 x.1 ⟨.null, NULL, NULL⟩).bind fun y =>
      (runJoin j 6 y.1 y.2.1).map fun z => (y.2.2, z.2.2)) =
        some ([[.int 1, .str [120], .int 10]], []) := by
    decide +kernel
  obtain ⟨outer, runOuter, facts⟩ := Option.bind_eq_some_iff.mp facts
  obtain ⟨inner, runInner, facts⟩ := Option.bind_eq_some_iff.mp facts
  obtain ⟨⟨h₁, ind⟩, scan, facts⟩ := Option.bind_eq_some_iff.mp facts
  obtain ⟨j, join, facts⟩ := Option.bind_eq_some_iff.mp facts
  obtain ⟨⟨h₂, e₂, first⟩, run₁, facts⟩ := Option.bind_eq_some_iff.mp facts
  obtain ⟨⟨h₃, e₃, second⟩, run₂, values⟩ := Option.map_eq_some_iff.mp facts
  obtain ⟨rfl, rfl⟩ := Prod.mk.inj values
  exact ⟨outer, inner, runOuter, runInner, h₁, ind, j, h₂, e₂, _, h₃, e₃, _, scan, join, run₁, run₂,
    by decide, by decide⟩

end

end DeepDB.DbOps
