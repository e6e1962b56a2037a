import DeepDB.DbOps.Queue
import DeepDB.DbOps.SeqScan

/-!
The index scan of `db_ops/db_operations_light.c`: it goes through a relation and builds an index from
the projections of the tuples to queues of the tuples with that projection. The queues are objects of
their own, apart from the index and from each other.
-/

namespace DeepDB.DbOps
open SortedAssoc
open BTree (Cursor MAX_TREE_DEPTH leafEntries)
open Library (At)

variable {h₀ h h' : Heap} {rel : Relation} {attrs : AttributeList} {sch : Schema} {ind : Nat}
  {c : Cursor} {t v : Value} {k : Key} {data : List Value} {F G F' : Set Nat}
  {m : Key → Value} {queues : Key → List Value} {I : Set Nat} {Q : Key → Set Nat}
  {entries done rest : List (BTree.Key × Value)}

/-! ### The functions -/

/-- What `index_scan` does with the tuple at `t`. -/
def indexScanTuple (rel : Relation) (attrs : AttributeList) (sch : Schema) (ind : Nat) (h : Heap)
    (t : Value) : Option Heap := do
  let proj ← getProjection h rel.attrs t attrs
  let l ← indexLookup sch h ind proj
  let (h, l) := if l = NULL then fifoNew h else (h, l)
  let (h, p) := makeElem h t
  let h ← fifoPut h l p
  let (h, _) ← indexInsert sch h ind proj l
  return h

/-- The loop of `index_scan`; without `fuel` it has no value. -/
def indexScanLoop (rel : Relation) (attrs : AttributeList) (sch : Schema) (ind : Nat) :
    Nat → Heap → Cursor → Option Heap
  | 0, _, _ => none
  | fuel + 1, h, c => do
    let (c, t) ← seqScanNext rel c
    if t = NULL then return h
    let h ← indexScanTuple rel attrs sch ind h t
    indexScanLoop rel attrs sch ind fuel h c

def indexScan (fuel : Nat) (h : Heap) (rel : Relation) (attrs : AttributeList) :
    Option (Heap × Nat) := do
  let sch ← getSchema attrs
  let (h, ind) := indexNew sch h
  let c ← seqScanInit rel
  let h ← indexScanLoop rel attrs sch ind fuel h c
  return (h, ind)

/-! ### Queues of tuples -/

/-- The projection of the tuple at `t`. -/
def tupleKey (h : Heap) (rel : Relation) (attrs : AttributeList) (t : Value) : Option Key :=
  match h.obj t with
  | some (.tuple words) => projection rel.attrs words attrs
  | _ => none

/-- The tuples with the projection `k`, in the order of the entries. -/
def tuplesWith (h : Heap) (rel : Relation) (attrs : AttributeList)
    (entries : List (BTree.Key × Value)) (k : Key) : List Value :=
  (entries.filter fun e => tupleKey h rel attrs e.2 = some k).map Prod.snd

/-- A queue with its data, or NULL and no data. -/
def QueueAt (h : Heap) (v : Value) (data : List Value) (F : Set Nat) : Prop :=
  (v = NULL ∧ data = [] ∧ F = ∅) ∨ (v ≠ NULL ∧ Queue h v data F)

theorem queueAt_grows (ok : h.Ok) (hq : QueueAt h v data F) (hg : Grows h h' G F')
    (apart : Disjoint G F) : QueueAt h' v data F := by
  rcases hq with none | ⟨some, hq⟩
  · exact Or.inl none
  · exact Or.inr ⟨some, queue_grows ok hq hg apart⟩

theorem queueAt_lt (ok : h.Ok) (hq : QueueAt h v data F) : ∀ y ∈ F, y < h.next := by
  rcases hq with ⟨-, -, rfl⟩ | ⟨-, hq⟩
  · exact fun y hy => hy.elim
  · exact queue_lt ok hq

/-- The tuple is put into the queue of its key, a new one if there is none. -/
theorem put_queueAt (ok : h.Ok) (hq : QueueAt h v data F) (t : Value) :
    ∃ h₁ l h₂ F₂, (if v = NULL then fifoNew h else (h, v)) = (h₁, l) ∧
      fifoPut (makeElem h₁ t).1 l (makeElem h₁ t).2 = some h₂ ∧ l ≠ NULL ∧
      Queue h₂ l (data ++ [t]) F₂ ∧ Grows h h₂ F F₂ := by
  rcases hq with ⟨rfl, rfl, rfl⟩ | ⟨some, hq⟩
  · obtain ⟨live, empty, grows₁⟩ := fifoNew_queue ok
    obtain ⟨h₂, F₂, put, queue, grows₂⟩ := put_queue grows₁.ok empty t
    exact ⟨_, _, h₂, F₂, if_pos rfl, put, live, queue, grows_trans grows₁ grows₂⟩
  · obtain ⟨h₂, F₂, put, queue, grows⟩ := put_queue ok hq t
    exact ⟨h, v, h₂, F₂, if_neg some, put, some, queue, grows⟩

/-! ### An index of queues -/

/-- The index at `ind` leads from each key to a queue of its own: the index is in the objects `I` and the
queue of `k` in the objects `Q k`. -/
structure QueueIndex (sch : Schema) (h : Heap) (ind : Nat) (m : Key → Value)
    (queues : Key → List Value) (I : Set Nat) (Q : Key → Set Nat) : Prop where
  stores : Stores sch h ind m I
  each : ∀ k, sch.Accepts k → QueueAt h (m k) (queues k) (Q k) ∧ Disjoint I (Q k)
  apart : ∀ k k', sch.Accepts k → sch.Accepts k' → k ≠ k' → Disjoint (Q k) (Q k')

/-- What changes nothing of the index and its queues. -/
theorem queueIndex_grows (ok : h.Ok) (hi : QueueIndex sch h ind m queues I Q) (hg : Grows h h' G F')
    (left : Disjoint G I) (right : ∀ k, sch.Accepts k → Disjoint G (Q k)) :
    QueueIndex sch h' ind m queues I Q where
  stores := stores_grows ok hi.stores hg left
  each := fun k hk => ⟨queueAt_grows ok (hi.each k hk).1 hg (right k hk), (hi.each k hk).2⟩
  apart := hi.apart

/-- The queue of one key changes, and then the index, which has it at `v`. -/
theorem queueIndex_update {h'' : Heap} {I' : Set Nat} (ok : h.Ok)
    (hi : QueueIndex sch h ind m queues I Q) (hk : sch.Accepts k) (hg : Grows h h' (Q k) F')
    (queue : QueueAt h' v data F') (hg' : Grows h' h'' I I')
    (stores' : Stores sch h'' ind (Function.update m k v) I') :
    QueueIndex sch h'' ind (Function.update m k v) (Function.update queues k data) I'
      (Function.update Q k F') := by
  obtain ⟨stores, each, apart⟩ := hi
  obtain ⟨-, left⟩ := each k hk
  have apart' : Disjoint F' I := grows_disjoint hg left.symm (stores_lt ok stores)
  have others : ∀ k', sch.Accepts k' → k' ≠ k → Disjoint F' (Q k') := fun k' hk' ne =>
    grows_disjoint hg (apart k k' hk hk' (Ne.symm ne)) (queueAt_lt ok (each k' hk').1)
  refine ⟨stores', fun k' hk' => ?_, fun k' k'' hk' hk'' ne => ?_⟩
  · by_cases same : k' = k
    · subst same
      rw [Function.update_self, Function.update_self, Function.update_self]
      exact ⟨queueAt_grows hg.ok queue hg' apart'.symm,
        grows_disjoint hg' apart'.symm (queueAt_lt hg.ok queue)⟩
    · rw [Function.update_of_ne same, Function.update_of_ne same, Function.update_of_ne same]
      obtain ⟨queue', left'⟩ := each k' hk'
      have before := queueAt_lt ok queue'
      have between := queueAt_grows ok queue' hg (apart k k' hk hk' (Ne.symm same))
      exact ⟨queueAt_grows hg.ok between hg' left',
        grows_disjoint hg' left' fun x hx => Nat.lt_of_lt_of_le (before x hx) hg.next⟩
  · by_cases same : k' = k
    · subst same
      rw [Function.update_self, Function.update_of_ne (Ne.symm ne)]
      exact others k'' hk'' (Ne.symm ne)
    · rw [Function.update_of_ne same]
      by_cases same' : k'' = k
      · subst same'
        rw [Function.update_self]
        exact (others k' hk' same).symm
      · rw [Function.update_of_ne same']
        exact apart k' k'' hk' hk'' ne

theorem queueIndex_insert (ok : h.Ok) (hi : QueueIndex sch h ind m queues I Q) (hk : sch.Accepts k)
    (fits : k.Fits) (hg : Grows h h' (Q k) F') (queue : QueueAt h' v data F') :
    ∃ h'' old I', indexInsert sch h' ind k v = some (h'', old) ∧ Grows h' h'' I I' ∧
      QueueIndex sch h'' ind (Function.update m k v) (Function.update queues k data) I'
        (Function.update Q k F') := by
  have stores := stores_grows ok hi.stores hg (hi.each k hk).2.symm
  obtain ⟨h'', I', insert, stores', hg'⟩ := insert_stores hg.ok stores hk fits v
  exact ⟨h'', _, I', insert, hg', queueIndex_update ok hi hk hg queue hg' stores'⟩

/-! ### What a scan has built -/

/-- The index at `ind` leads from each key to the queue of its tuples. All this is new since `h₀`, and
what was there before is unchanged. -/
structure Scanned (h₀ : Heap) (sch : Schema) (h : Heap) (ind : Nat) (queues : Key → List Value) :
    Prop where
  ok : h.Ok
  next : h₀.next ≤ h.next
  same : ∀ x < h₀.next, h.obj x = h₀.obj x
  index : ∃ m I Q, QueueIndex sch h ind m queues I Q ∧ (∀ x ∈ I, h₀.next ≤ x) ∧
    ∀ k, sch.Accepts k → (m k = NULL ↔ queues k = []) ∧ ∀ x ∈ Q k, h₀.next ≤ x

theorem scanned_new (ok : h.Ok) (sch : Schema) :
    Scanned h sch (indexNew sch h).1 (indexNew sch h).2 fun _ => [] := by
  obtain ⟨h', i, I, new, -, stores, grows⟩ := new_stores sch ok
  rw [new]
  refine ⟨grows.ok, grows.next, fun x old => grows.same x id old, fun _ => NULL, I, fun _ => ∅,
    ⟨stores, fun k _ => ⟨Or.inl ⟨rfl, rfl, rfl⟩, Set.disjoint_empty I⟩,
      fun _ _ _ _ _ => Set.disjoint_empty ∅⟩,
    fun x hx => (grows.fresh x hx).resolve_left id, fun k _ => ⟨?_, fun x hx => hx.elim⟩⟩
  exact ⟨fun _ => rfl, fun _ => rfl⟩

/-- One tuple goes to the end of the queue of its key, and no other queue changes. -/
theorem scanned_tuple (hs : Scanned h₀ sch h ind queues) (hk : sch.Accepts k) (fits : k.Fits)
    (project : getProjection h rel.attrs t attrs = some k) :
    ∃ h', indexScanTuple rel attrs sch ind h t = some h' ∧
      Scanned h₀ sch h' ind (Function.update queues k (queues k ++ [t])) := by
  obtain ⟨ok, next, same, m, I, Q, hi, freshI, fresh⟩ := hs
  obtain ⟨h₁, l, h₂, F₂, found, put, live, queue, grows₂⟩ := put_queueAt ok (hi.each k hk).1 t
  obtain ⟨h₃, old, I₃, insert, grows₃, hi'⟩ :=
    queueIndex_insert ok hi hk fits grows₂ (Or.inr ⟨live, queue⟩)
  have lookup : indexLookup sch h ind k = some (m k) := lookup_stores hi.stores hk
  refine ⟨h₃, ?_, grows₃.ok, next.trans (grows₂.next.trans grows₃.next), fun x before => ?_, _, I₃, _,
    hi', fun x hx => ?_, fun k' hk' => ?_⟩
  · simp only [indexScanTuple, project, lookup, found, put, insert, Option.bind_eq_bind,
      Option.bind_some]
    rfl
  · have outQ : x ∉ Q k := fun hx => absurd ((fresh k hk).2 x hx) (Nat.not_le.mpr before)
    have outI : x ∉ I := fun hx => absurd (freshI x hx) (Nat.not_le.mpr before)
    have before' := Nat.lt_of_lt_of_le before next
    rw [grows₃.same x outI (Nat.lt_of_lt_of_le before' grows₂.next), grows₂.same x outQ before',
      same x before]
  · rcases grows₃.fresh x hx with hx | late
    · exact freshI x hx
    · exact next.trans (grows₂.next.trans late)
  · by_cases eq : k' = k
    · subst eq
      rw [Function.update_self, Function.update_self, Function.update_self]
      refine ⟨⟨fun null => absurd null live, fun none => by simp at none⟩, fun x hx => ?_⟩
      rcases grows₂.fresh x hx with hx | late
      · exact (fresh k' hk).2 x hx
      · exact next.trans late
    · rw [Function.update_of_ne eq, Function.update_of_ne eq, Function.update_of_ne eq]
      exact fresh k' hk'

/-- A tuple whose key cannot be copied ends the scan at the insert of its queue. -/
theorem indexScanTuple_none (hs : Scanned h₀ sch h ind queues) (hk : sch.Accepts k) (long : ¬k.Fits)
    (project : getProjection h rel.attrs t attrs = some k) :
    indexScanTuple rel attrs sch ind h t = none := by
  obtain ⟨ok, -, -, m, I, Q, hi, -, -⟩ := hs
  obtain ⟨h₁, l, h₂, F₂, found, put, -, -, grows₂⟩ := put_queueAt ok (hi.each k hk).1 t
  have lookup : indexLookup sch h ind k = some (m k) := lookup_stores hi.stores hk
  have stores := stores_grows ok hi.stores grows₂ (hi.each k hk).2.symm
  have insert := insert_none grows₂.ok stores hk long l
  simp only [indexScanTuple, project, lookup, found, put, insert, Option.bind_eq_bind,
    Option.bind_some, Option.bind_none]

/-! ### The scan -/

theorem tuplesWith_snoc {e : BTree.Key × Value} (key : tupleKey h rel attrs e.2 = some k) :
    tuplesWith h rel attrs (done ++ [e]) =
      Function.update (tuplesWith h rel attrs done) k (tuplesWith h rel attrs done k ++ [e.2]) := by
  funext k'
  unfold tuplesWith
  rw [List.filter_append, List.map_append]
  by_cases same : k' = k
  · subst same
    rw [Function.update_self, List.filter_cons_of_pos (by simp [key])]
    rfl
  · have other : ¬ k = k' := Ne.symm same
    rw [Function.update_of_ne same, List.filter_cons_of_neg (by simp [key, other]), List.filter_nil,
      List.map_nil, List.append_nil]

/-- What the loop does with the entry `e`. -/
theorem indexScanLoop_cons (stored : Stored h₀ rel entries)
    (of : ∀ a ∈ attrs, AttributeOf rel.attrs a) (schema : getSchema attrs = some sch)
    {e : BTree.Key × Value} (all : entries = done ++ e :: rest) (at_ : At rel.pkIndex c done.length)
    (hs : Scanned h₀ sch h ind queues) :
    ∃ c' k, At rel.pkIndex c' (done ++ [e]).length ∧ getProjection h rel.attrs e.2 attrs = some k ∧
      tupleKey h₀ rel attrs e.2 = some k ∧ sch.Accepts k ∧
      (k.Fits ↔ StringsFit rel.attrs (wordsAt h₀ e.2) attrs) ∧
      ∀ fuel, indexScanLoop rel attrs sch ind (fuel + 1) h c =
        (indexScanTuple rel attrs sch ind h e.2).bind fun h =>
          indexScanLoop rel attrs sch ind fuel h c' := by
  have here : entries[done.length]? = some e := by
    rw [all, List.getElem?_append_right (Nat.le_refl _), Nat.sub_self]
    rfl
  obtain ⟨c', next, at'⟩ := seqScanNext_at stored.leaves at_ here
  obtain ⟨words, tuple, -⟩ := stored.tuples e (List.mem_of_getElem? here)
  have old : e.2 < h₀.next := by
    by_contra late
    have free := stored.ok.free e.2 (Nat.le_of_not_lt late)
    rw [tuple.obj] at free
    cases free
  have now : TupleAt h rel.attrs e.2 words :=
    ⟨tuple.live, (hs.same e.2 old).trans tuple.obj, tuple.domains⟩
  obtain ⟨k, get, project, accepts⟩ := getProjection_tuple now of schema
  have position : (done ++ [e]).length = done.length + 1 := by simp
  refine ⟨c', k, position ▸ at', get, ?_, accepts, ?_, fun fuel => ?_⟩
  · rw [tupleKey, tuple.obj]
    exact project
  · rw [wordsAt_tuple tuple]
    exact projection_fits project
  · simp only [indexScanLoop, next, Option.bind_eq_bind, Option.bind_some, if_neg tuple.live]

/-- The tuples of the entries not yet scanned have gone into their queues. -/
theorem indexScanLoop_scanned (stored : Stored h₀ rel entries)
    (of : ∀ a ∈ attrs, AttributeOf rel.attrs a) (schema : getSchema attrs = some sch) {fuel : Nat}
    (all : entries = done ++ rest) (at_ : At rel.pkIndex c done.length)
    (hs : Scanned h₀ sch h ind (tuplesWith h₀ rel attrs done))
    (run : indexScanLoop rel attrs sch ind fuel h c = some h') :
    Scanned h₀ sch h' ind (tuplesWith h₀ rel attrs entries) ∧
      ∀ e ∈ rest, StringsFit rel.attrs (wordsAt h₀ e.2) attrs := by
  induction rest generalizing fuel done h c with
  | nil =>
    cases fuel with
    | zero => cases run
    | succ fuel =>
      rw [List.append_nil] at all
      subst all
      have last := seqScanNext_end stored.leaves at_
      simp only [indexScanLoop, last, Option.bind_eq_bind, Option.bind_some, if_true] at run
      obtain rfl : h = h' := Option.some.inj run
      exact ⟨hs, fun _ no => absurd no List.not_mem_nil⟩
  | cons e rest ih =>
    cases fuel with
    | zero => cases run
    | succ fuel =>
      obtain ⟨c', k, at', get, key, accepts, fits, step⟩ :=
        indexScanLoop_cons stored of schema all at_ hs
      rw [step] at run
      by_cases short : k.Fits
      · obtain ⟨h₁, put, hs₁⟩ := scanned_tuple hs accepts short get
        rw [put, Option.bind_some] at run
        rw [← tuplesWith_snoc key] at hs₁
        obtain ⟨final, later⟩ := ih (by rw [all]; simp) at' hs₁ run
        exact ⟨final, List.forall_mem_cons.mpr ⟨fits.mp short, later⟩⟩
      · rw [indexScanTuple_none hs accepts short get] at run
        cases run

theorem indexScanLoop_some (stored : Stored h₀ rel entries)
    (of : ∀ a ∈ attrs, AttributeOf rel.attrs a) (schema : getSchema attrs = some sch) {fuel : Nat}
    (all : entries = done ++ rest) (at_ : At rel.pkIndex c done.length)
    (hs : Scanned h₀ sch h ind (tuplesWith h₀ rel attrs done))
    (short : ∀ e ∈ rest, StringsFit rel.attrs (wordsAt h₀ e.2) attrs) (enough : rest.length < fuel) :
    ∃ h', indexScanLoop rel attrs sch ind fuel h c = some h' := by
  induction rest generalizing fuel done h c with
  | nil =>
    obtain ⟨fuel, rfl⟩ := Nat.exists_eq_succ_of_ne_zero (Nat.ne_of_gt enough)
    rw [List.append_nil] at all
    subst all
    have last := seqScanNext_end stored.leaves at_
    refine ⟨h, ?_⟩
    simp only [indexScanLoop, last, Option.bind_eq_bind, Option.bind_some, if_true]
    rfl
  | cons e rest ih =>
    obtain ⟨fuel, rfl⟩ := Nat.exists_eq_succ_of_ne_zero (Nat.ne_of_gt (Nat.zero_lt_of_lt enough))
    obtain ⟨first, later⟩ := List.forall_mem_cons.mp short
    obtain ⟨c', k, at', get, key, accepts, fits, step⟩ :=
      indexScanLoop_cons stored of schema all at_ hs
    obtain ⟨h₁, put, hs₁⟩ := scanned_tuple hs accepts (fits.mpr first) get
    rw [← tuplesWith_snoc key] at hs₁
    obtain ⟨h', run⟩ := ih (by rw [all]; simp) at' hs₁ later (Nat.lt_of_succ_lt_succ enough)
    exact ⟨h', by rw [step, put, Option.bind_some, run]⟩

/-- What a scan that returns has built, and that it could copy all its keys. -/
theorem indexScan_scanned (stored : Stored h rel entries)
    (of : ∀ a ∈ attrs, AttributeOf rel.attrs a) {fuel : Nat}
    (scan : indexScan fuel h rel attrs = some (h', ind)) :
    ∃ sch, getSchema attrs = some sch ∧ Scanned h sch h' ind (tuplesWith h rel attrs entries) ∧
      ∀ e ∈ entries, StringsFit rel.attrs (wordsAt h e.2) attrs := by
  obtain ⟨sch, schema, scan⟩ := Option.bind_eq_some_iff.mp scan
  obtain ⟨-, c, init, at_⟩ := seqScanInit_at stored.built stored.leaves
  simp only [init, Option.bind_eq_bind, Option.bind_some] at scan
  obtain ⟨h'', run, same⟩ := Option.bind_eq_some_iff.mp scan
  obtain ⟨rfl, rfl⟩ := Prod.mk.inj (Option.some.inj same)
  exact ⟨sch, schema, indexScanLoop_scanned stored of schema (List.nil_append entries).symm at_
    (scanned_new stored.ok sch) run⟩

theorem indexScan_some (stored : Stored h rel entries) (filled : attrs ≠ [])
    (of : ∀ a ∈ attrs, AttributeOf rel.attrs a)
    (short : ∀ e ∈ entries, StringsFit rel.attrs (wordsAt h e.2) attrs) {fuel : Nat}
    (enough : entries.length < fuel) : ∃ h' ind, indexScan fuel h rel attrs = some (h', ind) := by
  obtain ⟨sch, schema⟩ := getSchema_some filled
  obtain ⟨-, c, init, at_⟩ := seqScanInit_at stored.built stored.leaves
  obtain ⟨h', run⟩ := indexScanLoop_some stored of schema (List.nil_append entries).symm at_
    (scanned_new stored.ok sch) short enough
  refine ⟨h', (indexNew sch h).2, ?_⟩
  simp only [indexScan, schema, init, run, Option.bind_eq_bind, Option.bind_some]
  rfl

/-- `index_scan` returns an index. For every key of its schema the lookup gives the queue of the tuples
with that projection, in the order of their primary keys, and NULL if there are none. -/
def IndexScanLaw (fuel : Nat) (h : Heap) (rel : Relation) (attrs : AttributeList)
    (entries : List (BTree.Key × Value)) : Prop :=
  ∃ sch h' ind, getSchema attrs = some sch ∧ indexScan fuel h rel attrs = some (h', ind) ∧
    (∀ x < h.next, h'.obj x = h.obj x) ∧
    ∀ k, sch.Accepts k → ∃ l, indexLookup sch h' ind k = some l ∧
      (l = NULL ↔ tuplesWith h rel attrs entries k = []) ∧
      (l ≠ NULL → ∃ F, Queue h' l (tuplesWith h rel attrs entries k) F)

/-- On a stored relation `index_scan` builds its index as long as no string of the attributes is too long
to be copied. -/
theorem indexScan_iff (stored : Stored h rel entries) (filled : attrs ≠ [])
    (of : ∀ a ∈ attrs, AttributeOf rel.attrs a) (fuel : Nat) (enough : entries.length < fuel) :
    Sorted entries ∧ (IndexScanLaw fuel h rel attrs entries ↔
      ∀ e ∈ entries, StringsFit rel.attrs (wordsAt h e.2) attrs) := by
  refine ⟨(seqScanInit_at stored.built stored.leaves).1, ?_, fun short => ?_⟩
  · rintro ⟨sch, h', ind, -, scan, -⟩
    obtain ⟨-, -, -, short⟩ := indexScan_scanned stored of scan
    exact short
  · obtain ⟨h', ind, scan⟩ := indexScan_some stored filled of short enough
    obtain ⟨sch, schema, hs, -⟩ := indexScan_scanned stored of scan
    refine ⟨sch, h', ind, schema, scan, hs.same, fun k hk => ?_⟩
    obtain ⟨m, I, Q, hi, -, fresh⟩ := hs.index
    refine ⟨m k, lookup_stores hi.stores hk, (fresh k hk).1, fun some => ?_⟩
    rcases (hi.each k hk).1 with ⟨null, -⟩ | ⟨-, queue⟩
    · exact absurd null some
    · exact ⟨Q k, queue⟩

/-- A memory that holds the tuples, from address 1 on. -/
def tupleHeap (tuples : List Tuple) : Heap where
  obj i := if i = NULL then none else tuples[i - 1]?.map .tuple
  next := tuples.length + 1

theorem tupleHeap_ok (tuples : List Tuple) : (tupleHeap tuples).Ok := by
  refine ⟨Nat.succ_pos _, fun i late => ?_⟩
  have late' : tuples.length + 1 ≤ i := late
  have behind : tuples.length ≤ i - 1 := by omega
  show (if i = NULL then none else tuples[i - 1]?.map Obj.tuple) = none
  rw [List.getElem?_eq_none behind, Option.map_none, ite_self]

/-- Two of the three tuples have the same projection on the second attribute. -/
theorem indexScan_iff_three : ∃ s, Library.run [.put 7 1, .put 3 2, .put 5 3] = some s ∧
    ∃ h' ind l, indexScan 4 (tupleHeap [[.int 7, .str [65]], [.int 3, .str [65]], [.int 5, .str []]])
        ⟨[⟨[97], .Int⟩, ⟨[98], .Str⟩], [⟨[97], .Int⟩], s.rel⟩ [⟨[98], .Str⟩] = some (h', ind) ∧
      indexLookup .stringlistSchema h' ind (.str [65]) = some l ∧ ∃ F, Queue h' l [2, 1] F := by
  have facts : (Library.run [.put 7 1, .put 3 2, .put 5 3]).bind (fun s =>
      leafEntries s.rel.nodes MAX_TREE_DEPTH s.rel.root) = some [(3, 2), (5, 3), (7, 1)] := by
    decide +kernel
  obtain ⟨s, run, leaves⟩ := Option.bind_eq_some_iff.mp facts
  have stored : Stored (tupleHeap [[.int 7, .str [65]], [.int 3, .str [65]], [.int 5, .str []]])
      ⟨[⟨[97], .Int⟩, ⟨[98], .Str⟩], [⟨[97], .Int⟩], s.rel⟩ [(3, 2), (5, 3), (7, 1)] := by
    refine ⟨tupleHeap_ok _, ⟨_, s, run, rfl⟩, leaves, ?_⟩
    simp only [List.forall_mem_cons]
    exact ⟨⟨_, ⟨by decide, rfl, rfl⟩, by decide⟩, ⟨_, ⟨by decide, rfl, rfl⟩, by decide⟩,
      ⟨_, ⟨by decide, rfl, rfl⟩, by decide⟩, fun _ none => absurd none List.not_mem_nil⟩
  obtain ⟨-, law⟩ := indexScan_iff stored (List.cons_ne_nil ⟨[98], .Str⟩ []) (by simp [AttributeOf]) 4
    (by decide)
  obtain ⟨sch, h', ind, schema, scan, -, lookup⟩ := law.mpr (by
    simp only [List.forall_mem_cons]
    refine ⟨?_, ?_, ?_, fun _ none => absurd none List.not_mem_nil⟩
    all_goals
      intro a member e word
      obtain rfl := List.mem_singleton.mp member
      obtain rfl := Option.some.inj word
      decide)
  obtain rfl := Option.some.inj schema
  obtain ⟨l, found, null, queue⟩ := lookup (.str [65]) trivial
  have tuples : tuplesWith (tupleHeap [[.int 7, .str [65]], [.int 3, .str [65]], [.int 5, .str []]])
      ⟨[⟨[97], .Int⟩, ⟨[98], .Str⟩], [⟨[97], .Int⟩], s.rel⟩ [⟨[98], .Str⟩]
      [(3, 2), (5, 3), (7, 1)] (.str [65]) = [2, 1] := rfl
  rw [tuples] at null queue
  exact ⟨s, run, h', ind, l, scan, found, queue fun no => List.cons_ne_nil _ _ (null.mp no)⟩

/-- A tuple whose string has 2^31 - 1 bytes: the scan does not return. -/
theorem indexScan_long : ∃ s, Library.run [.put 1 1] = some s ∧
    Stored (tupleHeap [[.int 1, .str (List.replicate (2 ^ 31 - 1) 97)]])
      ⟨[⟨[97], .Int⟩, ⟨[98], .Str⟩], [⟨[97], .Int⟩], s.rel⟩ [(1, 1)] ∧
    ∀ fuel, ¬IndexScanLaw fuel (tupleHeap [[.int 1, .str (List.replicate (2 ^ 31 - 1) 97)]])
      ⟨[⟨[97], .Int⟩, ⟨[98], .Str⟩], [⟨[97], .Int⟩], s.rel⟩ [⟨[98], .Str⟩] [(1, 1)] := by
  have long : (List.replicate (2 ^ 31 - 1) (97 : UInt8)).length = 2 ^ 31 - 1 := List.length_replicate
  generalize List.replicate (2 ^ 31 - 1) (97 : UInt8) = text at long
  have facts : (Library.run [.put 1 1]).bind (fun s : Library.State Value =>
      leafEntries s.rel.nodes MAX_TREE_DEPTH s.rel.root) = some [(1, 1)] := by
    decide +kernel
  obtain ⟨s, run, leaves⟩ := Option.bind_eq_some_iff.mp facts
  have stored : Stored (tupleHeap [[.int 1, .str text]])
      ⟨[⟨[97], .Int⟩, ⟨[98], .Str⟩], [⟨[97], .Int⟩], s.rel⟩ [(1, 1)] :=
    ⟨tupleHeap_ok _, ⟨_, s, run, rfl⟩, leaves,
      List.forall_mem_singleton.mpr ⟨_, ⟨by decide, rfl, rfl⟩, rfl⟩⟩
  refine ⟨s, run, stored, fun fuel => ?_⟩
  rintro ⟨-, h', ind, -, scan, -⟩
  obtain ⟨-, -, -, short⟩ := indexScan_scanned stored (by simp [AttributeOf]) scan
  have fits : text.length + 1 < 2 ^ 31 :=
    short (1, 1) List.mem_cons_self ⟨[98], .Str⟩ List.mem_cons_self (.str text) rfl
  omega

end DeepDB.DbOps
