import DeepDB.DbOps.IndexLaw

/-!
The queues of `db_ops/queue2.c`, linked from `head` to `tail`. A queue and its elements are objects of
its own, also the elements it has unlinked; `fifo_get` leaves `tail` where it is.
-/

namespace DeepDB.DbOps

variable {h h' : Heap} {q p x t d dt head tail : Value} {cells : List (Value × Value)}
  {data : List Value} {F : Set Nat}

/-! ### The functions -/

def fifoNew (h : Heap) : Heap × Value := h.alloc (.fifo NULL NULL)

/-- `p->next = n`. -/
def setNext (h : Heap) (p n : Value) : Option Heap :=
  match h.obj p with
  | some (.elem data _) => some (h.set p (.elem data (some n)))
  | _ => none

def fifoPut (h : Heap) (Q p : Value) : Option Heap := do
  let h ← setNext h p NULL
  match h.obj Q with
  | some (.fifo head tail) =>
    if head = NULL then return h.set Q (.fifo p p)
    else
      let h ← setNext h tail p
      return h.set Q (.fifo head p)
  | _ => none

def fifoEmpty (h : Heap) (Q : Value) : Option Bool :=
  match h.obj Q with
  | some (.fifo head _) => some (head == NULL)
  | _ => none

def fifoGet (h : Heap) (Q : Value) : Option (Heap × Value) :=
  match h.obj Q with
  | some (.fifo head tail) =>
    match h.obj head with
    | some (.elem _ (some n)) => some (h.set Q (.fifo n tail), head)
    | _ => none
  | _ => none

def makeElem (h : Heap) (data : Value) : Heap × Value := h.alloc (.elem data none)

/-- `p->data`. -/
def elemData (h : Heap) (p : Value) : Option Value :=
  match h.obj p with
  | some (.elem data _) => some data
  | _ => none

/-! ### What a queue holds -/

/-- The elements from `p` on, each with its data. -/
inductive Elems (h : Heap) : Value → List (Value × Value) → Prop where
  | nil : Elems h NULL []
  | cons {p d n : Value} {cells : List (Value × Value)} (live : p ≠ NULL)
      (elem : h.obj p = some (.elem d (some n))) (rest : Elems h n cells) :
      Elems h p ((p, d) :: cells)

/-- The queue at `q` holds `data`, first in first, in the objects `F`. -/
def Queue (h : Heap) (q : Value) (data : List Value) (F : Set Nat) : Prop :=
  ∃ head tail cells, h.obj q = some (.fifo head tail) ∧ Elems h head cells ∧
    (cells.map Prod.fst).Nodup ∧ (∀ c ∈ cells.getLast?, tail = c.1) ∧
    cells.map Prod.snd = data ∧ q ∈ F ∧ (∀ y ∈ cells.map Prod.fst, y ∈ F) ∧
    ∀ y ∈ F, y = q ∨ ∃ d n, h.obj y = some (.elem d n)

theorem elems_frame (he : Elems h p cells)
    (same : ∀ y ∈ cells.map Prod.fst, h'.obj y = h.obj y) : Elems h' p cells := by
  induction he with
  | nil => exact Elems.nil
  | cons live elem rest ih =>
    obtain ⟨here, later⟩ := List.forall_mem_cons.mp same
    exact Elems.cons live (here.trans elem) (ih later)

theorem elems_elem (he : Elems h p cells) :
    ∀ c ∈ cells, ∃ n, h.obj c.1 = some (.elem c.2 (some n)) := by
  induction he with
  | nil => simp
  | cons live elem rest ih => exact List.forall_mem_cons.mpr ⟨⟨_, elem⟩, ih⟩

/-- No element is an object of another kind. -/
theorem elems_ne {o : Obj} (he : Elems h p cells) (obj : h.obj q = some o)
    (other : ∀ d n, o ≠ .elem d n) : ∀ y ∈ cells.map Prod.fst, y ≠ q := by
  rintro y hy rfl
  obtain ⟨c, hc, rfl⟩ := List.mem_map.mp hy
  obtain ⟨n, elem⟩ := elems_elem he c hc
  rw [obj] at elem
  exact other _ _ (Option.some.inj elem)

/-- The last element is linked to a new one. -/
theorem elems_append {init : List (Value × Value)} (he : Elems h p (init ++ [(t, dt)]))
    (same : ∀ y ∈ init.map Prod.fst, h'.obj y = h.obj y)
    (last : h'.obj t = some (.elem dt (some x))) (live : x ≠ NULL)
    (new : h'.obj x = some (.elem d (some NULL))) :
    Elems h' p (init ++ [(t, dt), (x, d)]) := by
  induction init generalizing p with
  | nil =>
    cases he with
    | cons liveT _ _ => exact Elems.cons liveT last (Elems.cons live new Elems.nil)
  | cons c init ih =>
    obtain ⟨here, later⟩ := List.forall_mem_cons.mp same
    cases he with
    | cons liveC elem rest => exact Elems.cons liveC (here.trans elem) (ih rest later)

theorem queue_frame (hq : Queue h q data F) (same : ∀ y ∈ F, h'.obj y = h.obj y) :
    Queue h' q data F := by
  obtain ⟨head, tail, cells, obj, elems, nodup, last, hdata, here, inside, own⟩ := hq
  refine ⟨head, tail, cells, (same q here).trans obj,
    elems_frame elems fun y hy => same y (inside y hy), nodup, last, hdata, here, inside,
    fun y hy => ?_⟩
  rw [same y hy]
  exact own y hy

/-- The objects of a queue are no tuples. -/
theorem queue_obj (hq : Queue h q data F) :
    ∀ y ∈ F, (∃ head tail, h.obj y = some (.fifo head tail)) ∨
      ∃ d n, h.obj y = some (.elem d n) := by
  obtain ⟨head, tail, cells, obj, -, -, -, -, -, -, own⟩ := hq
  intro y hy
  rcases own y hy with rfl | elem
  · exact Or.inl ⟨head, tail, obj⟩
  · exact Or.inr elem

theorem queue_lt (ok : h.Ok) (hq : Queue h q data F) : ∀ y ∈ F, y < h.next := by
  intro y hy
  by_contra late
  have free := ok.free y (Nat.le_of_not_lt late)
  rcases queue_obj hq y hy with ⟨head, tail, obj⟩ | ⟨d, n, obj⟩
  · rw [free] at obj
    cases obj
  · rw [free] at obj
    cases obj

theorem queue_grows {G F' : Set Nat} (ok : h.Ok) (hq : Queue h q data F) (hg : Grows h h' G F')
    (apart : Disjoint G F) : Queue h' q data F := by
  refine queue_frame hq fun y hy => hg.same y (fun hG => ?_) (queue_lt ok hq y hy)
  exact Set.disjoint_left.mp apart hG hy

/-! ### The laws -/

theorem obj_set (h : Heap) (i : Nat) (o : Obj) (y : Nat) :
    (h.set i o).obj y = if y = i then some o else h.obj y :=
  Function.update_apply _ _ _ _

theorem fifoNew_queue (ok : h.Ok) :
    (fifoNew h).2 ≠ NULL ∧ Queue (fifoNew h).1 (fifoNew h).2 [] {h.next} ∧
      Grows h (fifoNew h).1 ∅ {h.next} := by
  exact ⟨Nat.ne_of_gt ok.pos, ⟨NULL, NULL, [], Function.update_self _ _ _, Elems.nil, List.nodup_nil,
    by simp, rfl, rfl, by simp, fun y hy => Or.inl hy⟩, grows_alloc ok _⟩

theorem fifoEmpty_queue (hq : Queue h q data F) : fifoEmpty h q = some data.isEmpty := by
  obtain ⟨head, tail, cells, obj, elems, -, -, rfl, -, -, -⟩ := hq
  rw [fifoEmpty, obj]
  cases elems with
  | nil => rfl
  | cons live elem rest => simp [live]

/-- `fifo_get` takes the first element out. -/
theorem fifoGet_queue (ok : h.Ok) (hq : Queue h q (d :: data) F) :
    ∃ h' p, fifoGet h q = some (h', p) ∧ elemData h' p = some d ∧ Queue h' q data F ∧
      Grows h h' F F := by
  have old := queue_lt ok hq
  obtain ⟨head, tail, cells, obj, elems, nodup, last, hdata, here, inside, own⟩ := hq
  cases elems with
  | nil => cases hdata
  | @cons _ d' n cells live elem rest =>
    obtain ⟨rfl, rfl⟩ := List.cons.inj hdata
    obtain ⟨-, nodup⟩ := List.nodup_cons.mp nodup
    have notQueue := elems_ne (Elems.cons live elem rest) obj (by simp)
    have other : ∀ y ∈ ((head, d') :: cells).map Prod.fst,
        (h.set q (.fifo n tail)).obj y = h.obj y := by
      intro y hy
      rw [obj_set, if_neg (notQueue y hy)]
    refine ⟨h.set q (.fifo n tail), head, by rw [fifoGet, obj]; simp only [elem], ?_,
      ⟨n, tail, cells, Function.update_self _ _ _, elems_frame rest fun y hy => ?_, nodup, ?_, rfl,
        here, fun y hy => inside y (List.mem_cons_of_mem _ hy), fun y hy => ?_⟩, ?_⟩
    · rw [elemData, other head List.mem_cons_self, elem]
    · exact other y (List.mem_cons_of_mem _ hy)
    · intro c hc
      refine last c ?_
      cases cells with
      | nil => cases hc
      | cons c' cells => simpa using hc
    · by_cases same : y = q
      · exact Or.inl same
      · rw [obj_set, if_neg same]
        exact own y hy
    · have grows := grows_mono (G := F) (grows_set ok (o := .fifo n tail) (old q here))
      rwa [Set.union_eq_self_of_subset_left (Set.singleton_subset_iff.mpr here)] at grows

/-- To an empty queue. -/
theorem fifoPut_first {n : Option Value} (elem : h.obj p = some (.elem d n)) (ne : q ≠ p)
    (obj : h.obj q = some (.fifo NULL tail)) :
    fifoPut h q p = some ((h.set p (.elem d (some NULL))).set q (.fifo p p)) := by
  have here : (h.set p (.elem d (some NULL))).obj q = some (.fifo NULL tail) := by
    rw [obj_set, if_neg ne, obj]
  simp only [fifoPut, setNext, elem, here, Option.bind_eq_bind, Option.bind_some, if_true]
  rfl

/-- Behind the element at `tail`. -/
theorem fifoPut_behind {n m : Option Value} (elem : h.obj p = some (.elem d n)) (ne : q ≠ p)
    (obj : h.obj q = some (.fifo head tail)) (filled : head ≠ NULL) (apart : tail ≠ p)
    (last : h.obj tail = some (.elem dt m)) :
    fifoPut h q p = some (((h.set p (.elem d (some NULL))).set tail (.elem dt (some p))).set q
      (.fifo head p)) := by
  have here : (h.set p (.elem d (some NULL))).obj q = some (.fifo head tail) := by
    rw [obj_set, if_neg ne, obj]
  have there : (h.set p (.elem d (some NULL))).obj tail = some (.elem dt m) := by
    rw [obj_set, if_neg apart, last]
  simp only [fifoPut, setNext, elem, here, there, Option.bind_eq_bind, Option.bind_some, if_neg filled]
  rfl

theorem elem_set {i y : Nat} {n : Option Value} (is : y ≠ i → ∃ d n, h.obj y = some (.elem d n)) :
    ∃ d' n', (h.set i (.elem d n)).obj y = some (.elem d' n') := by
  rw [obj_set]
  by_cases same : y = i
  · exact ⟨d, n, if_pos same⟩
  · rw [if_neg same]
    exact is same

/-- `fifo_put` links an element at the end. -/
theorem fifoPut_queue {n : Option Value} (hq : Queue h q data F) (elem : h.obj p = some (.elem d n))
    (live : p ≠ NULL) (out : p ∉ F) :
    ∃ h', fifoPut h q p = some h' ∧ h'.next = h.next ∧ (∀ y, y ∉ F → y ≠ p → h'.obj y = h.obj y) ∧
      Queue h' q (data ++ [d]) (F ∪ {p}) := by
  obtain ⟨head, tail, cells, obj, elems, nodup, last, rfl, here, inside, own⟩ := hq
  have ne : q ≠ p := fun same => out (same ▸ here)
  have absent : p ∉ cells.map Prod.fst := fun hp => out (inside p hp)
  have notQueue := elems_ne elems obj (by simp)
  rcases List.eq_nil_or_concat cells with rfl | ⟨init, ⟨t, dt⟩, rfl⟩
  · cases elems
    refine ⟨_, fifoPut_first elem ne obj, rfl, fun y hy hp => ?_, p, p, [(p, d)], ?_,
      Elems.cons live ?_ Elems.nil, by simp, by simp, rfl, Or.inl here, by simp, fun y hy => ?_⟩
    · rw [obj_set, obj_set, if_neg fun same : y = q => hy (same ▸ here), if_neg hp]
    · rw [obj_set, if_pos rfl]
    · rw [obj_set, obj_set, if_neg ne.symm, if_pos rfl]
    · by_cases same : y = q
      · exact Or.inl same
      · rw [obj_set, if_neg same]
        exact Or.inr (elem_set fun notNew => (own y (hy.resolve_right notNew)).resolve_left same)
  · obtain rfl : tail = t := last (t, dt) (by simp)
    simp only [List.concat_eq_append] at elems nodup absent notQueue inside ⊢
    obtain ⟨m, lastElem⟩ := elems_elem elems (tail, dt) (by simp)
    have filled : head ≠ NULL := by
      rintro rfl
      cases init <;> cases elems <;> contradiction
    have inCells : tail ∈ (init ++ [(tail, dt)]).map Prod.fst := by simp
    have apart : tail ≠ p := fun same => absent (same ▸ inCells)
    have before : ∀ y ∈ init.map Prod.fst, y ≠ tail := by
      rintro y hy rfl
      rw [List.map_append, List.nodup_append] at nodup
      exact nodup.2.2 y hy y (by simp) rfl
    have longer : (init ++ [(tail, dt), (p, d)]).map Prod.fst =
        (init ++ [(tail, dt)]).map Prod.fst ++ [p] := by simp
    refine ⟨_, fifoPut_behind elem ne obj filled apart lastElem, rfl, fun y hy hp => ?_, head, p,
      init ++ [(tail, dt), (p, d)], ?_, elems_append elems (fun y hy => ?_) ?_ live ?_, ?_, by simp,
      by simp, Or.inl here, fun y hy => ?_, fun y hy => ?_⟩
    · rw [obj_set, obj_set, obj_set, if_neg fun same : y = q => hy (same ▸ here),
        if_neg fun same : y = tail => hy (same ▸ inside tail inCells), if_neg hp]
    · rw [obj_set, if_pos rfl]
    · have hy' : y ∈ (init ++ [(tail, dt)]).map Prod.fst := by
        rw [List.map_append]
        exact List.mem_append_left _ hy
      rw [obj_set, obj_set, obj_set, if_neg (notQueue y hy'), if_neg (before y hy),
        if_neg fun same : y = p => absent (same ▸ hy')]
    · rw [obj_set, obj_set, if_neg (notQueue tail inCells), if_pos rfl]
    · rw [obj_set, obj_set, obj_set, if_neg ne.symm, if_neg apart.symm, if_pos rfl]
    · rw [longer, List.nodup_append]
      refine ⟨nodup, by simp, fun y hy z hz => ?_⟩
      rintro rfl
      exact absent (List.mem_singleton.mp hz ▸ hy)
    · rw [longer] at hy
      rcases List.mem_append.mp hy with hy | hy
      · exact Or.inl (inside y hy)
      · exact Or.inr (List.mem_singleton.mp hy)
    · by_cases same : y = q
      · exact Or.inl same
      · rw [obj_set, if_neg same]
        exact Or.inr (elem_set fun _ => elem_set fun notNew =>
          (own y (hy.resolve_right notNew)).resolve_left same)

/-- A tuple is put into the queue in a new element. -/
theorem put_queue (ok : h.Ok) (hq : Queue h q data F) (d : Value) :
    ∃ h' F', fifoPut (makeElem h d).1 q (makeElem h d).2 = some h' ∧
      Queue h' q (data ++ [d]) F' ∧ Grows h h' F F' := by
  have old := queue_lt ok hq
  have alloc := grows_alloc ok (.elem d none)
  have out : h.next ∉ F := fun hF => Nat.lt_irrefl _ (old _ hF)
  have hq₁ := queue_grows ok hq alloc (Set.empty_disjoint _)
  obtain ⟨h', put, next, same, queue⟩ := fifoPut_queue hq₁ (Function.update_self _ _ _)
    (Nat.ne_of_gt ok.pos) out
  refine ⟨h', F ∪ {h.next}, put, queue, ⟨⟨?_, ?_⟩, ?_, ?_, Set.subset_union_left, ?_⟩⟩
  · rw [next]
    exact alloc.ok.pos
  · intro y late
    rw [next] at late
    have above : h.next < y := late
    rw [same y (fun hF => absurd (old y hF) (by omega)) (Nat.ne_of_gt above)]
    exact alloc.ok.free y late
  · rw [next]
    exact alloc.next
  · intro y hF before
    rw [same y hF (Nat.ne_of_lt before)]
    exact alloc.same y id before
  · rintro y (hF | rfl)
    · exact Or.inl hF
    · exact Or.inr (Nat.le_refl _)

end DeepDB.DbOps
