import DeepDB.DbOps.Index

/-!
An index is a finite map from the keys of its schema. The objects of an index are its own: the inner
indices of a tuple schema lie apart from each other and from the outer one, so that an insert changes
the contents at one key only.
-/

namespace DeepDB.DbOps

variable {s a b : Schema} {h h' : Heap} {i : Nat} {m : Key → Value} {F F' : Set Nat} {k : Key}

/-! ### What an index stores -/

/-- The strings of the key are short enough to be copied. -/
def Key.Fits : Key → Prop
  | .int _ => True
  | .str s => s.length + 1 < 2 ^ 31
  | .pair a b => a.Fits ∧ b.Fits

instance Key.decidableFits : (k : Key) → Decidable k.Fits
  | .int _ => inferInstanceAs (Decidable True)
  | .str s => inferInstanceAs (Decidable (s.length + 1 < 2 ^ 31))
  | .pair a b => @instDecidableAnd _ _ (Key.decidableFits a) (Key.decidableFits b)

/-- The index at `i` has the contents `m`, kept in the objects `F`. -/
def Stores : Schema → Heap → Nat → (Key → Value) → Set Nat → Prop
  | .inthashSchema, h, i, m, F =>
    ∃ p, h.obj i = some (.inthash p) ∧ F = {i} ∧ ∀ n, m (.int n) = inthashLookup p n
  | .stringlistSchema, h, i, m, F =>
    ∃ p, h.obj i = some (.stringlist p) ∧ F = {i} ∧ (∀ c, m (.str c) = stringlistLookup p c) ∧
      ∀ c ∈ p.map Scell.key, Key.Fits (.str c)
  | .tupleSchema a b, h, i, m, F =>
    ∃ (inner : Key → Value) (Fa : Set Nat) (Fb : Key → Set Nat),
      Stores a h i inner Fa ∧
      (∀ ka kb, a.Accepts ka → inner ka = NULL → m (.pair ka kb) = NULL) ∧
      (∀ ka, a.Accepts ka → inner ka ≠ NULL →
        Stores b h (inner ka) (fun kb => m (.pair ka kb)) (Fb ka) ∧ Disjoint Fa (Fb ka)) ∧
      (∀ ka ka', a.Accepts ka → a.Accepts ka' → inner ka ≠ NULL → inner ka' ≠ NULL → ka ≠ ka' →
        Disjoint (Fb ka) (Fb ka')) ∧
      F = Fa ∪ {x | ∃ ka, a.Accepts ka ∧ inner ka ≠ NULL ∧ x ∈ Fb ka}

theorem stores_frame (hs : Stores s h i m F) (same : ∀ x ∈ F, h'.obj x = h.obj x) :
    Stores s h' i m F := by
  induction s generalizing i m F with
  | inthashSchema =>
    obtain ⟨p, obj, rfl, lookup⟩ := hs
    exact ⟨p, (same i rfl).trans obj, rfl, lookup⟩
  | stringlistSchema =>
    obtain ⟨p, obj, rfl, lookup⟩ := hs
    exact ⟨p, (same i rfl).trans obj, rfl, lookup⟩
  | tupleSchema a b iha ihb =>
    obtain ⟨inner, Fa, Fb, outer, absent, present, apart, rfl⟩ := hs
    refine ⟨inner, Fa, Fb, iha outer fun x hx => same x (Or.inl hx), absent, fun ka hka some => ?_,
      apart, rfl⟩
    obtain ⟨stores, disjoint⟩ := present ka hka some
    exact ⟨ihb stores fun x hx => same x (Or.inr ⟨ka, hka, some, hx⟩), disjoint⟩

theorem stores_lt (ok : h.Ok) (hs : Stores s h i m F) : ∀ x ∈ F, x < h.next := by
  have live : ∀ {j : Nat} {o : Obj}, h.obj j = some o → j < h.next := by
    intro j o obj
    by_contra late
    rw [ok.free j (Nat.le_of_not_lt late)] at obj
    cases obj
  induction s generalizing i m F with
  | inthashSchema =>
    obtain ⟨p, obj, rfl, -⟩ := hs
    rintro x rfl
    exact live obj
  | stringlistSchema =>
    obtain ⟨p, obj, rfl, -⟩ := hs
    rintro x rfl
    exact live obj
  | tupleSchema a b iha ihb =>
    obtain ⟨inner, Fa, Fb, outer, -, present, -, rfl⟩ := hs
    rintro x (hx | ⟨ka, hka, some, hx⟩)
    · exact iha outer x hx
    · exact ihb (present ka hka some).1 x hx

/-! ### Changes of the heap -/

/-- Of the old objects only those of `F` have changed, and `F'` adds new ones to them. -/
structure Grows (h h' : Heap) (F F' : Set Nat) : Prop where
  ok : h'.Ok
  next : h.next ≤ h'.next
  same : ∀ x, x ∉ F → x < h.next → h'.obj x = h.obj x
  sub : F ⊆ F'
  fresh : ∀ x ∈ F', x ∈ F ∨ h.next ≤ x

theorem grows_trans {h₁ h₂ : Heap} {F₁ F₂ : Set Nat} (first : Grows h h₁ F F₁)
    (second : Grows h₁ h₂ F₁ F₂) : Grows h h₂ F F₂ where
  ok := second.ok
  next := first.next.trans second.next
  same := by
    intro x hx old
    have out : x ∉ F₁ := fun hx₁ => (first.fresh x hx₁).elim hx fun late => by omega
    exact (second.same x out (Nat.lt_of_lt_of_le old first.next)).trans (first.same x hx old)
  sub := first.sub.trans second.sub
  fresh := by
    intro x hx
    rcases second.fresh x hx with hx | late
    · exact first.fresh x hx
    · exact Or.inr (first.next.trans late)

/-- A change of some of the objects is a change of all of them. -/
theorem grows_mono {G : Set Nat} (hg : Grows h h' F F') : Grows h h' (F ∪ G) (F' ∪ G) where
  ok := hg.ok
  next := hg.next
  same := fun x hx old => hg.same x (fun hF => hx (Or.inl hF)) old
  sub := Set.union_subset_union_left G hg.sub
  fresh := by
    rintro x (hx | hx)
    · exact (hg.fresh x hx).imp_left Or.inl
    · exact Or.inl (Or.inr hx)

theorem grows_disjoint {G : Set Nat} (hg : Grows h h' F F') (apart : Disjoint F G)
    (old : ∀ x ∈ G, x < h.next) : Disjoint F' G := by
  rw [Set.disjoint_left] at apart ⊢
  intro x hx hG
  rcases hg.fresh x hx with hx | late
  · exact apart hx hG
  · exact absurd (old x hG) (Nat.not_lt.mpr late)

theorem stores_grows {G : Set Nat} (ok : h.Ok) (hs : Stores s h i m F) (hg : Grows h h' G F')
    (apart : Disjoint G F) : Stores s h' i m F := by
  refine stores_frame hs fun x hx => hg.same x (fun hG => ?_) (stores_lt ok hs x hx)
  exact Set.disjoint_left.mp apart hG hx

theorem grows_set (ok : h.Ok) {o : Obj} (live : i < h.next) : Grows h (h.set i o) {i} {i} where
  ok := ⟨ok.pos, fun x late => (Function.update_of_ne (by
    change h.next ≤ x at late
    omega) _ _).trans (ok.free x late)⟩
  next := Nat.le_refl _
  same := fun x hx _ => Function.update_of_ne hx _ _
  sub := Set.Subset.rfl
  fresh := fun _ hx => Or.inl hx

theorem grows_alloc (ok : h.Ok) (o : Obj) : Grows h (h.alloc o).1 ∅ {h.next} where
  ok := ⟨Nat.lt_succ_of_lt ok.pos, fun x late => (Function.update_of_ne (by
    change h.next + 1 ≤ x at late
    omega) _ _).trans (ok.free x (by
    change h.next + 1 ≤ x at late
    omega))⟩
  next := Nat.le_succ _
  same := fun x _ old => Function.update_of_ne (Nat.ne_of_lt old) _ _
  sub := Set.empty_subset _
  fresh := by
    rintro x rfl
    exact Or.inr (Nat.le_refl _)

/-! ### The tables -/

/-- The lookup in one bucket. -/
def bucketLookup (l : List Icell) (key : Nat) : Value := inthashLookup (fun _ => l) key

theorem bucketLookup_cons (q : Icell) (l : List Icell) (x : Nat) :
    bucketLookup (q :: l) x = if q.key = x then q.value else bucketLookup l x := by
  by_cases found : q.key = x
  · simp [bucketLookup, inthashLookup, found]
  · simp [bucketLookup, inthashLookup, found]

theorem inthash_insertList (l : List Icell) (n : Nat) (v : Value) :
    ∃ l' i q, inthashInsertList l n = (l', i) ∧ l'[i]? = some q ∧ q.value = bucketLookup l n ∧
      ∀ x, bucketLookup (l'.set i { q with value := v }) x =
        if x = n then v else bucketLookup l x := by
  induction l with
  | nil =>
    refine ⟨_, _, _, rfl, rfl, rfl, fun x => ?_⟩
    rw [List.set_cons_zero, bucketLookup_cons]
    exact if_congr eq_comm rfl rfl
  | cons p r ih =>
    by_cases found : p.key = n
    · refine ⟨p :: r, 0, p, by rw [inthashInsertList, if_pos found], rfl, ?_, fun x => ?_⟩
      · rw [bucketLookup_cons, if_pos found]
      · rw [List.set_cons_zero, bucketLookup_cons, bucketLookup_cons, found]
        by_cases same : n = x
        · rw [if_pos same, if_pos same.symm]
        · rw [if_neg same, if_neg (Ne.symm same), if_neg same]
    · obtain ⟨r', i, q, insert, cell, old, lookup⟩ := ih
      refine ⟨p :: r', i + 1, q, by rw [inthashInsertList, if_neg found, insert], cell, ?_,
        fun x => ?_⟩
      · rw [bucketLookup_cons, if_neg found, old]
      · rw [List.set_cons_succ, bucketLookup_cons, bucketLookup_cons, lookup x]
        by_cases same : p.key = x
        · have other : x ≠ n := fun h => found (same.trans h)
          rw [if_pos same, if_pos same, if_neg other]
        · rw [if_neg same, if_neg same]

theorem inthash_insert (p : Nat → List Icell) (n : Nat) (v : Value) :
    ∃ p', inthashInsert p n v = some (p', inthashLookup p n) ∧
      ∀ x, inthashLookup p' x = if x = n then v else inthashLookup p x := by
  obtain ⟨r, i, q, insert, cell, old, lookup⟩ := inthash_insertList (p (n % N)) n v
  refine ⟨Function.update p (n % N) (r.set i { q with value := v }), ?_, fun x => ?_⟩
  · rw [inthashInsert, insert]
    simp only [cell, bind, Option.bind, pure, old]
    rfl
  · by_cases bucket : x % N = n % N
    · have same := lookup x
      unfold bucketLookup inthashLookup at same
      unfold inthashLookup
      rw [bucket, Function.update_self]
      exact same
    · have other : x ≠ n := fun same => bucket (by rw [same])
      rw [if_neg other, inthashLookup, inthashLookup, Function.update_of_ne bucket]

theorem copyString_eq (s : CString) :
    copyString s = if s.length + 1 < 2 ^ 31 then some s else none := by
  unfold copyString
  have low : -2 ^ 31 ≤ Int.bmod (s.length + 1) (2 ^ 32) := Int.le_bmod (by decide)
  have high : Int.bmod (s.length + 1) (2 ^ 32) < 2 ^ 31 := Int.bmod_lt (by decide)
  by_cases fits : s.length + 1 < 2 ^ 31
  · have same : Int.bmod (s.length + 1) (2 ^ 32) = s.length + 1 :=
      Int.bmod_eq_of_le (by omega) (by omega)
    rw [same, if_neg (by omega), if_neg (by omega), if_pos fits]
  · rw [if_neg fits]
    by_cases negative : Int.bmod (s.length + 1) (2 ^ 32) < 0
    · rw [if_pos negative]
    · rw [if_neg negative, if_pos (by omega)]

/-- The list in which the cell of a key, a new one if there is none, has the value. -/
def setCell : List Scell → CString → Value → List Scell
  | [], key, value => [⟨key, value⟩]
  | q :: r, key, value => if q.key = key then { q with value } :: r else q :: setCell r key value

theorem keys_setCell (p : List Scell) (k : CString) (v : Value) :
    (setCell p k v).map Scell.key =
      if k ∈ p.map Scell.key then p.map Scell.key else p.map Scell.key ++ [k] := by
  induction p with
  | nil => rfl
  | cons q r ih =>
    rw [setCell]
    by_cases here : q.key = k
    · simp [here]
    · rw [if_neg here]
      simp only [List.map_cons, List.mem_cons, Ne.symm here, false_or]
      rw [ih]
      split
      · rfl
      · rfl

theorem find_setCell (p : List Scell) (k : CString) (v : Value) (x : CString) :
    (setCell p k v).find? (fun q => q.key = x) =
      if x = k then some ⟨k, v⟩ else p.find? fun q => q.key = x := by
  induction p with
  | nil =>
    by_cases same : k = x
    · simp [setCell, same]
    · simp [setCell, same, Ne.symm same]
  | cons q r ih =>
    rw [setCell]
    by_cases here : q.key = k
    · subst here
      by_cases same : q.key = x
      · simp [same]
      · simp [same, Ne.symm same]
    · rw [if_neg here]
      by_cases same : q.key = x
      · have other : x ≠ k := fun no => here (same.trans no)
        simp [same, other]
      · simp only [List.find?_cons, same, decide_false]
        exact ih

theorem lookup_setCell (p : List Scell) (k : CString) (v : Value) (x : CString) :
    stringlistLookup (setCell p k v) x = if x = k then v else stringlistLookup p x := by
  unfold stringlistLookup
  rw [find_setCell]
  by_cases same : x = k
  · rw [if_pos same, if_pos same]
  · rw [if_neg same, if_neg same]

/-- Only the string of a new cell is copied. -/
theorem stringlist_insert (p : List Scell) {c : CString} (v : Value)
    (copied : c ∈ p.map Scell.key ∨ Key.Fits (.str c)) :
    stringlistInsert p c v = some (setCell p c v, stringlistLookup p c) := by
  induction p with
  | nil =>
    have fits : c.length + 1 < 2 ^ 31 := copied.resolve_left List.not_mem_nil
    rw [stringlistInsert, newScell, copyString_eq, if_pos fits]
    rfl
  | cons q r ih =>
    by_cases found : q.key = c
    · simp [stringlistInsert, stringlistLookup, setCell, found]
    · have later := ih (copied.imp_left fun member =>
        (List.mem_cons.mp member).resolve_left (Ne.symm found))
      rw [stringlistInsert, if_neg found, later]
      simp [stringlistLookup, setCell, found]

theorem stringlist_insert_none {p : List Scell} {c : CString} (new : c ∉ p.map Scell.key)
    (long : ¬Key.Fits (.str c)) (v : Value) : stringlistInsert p c v = none := by
  induction p with
  | nil =>
    have long' : ¬c.length + 1 < 2 ^ 31 := long
    rw [stringlistInsert, newScell, copyString_eq, if_neg long']
    rfl
  | cons q r ih =>
    have found : q.key ≠ c := fun same => new (List.mem_cons.mpr (Or.inl same.symm))
    rw [stringlistInsert, if_neg found, ih fun member => new (List.mem_cons_of_mem _ member)]
    rfl

theorem stringlistInsert_some {p p' : List Scell} {c : CString} {v old : Value}
    (insert : stringlistInsert p c v = some (p', old)) : p' = setCell p c v := by
  by_cases copied : c ∈ p.map Scell.key ∨ Key.Fits (.str c)
  · rw [stringlist_insert p v copied] at insert
    exact (Prod.mk.inj (Option.some.inj insert)).1.symm
  · obtain ⟨new, long⟩ := not_or.mp copied
    rw [stringlist_insert_none new long v] at insert
    cases insert

/-! ### The index functions -/

theorem new_stores (s : Schema) (ok : h.Ok) :
    ∃ h' i F, indexNew s h = (h', i) ∧ i ≠ NULL ∧ Stores s h' i (fun _ => NULL) F ∧
      Grows h h' ∅ F := by
  induction s with
  | inthashSchema =>
    exact ⟨_, h.next, {h.next}, rfl, Nat.ne_of_gt ok.pos,
      ⟨fun _ => [], Function.update_self _ _ _, rfl, fun _ => rfl⟩, grows_alloc ok _⟩
  | stringlistSchema =>
    exact ⟨_, h.next, {h.next}, rfl, Nat.ne_of_gt ok.pos,
      ⟨[], Function.update_self _ _ _, rfl, fun _ => rfl, fun _ no => absurd no List.not_mem_nil⟩,
      grows_alloc ok _⟩
  | tupleSchema a b iha _ =>
    obtain ⟨h', i, F, new, null, stores, grows⟩ := iha
    refine ⟨h', i, F, new, null, ⟨fun _ => NULL, F, fun _ => ∅, stores, fun _ _ _ _ => rfl,
      fun _ _ some => absurd rfl some, fun _ _ _ _ some => absurd rfl some, ?_⟩, grows⟩
    ext x
    simp

theorem lookup_stores (hs : Stores s h i m F) (hk : s.Accepts k) :
    indexLookup s h i k = some (m k) := by
  induction s generalizing i m F k with
  | inthashSchema =>
    obtain ⟨p, obj, -, lookup⟩ := hs
    cases k with
    | int n => simp only [indexLookup, Schema.mtable, inthashMtable, obj, lookup]
    | str c => exact hk.elim
    | pair ka kb => exact hk.elim
  | stringlistSchema =>
    obtain ⟨p, obj, -, lookup, -⟩ := hs
    cases k with
    | str c => simp only [indexLookup, Schema.mtable, stringlistMtable, obj, lookup]
    | int n => exact hk.elim
    | pair ka kb => exact hk.elim
  | tupleSchema a b iha ihb =>
    obtain ⟨inner, Fa, Fb, outer, absent, present, -, -⟩ := hs
    cases k with
    | int n => exact hk.elim
    | str c => exact hk.elim
    | pair ka kb =>
      have found : a.mtable.lookup h i ka = some (inner ka) := iha outer hk.1
      show (a.mtable.lookup h i ka).bind _ = _
      rw [found, Option.bind_some]
      by_cases null : inner ka = NULL
      · rw [if_pos null, absent ka kb hk.1 null]
      · rw [if_neg null]
        exact ihb (present ka hk.1 null).1 hk.2

/-- No key with a string that cannot be copied is stored. -/
theorem stores_absent (hs : Stores s h i m F) (hk : s.Accepts k) (long : ¬k.Fits) : m k = NULL := by
  induction s generalizing i m F k with
  | inthashSchema =>
    cases k with
    | int n => exact absurd trivial long
    | str c => exact hk.elim
    | pair ka kb => exact hk.elim
  | stringlistSchema =>
    obtain ⟨p, -, -, lookup, short⟩ := hs
    cases k with
    | int n => exact hk.elim
    | pair ka kb => exact hk.elim
    | str c =>
      have none : p.find? (fun q => q.key = c) = none := by
        apply List.find?_eq_none.mpr
        intro q member same
        exact long (of_decide_eq_true same ▸ short q.key (List.mem_map_of_mem member))
      rw [lookup c, stringlistLookup, none]
  | tupleSchema a b iha ihb =>
    obtain ⟨inner, Fa, Fb, outer, absent, present, -, -⟩ := hs
    cases k with
    | int n => exact hk.elim
    | str c => exact hk.elim
    | pair ka kb =>
      by_cases null : inner ka = NULL
      · exact absent ka kb hk.1 null
      · have first : ka.Fits := by
          by_contra no
          exact null (iha outer hk.1 no)
        have second : ¬kb.Fits := fun second => long ⟨first, second⟩
        have inner_absent := ihb (present ka hk.1 null).1 hk.2 second
        exact inner_absent

section
variable {a b : SchemaMethods} {ka : Key}

/-- `tuple_insert_method` when there is no inner index. -/
theorem tuple_insert_new {h₁ h₂ : Heap} {j : Nat} {old : Value}
    (found : a.lookup h i ka = some NULL) (new : b.new h = (h₁, j))
    (insert : a.insert h₁ i ka j = some (h₂, old)) (kb : Key) (v : Value) :
    (tupleMtable a b).insert h i (.pair ka kb) v = b.insert h₂ j kb v := by
  simp only [tupleMtable, found, new, insert, bind, Option.bind, if_true]

theorem tuple_insert_none {h₁ : Heap} {j : Nat} (found : a.lookup h i ka = some NULL)
    (new : b.new h = (h₁, j)) (insert : a.insert h₁ i ka j = none) (kb : Key) (v : Value) :
    (tupleMtable a b).insert h i (.pair ka kb) v = none := by
  simp only [tupleMtable, found, new, insert, bind, Option.bind, if_true]

theorem tuple_insert_old {j : Nat} (found : a.lookup h i ka = some j) (some : j ≠ NULL) (kb : Key)
    (v : Value) : (tupleMtable a b).insert h i (.pair ka kb) v = b.insert h j kb v := by
  simp only [tupleMtable, found, bind, Option.bind, if_neg some]

end

theorem update_pair (m : Key → Value) (ka kb : Key) (v : Value) (ka' : Key) :
    (fun kb' => Function.update m (.pair ka kb) v (.pair ka' kb')) =
      if ka' = ka then Function.update (fun kb' => m (.pair ka kb')) kb v
      else fun kb' => m (.pair ka' kb') := by
  funext kb'
  by_cases first : ka' = ka
  · subst first
    rw [if_pos rfl]
    by_cases second : kb' = kb
    · rw [second, Function.update_self, Function.update_self]
    · rw [Function.update_of_ne second, Function.update_of_ne]
      exact fun same => second (Key.pair.inj same).2
  · rw [if_neg first, Function.update_of_ne]
    exact fun same => first (Key.pair.inj same).1

/-- The inner index of `ka` has been replaced by one with the contents of the new value. -/
theorem tuple_stores {inner : Key → Value} {Fa' : Set Nat} {Fb : Key → Set Nat} {j : Nat}
    {ka kb : Key} {v : Value} (Fb' : Set Nat)
    (outer : Stores a h' i (Function.update inner ka j) Fa')
    (absent : ∀ ka kb, a.Accepts ka → inner ka = NULL → m (.pair ka kb) = NULL)
    (others : ∀ k, a.Accepts k → k ≠ ka → inner k ≠ NULL →
      Stores b h' (inner k) (fun kb => m (.pair k kb)) (Fb k) ∧ Disjoint Fa' (Fb k) ∧
        Disjoint Fb' (Fb k))
    (apart : ∀ ka ka', a.Accepts ka → a.Accepts ka' → inner ka ≠ NULL → inner ka' ≠ NULL →
      ka ≠ ka' → Disjoint (Fb ka) (Fb ka'))
    (null : j ≠ NULL) (mine : Stores b h' j (Function.update (fun kb => m (.pair ka kb)) kb v) Fb')
    (mineApart : Disjoint Fa' Fb') :
    Stores (.tupleSchema a b) h' i (Function.update m (.pair ka kb) v)
      (Fa' ∪ {x | ∃ k, a.Accepts k ∧ Function.update inner ka j k ≠ NULL ∧
        x ∈ Function.update Fb ka Fb' k}) := by
  refine ⟨_, Fa', Function.update Fb ka Fb', outer, fun k kb' hk none => ?_, fun k hk some => ?_,
    fun k k' hk hk' some some' ne => ?_, rfl⟩
  · have other : k ≠ ka := by
      rintro rfl
      rw [Function.update_self] at none
      exact null none
    rw [Function.update_of_ne other] at none
    rw [Function.update_of_ne fun same => other (Key.pair.inj same).1]
    exact absent k kb' hk none
  · rw [update_pair]
    by_cases same : k = ka
    · subst same
      rw [Function.update_self, Function.update_self, if_pos rfl]
      exact ⟨mine, mineApart⟩
    · rw [Function.update_of_ne same] at some
      rw [Function.update_of_ne same, Function.update_of_ne same, if_neg same]
      obtain ⟨stores, left, -⟩ := others k hk same some
      exact ⟨stores, left⟩
  · by_cases same : k = ka
    · subst same
      rw [Function.update_of_ne (Ne.symm ne)] at some'
      rw [Function.update_self, Function.update_of_ne (Ne.symm ne)]
      exact (others k' hk' (Ne.symm ne) some').2.2
    · rw [Function.update_of_ne same] at some
      by_cases same' : k' = ka
      · subst same'
        rw [Function.update_self, Function.update_of_ne same]
        exact (others k hk same some).2.2.symm
      · rw [Function.update_of_ne same'] at some'
        rw [Function.update_of_ne same, Function.update_of_ne same']
        exact apart k k' hk hk' some some' ne

/-- The change of a tuple index, put together from what becomes of the outer index and of the inner
index of `ka`. -/
theorem grows_tuple {inner : Key → Value} {Fa Fa' Fb' : Set Nat} {Fb : Key → Set Nat} {j : Nat}
    {ka : Key} (ok : h'.Ok) (next : h.next ≤ h'.next) (hka : a.Accepts ka) (null : j ≠ NULL)
    (same : ∀ x, x ∉ Fa → (inner ka ≠ NULL → x ∉ Fb ka) → x < h.next → h'.obj x = h.obj x)
    (subA : Fa ⊆ Fa') (freshA : ∀ x ∈ Fa', x ∈ Fa ∨ h.next ≤ x)
    (subB : inner ka ≠ NULL → Fb ka ⊆ Fb')
    (freshB : ∀ x ∈ Fb', (inner ka ≠ NULL ∧ x ∈ Fb ka) ∨ h.next ≤ x) :
    Grows h h' (Fa ∪ {x | ∃ k, a.Accepts k ∧ inner k ≠ NULL ∧ x ∈ Fb k})
      (Fa' ∪ {x | ∃ k, a.Accepts k ∧ Function.update inner ka j k ≠ NULL ∧
        x ∈ Function.update Fb ka Fb' k}) where
  ok := ok
  next := next
  same := fun x hx old => same x (fun h => hx (Or.inl h))
    (fun some h => hx (Or.inr ⟨ka, hka, some, h⟩)) old
  sub := by
    rintro x (hx | ⟨k, hk, some, hx⟩)
    · exact Or.inl (subA hx)
    · by_cases eq : k = ka
      · subst eq
        exact Or.inr ⟨k, hk, by rwa [Function.update_self], by
          rw [Function.update_self]
          exact subB some hx⟩
      · exact Or.inr ⟨k, hk, by rwa [Function.update_of_ne eq], by rwa [Function.update_of_ne eq]⟩
  fresh := by
    rintro x (hx | ⟨k, hk, some, hx⟩)
    · exact (freshA x hx).imp_left Or.inl
    · by_cases eq : k = ka
      · subst eq
        rw [Function.update_self] at hx
        exact (freshB x hx).imp_left fun hx => Or.inr ⟨k, hk, hx⟩
      · rw [Function.update_of_ne eq] at some hx
        exact Or.inl (Or.inr ⟨k, hk, some, hx⟩)

/-- An insert of a key that can be copied returns the value before it, and the index holds what it
held with the new value. -/
def Inserts (s : Schema) : Prop :=
  ∀ {h : Heap} {i : Nat} {m : Key → Value} {F : Set Nat} {k : Key}, h.Ok → Stores s h i m F →
    s.Accepts k → k.Fits → ∀ v, ∃ h' F', indexInsert s h i k v = some (h', m k) ∧
      Stores s h' i (Function.update m k v) F' ∧ Grows h h' F F'

theorem inserts_inthash : Inserts .inthashSchema := by
  intro h i m F k ok hs hk fits v
  obtain ⟨p, obj, rfl, lookup⟩ := id hs
  cases k with
  | str c => exact hk.elim
  | pair ka kb => exact hk.elim
  | int n =>
    obtain ⟨p', insert, after⟩ := inthash_insert p n v
    refine ⟨h.set i (.inthash p'), {i}, ?_, ⟨p', Function.update_self _ _ _, rfl, fun x => ?_⟩,
      grows_set ok (stores_lt ok hs i rfl)⟩
    · simp only [indexInsert, Schema.mtable, inthashMtable, obj, insert, lookup]
      rfl
    · rw [after x, ← lookup x]
      by_cases same : x = n
      · rw [if_pos same, same, Function.update_self]
      · rw [if_neg same, Function.update_of_ne fun h => same (Key.int.inj h)]

theorem inserts_stringlist : Inserts .stringlistSchema := by
  intro h i m F k ok hs hk fits v
  obtain ⟨p, obj, rfl, lookup, short⟩ := id hs
  cases k with
  | int n => exact hk.elim
  | pair ka kb => exact hk.elim
  | str c =>
    have insert := stringlist_insert p v (Or.inr fits)
    refine ⟨h.set i (.stringlist (setCell p c v)), {i}, ?_,
      ⟨_, Function.update_self _ _ _, rfl, fun x => ?_, fun x member => ?_⟩,
      grows_set ok (stores_lt ok hs i rfl)⟩
    · simp only [indexInsert, Schema.mtable, stringlistMtable, obj, lookup, insert]
      rfl
    · rw [lookup_setCell, ← lookup x]
      by_cases same : x = c
      · rw [if_pos same, same, Function.update_self]
      · rw [if_neg same, Function.update_of_ne fun h => same (Key.str.inj h)]
    · rw [keys_setCell] at member
      split at member
      · exact short x member
      · rcases List.mem_append.mp member with old | new
        · exact short x old
        · exact List.mem_singleton.mp new ▸ fits

section
variable {ka kb : Key}

/-- There is no inner index yet: a new one is made and put into the outer one. -/
theorem inserts_new (ha : Inserts a) (hb : Inserts b) (ok : h.Ok)
    (hs : Stores (.tupleSchema a b) h i m F) (hka : a.Accepts ka) (hkb : b.Accepts kb)
    (fitsA : ka.Fits) (fitsB : kb.Fits) (found : a.mtable.lookup h i ka = some NULL) (v : Value) :
    ∃ h' F', indexInsert (.tupleSchema a b) h i (.pair ka kb) v = some (h', m (.pair ka kb)) ∧
      Stores (.tupleSchema a b) h' i (Function.update m (.pair ka kb) v) F' ∧ Grows h h' F F' := by
  have old := stores_lt ok hs
  obtain ⟨inner, Fa, Fb, outer, absent, present, apart, rfl⟩ := id hs
  have null : inner ka = NULL := Option.some.inj ((lookup_stores outer hka).symm.trans found)
  have oldA : ∀ x ∈ Fa, x < h.next := fun x hx => old x (Or.inl hx)
  have oldB : ∀ k, a.Accepts k → inner k ≠ NULL → ∀ x ∈ Fb k, x < h.next :=
    fun k hk some x hx => old x (Or.inr ⟨k, hk, some, hx⟩)
  obtain ⟨h₁, j, F₀, new, pos, empty, grows₁⟩ := new_stores b ok
  have late : ∀ x ∈ F₀, h.next ≤ x := fun x hx => (grows₁.fresh x hx).resolve_left id
  have apart₀ : ∀ G : Set Nat, (∀ x ∈ G, x < h.next) → Disjoint G F₀ := by
    intro G hG
    rw [Set.disjoint_left]
    exact fun x hx hx₀ => absurd (hG x hx) (Nat.not_lt.mpr (late x hx₀))
  have outer₁ := stores_grows ok outer grows₁ (Set.empty_disjoint _)
  obtain ⟨h₂, Fa', insertA, outer₂, grows₂⟩ := ha grows₁.ok outer₁ hka fitsA j
  have empty₂ := stores_grows grows₁.ok empty grows₂ (apart₀ Fa oldA)
  obtain ⟨h₃, Fb', insertB, mine, grows₃⟩ := hb grows₂.ok empty₂ hkb fitsB v
  have old₂ : ∀ x, x < h.next → x < h₂.next := fun x hx =>
    Nat.lt_of_lt_of_le hx (grows₁.next.trans grows₂.next)
  have mineOld : ∀ G : Set Nat, (∀ x ∈ G, x < h.next) → Disjoint Fb' G := fun G hG =>
    grows_disjoint grows₃ (apart₀ G hG).symm fun x hx => old₂ x (hG x hx)
  have mineApart : Disjoint Fa' F₀ :=
    grows_disjoint grows₂ (apart₀ Fa oldA) (stores_lt grows₁.ok empty)
  refine ⟨h₃, _, ?_, tuple_stores Fb' (stores_grows grows₂.ok outer₂ grows₃ mineApart.symm)
    absent (fun k hk ne some => ?_) apart pos ?_ ?_, ?_⟩
  · rw [absent ka kb hka null]
    exact (tuple_insert_new found new insertA kb v).trans insertB
  · obtain ⟨stores, left⟩ := present k hk some
    have stores₁ := stores_grows ok stores grows₁ (Set.empty_disjoint _)
    have stores₂ := stores_grows grows₁.ok stores₁ grows₂ left
    have oldK := oldB k hk some
    exact ⟨stores_grows grows₂.ok stores₂ grows₃ (apart₀ _ oldK).symm,
      grows_disjoint grows₂ left fun x hx => Nat.lt_of_lt_of_le (oldK x hx) grows₁.next,
      mineOld _ oldK⟩
  · have blank : (fun kb => m (.pair ka kb)) = fun _ => NULL := by
      funext kb
      exact absent ka kb hka null
    rw [blank]
    exact mine
  · exact (grows_disjoint grows₃ mineApart.symm
      (stores_lt grows₂.ok outer₂)).symm
  · refine grows_tuple grows₃.ok (grows₁.next.trans (grows₂.next.trans grows₃.next)) hka pos
      (fun x outA _ hlt => ?_) grows₂.sub (fun x hx => ?_) (fun some => absurd null some)
      fun x hx => Or.inr ?_
    · have out₀ : x ∉ F₀ := fun h => absurd hlt (Nat.not_lt.mpr (late x h))
      exact (grows₃.same x out₀ (old₂ x hlt)).trans ((grows₂.same x outA
        (Nat.lt_of_lt_of_le hlt grows₁.next)).trans (grows₁.same x id hlt))
    · exact (grows₂.fresh x hx).imp_right grows₁.next.trans
    · rcases grows₃.fresh x hx with hx | hx
      · exact late x hx
      · exact grows₁.next.trans (grows₂.next.trans hx)

/-- There is an inner index, which the outer one goes on to hold. -/
theorem inserts_old (hb : Inserts b) (ok : h.Ok) (hs : Stores (.tupleSchema a b) h i m F)
    (hka : a.Accepts ka) (hkb : b.Accepts kb) (fitsB : kb.Fits) {j : Nat}
    (found : a.mtable.lookup h i ka = some j) (filled : j ≠ NULL) (v : Value) :
    ∃ h' F', indexInsert (.tupleSchema a b) h i (.pair ka kb) v = some (h', m (.pair ka kb)) ∧
      Stores (.tupleSchema a b) h' i (Function.update m (.pair ka kb) v) F' ∧ Grows h h' F F' := by
  have live := stores_lt ok hs
  obtain ⟨inner, Fa, Fb, outer, absent, present, apart, rfl⟩ := id hs
  obtain rfl : inner ka = j := Option.some.inj ((lookup_stores outer hka).symm.trans found)
  obtain ⟨stores, left⟩ := present ka hka filled
  obtain ⟨h', Fb', insertB, mine, grows⟩ := hb ok stores hkb fitsB v
  have outer' := stores_grows ok outer grows left.symm
  rw [← Function.update_eq_self ka inner] at outer'
  refine ⟨h', _, ?_, tuple_stores Fb' outer' absent (fun k hk ne full => ?_) apart filled mine
    ?_, ?_⟩
  · exact (tuple_insert_old found filled kb v).trans insertB
  · obtain ⟨storesK, leftK⟩ := present k hk full
    have apartK := apart ka k hka hk filled full (Ne.symm ne)
    exact ⟨stores_grows ok storesK grows apartK, leftK,
      grows_disjoint grows apartK fun x hx => live x (Or.inr ⟨k, hk, full, hx⟩)⟩
  · exact (grows_disjoint grows left.symm fun x hx => live x (Or.inl hx)).symm
  · exact grows_tuple grows.ok grows.next hka filled (fun x _ out => grows.same x (out filled))
      Set.Subset.rfl (fun _ hx => Or.inl hx) (fun _ => grows.sub)
      fun x hx => (grows.fresh x hx).imp_left fun hx => ⟨filled, hx⟩

end

theorem inserts_tuple (ha : Inserts a) (hb : Inserts b) : Inserts (.tupleSchema a b) := by
  intro h i m F k ok hs hk fits v
  cases k with
  | int n => exact hk.elim
  | str c => exact hk.elim
  | pair ka kb =>
    obtain ⟨inner, Fa, Fb, outer, -⟩ := id hs
    have found : a.mtable.lookup h i ka = some (inner ka) := lookup_stores outer hk.1
    by_cases null : inner ka = NULL
    · rw [null] at found
      exact inserts_new ha hb ok hs hk.1 hk.2 fits.1 fits.2 found v
    · exact inserts_old hb ok hs hk.1 hk.2 fits.2 found null v

theorem insert_stores : Inserts s := by
  induction s with
  | inthashSchema => exact inserts_inthash
  | stringlistSchema => exact inserts_stringlist
  | tupleSchema a b iha ihb => exact inserts_tuple iha ihb

/-- The insert of a key with a string that cannot be copied comes to the copy: the string is new. -/
theorem insert_none (ok : h.Ok) (hs : Stores s h i m F) (hk : s.Accepts k) (long : ¬k.Fits)
    (v : Value) : indexInsert s h i k v = none := by
  induction s generalizing h i m F k v with
  | inthashSchema =>
    cases k with
    | int n => exact absurd trivial long
    | str c => exact hk.elim
    | pair ka kb => exact hk.elim
  | stringlistSchema =>
    obtain ⟨p, obj, -, -, short⟩ := hs
    cases k with
    | int n => exact hk.elim
    | pair ka kb => exact hk.elim
    | str c =>
      have none := stringlist_insert_none (fun member => long (short c member)) long v
      simp only [indexInsert, Schema.mtable, stringlistMtable, obj, none]
      rfl
  | tupleSchema a b iha ihb =>
    have old := stores_lt ok hs
    obtain ⟨inner, Fa, Fb, outer, -, present, -, rfl⟩ := hs
    cases k with
    | int n => exact hk.elim
    | str c => exact hk.elim
    | pair ka kb =>
      have found : a.mtable.lookup h i ka = some (inner ka) := lookup_stores outer hk.1
      by_cases null : inner ka = NULL
      · rw [null] at found
        obtain ⟨h₁, j, F₀, new, -, empty, grows₁⟩ := new_stores b ok
        have outer₁ := stores_grows ok outer grows₁ (Set.empty_disjoint _)
        by_cases first : ka.Fits
        · obtain ⟨h₂, Fa', insertA, outer₂, grows₂⟩ := insert_stores grows₁.ok outer₁ hk.1 first j
          have apart : Disjoint Fa F₀ := by
            rw [Set.disjoint_left]
            intro x hx hx₀
            have late : h.next ≤ x := (grows₁.fresh x hx₀).resolve_left id
            exact absurd (old x (Or.inl hx)) (Nat.not_lt.mpr late)
          have empty₂ := stores_grows grows₁.ok empty grows₂ apart
          exact (tuple_insert_new found new insertA kb v).trans
            (ihb grows₂.ok empty₂ hk.2 (fun second => long ⟨first, second⟩) v)
        · have none : a.mtable.insert h₁ i ka j = none := iha grows₁.ok outer₁ hk.1 first j
          exact tuple_insert_none found new none kb v
      · have first : ka.Fits := by
          by_contra no
          exact null (stores_absent outer hk.1 no)
        exact (tuple_insert_old found null kb v).trans
          (ihb ok (present ka hk.1 null).1 hk.2 (fun second => long ⟨first, second⟩) v)

/-! ### Sequences of calls -/

inductive IndexOp where
  | insert (key : Key) (val : Value)
  | lookup (key : Key)

def IndexOp.key : IndexOp → Key
  | .insert key _ => key
  | .lookup key => key

def IndexOp.exec (sch : Schema) (h : Heap) (ind : Nat) : IndexOp → Option (Heap × Value)
  | .insert key val => indexInsert sch h ind key val
  | .lookup key => (indexLookup sch h ind key).map fun v => (h, v)

/-- The results of the calls, one after another. -/
def runIndex (sch : Schema) (ind : Nat) : Heap → List IndexOp → Option (Heap × List Value)
  | h, [] => some (h, [])
  | h, op :: ops => do
    let (h, v) ← op.exec sch h ind
    let (h, vs) ← runIndex sch ind h ops
    return (h, v :: vs)

/-- The value of the last insert of `k`, NULL if there is none. -/
def lastInsert (k : Key) (ops : List IndexOp) : Value :=
  ops.foldl (fun v op => match op with
    | .insert key val => if key = k then val else v
    | .lookup _ => v) NULL

theorem lastInsert_snoc (ops : List IndexOp) (op : IndexOp) :
    (fun k => lastInsert k (ops ++ [op])) = match op with
      | .insert key val => Function.update (fun k => lastInsert k ops) key val
      | .lookup _ => fun k => lastInsert k ops := by
  funext k
  rw [lastInsert, List.foldl_append]
  cases op with
  | lookup key => rfl
  | insert key val =>
    show (if key = k then val else lastInsert k ops) =
      Function.update (fun k => lastInsert k ops) key val k
    by_cases same : key = k
    · rw [if_pos same, same, Function.update_self]
    · rw [if_neg same, Function.update_of_ne (Ne.symm same)]

/-- The strings of an insert can be copied; a lookup copies none. -/
def IndexOp.Fits : IndexOp → Prop
  | .insert key _ => key.Fits
  | .lookup _ => True

theorem exec_stores (ok : h.Ok) {before : List IndexOp}
    (hs : Stores s h i (fun k => lastInsert k before) F) {op : IndexOp} (hk : s.Accepts op.key)
    (fits : op.Fits) :
    ∃ h' F', op.exec s h i = some (h', lastInsert op.key before) ∧
      Stores s h' i (fun k => lastInsert k (before ++ [op])) F' ∧ Grows h h' F F' := by
  rw [lastInsert_snoc]
  cases op with
  | insert key val => exact insert_stores ok hs hk fits val
  | lookup key =>
    refine ⟨h, F, ?_, hs, ok, Nat.le_refl _, fun _ _ _ => rfl, Set.Subset.rfl, fun _ hx => Or.inl hx⟩
    show (indexLookup s h i key).map _ = _
    have found : indexLookup s h i key = some (lastInsert key before) := lookup_stores hs hk
    rw [found]
    rfl

theorem exec_none (ok : h.Ok) (hs : Stores s h i m F) {op : IndexOp} (hk : s.Accepts op.key)
    (long : ¬op.Fits) : op.exec s h i = none := by
  cases op with
  | insert key val => exact insert_none ok hs hk long val
  | lookup key => exact absurd trivial long

theorem run_stores (ok : h.Ok) {before ops : List IndexOp}
    (hs : Stores s h i (fun k => lastInsert k before) F) (hk : ∀ op ∈ ops, s.Accepts op.key)
    (fits : ∀ op ∈ ops, op.Fits) :
    ∃ h' F', runIndex s i h ops =
        some (h', ops.mapIdx fun n op => lastInsert op.key (before ++ ops.take n)) ∧
      Stores s h' i (fun k => lastInsert k (before ++ ops)) F' ∧ Grows h h' F F' := by
  induction ops generalizing h F before with
  | nil =>
    refine ⟨h, F, rfl, by rwa [List.append_nil], ok, Nat.le_refl _, fun _ _ _ => rfl,
      Set.Subset.rfl, fun _ hx => Or.inl hx⟩
  | cons op ops ih =>
    obtain ⟨accepts, rest⟩ := List.forall_mem_cons.mp hk
    obtain ⟨fit, fits⟩ := List.forall_mem_cons.mp fits
    obtain ⟨h₁, F₁, first, stores₁, grows₁⟩ := exec_stores ok hs accepts fit
    obtain ⟨h₂, F₂, run, stores₂, grows₂⟩ := ih grows₁.ok stores₁ rest fits
    rw [List.append_assoc] at stores₂
    refine ⟨h₂, F₂, ?_, stores₂, grows_trans grows₁ grows₂⟩
    rw [runIndex, first]
    show (runIndex s i h₁ ops).bind _ = _
    rw [run, List.mapIdx_cons, List.take_zero, List.append_nil]
    simp only [List.take_succ_cons, List.append_assoc, List.singleton_append]
    rfl

/-- The first insert that does not fit ends the run. -/
theorem run_none (ok : h.Ok) {before ops : List IndexOp}
    (hs : Stores s h i (fun k => lastInsert k before) F) (hk : ∀ op ∈ ops, s.Accepts op.key)
    (long : ∃ op ∈ ops, ¬op.Fits) : runIndex s i h ops = none := by
  induction ops generalizing h F before with
  | nil =>
    obtain ⟨op, member, -⟩ := long
    cases member
  | cons op ops ih =>
    obtain ⟨accepts, rest⟩ := List.forall_mem_cons.mp hk
    rw [runIndex]
    by_cases fits : op.Fits
    · obtain ⟨h₁, F₁, first, stores₁, grows₁⟩ := exec_stores ok hs accepts fits
      have later : ∃ op ∈ ops, ¬op.Fits := by
        obtain ⟨op', member, no⟩ := long
        rcases List.mem_cons.mp member with rfl | member
        · exact absurd fits no
        · exact ⟨op', member, no⟩
      rw [first, Option.bind_eq_bind, Option.bind_some]
      dsimp only
      rw [ih grows₁.ok stores₁ rest later]
      rfl
    · rw [exec_none ok hs accepts fits]
      rfl

/-- Every lookup has the value of the last insert of its key, every insert the value before it, and
no object that was there has changed. -/
def IndexLaw (h : Heap) (sch : Schema) (ops : List IndexOp) : Prop :=
  ∃ h', runIndex sch (indexNew sch h).2 (indexNew sch h).1 ops =
      some (h', ops.mapIdx fun n op => lastInsert op.key (ops.take n)) ∧
    ∀ x < h.next, h'.obj x = h.obj x

/-- The law holds as long as no string of an inserted key is too long to be copied. -/
theorem indexLaw_iff_fits (ok : h.Ok) (sch : Schema) (ops : List IndexOp)
    (hk : ∀ op ∈ ops, sch.Accepts op.key) : IndexLaw h sch ops ↔ ∀ op ∈ ops, op.Fits := by
  obtain ⟨h₁, i, F, new, -, stores, grows⟩ := new_stores sch ok
  have empty : Stores sch h₁ i (fun k => lastInsert k []) F := stores
  unfold IndexLaw
  rw [new]
  constructor
  · rintro ⟨h', run, -⟩
    by_contra no
    have long : ∃ op ∈ ops, ¬op.Fits := by simpa using no
    rw [run_none grows.ok empty hk long] at run
    cases run
  · intro fits
    obtain ⟨h', F', run, -, grows'⟩ := run_stores grows.ok empty hk fits
    exact ⟨h', run, fun x old => (grows_trans grows grows').same x id old⟩

/-- Two keys with the same first component, under a nested schema. -/
theorem indexLaw_iff_fits_nested :
    IndexLaw ⟨fun _ => none, 1⟩
      (.tupleSchema (.tupleSchema .inthashSchema .stringlistSchema) .inthashSchema)
      [.insert (.pair (.pair (.int 13) (.str [65])) (.int 3)) 7,
        .insert (.pair (.pair (.int 13) (.str [65])) (.int 13)) 8,
        .lookup (.pair (.pair (.int 13) (.str [65])) (.int 3)),
        .insert (.pair (.pair (.int 13) (.str [65])) (.int 3)) 9] := by
  have ok : (⟨fun _ => none, 1⟩ : Heap).Ok := ⟨by decide, fun _ _ => rfl⟩
  apply (indexLaw_iff_fits ok _ _ _).mpr
  · simp [IndexOp.Fits, Key.Fits]
  · simp [Schema.Accepts, IndexOp.key]

/-- A string of 2^31 - 1 bytes, with its NUL one more than an `int` can count. -/
theorem indexInsert_long :
    indexInsert .stringlistSchema ⟨Function.update (fun _ => none) 1 (some (.stringlist [])), 2⟩ 1
        (.str (List.replicate (2 ^ 31 - 1) 97)) 5 = none ∧
      ¬∀ (h : Heap) (sch : Schema) (ops : List IndexOp), h.Ok → (∀ op ∈ ops, sch.Accepts op.key) →
        (∀ key val, IndexOp.insert key val ∈ ops → val ≠ NULL) → IndexLaw h sch ops := by
  have long : (List.replicate (2 ^ 31 - 1) (97 : UInt8)).length = 2 ^ 31 - 1 := List.length_replicate
  generalize List.replicate (2 ^ 31 - 1) (97 : UInt8) = key at long
  have tooLong : ¬Key.Fits (.str key) := by
    show ¬key.length + 1 < 2 ^ 31
    omega
  have none := stringlist_insert_none (p := []) List.not_mem_nil tooLong 5
  have failed : indexInsert .stringlistSchema
      ⟨Function.update (fun _ => Option.none) 1 (some (.stringlist [])), 2⟩ 1 (.str key) 5 =
      Option.none := by
    simp only [indexInsert, Schema.mtable, stringlistMtable, Function.update_self, none]
    rfl
  refine ⟨failed, fun all => ?_⟩
  obtain ⟨h', run, -⟩ := all ⟨fun _ => Option.none, 1⟩ .stringlistSchema [.insert (.str key) 5]
    ⟨by decide, fun _ _ => rfl⟩ (List.forall_mem_singleton.mpr trivial) (by
      rintro _ _ member
      cases List.mem_singleton.mp member
      decide)
  have failed' : IndexOp.exec .stringlistSchema (indexNew .stringlistSchema ⟨fun _ => Option.none, 1⟩).1
      (indexNew .stringlistSchema ⟨fun _ => Option.none, 1⟩).2 (.insert (.str key) 5) =
      Option.none := failed
  rw [runIndex, failed'] at run
  cases run

end DeepDB.DbOps
