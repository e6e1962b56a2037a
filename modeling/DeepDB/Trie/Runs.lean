import DeepDB.Trie.MapLaw

/-!
Runs of puts from an empty trie, and the source's own invariant. After any run the trie holds the
last value of every key put. `trie_correct` asks for two entries in every layer, which a put keeps
except when it makes a pair of two suffixes that share their next slice.
-/

namespace DeepDB.Trie

open SortedAssoc

variable {Val V : Type} {N : FlattenableTable Val}

/-! ### Runs -/

/-- The tries that a sequence of puts of non-empty keys can lead to. -/
inductive Runs (N : FlattenableTable Val) : List (Key × V) → TrieOf N V → Prop
  | empty {t : TrieOf N V} (h : Empty t) : Runs N [] t
  | put {log : List (Key × V)} {t t' : TrieOf N V} {c c' : Cursor N V} {k : Key} {v : V}
      (before : Runs N log t) (hk : k ≠ []) (h : Put N k v c t c' t') :
      Runs N (log ++ [(k, v)]) t'

/-- The value of the last put of a key. -/
def lastValue (k : Key) (log : List (Key × V)) : Option V :=
  (log.reverse.find? fun e => e.1 = k).map Prod.snd

theorem lastValue_snoc (k' k : Key) (v : V) (log : List (Key × V)) :
    lastValue k' (log ++ [(k, v)]) = if k' = k then some v else lastValue k' log := by
  unfold lastValue
  rw [List.reverse_append, List.reverse_singleton, List.singleton_append, List.find?_cons]
  by_cases same : k = k'
  · simp [same]
  · simp [same, Ne.symm same]

theorem lastValue_isSome {k : Key} {log : List (Key × V)} (h : k ∈ log.map Prod.fst) :
    ∃ v, lastValue k log = some v := by
  obtain ⟨e, he, same⟩ := List.mem_map.mp h
  have found : (log.reverse.find? fun e => e.1 = k).isSome := by
    rw [List.find?_isSome]
    exact ⟨e, List.mem_reverse.mpr he, by simpa using same⟩
  obtain ⟨e', he'⟩ := Option.isSome_iff_exists.mp found
  exact ⟨e'.2, by rw [lastValue, he', Option.map_some]⟩

theorem lastValue_mem {k : Key} {v : V} {log : List (Key × V)} (last : lastValue k log = some v) :
    k ∈ log.map Prod.fst := by
  unfold lastValue at last
  obtain ⟨e, found, -⟩ := Option.map_eq_some_iff.mp last
  have same : e.1 = k := by simpa using List.find?_some found
  exact same ▸ List.mem_map_of_mem (List.mem_reverse.mp (List.mem_of_find?_eq_some found))

/-- A run keeps the invariant, and the trie holds what was put. -/
theorem runs_correct {log : List (Key × V)} {t : TrieOf N V} (runs : Runs N log t) :
    Correct N 0 1 t ∧ ∀ k, find k t = lastValue k log := by
  induction runs with
  | @empty t h =>
    obtain ⟨addr, tableform, listform⟩ := t
    obtain ⟨notable, rfl⟩ := h
    exact ⟨correct_empty notable, fun k => find_empty⟩
  | put before hk h ih =>
    obtain ⟨correct, holds⟩ := ih
    constructor
    · refine (correct_put h correct hk).mpr fun s s' _ => ?_
      unfold pairSize
      split <;> omega
    · intro k'
      rw [find_put h correct hk, lastValue_snoc, holds]

theorem runs_ne_nil {log : List (Key × V)} {t : TrieOf N V} (runs : Runs N log t) :
    [] ∉ log.map Prod.fst := by
  induction runs with
  | empty => exact List.not_mem_nil
  | put _ hk _ ih =>
    rw [List.map_append, List.mem_append]
    rintro (before | last)
    · exact ih before
    · exact hk (List.mem_singleton.mp last).symm

/-- Every put has a result, in which its key reads its value and the keys put before read theirs. -/
theorem put_map_law [Nonempty Val] (K : TrieKey) {log : List (Key × V)} {t1 : TrieOf N V}
    (runs : Runs N log t1) {k : Key} (hk : k ≠ []) (v : V) :
    (∀ c, ∃ c' t2, Put N k v c t1 c' t2) ∧
      ∀ c c' t2, Put N k v c t1 c' t2 →
        getValue N (makeCursor K N k t2) t2 = some v ∧
          ∀ k' ∈ log.map Prod.fst, k' ≠ k →
            getValue N (makeCursor K N k' t2) t2 = getValue N (makeCursor K N k' t1) t1 := by
  obtain ⟨correct, holds⟩ := runs_correct runs
  refine ⟨fun c => put_exists k v c correct, fun c c' t2 h => ?_⟩
  obtain ⟨correct2, -⟩ := runs_correct (runs.put hk h)
  have after := find_put h correct hk
  constructor
  · apply getValue_makeCursor K correct2
    rw [after, if_pos rfl]
  · intro k' hk' other
    obtain ⟨w, hw⟩ := lastValue_isSome hk'
    have before : find k' t1 = some w := (holds k').trans hw
    have kept : find k' t2 = some w := by rw [after, if_neg other, before]
    rw [getValue_makeCursor K correct2 kept, getValue_makeCursor K correct before]

/-- The order of the bytes. -/
def byteOrder : TrieKey where
  lt k k' := k < k'
  lt_dec := fun _ _ => inferInstance
  lt_trans := List.lt_trans
  lt_not_eq := fun lt same => List.lt_irrefl _ (same ▸ lt)
  compare := fun x y => Std.lt_trichotomy x y

/-- Two keys of one byte, over the sorted list. -/
theorem put_map_law_two : ∃ t : TrieOf (sortedListTable Nat) Nat,
    getValue (sortedListTable Nat) (makeCursor byteOrder (sortedListTable Nat) [98] t) t = some 2 ∧
      getValue (sortedListTable Nat) (makeCursor byteOrder (sortedListTable Nat) [97] t) t
        = some 1 := by
  have start : Runs (sortedListTable Nat) [] (.of 0 [] [] : TrieOf (sortedListTable Nat) Nat) :=
    .empty ⟨rfl, rfl⟩
  obtain ⟨some1, all1⟩ := put_map_law byteOrder start (k := [97]) (by decide) 1
  obtain ⟨c1, t1, h1⟩ := some1 []
  obtain ⟨read1, -⟩ := all1 _ _ _ h1
  have runs := start.put (by decide) h1
  obtain ⟨some2, all2⟩ := put_map_law byteOrder runs (k := [98]) (by decide) 2
  obtain ⟨c2, t2, h2⟩ := some2 []
  obtain ⟨read2, kept⟩ := all2 _ _ _ h2
  exact ⟨t2, read2, (kept [97] (by simp) (by decide)).trans read1⟩

/-! ### The source's invariant -/

/-- A put keeps `trie_correct` unless it makes a pair of two suffixes with the same next slice. -/
theorem trieCorrect_put_iff {k : Key} {v : V} {c c' : Cursor N V} {t t' : TrieOf N V}
    (correct : TrieCorrect N t) (hk : k ≠ []) (h : Put N k v c t c' t') :
    TrieCorrect N t' ↔
      ∀ s s', conflict k t = some (s, s') → getKeyslice s ≠ getKeyslice s' := by
  unfold TrieCorrect at correct ⊢
  rw [correct_put h correct hk]
  have size (s s' : Key) : 2 ≤ pairSize s s' ↔ getKeyslice s ≠ getKeyslice s' := by
    unfold pairSize
    split <;> simp_all
  simp only [size]

/-- Two slices, one of them with the rest of a key of nine bytes. -/
def twoEntries : List (Int × (Nat × Bordernode Nat (TrieOf (sortedListTable Nat) Nat))) :=
  [(0, (1, ⟨some 7 :: List.replicate 7 none, none⟩)),
    (getKeyslice [1, 1, 1, 1, 1, 1, 1, 1], (2, ⟨List.replicate 8 none, some (.inl ([5], 8))⟩))]

def twoSlices : TrieOf (sortedListTable Nat) Nat :=
  .of 0 [(0, 1), (getKeyslice [1, 1, 1, 1, 1, 1, 1, 1], 2)] twoEntries

theorem trieCorrect_twoSlices : TrieCorrect (sortedListTable Nat) twoSlices := by
  refine correct_of ?_ ?_ rfl ?_ ?_ (Nat.le_refl 2)
  · exact sorted_cons.mpr ⟨by simp; decide, sorted_cons.mpr ⟨by simp, sorted_nil⟩⟩
  · exact sorted_cons.mpr ⟨by simp; decide, sorted_cons.mpr ⟨by simp, sorted_nil⟩⟩
  · intro e he
    simp only [twoEntries, List.mem_cons, List.not_mem_nil, or_false] at he
    rcases he with rfl | rfl
    · exact .nil rfl ⟨some 7, by simp, by simp⟩
    · exact .ext rfl (by decide)
  · intro e he
    simp only [twoEntries, List.mem_cons, List.not_mem_nil, or_false] at he
    rcases he with rfl | rfl
    · exact ⟨by decide, by decide⟩
    · exact keyInrange_getKeyslice _

theorem trieCorrect_put_short : ∃ c t, Put (sortedListTable Nat) [3] 9 [] twoSlices c t ∧
    TrieCorrect (sortedListTable Nat) t := by
  obtain ⟨c, t, h⟩ := put_exists [3] 9 [] trieCorrect_twoSlices
  refine ⟨c, t, h, (trieCorrect_put_iff trieCorrect_twoSlices (by decide) h).mpr ?_⟩
  intro s s' no
  have none : conflict [3] twoSlices = none := conflict_short (by decide)
  rw [none] at no
  cases no

/-- The rest of the second key is the first one's and a zero byte, so the slices are the same. -/
theorem trieCorrect_put_fails :
    ¬∀ (k : Key) (v : Nat) (c c' : Cursor (sortedListTable Nat) Nat)
      (t t' : TrieOf (sortedListTable Nat) Nat), TrieCorrect (sortedListTable Nat) t → k ≠ [] →
        Put (sortedListTable Nat) k v c t c' t' → TrieCorrect (sortedListTable Nat) t' := by
  intro all
  obtain ⟨c, t, h⟩ := put_exists [1, 1, 1, 1, 1, 1, 1, 1, 5, 0] 9 [] trieCorrect_twoSlices
  have after := all _ _ _ _ _ _ trieCorrect_twoSlices (by decide) h
  have found : lookup (getKeyslice [1, 1, 1, 1, 1, 1, 1, 1, 5, 0]) twoEntries
      = some (2, ⟨List.replicate 8 none, some (.inl ([5], 8))⟩) := by
    unfold twoEntries lookup
    rw [if_neg (by decide), lookup, if_pos (by decide)]
  have pair : conflict [1, 1, 1, 1, 1, 1, 1, 1, 5, 0] twoSlices = some ([5, 0], [5]) :=
    conflict_long found (by decide)
  have size := (correct_put h trieCorrect_twoSlices (by decide)).mp after _ _ pair
  exact absurd size (by decide)

end DeepDB.Trie
