import DeepDB.Trie.Keyslice

/-!
Border nodes, `functional/bordernode.v`: the entries of one slice. The keys that end in the slice
have a place for each length, and there is one further place, for the rest of a single longer key
with its value or for the subtrie of all of them.
-/

namespace DeepDB.Trie

/-- `BorderNode.table`, `E` the values of clients and `T` the inner ones. -/
structure Bordernode (E T : Type) where
  prefixes : List (Option E)
  suffix : Option ((Key × E) ⊕ T)

namespace BorderNode

variable {E T : Type}

inductive Cursor where
  | beforePrefix (len : Nat)
  | beforeSuffix
  | afterSuffix

def empty : Bordernode E T := ⟨List.replicate keysliceLength none, none⟩

/-- `put_prefix`: lengths are counted from one. -/
def putPrefix (k : Nat) (v : E) (t : Bordernode E T) : Bordernode E T :=
  match k with
  | 0 => t
  | k + 1 => ⟨t.prefixes.set k (some v), t.suffix⟩

def getPrefix (k : Nat) (t : Bordernode E T) : Option E :=
  match k with
  | 0 => none
  | k + 1 => t.prefixes.getD k none

def putSuffix (k : Key) (v : E) (t : Bordernode E T) : Bordernode E T :=
  ⟨t.prefixes, some (.inl (k, v))⟩

/-- `get_suffix`. -/
def getSuffixValue (k : Key) (t : Bordernode E T) : Option E :=
  match t.suffix with
  | some (.inl (k', v)) => if k = k' then some v else none
  | _ => none

def putLink (v : T) (t : Bordernode E T) : Bordernode E T := ⟨t.prefixes, some (.inr v)⟩

def getLink (t : Bordernode E T) : Option T :=
  match t.suffix with
  | some (.inr v) => some v
  | _ => none

def testSuffix (k : Key) (t : Bordernode E T) : Bool :=
  match t.suffix with
  | some (.inl (k', _)) => k == k'
  | _ => false

def getSuffixPair (t : Bordernode E T) : Option (Key × E) :=
  match t.suffix with
  | some (.inl (k, v)) => some (k, v)
  | _ => none

def putValue (key : Key) (v : E) (t : Bordernode E T) : Bordernode E T :=
  if key.length ≤ keysliceLength then putPrefix key.length v t else putSuffix (getSuffix key) v t

def Invariant (t : Bordernode E T) : Prop := t.prefixes.length = keysliceLength

/-- `next_cursor'`, with `n` the number of steps left. -/
def nextCursorAux (c : Cursor) (t : Bordernode E T) : Nat → Cursor
  | 0 => .afterSuffix
  | n + 1 =>
    match c with
    | .beforePrefix len =>
      if (getPrefix len t).isSome then .beforePrefix len
      else if len < keysliceLength then nextCursorAux (.beforePrefix (len + 1)) t n
      else nextCursorAux .beforeSuffix t n
    | .beforeSuffix => if t.suffix.isSome then .beforeSuffix else .afterSuffix
    | .afterSuffix => .afterSuffix

def nextCursor (c : Cursor) (t : Bordernode E T) : Cursor := nextCursorAux c t (keysliceLength + 2)

def lengthToCursor (len : Nat) : Cursor :=
  if len ≤ keysliceLength then .beforePrefix len else .beforeSuffix

/-! ### What a put leaves -/

@[simp] theorem putPrefix_suffix (k : Nat) (v : E) (t : Bordernode E T) :
    (putPrefix k v t).suffix = t.suffix := by
  cases k <;> rfl

@[simp] theorem putSuffix_suffix (k : Key) (v : E) (t : Bordernode E T) :
    (putSuffix k v t).suffix = some (.inl (k, v)) := rfl

@[simp] theorem putLink_suffix (v : T) (t : Bordernode E T) :
    (putLink v t).suffix = some (.inr v) := rfl

@[simp] theorem getPrefix_putSuffix (n : Nat) (k : Key) (v : E) (t : Bordernode E T) :
    getPrefix n (putSuffix k v t) = getPrefix n t := by
  cases n <;> rfl

@[simp] theorem getPrefix_putLink (n : Nat) (v : T) (t : Bordernode E T) :
    getPrefix n (putLink v t) = getPrefix n t := by
  cases n <;> rfl

theorem getSuffixValue_eq_some {k : Key} {v : E} {t : Bordernode E T} :
    getSuffixValue k t = some v ↔ t.suffix = some (.inl (k, v)) := by
  unfold getSuffixValue
  constructor
  · intro h
    split at h
    · rename_i k' v' hs
      rw [Option.ite_none_right_eq_some] at h
      obtain ⟨rfl, same⟩ := h
      rw [hs, Option.some.inj same]
    · cases h
  · intro hs
    simp [hs]

theorem getLink_eq_some {v : T} {t : Bordernode E T} :
    getLink t = some v ↔ t.suffix = some (.inr v) := by
  unfold getLink
  constructor
  · intro h
    split at h
    · rename_i w hs
      rw [hs, Option.some.inj h]
    · cases h
  · intro hs
    simp [hs]

theorem putPrefix_invariant {k : Nat} {v : E} {t : Bordernode E T} (h : Invariant t) :
    Invariant (putPrefix k v t) := by
  cases k with
  | zero => exact h
  | succ k =>
    unfold Invariant putPrefix
    rw [List.length_set]
    exact h

theorem empty_invariant : Invariant (empty : Bordernode E T) := by
  unfold Invariant empty
  exact List.length_replicate

theorem putValue_invariant {key : Key} {v : E} {t : Bordernode E T} (h : Invariant t) :
    Invariant (putValue key v t) := by
  unfold putValue
  split
  · exact putPrefix_invariant h
  · exact h

@[simp] theorem getPrefix_empty (n : Nat) : getPrefix n (empty : Bordernode E T) = none := by
  cases n with
  | zero => rfl
  | succ n =>
    simp only [getPrefix, empty, List.getD_eq_getElem?_getD, List.getElem?_replicate]
    split <;> rfl

theorem get_put_prefix_same {k : Nat} {v : E} {t : Bordernode E T} (h : Invariant t) (pos : k ≠ 0)
    (inside : k ≤ keysliceLength) : getPrefix k (putPrefix k v t) = some v := by
  cases k with
  | zero => exact absurd rfl pos
  | succ k =>
    have room : k < t.prefixes.length := by
      unfold Invariant at h
      omega
    simp [getPrefix, putPrefix, List.getD_eq_getElem?_getD, room]

theorem get_put_prefix_diff {k k' : Nat} {v : E} {t : Bordernode E T} (ne : k' ≠ k) :
    getPrefix k' (putPrefix k v t) = getPrefix k' t := by
  cases k with
  | zero => rfl
  | succ k =>
    cases k' with
    | zero => rfl
    | succ k' =>
      have apart : k ≠ k' := fun same => ne (by rw [same])
      simp [getPrefix, putPrefix, List.getD_eq_getElem?_getD, apart]

theorem nextCursor_prefix {len : Nat} {t : Bordernode E T} (h : (getPrefix len t).isSome) :
    nextCursor (.beforePrefix len) t = .beforePrefix len := by
  unfold nextCursor nextCursorAux
  simp [h]

/-- Where the search from a length on ends: at the first length in use, or after all of them. -/
theorem nextCursorAux_prefix {len n : Nat} {t : Bordernode E T} (inside : len ≤ keysliceLength)
    (enough : keysliceLength + 1 < n + len) :
    (∃ len' v, nextCursorAux (.beforePrefix len) t n = .beforePrefix len' ∧ len ≤ len' ∧
        len' ≤ keysliceLength ∧ getPrefix len' t = some v ∧
        ∀ i, len ≤ i → i < len' → getPrefix i t = none) ∨
      nextCursorAux (.beforePrefix len) t n =
          (if t.suffix.isSome then .beforeSuffix else .afterSuffix) ∧
        ∀ i, len ≤ i → i ≤ keysliceLength → getPrefix i t = none := by
  induction n generalizing len with
  | zero => omega
  | succ n ih =>
    cases here : getPrefix len t with
    | some v =>
      refine Or.inl ⟨len, v, ?_, Nat.le_refl len, inside, here, fun i low high => by omega⟩
      rw [nextCursorAux, here]
      rfl
    | none =>
      by_cases more : len < keysliceLength
      · have step : nextCursorAux (.beforePrefix len) t (n + 1) =
            nextCursorAux (.beforePrefix (len + 1)) t n := by
          rw [nextCursorAux, here]
          simp [more]
        rw [step]
        rcases ih more (by omega) with ⟨len', v, found, low, high, value, before⟩ | ⟨found, before⟩
        · refine Or.inl ⟨len', v, found, by omega, high, value, fun i low' high' => ?_⟩
          rcases Nat.eq_or_lt_of_le low' with rfl | low'
          · exact here
          · exact before i low' high'
        · refine Or.inr ⟨found, fun i low' high' => ?_⟩
          rcases Nat.eq_or_lt_of_le low' with rfl | low'
          · exact here
          · exact before i low' high'
      · obtain ⟨n, rfl⟩ : ∃ m, n = m + 1 := ⟨n - 1, by omega⟩
        refine Or.inr ⟨?_, fun i low high => ?_⟩
        · rw [nextCursorAux, here]
          simp only [Option.isSome_none, Bool.false_eq_true, if_false, more]
          rw [nextCursorAux]
        · obtain rfl : len = i := by omega
          exact here

theorem nextCursor_suffix {t : Bordernode E T} (h : t.suffix.isSome) :
    nextCursor .beforeSuffix t = .beforeSuffix := by
  unfold nextCursor nextCursorAux
  simp [h]

end BorderNode

end DeepDB.Trie
