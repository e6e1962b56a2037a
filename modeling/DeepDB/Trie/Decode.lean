import DeepDB.Trie.Flatten
import Mathlib.RingTheory.Coprime.Lemmas
import Mathlib.RingTheory.PrincipalIdealDomain
import Mathlib.Tactic.Ring

/-!
What `reconstruct_keyslice` gives back of a key. It shifts the padding away bit by bit where it
should take whole bytes, and multiplies what is left by eight, so a slice comes back exactly when its
bytes are zeros. `get_raw` puts a stored key together from the slices on the way to it.
-/

namespace DeepDB.Trie

open SortedAssoc

variable {Val V : Type} {N : FlattenableTable Val}

/-! ### One slice -/

/-- The padding of a short key is a factor of its slice. -/
theorem getKeyslice_padding {key : Key} {len : Nat} (inside : len ≤ keysliceLength)
    (enough : len = keysliceLength ∨ key.length = len) :
    getKeyslice key = getKeysliceAux key len 0 * 256 ^ (keysliceLength - len) := by
  have padded (d : Nat) (short : key.length ≤ len) :
      getKeysliceAux key (len + d) 0 = getKeysliceAux key len 0 * 256 ^ d := by
    induction d with
    | zero => simp
    | succ d ih =>
      have zero : key.getD (len + d) 0 = 0 := by
        rw [List.getD_eq_getElem?_getD, List.getElem?_eq_none (by omega)]
        rfl
      rw [← Nat.add_assoc, getKeysliceAux_succ, ih, zero, Int.pow_succ, Int.mul_assoc]
      simp
  rcases enough with full | short
  · subst full
    rw [Nat.sub_self, Int.pow_zero, Int.mul_one, getKeyslice]
  · have whole := padded (keysliceLength - len) short.le
    rwa [Nat.add_sub_cancel' inside] at whole

theorem isCoprime_two_pow (n m : Nat) : IsCoprime ((2 : Int) ^ n) (2 ^ (m + 1) - 1) := by
  apply IsCoprime.pow_left
  refine ⟨2 ^ m, -1, ?_⟩
  ring

/-- What the decoder takes apart: the bytes, shifted left by a number of bits that is not a multiple
of the byte. -/
theorem shifted_slice (number : Int) (d : Nat) :
    (number * 256 ^ d) >>> d * 8 - number = number * (2 ^ (7 * d + 2 + 1) - 1) := by
  have bits : number * 256 ^ d = number * 2 ^ (7 * d) * 2 ^ d := by
    rw [show (256 : Int) = 2 ^ 8 by decide, ← Int.pow_mul, Int.mul_assoc, ← Int.pow_add]
    congr 2
    omega
  rw [Int.shiftRight_eq_div_pow, bits, Nat.cast_pow, Nat.cast_ofNat,
    Int.mul_ediv_cancel _ (by positivity)]
  ring

/-- A slice comes back when its bytes are zeros. -/
theorem reconstructKeyslice_iff {key : Key} {len : Nat} (inside : len ≤ keysliceLength)
    (enough : len = keysliceLength ∧ keysliceLength ≤ key.length ∨ key.length = len) :
    reconstructKeyslice (getKeyslice key) len = key.take len ↔ ∀ ch ∈ key.take len, ch = 0 := by
  have reaches : len ≤ key.length := by omega
  have slice := getKeyslice_padding inside (enough.imp And.left id)
  generalize hn : getKeysliceAux key len 0 = number at slice
  have bytes : reconstructKeysliceAux number len = key.take len := by
    have front : (reconstructKeysliceAux (getKeysliceAux key len 0) len).take key.length = key.take len :=
      reconstruct_getKeysliceAux
    rwa [hn, List.take_of_length_le (by rw [length_reconstruct]; exact reaches)] at front
  have range : 0 ≤ number ∧ number < 256 ^ len := by
    have bound : 0 ≤ getKeysliceAux key len 0 ∧ getKeysliceAux key len 0 < 1 * 256 ^ len :=
      getKeysliceAux_range le_rfl Int.zero_lt_one
    rwa [hn, Int.one_mul] at bound
  have zero_of_dvd (divides : (256 ^ len : Int) ∣ number) : number = 0 :=
    (Int.emod_eq_of_lt range.1 range.2).symm.trans (Int.emod_eq_zero_of_dvd divides)
  have zeros (n : Nat) : reconstructKeysliceAux 0 n = List.replicate n 0 := by
    induction n with
    | zero => rfl
    | succ n ih =>
      rw [reconstructKeysliceAux, Int.zero_ediv, ih, List.replicate_succ']
      rfl
  constructor
  · intro same ch hch
    rw [← bytes, reconstructKeyslice, slice] at same
    have divides := reconstruct_congr same
    rw [shifted_slice] at divides
    have coprime : IsCoprime ((256 : Int) ^ len) (2 ^ (7 * (keysliceLength - len) + 2 + 1) - 1) := by
      rw [show (256 : Int) = 2 ^ 8 by decide, ← Int.pow_mul]
      exact isCoprime_two_pow _ _
    rw [← bytes, zero_of_dvd (coprime.dvd_of_dvd_mul_right divides), zeros] at hch
    exact (List.mem_replicate.mp hch).2
  · intro all
    have taken : key.take len = List.replicate len 0 := by
      refine List.eq_replicate_iff.mpr ⟨?_, all⟩
      rw [List.length_take, Nat.min_eq_left reaches]
    have divides : (256 ^ len : Int) ∣ number - 0 := by
      apply reconstruct_congr
      rw [bytes, taken, zeros]
    rw [Int.sub_zero] at divides
    rw [slice, zero_of_dvd divides, taken, reconstructKeyslice, Int.zero_mul, Int.zero_shiftRight,
      Int.zero_mul, zeros]

/-- A slice decodes to the bytes it was made of, and with the rest it gives back the key. -/
structure DecodesKey (key : Key) : Prop where
  slice : reconstructKeyslice (getKeysliceWithLen key).1 (getKeysliceWithLen key).2 =
    key.take (min keysliceLength key.length)
  whole : keysliceLength < key.length →
    reconstructKeyslice (getKeysliceWithLen key).1 (getKeysliceWithLen key).2 ++ getSuffix key = key

theorem decodesKey_iff (key : Key) : DecodesKey key ↔ ∀ ch ∈ key.take keysliceLength, ch = 0 := by
  have taken : key.take (min keysliceLength key.length) = key.take keysliceLength :=
    List.take_eq_take_min.symm
  have slice : reconstructKeyslice (getKeyslice key) _ = key.take _ ↔ _ :=
    reconstructKeyslice_iff (Nat.min_le_left keysliceLength key.length) (by omega)
  rw [taken] at slice
  constructor
  · intro decodes
    exact slice.mp (decodes.slice.trans taken)
  · intro zeros
    have same := slice.mpr zeros
    refine ⟨same.trans taken.symm, fun _ => ?_⟩
    exact (congrArg (· ++ getSuffix key) same).trans (List.take_append_drop _ _)

/-! ### Cursors at a key -/

/-- A cursor at the entry of a stored key. -/
inductive OnKey (N : FlattenableTable Val) : TrieOf N V → Cursor N V → Key → V → Prop
  | pre {addr a : Val} {tableform : N.Table}
      {listform : List (Int × (Val × Bordernode V (TrieOf N V)))} {tc : N.Cursor}
      {bnode : Bordernode V (TrieOf N V)} {k : Key} {v : V}
      (found : lookup (getKeyslice k) listform = some (a, bnode))
      (here : N.getKey tc tableform = some (getKeyslice k)) (short : k.length ≤ keysliceLength)
      (value : BorderNode.getPrefix k.length bnode = some v) :
      OnKey N (.of addr tableform listform)
        [(.of addr tableform listform, tc, bnode, .beforePrefix k.length)] k v
  | suf {addr a : Val} {tableform : N.Table}
      {listform : List (Int × (Val × Bordernode V (TrieOf N V)))} {tc : N.Cursor}
      {bnode : Bordernode V (TrieOf N V)} {k : Key} {v : V}
      (found : lookup (getKeyslice k) listform = some (a, bnode))
      (here : N.getKey tc tableform = some (getKeyslice k)) (long : keysliceLength < k.length)
      (hs : bnode.suffix = some (.inl (getSuffix k, v))) :
      OnKey N (.of addr tableform listform)
        [(.of addr tableform listform, tc, bnode, .beforeSuffix)] k v
  | link {addr a : Val} {tableform : N.Table}
      {listform : List (Int × (Val × Bordernode V (TrieOf N V)))} {tc : N.Cursor}
      {bnode : Bordernode V (TrieOf N V)} {t' : TrieOf N V} {c : Cursor N V} {k : Key} {v : V}
      (found : lookup (getKeyslice k) listform = some (a, bnode))
      (here : N.getKey tc tableform = some (getKeyslice k)) (long : keysliceLength < k.length)
      (hs : bnode.suffix = some (.inr t')) (sub : OnKey N t' c (getSuffix k) v) :
      OnKey N (.of addr tableform listform)
        ((.of addr tableform listform, tc, bnode, .beforeSuffix) :: c) k v

/-- How many bytes of the key the slices on the way hold; the others are kept as they are. -/
def sliceBytes : Cursor N V → Nat
  | [] => 0
  | (_, _, _, .beforePrefix len) :: _ => len
  | (_, _, _, .beforeSuffix) :: c => keysliceLength + sliceBytes c
  | (_, _, _, .afterSuffix) :: _ => 0

variable {t : TrieOf N V} {c : Cursor N V} {k : Key} {v : V}

theorem zeros_split {n : Nat} :
    (∀ ch ∈ k.take (keysliceLength + n), ch = 0) ↔
      (∀ ch ∈ k.take keysliceLength, ch = 0) ∧ ∀ ch ∈ (getSuffix k).take n, ch = 0 := by
  rw [List.take_add, getSuffix]
  constructor
  · intro all
    exact ⟨fun ch hch => all ch (List.mem_append_left _ hch),
      fun ch hch => all ch (List.mem_append_right _ hch)⟩
  · intro ⟨front, rest⟩ ch hch
    rcases List.mem_append.mp hch with hch | hch
    · exact front ch hch
    · exact rest ch hch

/-- A slice and what follows it are the key when both are right. -/
theorem slice_append_iff {rest : Key} (long : keysliceLength < k.length) :
    reconstructKeyslice (getKeyslice k) keysliceLength ++ rest = k ↔
      (∀ ch ∈ k.take keysliceLength, ch = 0) ∧ rest = getSuffix k := by
  rw [← reconstructKeyslice_iff (Nat.le_refl _) (Or.inl ⟨rfl, long.le⟩)]
  have parts : k.take keysliceLength ++ getSuffix k = k := List.take_append_drop _ _
  constructor
  · intro same
    have lengths : (reconstructKeyslice (getKeyslice k) keysliceLength).length =
        (k.take keysliceLength).length := by
      rw [length_reconstructKeyslice, List.length_take_of_le long.le]
    exact List.append_inj (same.trans parts.symm) lengths
  · intro ⟨front, back⟩
    rw [front, back, parts]

theorem getRaw_onKey (on : OnKey N t c k v) :
    ∃ k', getRaw N c = some (k', v) ∧ (k' = k ↔ ∀ ch ∈ k.take (sliceBytes c), ch = 0) := by
  induction on with
  | pre found here short value =>
    refine ⟨reconstructKeyslice _ _, by simp only [getRaw, here, value]; rfl, ?_⟩
    have slice := reconstructKeyslice_iff short (Or.inr rfl)
    rw [List.take_length] at slice
    rw [sliceBytes, List.take_length]
    exact slice
  | suf found here long hs =>
    refine ⟨reconstructKeyslice _ _ ++ _, by simp only [getRaw, here, hs]; rfl, ?_⟩
    rw [slice_append_iff long]
    simp [sliceBytes]
  | @link _ _ _ _ _ _ _ _ k v found here long hs sub ih =>
    obtain ⟨rest, below, exact⟩ := ih
    refine ⟨reconstructKeyslice _ _ ++ _, by simp only [getRaw, here, hs, below]; rfl, ?_⟩
    rw [slice_append_iff long, sliceBytes, zeros_split, exact]

theorem onKey_makeCursor (K : TrieKey) {root below : Nat} (correct : Correct N root below t)
    (held : find k t = some v) : OnKey N t (makeCursor K N k t) k v := by
  induction hn : k.length using Nat.strongRecOn generalizing k t root with
  | ind n ih =>
    obtain ⟨addr, tableform, listform⟩ := t
    cases found : lookup (getKeyslice k) listform with
    | none =>
      rw [find_absent found] at held
      cases held
    | some e =>
      obtain ⟨a, bnode⟩ := e
      rw [find_found found rfl] at held
      have member : getKeyslice k ∈ (N.flatten tableform).map Prod.fst := by
        rw [correct.entries, List.map_map]
        exact List.mem_map_of_mem (f := fun e => e.1) (mem_of_lookup found)
      have key := FlattenableTable.getKey_makeCursor correct.table member
      have exact := (Flattened.getExact_eq correct.sorted).trans found
      unfold makeCursor
      simp only [exact]
      by_cases short : k.length ≤ keysliceLength
      · rw [findNode_short short] at held
        simp only [short, dite_true]
        exact .pre found key short held
      · have long := Nat.lt_of_not_le short
        rw [findNode_long long] at held
        simp only [short, dite_false]
        rcases hs : bnode.suffix with _ | ⟨k', v'⟩ | t'
        · rw [hs] at held
          cases held
        · rw [hs] at held
          simp only [Option.ite_none_right_eq_some, Option.some.injEq] at held
          obtain ⟨rfl, rfl⟩ := held
          have notLess : ¬K.lt (getSuffix k) (getSuffix k) := fun lt => K.lt_not_eq lt rfl
          simp only [if_neg notLess]
          exact .suf found key long hs
        · rw [hs] at held
          exact .link found key long hs (ih _ (hn ▸ length_getSuffix_lt long)
            ((correct.node found).link hs) held rfl)

/-- A slice decodes to its bytes exactly when they are zeros. On a stored key `get_raw` gives the key
exactly when all its bytes that are held by slices are zeros. -/
theorem decode_iff (K : TrieKey) (N : FlattenableTable Val) :
    (∀ key, DecodesKey key ↔ ∀ ch ∈ key.take keysliceLength, ch = 0) ∧
      ∀ (log : List (Key × V)) (t : TrieOf N V), Runs N log t →
        ∀ k v, lastValue k log = some v →
          OnKey N t (makeCursor K N k t) k v ∧
            ∀ c, OnKey N t c k v →
              (getRaw N c = some (k, v) ↔ ∀ ch ∈ k.take (sliceBytes c), ch = 0) := by
  refine ⟨decodesKey_iff, fun log t runs k v last => ?_⟩
  obtain ⟨correct, holds⟩ := runs_correct runs
  refine ⟨onKey_makeCursor K correct ((holds k).trans last), fun c on => ?_⟩
  obtain ⟨k', raw, exact⟩ := getRaw_onKey on
  rw [raw, ← exact]
  simp

/-- A key of nine bytes over the sorted list; its last byte is not in the slice. -/
theorem decode_zeros : DecodesKey [0] ∧ ∃ (t : TrieOf (sortedListTable Nat) Nat) (c : Cursor _ _),
    OnKey (sortedListTable Nat) t c [0, 0, 0, 0, 0, 0, 0, 0, 7] 5 ∧
      getRaw (sortedListTable Nat) c = some ([0, 0, 0, 0, 0, 0, 0, 0, 7], 5) := by
  have start : Runs (sortedListTable Nat) [] (.of 0 [] [] : TrieOf (sortedListTable Nat) Nat) :=
    .empty ⟨rfl, rfl⟩
  have first : Runs (sortedListTable Nat) [([0, 0, 0, 0, 0, 0, 0, 0, 7], 5)] (.of 0 [(0, 1)]
      [(0, (1, BorderNode.putSuffix [7] 5 BorderNode.empty))]) :=
    start.put (c := []) (by decide)
      (.case6 rfl rfl ⟨sorted_nil, Nat.zero_le 0⟩ ⟨rfl, rfl⟩ ⟨sorted_nil, Nat.zero_le 0⟩ ⟨rfl, rfl⟩)
  have on : OnKey (sortedListTable Nat)
      (.of 0 [(0, 1)] [(0, (1, BorderNode.putSuffix [7] 5 BorderNode.empty))])
      [(.of 0 [(0, 1)] [(0, (1, BorderNode.putSuffix [7] 5 BorderNode.empty))], (0 : Nat),
        BorderNode.putSuffix [7] 5 BorderNode.empty, .beforeSuffix)]
      [0, 0, 0, 0, 0, 0, 0, 0, 7] 5 := .suf (a := 1) (if_pos rfl) rfl (by decide) rfl
  obtain ⟨one, stored⟩ := decode_iff byteOrder (sortedListTable Nat)
  refine ⟨(one [0]).mpr fun ch hch => List.mem_singleton.mp hch, _, _, on, ?_⟩
  refine ((stored _ _ first _ 5 rfl).2 _ on).mpr fun ch hch => ?_
  exact (List.mem_replicate.mp (show ch ∈ List.replicate 8 0 from hch)).2

/-- The byte "a" comes back as zero. -/
theorem decode_one_byte : reconstructKeyslice (getKeysliceWithLen [97]).1 (getKeysliceWithLen [97]).2
      = [0] ∧ ¬ DecodesKey [97] := by
  refine ⟨by decide, fun decodes => ?_⟩
  have slice := decodes.slice
  revert slice
  decide

end DeepDB.Trie
