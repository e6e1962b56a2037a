import DeepDB.Trie.Functional

/-!
The invariant of the functional trie, `trie_correct`, for every least number of entries a layer may
have, and what a put and a pair keep of it: a layer's list is changed at one slice, and the new
border node is as good as the old one.
-/

namespace DeepDB.Trie

open SortedAssoc

variable {Val V : Type} (N : FlattenableTable Val)

/-- `Ptrofs.max_unsigned` is the greatest word. -/
def KeyInrange (k : Int) : Prop := 0 ≤ k ∧ k ≤ 2 ^ 64 - 1

mutual

/-- The source's `trie_correct`, with at least `root` entries in this layer and at least `below` in
those under it. -/
inductive Correct : Nat → Nat → TrieOf N V → Prop
  | of {root below : Nat} {addr : Val} {tableform : N.Table}
      {listform : List (Int × (Val × Bordernode V (TrieOf N V)))}
      (table : N.TableCorrect tableform) (list : Flattened.TableCorrect listform)
      (keys : (N.flatten tableform).map Prod.fst = listform.map Prod.fst)
      (addrs : (N.flatten tableform).map Prod.snd = listform.map fun e => e.2.1)
      (nodes : ∀ e ∈ listform, NodeCorrect below e.2.2)
      (inrange : ∀ e ∈ listform, KeyInrange e.1) (size : root ≤ listform.length) :
      Correct root below (.of addr tableform listform)

/-- `bordernode_correct`. -/
inductive NodeCorrect : Nat → Bordernode V (TrieOf N V) → Prop
  | nil {below : Nat} {prefixes : List (Option V)} (length : prefixes.length = keysliceLength)
      (used : ∃ v ∈ prefixes, v ≠ none) : NodeCorrect below ⟨prefixes, none⟩
  | ext {below : Nat} {prefixes : List (Option V)} {k : Key} {v : V}
      (length : prefixes.length = keysliceLength) (more : 0 < k.length) :
      NodeCorrect below ⟨prefixes, some (.inl (k, v))⟩
  | int {below : Nat} {prefixes : List (Option V)} {t' : TrieOf N V}
      (length : prefixes.length = keysliceLength) (sub : Correct below below t') :
      NodeCorrect below ⟨prefixes, some (.inr t')⟩

end

/-- The source asks for more than one entry in every layer. -/
def TrieCorrect (t : TrieOf N V) : Prop := Correct N 2 2 t

variable {N} {root below : Nat} {addr bnodeAddr : Val} {tableform : N.Table}
  {listform : List (Int × (Val × Bordernode V (TrieOf N V)))} {bnode : Bordernode V (TrieOf N V)}

/-! ### Border nodes -/

theorem NodeCorrect.invariant (h : NodeCorrect N below bnode) : BorderNode.Invariant bnode := by
  cases h with
  | nil length used => exact length
  | ext length more => exact length
  | int length sub => exact length

theorem NodeCorrect.link (h : NodeCorrect N below bnode) {t' : TrieOf N V}
    (hs : bnode.suffix = some (.inr t')) : Correct N below below t' := by
  cases h with
  | nil length used => cases hs
  | ext length more => cases hs
  | int length sub =>
    cases hs
    exact sub

theorem NodeCorrect.pair (h : NodeCorrect N below bnode) {k : Key} {v : V}
    (hs : bnode.suffix = some (.inl (k, v))) : k ≠ [] := by
  cases h with
  | nil length used => cases hs
  | ext length more =>
    cases hs
    exact List.length_pos_iff.mp more
  | int length sub => cases hs

theorem nodeCorrect_putLink (h : BorderNode.Invariant bnode) {t' : TrieOf N V} :
    NodeCorrect N below (BorderNode.putLink t' bnode) ↔ Correct N below below t' :=
  ⟨fun node => node.link rfl, fun sub => .int h sub⟩

theorem nodeCorrect_putSuffix (h : BorderNode.Invariant bnode) {k : Key} (v : V) (hk : k ≠ []) :
    NodeCorrect N below (BorderNode.putSuffix k v bnode) := .ext h (List.length_pos_iff.mpr hk)

/-- A node with a key that ends in its slice is correct when what it had after the slice is. -/
theorem nodeCorrect_putPrefix (h : BorderNode.Invariant bnode) {k : Nat} (v : V) (pos : k ≠ 0)
    (inside : k ≤ keysliceLength) (rest : bnode.suffix = none ∨ NodeCorrect N below bnode) :
    NodeCorrect N below (BorderNode.putPrefix k v bnode) := by
  obtain ⟨prefixes, suffix⟩ := bnode
  cases k with
  | zero => exact absurd rfl pos
  | succ k =>
    have length : (prefixes.set k (some v)).length = keysliceLength := by
      rw [List.length_set]
      exact h
    have room : k < prefixes.length := by
      unfold BorderNode.Invariant at h
      simp only at h
      omega
    have used : ∃ w ∈ prefixes.set k (some v), w ≠ none :=
      ⟨some v, List.mem_set room _, Option.some_ne_none v⟩
    unfold BorderNode.putPrefix
    simp only
    rcases rest with nothing | node
    · simp only at nothing
      subst nothing
      exact .nil length used
    · cases node with
      | nil length' used' => exact .nil length used
      | ext length' more => exact .ext length more
      | int length' sub => exact .int length sub

theorem nodeCorrect_putValue (h : BorderNode.Invariant bnode) {k : Key} (v : V) (hk : k ≠ [])
    (rest : bnode.suffix = none ∨ NodeCorrect N below bnode) :
    NodeCorrect N below (BorderNode.putValue k v bnode) := by
  unfold BorderNode.putValue
  split
  · rename_i short
    exact nodeCorrect_putPrefix h v (fun zero => hk (List.length_eq_zero_iff.mp zero)) short rest
  · rename_i long
    exact nodeCorrect_putSuffix h v (getSuffix_ne_nil (by omega))

/-! ### Layers -/

theorem Correct.entries (h : Correct N root below (.of addr tableform listform)) :
    N.flatten tableform = listform.map fun e => (e.1, e.2.1) := by
  cases h with
  | of table list keys addrs nodes inrange size =>
    have zipped := congrArg₂ List.zip keys addrs
    rw [← List.unzip_fst, ← List.unzip_snd, List.zip_unzip] at zipped
    rw [zipped, List.zip_map']

theorem Correct.sorted (h : Correct N root below (.of addr tableform listform)) : Sorted listform := by
  cases h with
  | of table list keys addrs nodes inrange size => exact list

theorem Correct.table (h : Correct N root below (.of addr tableform listform)) :
    N.TableCorrect tableform := by
  cases h with
  | of table list keys addrs nodes inrange size => exact table

theorem Correct.node (h : Correct N root below (.of addr tableform listform)) {s : Int}
    (found : lookup s listform = some (bnodeAddr, bnode)) : NodeCorrect N below bnode := by
  cases h with
  | of table list keys addrs nodes inrange size => exact nodes _ (mem_of_lookup found)

/-- A layer from its parts, the table and the list as one. -/
theorem correct_of (table : N.TableCorrect tableform) (list : Sorted listform)
    (entries : N.flatten tableform = listform.map fun e => (e.1, e.2.1))
    (nodes : ∀ e ∈ listform, NodeCorrect N below e.2.2)
    (inrange : ∀ e ∈ listform, KeyInrange e.1) (size : root ≤ listform.length) :
    Correct N root below (.of addr tableform listform) := by
  refine .of table list ?_ ?_ nodes inrange size
  · rw [entries, List.map_map]
    rfl
  · rw [entries, List.map_map]
    rfl

/-- The border node of a slice is replaced. -/
theorem correct_update (h : Correct N root below (.of addr tableform listform)) {s : Int}
    (found : lookup s listform = some (bnodeAddr, bnode)) {bnode' : Bordernode V (TrieOf N V)} :
    Correct N root below (.of addr tableform (put s (bnodeAddr, bnode') listform)) ↔
      NodeCorrect N below bnode' := by
  have entries := h.entries
  have member := mem_of_lookup found
  constructor
  · intro after
    exact after.node (lookup_put_self s (bnodeAddr, bnode') listform)
  · intro node
    cases h with
    | of table list keys addrs nodes inrange size =>
      refine correct_of table (sorted_put list) ?_ ?_ ?_ ?_
      · rw [put_map (fun x : Val × Bordernode V (TrieOf N V) => x.1), ← entries]
        refine (put_of_mem (N.flatten_invariant table).1 ?_).symm
        rw [entries]
        exact List.mem_map_of_mem (f := fun e => (e.1, e.2.1)) member
      · intro e he
        rcases mem_put he with rfl | he
        · exact node
        · exact nodes e he
      · intro e he
        rcases mem_put he with rfl | he
        · exact inrange (s, bnodeAddr, bnode) member
        · exact inrange e he
      · exact size.trans (length_le_put _ _ _)

/-- A slice gets its first border node. -/
theorem correct_insert (h : Correct N root below (.of addr tableform listform)) {s : Int}
    (range : KeyInrange s) {c c' : N.Cursor} {tableform' : N.Table} (abs : N.AbsRel c tableform)
    (table : N.Put s bnodeAddr c tableform c' tableform') (node : NodeCorrect N below bnode) :
    Correct N root below (.of addr tableform' (put s (bnodeAddr, bnode) listform)) := by
  have entries := h.entries
  cases h with
  | of _ list keys addrs nodes inrange size =>
    refine correct_of (N.put_correct abs table) (sorted_put list) ?_ ?_ ?_ ?_
    · rw [put_map (fun x : Val × Bordernode V (TrieOf N V) => x.1), ← entries]
      exact N.put_permute abs table
    · intro e he
      rcases mem_put he with rfl | he
      · exact node
      · exact nodes e he
    · intro e he
      rcases mem_put he with rfl | he
      · exact range
      · exact inrange e he
    · exact size.trans (length_le_put _ _ _)

theorem correct_empty (notable : N.Empty tableform) :
    Correct N 0 below (.of addr tableform ([] : List (Int × (Val × Bordernode V (TrieOf N V))))) := by
  refine correct_of (N.empty_correct notable) sorted_nil ?_ ?_ ?_ (Nat.zero_le _)
  · rw [N.flatten_empty notable]
    rfl
  · intro e he
    cases he
  · intro e he
    cases he

theorem correct_size {least : Nat} : Correct N least below (.of addr tableform listform) ↔
    Correct N 0 below (.of addr tableform listform) ∧ least ≤ listform.length := by
  constructor
  · intro h
    cases h with
    | of table list keys addrs nodes inrange size =>
      exact ⟨.of table list keys addrs nodes inrange (Nat.zero_le _), size⟩
  · intro ⟨h, size⟩
    cases h with
    | of table list keys addrs nodes inrange _ => exact .of table list keys addrs nodes inrange size

end DeepDB.Trie
