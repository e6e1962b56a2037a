import DeepDB.Trie.Correct

/-!
What a trie holds: the value at the place a key has in it, the length of its last slice in the border
node of that slice, or the rest of it there, or its place in the subtrie. A put binds its key and
leaves every other key's value, a pair binds two keys.
-/

namespace DeepDB.Trie

open SortedAssoc

variable {Val V Table : Type}

/-- The value of a key. -/
def find (k : Key) : Trienode Table Val V → Option V
  | .of _ _ listform =>
    match lookup (getKeyslice k) listform with
    | none => none
    | some (_, bnode) =>
      if _short : k.length ≤ keysliceLength then BorderNode.getPrefix k.length bnode
      else
        match bnode.suffix with
        | none => none
        | some (.inl (k', v)) => if getSuffix k = k' then some v else none
        | some (.inr t') => find (getSuffix k) t'
termination_by k.length
decreasing_by exact length_getSuffix_lt (by omega)

/-- The value of a key among those of its slice. -/
def findNode (k : Key) (bnode : Bordernode V (Trienode Table Val V)) : Option V :=
  if k.length ≤ keysliceLength then BorderNode.getPrefix k.length bnode
  else
    match bnode.suffix with
    | none => none
    | some (.inl (k', v)) => if getSuffix k = k' then some v else none
    | some (.inr t') => find (getSuffix k) t'

section Layers

variable {addr : Val} {tableform : Table} {k k' : Key} {v : V}
  {listform : List (Int × (Val × Bordernode V (Trienode Table Val V)))}
  {bnode : Bordernode V (Trienode Table Val V)}

theorem find_of : find k (.of addr tableform listform)
    = (lookup (getKeyslice k) listform).bind fun e => findNode k e.2 := by
  rw [find]
  cases lookup (getKeyslice k) listform with
  | none => rfl
  | some e =>
    unfold findNode
    by_cases short : k.length ≤ keysliceLength
    · simp [short]
    · simp only [short, dite_false, if_false, Option.bind_some]

theorem find_empty : find k (.of addr tableform [] : Trienode Table Val V) = none := by
  rw [find_of]
  rfl

theorem findNode_short (short : k.length ≤ keysliceLength) :
    findNode k bnode = BorderNode.getPrefix k.length bnode := by
  unfold findNode
  rw [if_pos short]

theorem findNode_long (long : keysliceLength < k.length) :
    findNode k bnode = match bnode.suffix with
      | none => none
      | some (.inl (k', v)) => if getSuffix k = k' then some v else none
      | some (.inr t') => find (getSuffix k) t' := by
  unfold findNode
  rw [if_neg (by omega)]

/-- A layer's table has no part in what the layer holds. -/
theorem find_table {tableform' : Table} :
    find k (.of addr tableform' listform) = find k (.of addr tableform listform) := by
  rw [find_of, find_of]

/-- The keys of a slice after its border node is replaced. -/
theorem find_update {bnodeAddr : Val} :
    find k' (.of addr tableform (put (getKeyslice k) (bnodeAddr, bnode) listform))
      = if getKeyslice k' = getKeyslice k then findNode k' bnode
        else find k' (.of addr tableform listform) := by
  rw [find_of]
  split
  · rename_i same
    rw [same, lookup_put_self]
    rfl
  · rename_i apart
    rw [lookup_put_of_ne _ _ apart, find_of]

theorem find_found {s : Int} {bnodeAddr : Val} (found : lookup s listform = some (bnodeAddr, bnode))
    (same : getKeyslice k = s) : find k (.of addr tableform listform) = findNode k bnode := by
  rw [find_of, same, found]
  rfl

theorem find_absent (absent : lookup (getKeyslice k) listform = none) :
    find k (.of addr tableform listform) = none := by
  rw [find_of, absent]
  rfl

end Layers

/-! ### Border nodes -/

section Nodes

variable {k k' : Key} {v : V} {bnode : Bordernode V (Trienode Table Val V)}

@[simp] theorem findNode_empty :
    findNode k (BorderNode.empty : Bordernode V (Trienode Table Val V)) = none := by
  unfold findNode
  split
  · exact BorderNode.getPrefix_empty _
  · rfl

/-- A key that ends in the slice is the only one of its length. -/
theorem findNode_putPrefix (inv : BorderNode.Invariant bnode) (hk : k ≠ [])
    (short : k.length ≤ keysliceLength) (same : getKeyslice k' = getKeyslice k) :
    findNode k' (BorderNode.putPrefix k.length v bnode)
      = if k' = k then some v else findNode k' bnode := by
  split
  · rename_i here
    rw [here, findNode_short short]
    exact BorderNode.get_put_prefix_same inv (fun zero => hk (List.length_eq_zero_iff.mp zero)) short
  · rename_i other
    by_cases short' : k'.length ≤ keysliceLength
    · rw [findNode_short short', findNode_short short']
      exact BorderNode.get_put_prefix_diff fun lengths =>
        other (getKeyslice_short same lengths short')
    · have long' : keysliceLength < k'.length := Nat.lt_of_not_le short'
      rw [findNode_long long', findNode_long long', BorderNode.putPrefix_suffix]

/-- A longer key put as the rest of the slice takes the place of all the longer ones. -/
theorem findNode_putSuffix (long : keysliceLength < k.length)
    (same : getKeyslice k' = getKeyslice k) :
    findNode k' (BorderNode.putSuffix (getSuffix k) v bnode)
      = if k' = k then some v
        else if k'.length ≤ keysliceLength then findNode k' bnode else none := by
  by_cases short' : k'.length ≤ keysliceLength
  · have other : k' ≠ k := fun here => by
      rw [here] at short'
      omega
    rw [if_neg other, if_pos short', findNode_short short', findNode_short short',
      BorderNode.getPrefix_putSuffix]
  · have long' : keysliceLength < k'.length := Nat.lt_of_not_le short'
    rw [findNode_long long', BorderNode.putSuffix_suffix]
    simp only [if_neg short']
    by_cases here : k' = k
    · rw [if_pos here, if_pos (by rw [here])]
    · rw [if_neg here, if_neg fun suffix => here (getKeyslice_long same long' long suffix)]

theorem findNode_putValue (inv : BorderNode.Invariant bnode) (hk : k ≠ [])
    (same : getKeyslice k' = getKeyslice k) :
    findNode k' (BorderNode.putValue k v bnode)
      = if k' = k then some v
        else if k.length ≤ keysliceLength ∨ k'.length ≤ keysliceLength then findNode k' bnode
        else none := by
  unfold BorderNode.putValue
  by_cases short : k.length ≤ keysliceLength
  · rw [if_pos short, findNode_putPrefix inv hk short same, if_pos (Or.inl short)]
  · rw [if_neg short, findNode_putSuffix (Nat.lt_of_not_le short) same]
    simp only [short, false_or]

theorem findNode_putLink {t' : Trienode Table Val V} :
    findNode k' (BorderNode.putLink t' bnode)
      = if k'.length ≤ keysliceLength then findNode k' bnode else find (getSuffix k') t' := by
  split
  · rename_i short'
    rw [findNode_short short', findNode_short short', BorderNode.getPrefix_putLink]
  · rename_i long'
    rw [findNode_long (Nat.lt_of_not_le long'), BorderNode.putLink_suffix]

end Nodes

variable {N : FlattenableTable Val}

/-! ### A pair -/

/-- The trie of a pair holds the two keys and no other. -/
theorem find_createPair {k1 k2 : Key} {v1 v2 : V} {c : Cursor N V} {t : TrieOf N V}
    (h : CreatePair N k1 k2 v1 v2 c t) (ne : k1 ≠ k2) (hk1 : k1 ≠ []) (hk2 : k2 ≠ []) (k : Key) :
    find k t = if k = k1 then some v1 else if k = k2 then some v2 else none := by
  induction h generalizing k with
  | @case1 k1 k2 v1 v2 emptylist listform _ tableform _ _ bnodeAddr addr bnode same short hbnode
      nolist list notable table =>
    obtain ⟨rfl, -⟩ := list
    subst nolist hbnode
    rw [find_update, find_empty]
    split
    · rename_i here
      rw [findNode_putValue (BorderNode.putValue_invariant BorderNode.empty_invariant) hk2
        (here.trans same), findNode_putValue BorderNode.empty_invariant hk1 here, findNode_empty]
      by_cases first : k = k1
      · subst first
        rw [if_neg ne, if_pos short.symm, if_pos rfl, if_pos rfl]
      · by_cases second : k = k2
        · rw [if_pos second, if_neg first, if_pos second]
        · simp [first, second]
    · rename_i apart
      have first : k ≠ k1 := fun here => apart (by rw [here])
      have second : k ≠ k2 := fun here => apart (by rw [here, same])
      rw [if_neg first, if_neg second]
  | @case2 k1 k2 v1 v2 emptylist listform _ tableform _ _ bnodeAddr addr bnode c' t' same long sub
      hbnode nolist list notable table ih =>
    obtain ⟨rfl, -⟩ := list
    subst nolist hbnode
    have differ : getSuffix k1 ≠ getSuffix k2 := fun suffix =>
      ne (getKeyslice_long same long.1 long.2 suffix)
    have below := ih differ (getSuffix_ne_nil long.1) (getSuffix_ne_nil long.2)
    rw [find_update, find_empty]
    split
    · rename_i here
      rw [findNode_putLink, findNode_empty]
      split
      · rename_i short
        have first : k ≠ k1 := fun here => by
          rw [here] at short
          omega
        have second : k ≠ k2 := fun here => by
          rw [here] at short
          omega
        rw [if_neg first, if_neg second]
      · rename_i longer
        have long' : keysliceLength < k.length := Nat.lt_of_not_le longer
        have first : getSuffix k = getSuffix k1 ↔ k = k1 :=
          ⟨getKeyslice_long here long' long.1, fun same => by rw [same]⟩
        have second : getSuffix k = getSuffix k2 ↔ k = k2 :=
          ⟨getKeyslice_long (here.trans same) long' long.2, fun same => by rw [same]⟩
        rw [below]
        simp only [first, second]
    · rename_i apart
      have first : k ≠ k1 := fun here => apart (by rw [here])
      have second : k ≠ k2 := fun here => apart (by rw [here, same])
      rw [if_neg first, if_neg second]
  | @case3 k1 k2 v1 v2 emptylist listform1 listform2 _ _ _ _ _ _ _ bnodeAddr1 bnodeAddr2 addr bnode1
      bnode2 apart hbnode1 hbnode2 nolist list2 list1 notable table2 table1 =>
    obtain ⟨rfl, -⟩ := list2
    obtain ⟨rfl, -⟩ := list1
    subst nolist hbnode1 hbnode2
    rw [find_update, find_update, find_empty]
    split
    · rename_i here
      have second : k ≠ k2 := fun same => apart (by rw [← here, same])
      rw [findNode_putValue BorderNode.empty_invariant hk1 here, findNode_empty, ite_self,
        if_neg second]
    · rename_i other
      have first : k ≠ k1 := fun here => other (by rw [here])
      rw [if_neg first]
      split
      · rename_i here
        rw [findNode_putValue BorderNode.empty_invariant hk2 here, findNode_empty, ite_self]
      · rename_i other'
        have second : k ≠ k2 := fun here => other' (by rw [here])
        rw [if_neg second]

/-! ### A put -/

theorem getLink_eq {bnode : Bordernode V (TrieOf N V)} {t : TrieOf N V}
    (h : BorderNode.getLink bnode = some t) : bnode.suffix = some (.inr t) := by
  unfold BorderNode.getLink at h
  split at h
  · rename_i w hs
    cases h
    exact hs
  · cases h

theorem getSuffixPair_eq {bnode : Bordernode V (TrieOf N V)} {k : Key} {v : V}
    (h : BorderNode.getSuffixPair bnode = some (k, v)) : bnode.suffix = some (.inl (k, v)) := by
  unfold BorderNode.getSuffixPair at h
  split at h
  · rename_i k' v' hs
    cases h
    exact hs
  · cases h

theorem testSuffix_eq {bnode : Bordernode V (TrieOf N V)} {k : Key}
    (h : BorderNode.testSuffix k bnode = true) : ∃ v, bnode.suffix = some (.inl (k, v)) := by
  unfold BorderNode.testSuffix at h
  split at h
  · rename_i k' v' hs
    rw [hs, beq_iff_eq.mp h]
    exact ⟨v', rfl⟩
  · cases h

/-- The trie after a put holds the new value and what it held of the other keys. -/
theorem find_put {root below : Nat} {k : Key} {v : V} {c c' : Cursor N V} {t t' : TrieOf N V}
    (h : Put N k v c t c' t') (correct : Correct N root below t) (hk : k ≠ []) (k' : Key) :
    find k' t' = if k' = k then some v else find k' t := by
  induction h generalizing root k' with
  | case1 found short hbnode abs list =>
    obtain ⟨rfl, -⟩ := list
    subst hbnode
    rw [Flattened.getExact_eq correct.sorted] at found
    have inv := (correct.node found).invariant
    rw [find_update]
    split
    · rename_i here
      rw [findNode_putPrefix inv hk short here, find_found found here]
    · rename_i apart
      rw [if_neg fun here => apart (by rw [here])]
  | case2 found long link sub hbnode abs list ih =>
    obtain ⟨rfl, -⟩ := list
    subst hbnode
    rw [Flattened.getExact_eq correct.sorted] at found
    have hlink := getLink_eq link
    have below := ih ((correct.node found).link hlink) (getSuffix_ne_nil long)
    rw [find_update]
    split
    · rename_i here
      rw [findNode_putLink, find_found found here]
      split
      · rename_i short'
        rw [if_neg fun same => by rw [same] at short'; omega]
      · rename_i longer
        have long' := Nat.lt_of_not_le longer
        have suffix : getSuffix k' = getSuffix _ ↔ k' = _ :=
          ⟨getKeyslice_long here long' long, fun same => by rw [same]⟩
        rw [below, findNode_long long', hlink]
        simp only [suffix]
    · rename_i apart
      rw [if_neg fun here => apart (by rw [here])]
  | case3 found long nothing hbnode abs list =>
    obtain ⟨rfl, -⟩ := list
    subst hbnode
    rw [Flattened.getExact_eq correct.sorted] at found
    rw [find_update]
    split
    · rename_i here
      rw [findNode_putSuffix long here, find_found found here]
      split
      · rfl
      · split
        · rfl
        · rename_i longer
          rw [findNode_long (Nat.lt_of_not_le longer), nothing]
    · rename_i apart
      rw [if_neg fun here => apart (by rw [here])]
  | case4 found long equal hbnode abs list =>
    obtain ⟨rfl, -⟩ := list
    subst hbnode
    rw [Flattened.getExact_eq correct.sorted] at found
    obtain ⟨w, hs⟩ := testSuffix_eq equal
    rw [find_update]
    split
    · rename_i here
      rw [findNode_putSuffix long here, find_found found here]
      split
      · rfl
      · rename_i other
        split
        · rfl
        · rename_i longer
          have long' := Nat.lt_of_not_le longer
          rw [findNode_long long', hs]
          simp only
          rw [if_neg fun suffix => other (getKeyslice_long here long' long suffix)]
    · rename_i apart
      rw [if_neg fun here => apart (by rw [here])]
  | @case5 k v c tableform listform listform' _ _ bnodeAddr addr bnode bnode' c' t' k2 v2 found long
      pair differ create hbnode abs list =>
    obtain ⟨rfl, -⟩ := list
    subst hbnode
    rw [Flattened.getExact_eq correct.sorted] at found
    have hs := getSuffixPair_eq pair
    have both := find_createPair create differ (getSuffix_ne_nil long)
      ((correct.node found).pair hs)
    rw [find_update]
    split
    · rename_i here
      rw [findNode_putLink, find_found found here]
      split
      · rename_i short'
        rw [if_neg fun same => by rw [same] at short'; omega]
      · rename_i longer
        have long' := Nat.lt_of_not_le longer
        have suffix : getSuffix k' = getSuffix k ↔ k' = k :=
          ⟨getKeyslice_long here long' long, fun same => by rw [same]⟩
        rw [both, findNode_long long', hs]
        simp only [suffix]
    · rename_i apart
      rw [if_neg fun here => apart (by rw [here])]
  | case6 absent hbnode abs list tableAbs table =>
    obtain ⟨rfl, -⟩ := list
    subst hbnode
    rw [Flattened.getExact_eq correct.sorted] at absent
    rw [find_update]
    split
    · rename_i here
      rw [findNode_putValue BorderNode.empty_invariant hk here, findNode_empty, ite_self]
      have nothing := absent
      rw [← here] at nothing
      rw [find_absent nothing]
    · rename_i apart
      rw [if_neg fun here => apart (by rw [here])]
      exact find_table

end DeepDB.Trie
