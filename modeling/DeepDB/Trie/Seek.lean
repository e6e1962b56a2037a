import DeepDB.Trie.Flatten
import DeepDB.Trie.Normalize

/-!
The cursor of a key of the functional trie, whether the key is stored or not. Where the links along
the key lead to a layer with its slice, the cursor stands before the least key of this layer that is
not below the key. Where the slice is not there `make_cursor` gives no entry for the layer, and where
the layer has nothing at or after the key `normalize_cursor` starts it again at its first key.
-/

namespace DeepDB.Trie

open SortedAssoc

variable {Val V : Type} {N : FlattenableTable Val}

/-! ### The layers along a key -/

section

variable {Table : Type}

def hasSlice (k : Key) : Trienode Table Val V → Bool
  | .of _ _ listform => (lookup (getKeyslice k) listform).isSome

/-- The subtrie where the search for a key goes on. -/
def linkOf (k : Key) : Trienode Table Val V → Option (Trienode Table Val V)
  | .of _ _ listform =>
    if k.length ≤ keysliceLength then none
    else (lookup (getKeyslice k) listform).bind fun e => BorderNode.getLink e.2

theorem linkOf_long {k : Key} {t t' : Trienode Table Val V} (link : linkOf k t = some t') :
    keysliceLength < k.length := by
  obtain ⟨addr, tableform, listform⟩ := t
  rw [linkOf, Option.ite_none_left_eq_some] at link
  exact Nat.lt_of_not_le link.1

/-- The layer that the links along a key lead to, and what is left of the key there. -/
def lastLayer (k : Key) (t : Trienode Table Val V) : Key × Trienode Table Val V :=
  match _h : linkOf k t with
  | none => (k, t)
  | some t' => lastLayer (getSuffix k) t'
termination_by k.length
decreasing_by exact length_getSuffix_lt (linkOf_long _h)

variable {k : Key} {t t' : Trienode Table Val V}

theorem lastLayer_here (nothing : linkOf k t = none) : lastLayer k t = (k, t) := by
  rw [lastLayer]
  split
  · rfl
  · rename_i t' link
    rw [nothing] at link
    cases link

theorem lastLayer_link (link : linkOf k t = some t') :
    lastLayer k t = lastLayer (getSuffix k) t' := by
  rw [lastLayer]
  split
  · rename_i nothing
    rw [nothing] at link
    cases link
  · rename_i t'' link'
    rw [link] at link'
    cases link'
    rfl

end

/-- The least key of a trie that is not below `k`, with its value. -/
def leastFrom {Table : Type} (k : Key) (t : Trienode Table Val V) : Option (Key × V) :=
  (contents t)[rank k (contents t)]?

/-! ### Entries on both sides of a key -/

section

variable {k r : Key} (long : keysliceLength < k.length)
include long

theorem spell_append_lt (less : r < getSuffix k) : spell (getKeyslice k) keysliceLength ++ r < k := by
  have front : spell (getKeyslice k) keysliceLength ++ r <
      spell (getKeyslice k) keysliceLength ++ getSuffix k := List.Lex.append_left _ less _
  rwa [spell_append_getSuffix long] at front

theorem le_spell_append (le : getSuffix k ≤ r) : k ≤ spell (getKeyslice k) keysliceLength ++ r := by
  have whole := spell_append_getSuffix long
  rcases lt_or_eq_of_le le with less | equal
  · have front : spell (getKeyslice k) keysliceLength ++ getSuffix k <
        spell (getKeyslice k) keysliceLength ++ r := List.Lex.append_left _ less _
    rw [whole] at front
    exact le_of_lt front
  · rw [← equal, whole]

end

theorem prefixContents_append (s : Int) (front rest : List (Option V)) (len : Nat) :
    prefixContents s (front ++ rest) len =
      prefixContents s front len ++ prefixContents s rest (len + front.length) := by
  induction front generalizing len with
  | nil => rfl
  | cons w front ih =>
    have more : len + 1 + front.length = len + (w :: front).length := by
      rw [List.length_cons]
      omega
    cases w with
    | none => rw [List.cons_append, prefixContents, prefixContents, ih, more]
    | some w => rw [List.cons_append, prefixContents, prefixContents, ih, more, List.cons_append]

/-- The keys that end in a slice have the lengths of their places. -/
theorem length_prefixContents {s : Int} {prefixes : List (Option V)} {len : Nat} {e : Key × V}
    (inside : len + prefixes.length ≤ keysliceLength + 1) (he : e ∈ prefixContents s prefixes len) :
    len ≤ e.1.length ∧ e.1.length < len + prefixes.length := by
  obtain ⟨i, here, same⟩ := mem_prefixContents.mp he
  have room := (List.getElem?_eq_some_iff.mp here).1
  rw [same, length_spell s (by omega)]
  omega

section

variable {root : Nat} {addr a : Val} {tableform : N.Table} {k : Key}
  {listform : List (Int × (Val × Bordernode V (TrieOf N V)))} {bnode : Bordernode V (TrieOf N V)}
  (correct : Correct N root 1 (.of addr tableform listform))
  (spelled : Spelled (.of addr tableform listform))
  (found : lookup (getKeyslice k) listform = some (a, bnode))
include correct spelled found

/-- A layer is cut at a key where the border node of its slice is. -/
theorem leastFrom_node {front rest : List (Key × V)}
    (split : nodeContents (getKeyslice k) bnode = front ++ rest)
    (before : ∀ e ∈ front, e.1 < k) (after : ∀ e ∈ rest, k ≤ e.1) :
    leastFrom k (.of addr tableform listform) =
      (rest ++ (listform.drop (rank (getKeyslice k) listform + 1)).flatMap fun e =>
        nodeContents e.1 e.2.2).head? := by
  have here := getElem?_rank_of_mem correct.sorted (mem_of_lookup found)
  obtain ⟨smaller, -⟩ := rank_split (k := getKeyslice k) correct.sorted
  have cut : contents (.of addr tableform listform) =
      ((listform.take (rank (getKeyslice k) listform)).flatMap (fun e => nodeContents e.1 e.2.2) ++
        front) ++ (rest ++ (listform.drop (rank (getKeyslice k) listform + 1)).flatMap fun e =>
          nodeContents e.1 e.2.2) := by
    calc contents (.of addr tableform listform)
        = (listform.take (rank (getKeyslice k) listform) ++
            listform.drop (rank (getKeyslice k) listform)).flatMap
              (fun e => nodeContents e.1 e.2.2) := by rw [contents_of, List.take_append_drop]
      _ = _ := by
        rw [List.flatMap_append, drop_flatMap _ here]
        dsimp only
        rw [split]
        simp only [List.append_assoc]
  have larger : ∀ e ∈ listform.drop (rank (getKeyslice k) listform + 1), getKeyslice k < e.1 := by
    have sorted : Sorted (listform.drop (rank (getKeyslice k) listform)) := by
      have whole := correct.sorted
      rw [← List.take_append_drop (rank (getKeyslice k) listform) listform] at whole
      exact (sorted_append.mp whole).2.1
    obtain ⟨room, value⟩ := List.getElem?_eq_some_iff.mp here
    rw [List.drop_eq_getElem_cons room, value] at sorted
    exact (sorted_cons.mp sorted).1
  unfold leastFrom
  rw [cut]
  apply getElem?_rank_append
  · intro x hx
    rcases List.mem_append.mp hx with hx | hx
    · obtain ⟨e, he, hx⟩ := List.mem_flatMap.mp hx
      apply lt_of_getKeyslice
      rw [node_slice correct spelled (List.mem_of_mem_take he) hx]
      exact smaller e he
    · exact before x hx
  · intro x hx
    rcases List.mem_append.mp hx with hx | hx
    · exact after x hx
    · obtain ⟨e, he, hx⟩ := List.mem_flatMap.mp hx
      apply le_of_lt
      apply lt_of_getKeyslice
      rw [node_slice correct spelled (List.mem_of_mem_drop he) hx]
      exact larger e he

/-- Of the keys of a slice the shorter ones are smaller, as long as they end in it. -/
theorem lt_of_shorter {e : Key × V} (he : e ∈ nodeContents (getKeyslice k) bnode)
    (short : e.1.length ≤ keysliceLength) (shorter : e.1.length < k.length) : e.1 < k :=
  lt_of_short (node_slice correct spelled (mem_of_lookup found) he) short shorter

theorem le_of_longer {e : Key × V} (he : e ∈ nodeContents (getKeyslice k) bnode)
    (short : k.length ≤ keysliceLength) (longer : k.length ≤ e.1.length) : k ≤ e.1 := by
  have same := node_slice correct spelled (mem_of_lookup found) he
  rcases Nat.lt_or_eq_of_le longer with more | equal
  · exact le_of_lt (lt_of_short same.symm short more)
  · exact le_of_eq (getKeyslice_short same.symm equal short)

/-- A key that ends in its slice. -/
theorem leastFrom_short (hk : k ≠ []) (short : k.length ≤ keysliceLength) :
    leastFrom k (.of addr tableform listform) =
      (layerFrom false listform (rank (getKeyslice k) listform) (getKeyslice k) bnode
        (.beforePrefix k.length)).head? := by
  have node := correct.node found
  have inv := node.invariant
  unfold BorderNode.Invariant at inv
  have positive := List.length_pos_iff.mpr hk
  have split : nodeContents (getKeyslice k) bnode =
      prefixContents (getKeyslice k) (bnode.prefixes.take (k.length - 1)) 1 ++
        nodeFrom false (getKeyslice k) bnode (.beforePrefix k.length) := by
    have length : 1 + (bnode.prefixes.take (k.length - 1)).length = k.length := by
      rw [List.length_take]
      omega
    have cut := prefixContents_append (getKeyslice k) (bnode.prefixes.take (k.length - 1))
      (bnode.prefixes.drop (k.length - 1)) 1
    rw [List.take_append_drop, length] at cut
    rw [nodeContents, cut, nodeFrom, List.append_assoc]
    rfl
  apply leastFrom_node correct spelled found split
  · intro e he
    have lengths := length_prefixContents (by rw [List.length_take]; omega) he
    rw [List.length_take] at lengths
    have member : e ∈ nodeContents (getKeyslice k) bnode := by
      rw [split]
      exact List.mem_append_left _ he
    exact lt_of_shorter correct spelled found member (by omega) (by omega)
  · intro e he
    have member : e ∈ nodeContents (getKeyslice k) bnode := by
      rw [split]
      exact List.mem_append_right _ he
    apply le_of_longer correct spelled found member short
    rcases List.mem_append.mp he with he | he
    · exact (length_prefixContents (by rw [List.length_drop]; omega) he).1
    · obtain ⟨r, hr, same⟩ := suffixContents_longer node (spelled.node found) he
      rw [same, List.length_append, length_spell _ (Nat.le_refl _)]
      omega

/-- The keys that end in the slice of a longer key are below it. -/
theorem prefix_lt (long : keysliceLength < k.length) {e : Key × V}
    (he : e ∈ prefixContents (getKeyslice k) bnode.prefixes 1) : e.1 < k := by
  have inv := (correct.node found).invariant
  unfold BorderNode.Invariant at inv
  have lengths := length_prefixContents (by omega) he
  exact lt_of_shorter correct spelled found (List.mem_append_left _ he) (by omega) (by omega)

/-- A key that goes on after its slice, where nothing comes up to it there. -/
theorem leastFrom_after (long : keysliceLength < k.length)
    (below : ∀ e ∈ suffixContents (getKeyslice k) bnode, e.1 < k) :
    leastFrom k (.of addr tableform listform) =
      (layerFrom false listform (rank (getKeyslice k) listform) (getKeyslice k) bnode
        .afterSuffix).head? := by
  apply leastFrom_node correct spelled found (List.append_nil _).symm
  · intro e he
    rcases List.mem_append.mp he with he | he
    · exact prefix_lt correct spelled found long he
    · exact below e he
  · intro e no
    cases no

theorem leastFrom_before (long : keysliceLength < k.length)
    (above : ∀ e ∈ suffixContents (getKeyslice k) bnode, k ≤ e.1) :
    leastFrom k (.of addr tableform listform) =
      (layerFrom false listform (rank (getKeyslice k) listform) (getKeyslice k) bnode
        .beforeSuffix).head? :=
  leastFrom_node correct spelled found rfl (fun _ he => prefix_lt correct spelled found long he) above

/-- Below a link the least key from `k` on is the least one from the rest of `k` on, if there is one. -/
theorem leastFrom_link (long : keysliceLength < k.length) {t' : TrieOf N V}
    (hs : bnode.suffix = some (.inr t')) {e : Key × V} (least : leastFrom (getSuffix k) t' = some e) :
    leastFrom k (.of addr tableform listform) =
      some (spell (getKeyslice k) keysliceLength ++ e.1, e.2) := by
  obtain ⟨smaller, larger⟩ := rank_split (k := getSuffix k)
    (contents_sorted ((correct.node found).link hs) ((spelled.node found).link hs))
  have split : nodeContents (getKeyslice k) bnode =
      (prefixContents (getKeyslice k) bnode.prefixes 1 ++
        prepend (spell (getKeyslice k) keysliceLength)
          ((contents t').take (rank (getSuffix k) (contents t')))) ++
        prepend (spell (getKeyslice k) keysliceLength)
          ((contents t').drop (rank (getSuffix k) (contents t'))) := by
    rw [nodeContents, suffixContents, hs, List.append_assoc, prepend, prepend, ← List.map_append,
      List.take_append_drop]
    rfl
  have head : ((contents t').drop (rank (getSuffix k) (contents t'))).head? = some e := by
    rw [List.head?_drop]
    exact least
  obtain ⟨rest, hrest⟩ := List.head?_eq_some_iff.mp head
  rw [leastFrom_node correct spelled found split, hrest]
  · rfl
  · intro x hx
    rcases List.mem_append.mp hx with hx | hx
    · exact prefix_lt correct spelled found long hx
    · obtain ⟨r, hr, same⟩ := mem_prepend.mp hx
      rw [same]
      exact spell_append_lt long (smaller _ hr)
  · intro x hx
    obtain ⟨r, hr, same⟩ := mem_prepend.mp hx
    rw [same]
    exact le_spell_append long (larger _ hr)

end

/-! ### The cursor of a key -/

/-- A cursor is moved on to an entry with the value, or to none. -/
def Reads (P : Positions N) (t : TrieOf N V) (c : Cursor N V) : Option V → Prop
  | none => normalizeCursor N c = none
  | some v => ∃ c', normalizeCursor N c = some c' ∧ Stands P t c' v

def firstValue {Table : Type} (t : Trienode Table Val V) : Option V := (contents t).head?.map Prod.snd

section

variable {root : Nat} {P : Positions N} {t t' : TrieOf N V} {c : Cursor N V} {k : Key} {addr : Val}
  {tableform : N.Table} {listform : List (Int × (Val × Bordernode V (TrieOf N V)))}

theorem Reads.getValue {v : Option V} (reads : Reads P t c v) (correct : Correct N root 1 t) :
    getValue N c t = v := by
  unfold Trie.getValue Trie.get
  cases v with
  | none =>
    unfold Reads at reads
    rw [reads]
  | some v =>
    obtain ⟨c', normal, stands⟩ := reads
    obtain ⟨key, raw⟩ := stands.getRaw correct
    simp only [normal, raw]

theorem reads_layerHead {i : Nat} {s : Int} {tc : N.Cursor} {bnode : Bordernode V (TrieOf N V)}
    (correct : Correct N root 1 (.of addr tableform listform))
    (here : At P tableform listform i s tc bnode) {pos : BorderNode.Cursor} (inside : Inside pos) :
    Reads P (.of addr tableform listform) [(.of addr tableform listform, tc, bnode, pos)]
      ((layerFrom false listform i s bnode pos).head?.map Prod.snd) := by
  have nothing : normalizeCursor N ([] : Cursor N V) = none := rfl
  rcases normalizeCursor_settled false correct here inside nothing with ⟨empty, none⟩ | settled
  · rw [empty]
    exact none
  · obtain ⟨e, rest, c', list, normal, stands⟩ :=
      settled_stands settled (correct.subtries_firstStands P)
    rw [list]
    exact ⟨c', normal, stands⟩

theorem makeCursor_absent (correct : Correct N root 1 t) (absent : hasSlice k t = false) :
    makeCursor byteOrder N k t = [] := by
  obtain ⟨addr, tableform, listform⟩ := t
  have nothing : lookup (getKeyslice k) listform = none :=
    Option.isNone_iff_eq_none.mp (Option.isSome_eq_false_iff.mp absent)
  rw [makeCursor, (Flattened.getExact_eq correct.sorted).trans nothing]

/-- In a layer with its slice, and no link there, a key's cursor stands before the least key from
it on. -/
theorem reads_slice (correct : Correct N root 1 t) (spelled : Spelled t) (hk : k ≠ [])
    (slice : hasSlice k t = true) (nothing : linkOf k t = none) :
    Reads P t (makeCursor byteOrder N k t) ((leastFrom k t).map Prod.snd) := by
  obtain ⟨addr, tableform, listform⟩ := t
  obtain ⟨⟨a, bnode⟩, found⟩ := Option.isSome_iff_exists.mp slice
  have here := At.make (P := P) correct found
  have exact := (Flattened.getExact_eq correct.sorted).trans found
  rw [makeCursor, exact]
  by_cases short : k.length ≤ keysliceLength
  · have inside : Inside (.beforePrefix k.length) := ⟨List.length_pos_iff.mpr hk, short⟩
    rw [leastFrom_short correct spelled found hk short]
    simp only [short, dite_true]
    exact reads_layerHead correct here inside
  · have long := Nat.lt_of_not_le short
    simp only [short, dite_false]
    rw [linkOf, if_neg short, found, Option.bind_some] at nothing
    rcases hs : bnode.suffix with _ | ⟨k', v⟩ | t'
    · have below : ∀ e ∈ suffixContents (getKeyslice k) bnode, e.1 < k := by
        intro e no
        rw [suffixContents, hs] at no
        cases no
      rw [leastFrom_after correct spelled found long below]
      exact reads_layerHead correct here trivial
    · dsimp only
      have single : ∀ e ∈ suffixContents (getKeyslice k) bnode,
          e.1 = spell (getKeyslice k) keysliceLength ++ k' := by
        intro e he
        rw [suffixContents, hs] at he
        rw [List.mem_singleton.mp he]
      split
      · rename_i less
        have below : ∀ e ∈ suffixContents (getKeyslice k) bnode, e.1 < k := by
          intro e he
          rw [single e he]
          exact spell_append_lt long less
        rw [leastFrom_after correct spelled found long below]
        exact reads_layerHead correct here trivial
      · rename_i notLess
        have above : ∀ e ∈ suffixContents (getKeyslice k) bnode, k ≤ e.1 := by
          intro e he
          rw [single e he]
          exact le_spell_append long (not_lt.mp notLess)
        rw [leastFrom_before correct spelled found long above]
        exact reads_layerHead correct here trivial
    · rw [BorderNode.getLink_eq_some.mpr hs] at nothing
      cases nothing

theorem linkOf_found (link : linkOf k (.of addr tableform listform) = some t') :
    ∃ a bnode, lookup (getKeyslice k) listform = some (a, bnode) ∧ bnode.suffix = some (.inr t') := by
  have long := linkOf_long link
  rw [linkOf, if_neg (by omega)] at link
  obtain ⟨⟨a, bnode⟩, found, here⟩ := Option.bind_eq_some_iff.mp link
  exact ⟨a, bnode, found, BorderNode.getLink_eq_some.mp here⟩

theorem linkOf_correct (correct : Correct N root 1 t) (spelled : Spelled t)
    (link : linkOf k t = some t') : Correct N 1 1 t' ∧ Spelled t' := by
  obtain ⟨addr, tableform, listform⟩ := t
  obtain ⟨a, bnode, found, hs⟩ := linkOf_found link
  exact ⟨(correct.node found).link hs, (spelled.node found).link hs⟩

/-- Where the subtrie has nothing for the cursor it is started again. -/
theorem reads_link (correct : Correct N root 1 t) (link : linkOf k t = some t') {v : Option V}
    (sub : Reads P t' (makeCursor byteOrder N (getSuffix k) t') v) :
    Reads P t (makeCursor byteOrder N k t) (v.or (firstValue t')) := by
  obtain ⟨addr, tableform, listform⟩ := t
  have notShort : ¬k.length ≤ keysliceLength := Nat.not_le.mpr (linkOf_long link)
  obtain ⟨a, bnode, found, hs⟩ := linkOf_found link
  have here := At.make (P := P) correct found
  have whole : makeCursor byteOrder N k (.of addr tableform listform) =
      (.of addr tableform listform, N.makeCursor (getKeyslice k) tableform, bnode, .beforeSuffix) ::
        makeCursor byteOrder N (getSuffix k) t' := by
    rw [makeCursor, (Flattened.getExact_eq correct.sorted).trans found]
    simp only [notShort, dite_false]
    rw [hs]
  rw [whole]
  cases v with
  | none =>
    obtain ⟨e, rest, c', list, first, stands⟩ := firstStands P ((correct.node found).link hs)
    have again : normalizeCursor N ((.of addr tableform listform,
        N.makeCursor (getKeyslice k) tableform, bnode, .beforeSuffix) ::
          makeCursor byteOrder N (getSuffix k) t') = _ := normalizeCursor_again hs sub
    rw [first, Option.map_some] at again
    rw [Option.none_or, firstValue, list]
    exact ⟨_, again, .link here hs stands⟩
  | some v =>
    obtain ⟨c', normal, stands⟩ := sub
    exact ⟨_, normalizeCursor_inner normal _, .link here hs stands⟩

/-! ### What is read -/

/-- What the last layer along a key has for its cursor. -/
def lastValueFrom {Table : Type} (k : Key) (t : Trienode Table Val V) : Option V :=
  if hasSlice (lastLayer k t).1 (lastLayer k t).2 then
    (leastFrom (lastLayer k t).1 (lastLayer k t).2).map Prod.snd
  else none

def valueFrom {Table : Type} (k : Key) (t : Trienode Table Val V) : Option V :=
  if (linkOf k t).isSome then (lastValueFrom k t).or (firstValue (lastLayer k t).2)
  else lastValueFrom k t

theorem lastLayer_correct (correct : Correct N root 1 t) (spelled : Spelled t)
    (link : (linkOf k t).isSome) :
    Correct N 1 1 (lastLayer k t).2 := by
  induction k, t using lastLayer.induct generalizing root with
  | case1 k t nothing =>
    rw [nothing] at link
    cases link
  | case2 k t t' here ih =>
    obtain ⟨below, spelled'⟩ := linkOf_correct correct spelled here
    rw [lastLayer_link here]
    by_cases more : (linkOf (getSuffix k) t').isSome
    · exact ih below spelled' more
    · rw [lastLayer_here (Option.not_isSome_iff_eq_none.mp more)]
      exact below

theorem firstValue_isSome (correct : Correct N 1 1 t) : (firstValue t).isSome := by
  obtain ⟨e, rest, list⟩ := List.exists_cons_of_ne_nil (contents_ne_nil correct)
  rw [firstValue, list]
  rfl

/-- The cursor reads from the last layer along the key, and starts this layer again where that gives
nothing. -/
theorem reads_makeCursor (P : Positions N) (correct : Correct N root 1 t) (spelled : Spelled t)
    (hk : k ≠ []) : Reads P t (makeCursor byteOrder N k t) (valueFrom k t) := by
  induction k, t using lastLayer.induct generalizing root with
  | case1 k t nothing =>
    rw [valueFrom, nothing, lastValueFrom, lastLayer_here nothing]
    cases slice : hasSlice k t with
    | false =>
      rw [makeCursor_absent correct slice]
      exact rfl
    | true => exact reads_slice correct spelled hk slice nothing
  | case2 k t t' link ih =>
    obtain ⟨below, spelled'⟩ := linkOf_correct correct spelled link
    have sub := reads_link correct link
      (ih below spelled' (getSuffix_ne_nil (linkOf_long link)))
    have whole : (valueFrom (getSuffix k) t').or (firstValue t') = valueFrom k t := by
      rw [valueFrom, valueFrom, link, lastValueFrom, lastValueFrom, lastLayer_link link]
      cases more : linkOf (getSuffix k) t' with
      | none =>
        rw [lastLayer_here more]
        rfl
      | some t'' =>
        have first := firstValue_isSome (lastLayer_correct below spelled' (Option.isSome_of_eq_some more))
        obtain ⟨v, hv⟩ := Option.isSome_iff_exists.mp first
        simp only [Option.isSome_some, if_true, hv, Option.or_assoc, Option.some_or]
    rw [← whole]
    exact sub

/-- The least key of the last layer from the rest of `k` on belongs to the least key from `k` on. -/
theorem leastFrom_last (correct : Correct N root 1 t) (spelled : Spelled t) {e : Key × V}
    (least : leastFrom (lastLayer k t).1 (lastLayer k t).2 = some e) :
    (leastFrom k t).map Prod.snd = some e.2 := by
  induction k, t using lastLayer.induct generalizing root with
  | case1 k t nothing =>
    rw [lastLayer_here nothing] at least
    rw [least, Option.map_some]
  | case2 k t t' link ih =>
    obtain ⟨below, spelled'⟩ := linkOf_correct correct spelled link
    rw [lastLayer_link link] at least
    obtain ⟨e', here, value⟩ := Option.map_eq_some_iff.mp (ih below spelled' least)
    obtain ⟨addr, tableform, listform⟩ := t
    obtain ⟨a, bnode, found, hs⟩ := linkOf_found link
    rw [leastFrom_link correct spelled found (linkOf_long link) hs here, Option.map_some, value]

end

/-! ### The law -/

theorem leastFrom_eq_none {Table : Type} {k : Key} {t : Trienode Table Val V} :
    leastFrom k t = none ↔ ∀ e ∈ contents t, e.1 < k := by
  rw [leastFrom, List.getElem?_eq_none_iff, ← rank_eq_length]
  exact ⟨fun le => Nat.le_antisymm (rank_le_length k _) le, fun equal => equal.ge⟩

/-- The cursor of `k` reads the value of the least key put that is not below `k`. -/
structure SeekLaw (log : List (Key × V)) (k : Key) (t : TrieOf N V) : Prop where
  least : ∀ k' v, lastValue k' log = some v → k ≤ k' → (∀ e ∈ log, k ≤ e.1 → k' ≤ e.1) →
    getValue N (makeCursor byteOrder N k t) t = some v
  none : getValue N (makeCursor byteOrder N k t) t = none ↔ ∀ e ∈ log, e.1 < k

/-- Where the layers of a trie lead a search to the least key from `k` on. -/
inductive Sought {Table : Type} (k : Key) (t : Trienode Table Val V) : Prop
  /-- The first layer has the slice. -/
  | here (nothing : linkOf k t = none) (slice : hasSlice k t)
  /-- All keys are below. -/
  | above (nothing : linkOf k t = none) (below : ∀ e ∈ contents t, e.1 < k)
  /-- The layer the links lead to has the slice, and a key at or after what is left of `k`. -/
  | inside (link : (linkOf k t).isSome) (slice : hasSlice (lastLayer k t).1 (lastLayer k t).2)
    (least : ∃ e ∈ contents (lastLayer k t).2, (lastLayer k t).1 ≤ e.1)
  /-- No key of this layer is below what is left of `k`. -/
  | first (link : (linkOf k t).isSome)
    (above : ∀ e ∈ contents (lastLayer k t).2, (lastLayer k t).1 ≤ e.1)
  /-- Its first key happens to have the same value. -/
  | same (link : (linkOf k t).isSome) (e : Key × V) (least : leastFrom k t = some e)
    (value : firstValue (lastLayer k t).2 = some e.2)

section

variable {log : List (Key × V)} {k : Key} {t : TrieOf N V}

theorem mem_contents_runs (runs : Runs N log t) {k : Key} {v : V} :
    (k, v) ∈ contents t ↔ lastValue k log = some v := by
  obtain ⟨correct, holds⟩ := runs_correct runs
  rw [mem_contents_iff_find correct (runs_spelled runs), holds]

theorem keys_contents (runs : Runs N log t) (Q : Key → Prop) :
    (∀ e ∈ contents t, Q e.1) ↔ ∀ e ∈ log, Q e.1 := by
  constructor
  · intro all e he
    obtain ⟨v, last⟩ := lastValue_isSome (List.mem_map_of_mem he)
    exact all (e.1, v) ((mem_contents_runs runs).mpr last)
  · intro all e he
    obtain ⟨e', he', same⟩ := List.mem_map.mp (lastValue_mem ((mem_contents_runs runs).mp he))
    exact same ▸ all e' he'

theorem leastFrom_eq_some (runs : Runs N log t) {e : Key × V} :
    leastFrom k t = some e ↔
      lastValue e.1 log = some e.2 ∧ k ≤ e.1 ∧ ∀ x ∈ log, k ≤ x.1 → e.1 ≤ x.1 := by
  rw [leastFrom, getElem?_rank_iff (contents_sorted (runs_correct runs).1 (runs_spelled runs)),
    ← mem_contents_runs runs, ← keys_contents runs fun x => k ≤ x → e.1 ≤ x]

theorem seekLaw_iff_value (runs : Runs N log t) :
    SeekLaw log k t ↔
      getValue N (makeCursor byteOrder N k t) t = (leastFrom k t).map Prod.snd := by
  constructor
  · intro law
    cases least : leastFrom k t with
    | none =>
      apply law.none.mpr
      exact (keys_contents runs (· < k)).mp (leastFrom_eq_none.mp least)
    | some e =>
      obtain ⟨last, above, smallest⟩ := (leastFrom_eq_some runs).mp least
      exact law.least e.1 e.2 last above smallest
  · intro read
    constructor
    · intro k' v last above smallest
      have least : leastFrom k t = some (k', v) :=
        (leastFrom_eq_some runs).mpr ⟨last, above, smallest⟩
      rw [read, least, Option.map_some]
    · rw [read, Option.map_eq_none_iff, leastFrom_eq_none]
      exact keys_contents runs (· < k)

theorem valueFrom_here (nothing : linkOf k t = none) :
    valueFrom k t = (leastFrom k t).map Prod.snd ↔ Sought k t := by
  rw [valueFrom, lastValueFrom, lastLayer_here nothing, nothing]
  cases slice : hasSlice k t with
  | true => exact ⟨fun _ => .here nothing slice, fun _ => rfl⟩
  | false =>
    show none = (leastFrom k t).map Prod.snd ↔ Sought k t
    constructor
    · intro same
      exact .above nothing (leastFrom_eq_none.mp (Option.map_eq_none_iff.mp same.symm))
    · intro sought
      cases sought with
      | here _ slice' =>
        rw [slice] at slice'
        cases slice'
      | above _ below => rw [leastFrom_eq_none.mpr below, Option.map_none]
      | inside link | first link | same link =>
        rw [nothing] at link
        cases link

theorem valueFrom_link {root : Nat} (correct : Correct N root 1 t) (spelled : Spelled t)
    (link : (linkOf k t).isSome) :
    valueFrom k t = (leastFrom k t).map Prod.snd ↔ Sought k t := by
  rw [valueFrom, if_pos link]
  by_cases inside : hasSlice (lastLayer k t).1 (lastLayer k t).2 ∧
      ∃ e ∈ contents (lastLayer k t).2, (lastLayer k t).1 ≤ e.1
  · obtain ⟨slice, e, member, above⟩ := inside
    have listed : leastFrom (lastLayer k t).1 (lastLayer k t).2 ≠ none := fun none =>
      absurd (leastFrom_eq_none.mp none e member) (not_lt.mpr above)
    obtain ⟨e', least⟩ := Option.ne_none_iff_exists'.mp listed
    refine ⟨fun _ => .inside link slice ⟨e, member, above⟩, fun _ => ?_⟩
    rw [lastValueFrom, if_pos slice, least, leastFrom_last correct spelled least]
    rfl
  · have nothing : lastValueFrom k t = none := by
      unfold lastValueFrom
      split
      · rename_i slice
        rw [Option.map_eq_none_iff, leastFrom_eq_none]
        intro e member
        by_contra above
        exact inside ⟨slice, e, member, not_lt.mp above⟩
      · rfl
    rw [nothing, Option.none_or]
    constructor
    · intro same
      have some_first := firstValue_isSome (lastLayer_correct correct spelled link)
      obtain ⟨v, first⟩ := Option.isSome_iff_exists.mp some_first
      obtain ⟨e, least, value⟩ := Option.map_eq_some_iff.mp (same.symm.trans first)
      exact .same link e least (by rw [first, value])
    · intro sought
      cases sought with
      | here nothing | above nothing =>
        rw [nothing] at link
        cases link
      | inside _ slice least => exact absurd ⟨slice, least⟩ inside
      | first _ above =>
        -- the key's place in the layer is the first one
        have least : leastFrom (lastLayer k t).1 (lastLayer k t).2 =
            (contents (lastLayer k t).2).head? := by
          rw [leastFrom, rank_of_le above, List.head?_eq_getElem?]
        obtain ⟨e, rest, list⟩ := List.exists_cons_of_ne_nil
          (contents_ne_nil (lastLayer_correct correct spelled link))
        rw [list, List.head?_cons] at least
        rw [leastFrom_last correct spelled least, firstValue, list]
        rfl
      | same _ e least value => rw [least, value, Option.map_some]

/-- The cursor of a key reads the value of the least key from it on exactly when the layers lead the
search there. -/
theorem seek_iff (P : Positions N) (runs : Runs N log t) (hk : k ≠ []) :
    SeekLaw log k t ↔ Sought k t := by
  obtain ⟨correct, -⟩ := runs_correct runs
  have spelled := runs_spelled runs
  rw [seekLaw_iff_value runs, (reads_makeCursor P correct spelled hk).getValue correct]
  cases link : linkOf k t with
  | none => exact valueFrom_here link
  | some t' => exact valueFrom_link correct spelled (Option.isSome_of_eq_some link)

end

/-- A longer key with the slice of the one key of a trie, which is below it. -/
theorem seek_iff_longer : SeekLaw [([97], 5)] [97, 0] oneByte := by
  apply (seek_iff (sortedListPositions Nat) runs_oneByte (by decide)).mpr
  exact .here rfl (by decide)

/-- The slice of a smaller key is not there, and its cursor has no entry. -/
theorem seek_loses : Runs (sortedListTable Nat) [([97], 5)] oneByte ∧
    getValue (sortedListTable Nat) (makeCursor byteOrder (sortedListTable Nat) [96] oneByte) oneByte
      = none ∧
    ¬SeekLaw [([97], 5)] [96] oneByte := by
  have absent : hasSlice [96] oneByte = false := by decide
  have correct := (runs_correct runs_oneByte).1
  have nothing : getValue (sortedListTable Nat)
      (makeCursor byteOrder (sortedListTable Nat) [96] oneByte) oneByte = none := by
    rw [makeCursor_absent correct absent]
    rfl
  refine ⟨runs_oneByte, nothing, fun law => ?_⟩
  have least := law.least [97] 5 rfl (by decide) (by decide)
  rw [nothing] at least
  cases least

end DeepDB.Trie
