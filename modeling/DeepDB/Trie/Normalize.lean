import DeepDB.Trie.Contents

/-!
`normalize_cursor` and `strict_first_cursor`, one layer at a time. A cursor of a layer stands in front
of some of its entries, and moving it on to an entry settles it at the first of these. Of a link's
subtrie it takes the first entry.
-/

namespace DeepDB.Trie

open SortedAssoc

variable {Val V : Type} {N : FlattenableTable Val} {T : Type}

/-! ### Entries of a border node -/

/-- The entries from a cursor on. With `skip` those after the slice do not come after a key of eight
bytes, since `strict_next_cursor` goes from there to the end of the node. -/
def nodeFrom (skip : Bool) (s : Int) (bnode : Bordernode V (Trienode T Val V)) :
    BorderNode.Cursor → List (Key × V)
  | .beforePrefix len =>
    prefixContents s (bnode.prefixes.drop (len - 1)) len ++
      if skip && (BorderNode.getPrefix keysliceLength bnode).isSome then [] else suffixContents s bnode
  | .beforeSuffix => suffixContents s bnode
  | .afterSuffix => []

def Inside : BorderNode.Cursor → Prop
  | .beforePrefix len => 0 < len ∧ len ≤ keysliceLength
  | _ => True

/-- Where `strict_next_cursor` goes from a key that ends in the slice. -/
def afterPrefix (len : Nat) : BorderNode.Cursor :=
  if len < keysliceLength then .beforePrefix (len + 1) else .afterSuffix

section

variable {s : Int} {bnode : Bordernode V (Trienode T Val V)} {v : V} {len : Nat}

theorem prefixContents_drop_some (positive : 0 < len) (here : BorderNode.getPrefix len bnode = some v) :
    prefixContents s (bnode.prefixes.drop (len - 1)) len =
      (spell s len, v) :: prefixContents s (bnode.prefixes.drop len) (len + 1) := by
  obtain ⟨i, rfl⟩ : ∃ i, len = i + 1 := ⟨len - 1, by omega⟩
  rw [BorderNode.getPrefix, List.getD_eq_getElem?_getD] at here
  cases hp : bnode.prefixes[i]? with
  | none =>
    rw [hp] at here
    cases here
  | some w =>
    rw [hp, Option.getD_some] at here
    subst here
    obtain ⟨room, value⟩ := List.getElem?_eq_some_iff.mp hp
    rw [Nat.add_sub_cancel, List.drop_eq_getElem_cons room, value, prefixContents]

theorem prefixContents_drop_none (positive : 0 < len) (here : BorderNode.getPrefix len bnode = none) :
    prefixContents s (bnode.prefixes.drop (len - 1)) len =
      prefixContents s (bnode.prefixes.drop len) (len + 1) := by
  obtain ⟨i, rfl⟩ : ∃ i, len = i + 1 := ⟨len - 1, by omega⟩
  rw [BorderNode.getPrefix, List.getD_eq_getElem?_getD] at here
  rw [Nat.add_sub_cancel]
  rcases Nat.lt_or_ge i bnode.prefixes.length with room | full
  · rw [List.getElem?_eq_getElem room, Option.getD_some] at here
    rw [List.drop_eq_getElem_cons room, here, prefixContents]
  · rw [List.drop_of_length_le full, List.drop_of_length_le (by omega)]
    rfl

theorem prefixContents_skip {len' : Nat} (positive : 0 < len) (le : len ≤ len')
    (before : ∀ i, len ≤ i → i < len' → BorderNode.getPrefix i bnode = none) :
    prefixContents s (bnode.prefixes.drop (len - 1)) len =
      prefixContents s (bnode.prefixes.drop (len' - 1)) len' := by
  induction len', le using Nat.le_induction with
  | base => rfl
  | succ m le ih =>
    rw [ih fun i low high => before i low (Nat.lt_succ_of_lt high), Nat.add_sub_cancel,
      prefixContents_drop_none (by omega) (before m le (Nat.lt_succ_self m))]

/-- What the search in a border node comes to, and the entries from there on. -/
theorem nextCursor_shape (skip : Bool) (inv : BorderNode.Invariant bnode) {pos : BorderNode.Cursor}
    (inside : Inside pos) :
    (∃ len v rest, BorderNode.nextCursor pos bnode = .beforePrefix len ∧ 0 < len ∧
        len ≤ keysliceLength ∧ BorderNode.getPrefix len bnode = some v ∧
        nodeFrom skip s bnode pos = (spell s len, v) :: rest ∧
        (skip = true → rest = nodeFrom true s bnode (afterPrefix len))) ∨
      (BorderNode.nextCursor pos bnode = .beforeSuffix ∧ bnode.suffix.isSome ∧
        nodeFrom skip s bnode pos = suffixContents s bnode) ∨
      (BorderNode.nextCursor pos bnode = .afterSuffix ∧ nodeFrom skip s bnode pos = []) := by
  have nothing : bnode.suffix = none → suffixContents s bnode = [] := by
    intro hs
    rw [suffixContents, hs]
  cases pos with
  | beforePrefix len =>
    obtain ⟨positive, inside⟩ := inside
    rcases BorderNode.nextCursorAux_prefix (t := bnode) inside
      (show keysliceLength + 1 < keysliceLength + 2 + len by omega) with
      ⟨len', v, found, low, high, value, before⟩ | ⟨found, before⟩
    · refine Or.inl ⟨len', v, prefixContents s (bnode.prefixes.drop len') (len' + 1) ++
          if skip && (BorderNode.getPrefix keysliceLength bnode).isSome then []
          else suffixContents s bnode, found, by omega, high, value, ?_, ?_⟩
      · rw [nodeFrom, prefixContents_skip positive low before,
          prefixContents_drop_some (by omega) value, List.cons_append]
      · intro skips
        subst skips
        by_cases more : len' < keysliceLength
        · rw [afterPrefix, if_pos more, nodeFrom, Nat.add_sub_cancel]
        · obtain rfl : len' = keysliceLength := by omega
          unfold BorderNode.Invariant at inv
          rw [afterPrefix, if_neg more, nodeFrom, value, List.drop_of_length_le (by omega)]
          rfl
    · have none8 := before keysliceLength inside (Nat.le_refl _)
      have list : nodeFrom skip s bnode (.beforePrefix len) = suffixContents s bnode := by
        unfold BorderNode.Invariant at inv
        rw [nodeFrom, prefixContents_skip positive (Nat.le_succ_of_le inside)
          (fun i low high => before i low (Nat.le_of_lt_succ high)),
          List.drop_of_length_le (by omega), none8]
        simp [prefixContents]
      refine Or.inr ?_
      unfold BorderNode.nextCursor
      rw [found, list]
      cases hs : bnode.suffix with
      | none => exact Or.inr ⟨rfl, nothing hs⟩
      | some w => exact Or.inl ⟨rfl, rfl, rfl⟩
  | beforeSuffix =>
    refine Or.inr ?_
    cases hs : bnode.suffix with
    | none =>
      refine Or.inr ⟨?_, nothing hs⟩
      rw [BorderNode.nextCursor, BorderNode.nextCursorAux, hs]
      rfl
    | some w =>
      refine Or.inl ⟨?_, rfl, rfl⟩
      rw [BorderNode.nextCursor, BorderNode.nextCursorAux, hs]
      rfl
  | afterSuffix => exact Or.inr (Or.inr ⟨rfl, rfl⟩)

end

/-! ### Entries of a layer -/

section

variable {root below : Nat} {addr : Val} {tableform : N.Table}
  {listform : List (Int × (Val × Bordernode V (TrieOf N V)))} {i : Nat} {s : Int} {tc : N.Cursor}
  {bnode : Bordernode V (TrieOf N V)} (P : Positions N)

/-- The table's cursor stands at entry `i` of the layer. -/
structure At (tableform : N.Table) (listform : List (Int × (Val × Bordernode V (TrieOf N V))))
    (i : Nat) (s : Int) (tc : N.Cursor) (bnode : Bordernode V (TrieOf N V)) : Prop where
  abs : N.AbsRel tc tableform
  position : P.position tc tableform = i
  entry : ∃ a, listform[i]? = some (s, (a, bnode))

variable {P} (correct : Correct N root below (.of addr tableform listform))
include correct

theorem Correct.getElem? (i : Nat) :
    (N.flatten tableform)[i]? = (listform[i]?).map fun e => (e.1, e.2.1) := by
  rw [correct.entries, List.getElem?_map]

theorem Correct.rank (k : Int) : rank k (N.flatten tableform) = rank k listform := by
  rw [correct.entries]
  unfold SortedAssoc.rank
  rw [List.countP_map]
  rfl

theorem At.getKey (here : At P tableform listform i s tc bnode) : N.getKey tc tableform = some s := by
  obtain ⟨a, entry⟩ := here.entry
  unfold FlattenableTable.getKey
  rw [P.get here.abs, here.position, correct.getElem?, entry]
  rfl

theorem At.first {a : Val} (h : listform[0]? = some (s, (a, bnode))) :
    At P tableform listform 0 s (N.firstCursor tableform) bnode :=
  ⟨N.first_cursor_abs correct.table, P.first_cursor correct.table, a, h⟩

theorem At.make {a : Val} (h : lookup s listform = some (a, bnode)) :
    At P tableform listform (SortedAssoc.rank s listform) s (N.makeCursor s tableform) bnode := by
  refine ⟨N.make_cursor_abs correct.table, ?_, a, ?_⟩
  · rw [P.make_cursor correct.table, correct.rank]
  · exact getElem?_rank_of_mem correct.sorted (mem_of_lookup h)

theorem At.next (here : At P tableform listform i s tc bnode) {s' : Int} {a' : Val}
    {bnode' : Bordernode V (TrieOf N V)} (h : listform[i + 1]? = some (s', (a', bnode'))) :
    At P tableform listform (i + 1) s' (N.nextCursor tc tableform) bnode' := by
  obtain ⟨a, entry⟩ := here.entry
  have inside := (List.getElem?_eq_some_iff.mp entry).1
  have before : P.position tc tableform < (N.flatten tableform).length := by
    rw [here.position, correct.entries, List.length_map]
    exact inside
  refine ⟨P.next_cursor_abs here.abs, ?_, a', h⟩
  rw [P.next_cursor here.abs before, here.position]

theorem At.last (here : At P tableform listform i s tc bnode) (h : listform[i + 1]? = none) :
    N.getKey (N.nextCursor tc tableform) tableform = none := by
  obtain ⟨a, entry⟩ := here.entry
  have inside := (List.getElem?_eq_some_iff.mp entry).1
  have before : P.position tc tableform < (N.flatten tableform).length := by
    rw [here.position, correct.entries, List.length_map]
    exact inside
  unfold FlattenableTable.getKey
  rw [P.get (P.next_cursor_abs here.abs), P.next_cursor here.abs before, here.position,
    correct.getElem?, h]
  rfl

theorem Correct.getValue_makeCursor {x : Val × Bordernode V (TrieOf N V)}
    (h : listform[i]? = some (s, x)) :
    Flattened.getValue (Flattened.makeCursor s listform) listform = some x := by
  have member : (s, x) ∈ listform := List.mem_of_getElem? h
  unfold Flattened.getValue Flattened.get
  rw [Flattened.makeCursor_eq correct.sorted, getElem?_rank_of_mem correct.sorted member]

theorem Correct.nodeOf {a : Val} (h : listform[i]? = some (s, (a, bnode))) :
    NodeCorrect N below bnode :=
  correct.node (correct.lookup_of_mem (List.mem_of_getElem? h))

end

/-- A layer's cursor at what the search in a border node came to. -/
def settle (t : TrieOf N V) (tc : N.Cursor) (bnode : Bordernode V (TrieOf N V)) :
    BorderNode.Cursor → Option (Cursor N V)
  | .beforePrefix len => some [(t, tc, bnode, .beforePrefix len)]
  | .beforeSuffix =>
    match bnode.suffix with
    | none => none
    | some (.inl _) => some [(t, tc, bnode, .beforeSuffix)]
    | some (.inr t') => (strictFirstCursor N t').map ((t, tc, bnode, .beforeSuffix) :: ·)
  | .afterSuffix => none

section

variable {addr : Val} {tableform : N.Table}
  {listform : List (Int × (Val × Bordernode V (TrieOf N V)))} {tc : N.Cursor}
  {bnode bnode' : Bordernode V (TrieOf N V)} {pos : BorderNode.Cursor} {c' : Cursor N V}
  (inner : normalizeCursor N c' = none)
include inner

theorem normalizeCursor_here (h : BorderNode.nextCursor pos bnode ≠ .afterSuffix) :
    normalizeCursor N ((.of addr tableform listform, tc, bnode, pos) :: c') =
      settle (.of addr tableform listform) tc bnode (BorderNode.nextCursor pos bnode) := by
  rw [normalizeCursor, inner]
  cases found : BorderNode.nextCursor pos bnode with
  | beforePrefix len => rfl
  | beforeSuffix =>
    unfold settle
    rcases hs : bnode.suffix with _ | pair | t'
    · rfl
    · rfl
    · cases hf : strictFirstCursor N t' with
      | none => simp [hf]
      | some c => simp [hf]
  | afterSuffix => exact absurd found h

theorem normalizeCursor_next (h : BorderNode.nextCursor pos bnode = .afterSuffix) {key : Int}
    {a : Val} (hkey : N.getKey (N.nextCursor tc tableform) tableform = some key)
    (value : Flattened.getValue (Flattened.makeCursor key listform) listform = some (a, bnode'))
    (used : ∀ len, BorderNode.nextCursor (.beforePrefix 1) bnode' = .beforePrefix len →
      ∃ v, BorderNode.getPrefix len bnode' = some v) :
    normalizeCursor N ((.of addr tableform listform, tc, bnode, pos) :: c') =
      settle (.of addr tableform listform) (N.nextCursor tc tableform) bnode'
        (BorderNode.nextCursor (.beforePrefix 1) bnode') := by
  rw [normalizeCursor, inner, h]
  simp only [hkey, value]
  cases found : BorderNode.nextCursor (.beforePrefix 1) bnode' with
  | beforePrefix len =>
    obtain ⟨v, hv⟩ := used len found
    simp only [hv, settle]
  | beforeSuffix =>
    unfold settle
    rcases hs : bnode'.suffix with _ | pair | t'
    · rfl
    · rfl
    · cases hf : strictFirstCursor N t' with
      | none => simp [hf]
      | some c => simp [hf]
  | afterSuffix => rfl

end

theorem strictFirstCursor_cons {addr : Val} {tableform : N.Table} {s : Int} {a : Val}
    {bnode : Bordernode V (TrieOf N V)} {listform : List (Int × (Val × Bordernode V (TrieOf N V)))}
    (used : ∀ len, BorderNode.nextCursor (.beforePrefix 1) bnode = .beforePrefix len →
      ∃ v, BorderNode.getPrefix len bnode = some v) :
    strictFirstCursor N (.of addr tableform ((s, (a, bnode)) :: listform)) =
      settle (.of addr tableform ((s, (a, bnode)) :: listform)) (N.firstCursor tableform) bnode
        (BorderNode.nextCursor (.beforePrefix 1) bnode) := by
  rw [strictFirstCursor]
  split
  · rename_i a' bnode' hv
    obtain ⟨rfl, rfl⟩ := Prod.mk.inj (Option.some.inj (show some (a, bnode) = some (a', bnode') from hv))
    cases found : BorderNode.nextCursor (.beforePrefix 1) bnode with
    | beforePrefix len =>
      obtain ⟨v, hv⟩ := used len found
      simp only [hv, settle]
    | beforeSuffix =>
      unfold settle
      dsimp only
      split
      · rename_i hs
        rw [hs]
      · rename_i t' hs
        rw [hs]
        cases hf : strictFirstCursor N t' with
        | none => simp [hf]
        | some c => simp [hf]
      · rename_i hs
        rw [hs]
    | afterSuffix => rfl
  · rename_i hv
    cases hv

theorem nodeFrom_one (s : Int) (bnode : Bordernode V (Trienode T Val V)) :
    nodeFrom false s bnode (.beforePrefix 1) = nodeContents s bnode := rfl

section

variable {root below : Nat} {addr : Val} {tableform : N.Table}
  {listform : List (Int × (Val × Bordernode V (TrieOf N V)))} {i : Nat} {s : Int} {tc : N.Cursor}
  {bnode : Bordernode V (TrieOf N V)} {P : Positions N}

/-- The entries of a layer from a cursor on. -/
def layerFrom (skip : Bool) (listform : List (Int × (Val × Bordernode V (TrieOf N V)))) (i : Nat)
    (s : Int) (bnode : Bordernode V (TrieOf N V)) (pos : BorderNode.Cursor) : List (Key × V) :=
  nodeFrom skip s bnode pos ++
    (listform.drop (i + 1)).flatMap fun e => nodeFrom skip e.1 e.2.2 (.beforePrefix 1)

/-- The cursor of an entry that the search in its border node came to. -/
def Settled (P : Positions N) (skip : Bool) (addr : Val) (tableform : N.Table)
    (listform : List (Int × (Val × Bordernode V (TrieOf N V)))) (l : List (Key × V))
    (c : Option (Cursor N V)) : Prop :=
  ∃ i s tc bnode q, At P tableform listform i s tc bnode ∧
    c = settle (.of addr tableform listform) tc bnode q ∧
    ((∃ len v rest, q = .beforePrefix len ∧ 0 < len ∧ len ≤ keysliceLength ∧
        BorderNode.getPrefix len bnode = some v ∧ l = (spell s len, v) :: rest ∧
        (skip = true → rest = layerFrom true listform i s bnode (afterPrefix len))) ∨
      (q = .beforeSuffix ∧ bnode.suffix.isSome ∧
        l = suffixContents s bnode ++
          (listform.drop (i + 1)).flatMap fun e => nodeFrom skip e.1 e.2.2 (.beforePrefix 1)))

/-- The first search in the next border node always comes to an entry. -/
theorem settled_node (skip : Bool) (correct : Correct N root 1 (.of addr tableform listform))
    (here : At P tableform listform i s tc bnode) {pos : BorderNode.Cursor}
    (inside : Inside pos) :
    (BorderNode.nextCursor pos bnode ≠ .afterSuffix ∧
        Settled P skip addr tableform listform (layerFrom skip listform i s bnode pos)
          (settle (.of addr tableform listform) tc bnode (BorderNode.nextCursor pos bnode))) ∨
      (BorderNode.nextCursor pos bnode = .afterSuffix ∧ nodeFrom skip s bnode pos = []) := by
  obtain ⟨a, entry⟩ := here.entry
  have inv := (correct.nodeOf entry).invariant
  rcases nextCursor_shape (s := s) skip inv inside with
    ⟨len, v, rest, found, positive, high, value, list, later⟩ | ⟨found, some_suffix, list⟩ | last
  · refine Or.inl ⟨fun no => ?_, i, s, tc, bnode, _, here, rfl, Or.inl ⟨len, v, _, found, positive,
      high, value, by rw [layerFrom, list, List.cons_append], fun skips => ?_⟩⟩
    · rw [found] at no
      cases no
    · subst skips
      rw [later rfl, layerFrom]
  · refine Or.inl ⟨fun no => ?_, i, s, tc, bnode, _, here, rfl, Or.inr ⟨found, some_suffix, ?_⟩⟩
    · rw [found] at no
      cases no
    · rw [layerFrom, list]
  · exact Or.inr last

theorem prefix_used (inv : BorderNode.Invariant bnode) (len : Nat)
    (found : BorderNode.nextCursor (.beforePrefix 1) bnode = .beforePrefix len) :
    ∃ v, BorderNode.getPrefix len bnode = some v := by
  have inside : Inside (.beforePrefix 1) := ⟨Nat.one_pos, by decide⟩
  rcases nextCursor_shape (s := 0) false inv inside with
    ⟨len', v, rest, found', -, -, value, -⟩ | ⟨found', -⟩ | ⟨found', -⟩
  · rw [found] at found'
    cases found'
    exact ⟨v, value⟩
  · rw [found] at found'
    cases found'
  · rw [found] at found'
    cases found'

/-- The search from the first length on comes to an entry. -/
theorem nextCursor_one (correct : NodeCorrect N 1 bnode) :
    BorderNode.nextCursor (.beforePrefix 1) bnode ≠ .afterSuffix := by
  intro last
  have inside : Inside (.beforePrefix 1) := ⟨Nat.one_pos, by decide⟩
  rcases nextCursor_shape (s := 0) false correct.invariant inside with
    ⟨len, v, rest, found, -⟩ | ⟨found, -⟩ | ⟨-, list⟩
  · rw [last] at found
    cases found
  · rw [last] at found
    cases found
  · rw [nodeFrom_one] at list
    exact nodeContents_ne_nil 0 correct (fun t' hs => contents_ne_nil (correct.link hs)) list

theorem settled_first (skip : Bool) (correct : Correct N root 1 (.of addr tableform listform))
    (here : At P tableform listform i s tc bnode) :
    Settled P skip addr tableform listform (layerFrom skip listform i s bnode (.beforePrefix 1))
      (settle (.of addr tableform listform) tc bnode
        (BorderNode.nextCursor (.beforePrefix 1) bnode)) := by
  have inside : Inside (.beforePrefix 1) := ⟨Nat.one_pos, by decide⟩
  obtain ⟨a, entry⟩ := here.entry
  rcases settled_node skip correct here inside with ⟨-, settled⟩ | ⟨last, -⟩
  · exact settled
  · exact absurd last (nextCursor_one (correct.nodeOf entry))

theorem drop_flatMap {A B : Type} (f : A → List B) {l : List A} {i : Nat} {e : A}
    (h : l[i]? = some e) : (l.drop i).flatMap f = f e ++ (l.drop (i + 1)).flatMap f := by
  obtain ⟨room, rfl⟩ := List.getElem?_eq_some_iff.mp h
  rw [List.drop_eq_getElem_cons room, List.flatMap_cons]

/-- Where the layers below have nothing more, the cursor is moved on to the next entry. -/
theorem normalizeCursor_settled (skip : Bool)
    (correct : Correct N root 1 (.of addr tableform listform))
    (here : At P tableform listform i s tc bnode) {pos : BorderNode.Cursor}
    (inside : Inside pos) {c' : Cursor N V} (inner : normalizeCursor N c' = none) :
    (layerFrom skip listform i s bnode pos = [] ∧
        normalizeCursor N ((.of addr tableform listform, tc, bnode, pos) :: c') = none) ∨
      Settled P skip addr tableform listform (layerFrom skip listform i s bnode pos)
        (normalizeCursor N ((.of addr tableform listform, tc, bnode, pos) :: c')) := by
  obtain ⟨a, entry⟩ := here.entry
  rcases settled_node skip correct here inside with ⟨found, settled⟩ | ⟨last, list⟩
  · rw [normalizeCursor_here inner found]
    exact Or.inr settled
  · cases next : listform[i + 1]? with
    | none =>
      have behind := List.drop_of_length_le (List.getElem?_eq_none_iff.mp next)
      refine Or.inl ⟨by rw [layerFrom, list, behind]; rfl, ?_⟩
      rw [normalizeCursor, inner, last]
      simp only [here.last correct next]
    | some e =>
      obtain ⟨s', a', bnode'⟩ := e
      have there := here.next correct next
      have moved : layerFrom skip listform i s bnode pos =
          layerFrom skip listform (i + 1) s' bnode' (.beforePrefix 1) := by
        rw [layerFrom, list, List.nil_append, drop_flatMap _ next, layerFrom]
      refine Or.inr ?_
      rw [moved, normalizeCursor_next inner last (there.getKey correct)
        (correct.getValue_makeCursor next) (prefix_used (correct.nodeOf next).invariant)]
      exact settled_first skip correct there

end

/-! ### Cursors through the layers -/

section

variable {root : Nat} {P : Positions N} {t : TrieOf N V} {c : Cursor N V} {v : V}

/-- A cursor goes down a trie through links. -/
inductive OnPath (P : Positions N) : TrieOf N V → Cursor N V → Prop
  | single {addr : Val} {tableform : N.Table}
      {listform : List (Int × (Val × Bordernode V (TrieOf N V)))} {i : Nat} {s : Int} {tc : N.Cursor}
      {bnode : Bordernode V (TrieOf N V)} {pos : BorderNode.Cursor}
      (here : At P tableform listform i s tc bnode) (inside : Inside pos) :
      OnPath P (.of addr tableform listform) [(.of addr tableform listform, tc, bnode, pos)]
  | link {addr : Val} {tableform : N.Table}
      {listform : List (Int × (Val × Bordernode V (TrieOf N V)))} {i : Nat} {s : Int} {tc : N.Cursor}
      {bnode : Bordernode V (TrieOf N V)} {t' : TrieOf N V} {c : Cursor N V}
      (here : At P tableform listform i s tc bnode) (hs : bnode.suffix = some (.inr t'))
      (sub : OnPath P t' c) :
      OnPath P (.of addr tableform listform)
        ((.of addr tableform listform, tc, bnode, .beforeSuffix) :: c)

/-- It ends at an entry, with the value `v`. -/
inductive Stands (P : Positions N) : TrieOf N V → Cursor N V → V → Prop
  | pre {addr : Val} {tableform : N.Table}
      {listform : List (Int × (Val × Bordernode V (TrieOf N V)))} {i : Nat} {s : Int} {tc : N.Cursor}
      {bnode : Bordernode V (TrieOf N V)} {len : Nat} {v : V}
      (here : At P tableform listform i s tc bnode) (inside : Inside (.beforePrefix len))
      (value : BorderNode.getPrefix len bnode = some v) :
      Stands P (.of addr tableform listform)
        [(.of addr tableform listform, tc, bnode, .beforePrefix len)] v
  | suf {addr : Val} {tableform : N.Table}
      {listform : List (Int × (Val × Bordernode V (TrieOf N V)))} {i : Nat} {s : Int} {tc : N.Cursor}
      {bnode : Bordernode V (TrieOf N V)} {k : Key} {v : V}
      (here : At P tableform listform i s tc bnode) (hs : bnode.suffix = some (.inl (k, v))) :
      Stands P (.of addr tableform listform)
        [(.of addr tableform listform, tc, bnode, .beforeSuffix)] v
  | link {addr : Val} {tableform : N.Table}
      {listform : List (Int × (Val × Bordernode V (TrieOf N V)))} {i : Nat} {s : Int} {tc : N.Cursor}
      {bnode : Bordernode V (TrieOf N V)} {t' : TrieOf N V} {c : Cursor N V} {v : V}
      (here : At P tableform listform i s tc bnode) (hs : bnode.suffix = some (.inr t'))
      (sub : Stands P t' c v) :
      Stands P (.of addr tableform listform)
        ((.of addr tableform listform, tc, bnode, .beforeSuffix) :: c) v

theorem Stands.ne_nil (h : Stands P t c v) : c ≠ [] := by
  cases h <;> exact List.cons_ne_nil _ _

theorem Stands.getRaw (h : Stands P t c v) (correct : Correct N root 1 t) :
    ∃ key, getRaw N c = some (key, v) := by
  induction h generalizing root with
  | pre here inside value => exact ⟨_, by simp only [Trie.getRaw, here.getKey correct, value]; rfl⟩
  | suf here hs => exact ⟨_, by simp only [Trie.getRaw, here.getKey correct, hs]; rfl⟩
  | link here hs sub ih =>
    obtain ⟨a, entry⟩ := here.entry
    obtain ⟨key, below⟩ := ih ((correct.nodeOf entry).link hs)
    exact ⟨_, by simp only [Trie.getRaw, here.getKey correct, hs, below]; rfl⟩

theorem strictNextCursor_cons (e : TrieOf N V × N.Cursor × Bordernode V (TrieOf N V) × BorderNode.Cursor)
    (h : c ≠ []) : strictNextCursor N (e :: c) = e :: strictNextCursor N c := by
  obtain ⟨e', c, rfl⟩ := List.exists_cons_of_ne_nil h
  rw [strictNextCursor]
  exact fun _ _ _ _ _ _ _ no => by cases no

theorem inside_afterPrefix (len : Nat) : Inside (afterPrefix len) := by
  unfold afterPrefix
  split
  · exact ⟨Nat.succ_pos len, by omega⟩
  · trivial

theorem strictNextCursor_slice {addr : Val} {tableform : N.Table}
    {listform : List (Int × (Val × Bordernode V (TrieOf N V)))} {tc : N.Cursor}
    {bnode : Bordernode V (TrieOf N V)} {len : Nat} :
    strictNextCursor N [(.of addr tableform listform, tc, bnode, .beforePrefix len)] =
      [(.of addr tableform listform, tc, bnode, afterPrefix len)] := by
  unfold strictNextCursor afterPrefix
  dsimp only
  split <;> rfl

/-- From an entry the cursor goes on along the layers. -/
theorem Stands.next (h : Stands P t c v) : OnPath P t (strictNextCursor N c) := by
  induction h with
  | pre here inside value =>
    rw [strictNextCursor_slice]
    exact .single here (inside_afterPrefix _)
  | suf here hs => exact .single here trivial
  | link here hs sub ih =>
    rw [strictNextCursor_cons _ sub.ne_nil]
    exact .link here hs ih

theorem normalizeCursor_inner {c' : Cursor N V} (inner : normalizeCursor N c = some c')
    (e : TrieOf N V × N.Cursor × Bordernode V (TrieOf N V) × BorderNode.Cursor) :
    normalizeCursor N (e :: c) = some (e :: c') := by
  obtain ⟨⟨addr, tableform, listform⟩, tc, bnode, pos⟩ := e
  rw [normalizeCursor, inner]

/-- The first cursor of a trie stands at its first entry. -/
def FirstStands (P : Positions N) (t : TrieOf N V) : Prop :=
  ∃ e rest c, contents t = e :: rest ∧ strictFirstCursor N t = some c ∧ Stands P t c e.2

theorem settled_stands {skip : Bool} {addr : Val} {tableform : N.Table}
    {listform : List (Int × (Val × Bordernode V (TrieOf N V)))} {l : List (Key × V)}
    {c : Option (Cursor N V)} (h : Settled P skip addr tableform listform l c)
    (sub : ∀ e ∈ listform, ∀ t', e.2.2.suffix = some (.inr t') → FirstStands P t') :
    ∃ e rest c', l = e :: rest ∧ c = some c' ∧ Stands P (.of addr tableform listform) c' e.2 := by
  obtain ⟨i, s, tc, bnode, q, here, rfl, entry⟩ := h
  rcases entry with ⟨len, v, rest, rfl, positive, high, value, rfl, -⟩ | ⟨rfl, some_suffix, rfl⟩
  · exact ⟨_, _, _, rfl, rfl, .pre here ⟨positive, high⟩ value⟩
  · unfold settle suffixContents
    rcases hs : bnode.suffix with _ | ⟨k, v⟩ | t'
    · rw [hs] at some_suffix
      cases some_suffix
    · exact ⟨_, _, _, rfl, rfl, .suf here hs⟩
    · obtain ⟨a, member⟩ := here.entry
      obtain ⟨e, rest, c, list, first, stands⟩ := sub _ (List.mem_of_getElem? member) t' hs
      refine ⟨(spell s keysliceLength ++ e.1, e.2), prepend (spell s keysliceLength) rest ++
        (listform.drop (i + 1)).flatMap fun e => nodeFrom skip e.1 e.2.2 (.beforePrefix 1), _, ?_, ?_,
        .link here hs stands⟩
      · dsimp only
        rw [list]
        rfl
      · dsimp only
        rw [first, Option.map_some]

theorem firstStands (P : Positions N) (correct : Correct N 1 1 t) : FirstStands P t := by
  induction t using Trienode.subtries with
  | of addr tableform listform ih =>
    obtain ⟨⟨s, a, bnode⟩, listform, rfl⟩ :=
      List.exists_cons_of_length_pos (correct_size.mp correct).2
    have sub : ∀ e ∈ (s, (a, bnode)) :: listform, ∀ t', e.2.2.suffix = some (.inr t') →
        FirstStands P t' := fun e he t' hs =>
      ih e he t' hs ((correct.node (correct.lookup_of_mem he)).link hs)
    have here : At P tableform ((s, (a, bnode)) :: listform) 0 s (N.firstCursor tableform) bnode :=
      At.first correct rfl
    have node := correct.node (correct.lookup_of_mem List.mem_cons_self)
    obtain ⟨e, rest, c, list, first, stands⟩ :=
      settled_stands (settled_first false correct here) sub
    refine ⟨e, rest, c, ?_, ?_, stands⟩
    · rw [contents_of, List.flatMap_cons, ← list]
      rfl
    · rw [strictFirstCursor_cons (prefix_used node.invariant), first]

theorem Correct.subtries_firstStands (P : Positions N) {addr : Val} {tableform : N.Table}
    {listform : List (Int × (Val × Bordernode V (TrieOf N V)))}
    (correct : Correct N root 1 (.of addr tableform listform)) :
    ∀ e ∈ listform, ∀ t', e.2.2.suffix = some (.inr t') → FirstStands P t' := fun _e he _t' hs =>
  firstStands P ((correct.node (correct.lookup_of_mem he)).link hs)

/-- Where the subtrie of a link has nothing more, it starts again. -/
theorem normalizeCursor_again {addr : Val} {tableform : N.Table}
    {listform : List (Int × (Val × Bordernode V (TrieOf N V)))} {tc : N.Cursor}
    {bnode : Bordernode V (TrieOf N V)} {t' : TrieOf N V} (hs : bnode.suffix = some (.inr t'))
    (inner : normalizeCursor N c = none) :
    normalizeCursor N ((.of addr tableform listform, tc, bnode, .beforeSuffix) :: c) =
      (strictFirstCursor N t').map ((.of addr tableform listform, tc, bnode, .beforeSuffix) :: ·) := by
  have found : BorderNode.nextCursor .beforeSuffix bnode = .beforeSuffix :=
    BorderNode.nextCursor_suffix (by rw [hs]; rfl)
  rw [normalizeCursor_here inner (by rw [found]; exact fun no => by cases no), found, settle, hs]

/-- A cursor that ends at an entry stays there. -/
theorem Stands.normalize (h : Stands P t c v) : normalizeCursor N c = some c := by
  induction h with
  | pre here inside value =>
    have found := BorderNode.nextCursor_prefix (Option.isSome_of_eq_some value)
    rw [normalizeCursor_here rfl (by rw [found]; exact fun no => by cases no), found]
    rfl
  | @suf _ _ _ _ _ _ bnode k v here hs =>
    have found : BorderNode.nextCursor .beforeSuffix bnode = .beforeSuffix :=
      BorderNode.nextCursor_suffix (by rw [hs]; rfl)
    rw [normalizeCursor_here rfl (by rw [found]; exact fun no => by cases no), found, settle, hs]
  | link here hs sub ih => exact normalizeCursor_inner ih _

/-- A cursor below a link is moved on to some entry below the link. -/
theorem normalize_link {addr : Val} {tableform : N.Table}
    {listform : List (Int × (Val × Bordernode V (TrieOf N V)))} {tc : N.Cursor}
    {bnode : Bordernode V (TrieOf N V)} {t' : TrieOf N V} (hs : bnode.suffix = some (.inr t'))
    (first : FirstStands P t')
    (inner : normalizeCursor N c = none ∨ ∃ c' v, normalizeCursor N c = some c' ∧ Stands P t' c' v) :
    ∃ c' v, normalizeCursor N ((.of addr tableform listform, tc, bnode, .beforeSuffix) :: c) =
        some ((.of addr tableform listform, tc, bnode, .beforeSuffix) :: c') ∧
      Stands P t' c' v := by
  rcases inner with none | ⟨c', v, inner, stands⟩
  · obtain ⟨e, rest, c', -, hfirst, stands⟩ := first
    exact ⟨c', e.2, by rw [normalizeCursor_again hs none, hfirst, Option.map_some], stands⟩
  · exact ⟨c', v, normalizeCursor_inner inner _, stands⟩

theorem OnPath.normalize (h : OnPath P t c) (correct : Correct N root 1 t) :
    normalizeCursor N c = none ∨ ∃ c' v, normalizeCursor N c = some c' ∧ Stands P t c' v := by
  induction h generalizing root with
  | single here inside =>
    have nothing : normalizeCursor N ([] : Cursor N V) = none := rfl
    rcases normalizeCursor_settled false correct here inside nothing with ⟨-, none⟩ | settled
    · exact Or.inl none
    · obtain ⟨e, rest, c', -, normal, stands⟩ :=
        settled_stands settled (correct.subtries_firstStands P)
      exact Or.inr ⟨c', e.2, normal, stands⟩
  | link here hs sub ih =>
    obtain ⟨a, entry⟩ := here.entry
    have below := (correct.nodeOf entry).link hs
    obtain ⟨c', v, normal, stands⟩ := normalize_link hs (firstStands P below) (ih below)
    exact Or.inr ⟨_, v, normal, .link here hs stands⟩

end

end DeepDB.Trie
