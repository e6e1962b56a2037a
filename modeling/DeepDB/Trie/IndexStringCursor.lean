import DeepDB.Trie.CursorStack
import DeepDB.Trie.IndexStringRun
import DeepDB.Trie.Normalize

/-!
Cursors of the string index: `make_cursor`, `strict_first_cursor` and `normalize_cursor` with the stack
they push to, on the memory that puts leave. `BN_CompareSuffix`, which the source only declares, is a
parameter. `Smake_cursor` makes the cursor of the key on one stack and returns another.
-/

namespace DeepDB.IndexString
open Trie SortedAssoc
open Trie.BorderNode (map getLink getPrefix)

variable {N : IntIndex} {m : Memory N} {root : Ptr} {usable : Nat → Nat}
  {compare : BorderNode → Key → Bool} {bn : BorderNode} {key : Key}

/-! ### The functions -/

abbrev SStack (N : IntIndex) := SCursor Ptr (ICursor N)

/-- The loop of `bordernode_next_cursor`, with `n` rounds left. -/
def nextFlag (bn : BorderNode) : Nat → Nat → Option Nat
  | 0, _ => none
  | n + 1, i => if readFlag bn.prefixFlags i then some i else nextFlag bn n (i + 1)

def bordernode_next_cursor (bnode_cursor : Nat) (bn : BorderNode) : Nat :=
  match nextFlag bn (keysliceLength + 1 - bnode_cursor) bnode_cursor with
  | some i => i
  | none =>
    if bnode_cursor ≤ keysliceLength + 1 ∧ (bn.keySuffix ≠ none ∨ bn.suffixLink ≠ NULL) then
      keysliceLength + 1
    else keysliceLength + 2

def Inext_cursor (cursor : ICursor N) (m : Memory N) : Option (ICursor N) := do
  return (cursor.1, N.nextCursor cursor.2 (← m.index cursor.1))

/-- `new_key` copies the rest of the key, which the next call goes on with. -/
def make_cursor (compare : BorderNode → Key → Bool) (key : Key) (index : Ptr) (cursor : SStack N)
    (m : Memory N) : Option (SStack N) := do
  let keyslice := UTIL_GetNextKeySlice key
  let node_cursor ← Imake_cursor keyslice index m
  let obtained_keyslice ← Iget_key node_cursor m
  if obtained_keyslice = some (keyslice.toNat : Int) then
    if _short : key.length ≤ keysliceLength then push_cursor index node_cursor key.length cursor
    else
      let bn ← m.node (← (← Iget_value node_cursor m))
      if BN_HasSuffix bn then
        if compare bn key then push_cursor index node_cursor (keysliceLength + 1) cursor
        else push_cursor index node_cursor (keysliceLength + 2) cursor
      else
        match BN_GetLink bn with
        | some subindex =>
          let cursor ← push_cursor index node_cursor (keysliceLength + 1) cursor
          let _ ← new_key (key.drop keysliceLength)
          make_cursor compare (key.drop keysliceLength) subindex cursor m
        | none => push_cursor index node_cursor (keysliceLength + 2) cursor
  else return cursor
termination_by key.length
decreasing_by exact length_getSuffix_lt (by omega)

def Smake_cursor (usable : Nat → Nat) (compare : BorderNode → Key → Bool) (key : Key) (index : Ptr)
    (m : Memory N) : Option (SStack N) := do
  let cursor ← new_cursor usable
  let _ ← make_cursor compare key index (← new_cursor usable) m
  return cursor

/-- Without `fuel` it has no value. -/
def strict_first_cursor : Nat → Ptr → SStack N → Memory N → Option (Bool × SStack N)
  | 0, _, _, _ => none
  | fuel + 1, index, cursor, m => do
    let node_cursor ← Ifirst_cursor index m
    match ← Iget_value node_cursor m with
    | some bnode =>
      let bn ← m.node bnode
      let bnode_cursor := bordernode_next_cursor 1 bn
      if bnode_cursor ≤ keysliceLength then
        return (true, ← push_cursor index node_cursor bnode_cursor cursor)
      else if bnode_cursor = keysliceLength + 1 then
        let cursor ← push_cursor index node_cursor bnode_cursor cursor
        if BN_HasSuffix bn then return (true, cursor)
        else
          let (found, cursor) ← strict_first_cursor fuel (← BN_GetLink bn) cursor m
          if found then return (true, cursor)
          else return (false, ← pop_cursor cursor)
      else return (false, cursor)
    | none => return (false, cursor)

/-- The fields of the top slice that `normalize_cursor` writes. -/
def writeTop (nodeCursor : ICursor N) (bnodeCursor : Nat) (cursor : SStack N) : Option (SStack N) := do
  let content ← cursor.content
  let slice ← content[cursor.size - 1]?
  return { cursor with content := some (content.set (cursor.size - 1)
    { slice with nodeCursor := some nodeCursor, bnodeCursor := some (bnodeCursor % 2 ^ 32) }) }

/-- After the step to the next border node the old position is tested and the old node's link is taken. -/
def normalize_cursor (fuel : Nat) (cursor : SStack N) (m : Memory N) : Option (Bool × SStack N) := do
  match ← top_cursor cursor with
  | none => return (false, ← pop_cursor cursor)
  | some cs =>
    let node_cursor ← cs.nodeCursor
    let bn ← m.node (← (← Iget_value node_cursor m))
    let next_bnode_cursor := bordernode_next_cursor (← cs.bnodeCursor) bn
    if next_bnode_cursor ≤ keysliceLength then
      return (true, ← writeTop node_cursor next_bnode_cursor cursor)
    else if next_bnode_cursor = keysliceLength + 1 then
      let cursor ← writeTop node_cursor (keysliceLength + 1) cursor
      if BN_HasSuffix bn then return (true, cursor)
      else
        let (_, cursor) ← strict_first_cursor fuel (← BN_GetLink bn) cursor m
        return (true, cursor)
    else
      let next_cursor ← Inext_cursor node_cursor m
      match ← Iget_value next_cursor m with
      | some next_bnode =>
        let next_bn ← m.node next_bnode
        let cursor ← writeTop next_cursor (bordernode_next_cursor 1 next_bn) cursor
        if next_bnode_cursor = keysliceLength + 1 ∧ ¬ BN_HasSuffix next_bn then
          let (_, cursor) ← strict_first_cursor fuel (← BN_GetLink bn) cursor m
          return (true, cursor)
        else return (true, cursor)
      | none => return (false, cursor)

/-! ### What a cursor denotes -/

/-- The entry at the end of the slices: each but the last one goes through a link. -/
def entryAt (m : Memory N) : List (CursorSlice Ptr (ICursor N)) → Option (Key × Ptr)
  | [] => none
  | [slice] => do
    let node_cursor ← slice.nodeCursor
    let s ← (← Iget_key node_cursor m)
    let bn ← m.node (← (← Iget_value node_cursor m))
    let bnode_cursor ← slice.bnodeCursor
    if bnode_cursor ≤ keysliceLength then
      if readFlag bn.prefixFlags bnode_cursor then
        return (spell s bnode_cursor, ← bn.prefixLinks[bnode_cursor]?)
      else none
    else if bnode_cursor = keysliceLength + 1 then
      return (spell s keysliceLength ++ (← bn.keySuffix), bn.suffixLink)
    else none
  | slice :: slice' :: slices => do
    let s ← (← Iget_key (← slice.nodeCursor) m)
    let (r, v) ← entryAt m (slice' :: slices)
    return (spell s keysliceLength ++ r, v)

/-- The result of a call and the cursor it leaves: at the entry, or at the end. -/
def DenotesEntry (m : Memory N) (result : Bool × SStack N) : Option (Key × Ptr) → Prop
  | none => result.1 = false
  | some e => result.1 = true ∧
      entryAt m ((result.2.content.getD []).take result.2.size) = some e

/-- The least stored entry that is not below `k`. -/
def leastAtOrAfter (k : Key) (entries : List (Key × Ptr)) : Option (Key × Ptr) :=
  entries.find? fun e => k ≤ e.1

/-- A cursor made of `k` and normalised is at the least stored key that is not below `k`, and
`strict_first_cursor` goes to the least key of all. -/
structure CursorLaw (usable : Nat → Nat) (compare : BorderNode → Key → Bool) (m : Memory N) (root : Ptr)
    (entries : List (Key × Ptr)) (k : Key) : Prop where
  seek : ∃ cursor fuel result, Smake_cursor usable compare k root m = some cursor ∧
    normalize_cursor fuel cursor m = some result ∧
      DenotesEntry m result (leastAtOrAfter k entries)
  first : ∃ cursor fuel result, new_cursor usable = some cursor ∧
    strict_first_cursor fuel root cursor m = some result ∧ DenotesEntry m result entries.head?

/-! ### The stack -/

section

variable {I C : Type}

theorem new_cursor_eq : (new_cursor usable : Option (SCursor I C)) =
    if sizeofCursor ≤ usable sizeofPointer then some ⟨0, 0, none⟩ else none := rfl

theorem push_first (node : I) (nodeCursor : C) (bnodeCursor : Nat) :
    push_cursor node nodeCursor bnodeCursor ⟨0, 0, none⟩ =
      some ⟨0, 1, some [⟨some node, some nodeCursor, some (bnodeCursor % 2 ^ 32)⟩]⟩ := rfl

theorem push_second (node : I) (nodeCursor : C) (bnodeCursor : Nat)
    (content : Option (List (CursorSlice I C))) :
    push_cursor node nodeCursor bnodeCursor ⟨0, 1, content⟩ = none := rfl

end

/-! ### Positions in a border node -/

theorem nextFlag_some {n i j : Nat} (first : i ≤ j) (inside : j < i + n)
    (set : readFlag bn.prefixFlags j = true)
    (before : ∀ l, i ≤ l → l < j → readFlag bn.prefixFlags l = false) : nextFlag bn n i = some j := by
  induction n generalizing i with
  | zero => omega
  | succ n ih =>
    rw [nextFlag]
    rcases Nat.eq_or_lt_of_le first with rfl | later
    · rw [if_pos set]
    · rw [before i (Nat.le_refl i) later]
      exact ih later (by omega) fun l low high => before l (Nat.le_of_succ_le low) high

theorem nextFlag_none {n i : Nat} (unset : ∀ l, i ≤ l → l < i + n → readFlag bn.prefixFlags l = false) :
    nextFlag bn n i = none := by
  induction n generalizing i with
  | zero => rfl
  | succ n ih =>
    rw [nextFlag, unset i (Nat.le_refl i) (by omega)]
    exact ih fun l low high => unset l (Nat.le_of_succ_le low) (by omega)

section

variable {T : Type} {f : T → Ptr} {bnode : Bordernode Ptr T}

theorem suffix_view (view : bn.view = map f bnode) :
    (bn.keySuffix ≠ none ∨ bn.suffixLink ≠ NULL) ↔ bnode.suffix.isSome := by
  have same := congrArg (fun b => b.suffix.isSome) view
  simp only [map, Option.isSome_map] at same
  rw [← same]
  unfold BorderNode.view
  cases bn.keySuffix with
  | some k => simp
  | none =>
    by_cases empty : bn.suffixLink = NULL
    · simp [empty]
    · simp [empty]

theorem readFlag_false (valid : bn.Valid) (view : bn.view = map f bnode) {i : Nat} :
    readFlag bn.prefixFlags i = false ↔ getPrefix i bnode = none := by
  rw [← Bool.not_eq_true, readFlag_iff valid, view, BorderNode.getPrefix_map]
  exact ⟨fun nothing => Option.eq_none_iff_forall_ne_some.mpr fun v here => nothing ⟨v, here⟩,
    fun nothing ⟨v, here⟩ => by rw [nothing] at here; cases here⟩

theorem keySuffix_view {k : Key} {v : Ptr} (view : bn.view = map f bnode)
    (pair : bnode.suffix = some (.inl (k, v))) : bn.keySuffix = some k ∧ bn.suffixLink = v := by
  have same := congrArg Bordernode.suffix view
  simp only [map, pair, BorderNode.view, Option.map_some, Sum.map_inl, id_eq] at same
  cases suffix : bn.keySuffix with
  | some k' => simpa [suffix] using same
  | none => simp [suffix] at same

/-- The position as the source numbers it. -/
def positionOf : BorderNode.Cursor → Nat
  | .beforePrefix len => len
  | .beforeSuffix => keysliceLength + 1
  | .afterSuffix => keysliceLength + 2

theorem bordernode_next_cursor_first (valid : bn.Valid) (view : bn.view = map f bnode) :
    bordernode_next_cursor 1 bn = positionOf (BorderNode.nextCursor (.beforePrefix 1) bnode) := by
  unfold bordernode_next_cursor BorderNode.nextCursor
  have enough : keysliceLength + 1 < keysliceLength + 2 + 1 := by decide
  rcases BorderNode.nextCursorAux_prefix (t := bnode) (show 1 ≤ keysliceLength by decide) enough with
    ⟨len, v, found, low, high, value, before⟩ | ⟨found, before⟩
  · have set : readFlag bn.prefixFlags len = true := by
      rw [readFlag_iff valid, view, BorderNode.getPrefix_map]
      exact ⟨v, value⟩
    rw [found, nextFlag_some low (by omega) set fun l low' high' =>
      (readFlag_false valid view).mpr (before l low' high')]
    rfl
  · rw [found, nextFlag_none fun l low high =>
      (readFlag_false valid view).mpr (before l low (by omega))]
    by_cases more : bnode.suffix.isSome
    · rw [if_pos more]
      exact if_pos ⟨by decide, (suffix_view view).mpr more⟩
    · rw [if_neg more]
      exact if_neg fun both => more ((suffix_view view).mp both.2)

end

/-! ### The cursor of a key -/

section

variable {addr a : Ptr} {tableform : N.Table} {inside : Ptr → Prop} {rootSize below : Nat}
  {listform : List (Int × (Ptr × Bordernode Ptr (TrieOf N.toFlattenableTable Ptr)))}
  {bnode : Bordernode Ptr (TrieOf N.toFlattenableTable Ptr)} {cursor : SStack N}
  {t : TrieOf N.toFlattenableTable Ptr}

theorem make_cursor_absent (held : Held m (.of addr tableform listform) inside)
    (correct : Correct N.toFlattenableTable rootSize below (.of addr tableform listform))
    (absent : lookup (getKeyslice key) listform = none) :
    make_cursor compare key addr cursor m = some cursor := by
  have missing : getKeyslice key ∉ (N.flatten tableform).map Prod.fst := by
    rw [← lookup_eq_none, lookup_flatten correct, absent]
    rfl
  have other : N.getKey (N.makeCursor (getKeyslice key) tableform) tableform ≠ some (getKeyslice key) :=
    fun same => missing (FlattenableTable.mem_of_getKey_makeCursor correct.table same)
  have missed : Iget_key (addr, N.makeCursor (getKeyslice key) tableform) m
      = some (N.getKey (N.makeCursor (getKeyslice key) tableform) tableform) := by
    rw [Iget_key, held.index]
    rfl
  rw [make_cursor]
  simp only [Imake_cursor_eq held.index, missed, getNextKeySlice_eq, Option.bind_eq_bind,
    Option.bind_some, if_neg other]
  rfl

theorem make_cursor_found (held : Held m (.of addr tableform listform) inside)
    (correct : Correct N.toFlattenableTable rootSize below (.of addr tableform listform))
    (found : lookup (getKeyslice key) listform = some (a, bnode)) (node : m.node a = some bn) :
    make_cursor compare key addr cursor m =
      if key.length ≤ keysliceLength then
        push_cursor addr (addr, N.makeCursor (getKeyslice key) tableform) key.length cursor
      else if BN_HasSuffix bn then
        if compare bn key then
          push_cursor addr (addr, N.makeCursor (getKeyslice key) tableform) (keysliceLength + 1) cursor
        else
          push_cursor addr (addr, N.makeCursor (getKeyslice key) tableform) (keysliceLength + 2) cursor
      else
        match BN_GetLink bn with
        | some subindex =>
          (push_cursor addr (addr, N.makeCursor (getKeyslice key) tableform) (keysliceLength + 1)
            cursor).bind fun cursor => (new_key (key.drop keysliceLength)).bind fun _ =>
              make_cursor compare (key.drop keysliceLength) subindex cursor m
        | none =>
          push_cursor addr (addr, N.makeCursor (getKeyslice key) tableform) (keysliceLength + 2)
            cursor := by
  have entry : (getKeyslice key, a) ∈ N.flatten tableform := by
    apply mem_of_lookup
    rw [lookup_flatten correct, found]
    rfl
  have known : Iget_key (addr, N.makeCursor (getKeyslice key) tableform) m
      = some (some (getKeyslice key)) := by
    rw [Iget_key, held.index]
    exact congrArg some (FlattenableTable.getKey_makeCursor correct.table
      (List.mem_map_of_mem (f := fun e => e.1) entry))
  have value : Iget_value (addr, N.makeCursor (getKeyslice key) tableform) m = some (some a) := by
    rw [Iget_value]
    simp only [held.index, Option.bind_eq_bind, Option.bind_some,
      FlattenableTable.get_makeCursor_of_mem correct.table entry]
    rfl
  rw [make_cursor]
  simp only [Imake_cursor_eq held.index, known, value, node, getNextKeySlice_eq, Option.bind_eq_bind,
    Option.bind_some, if_true]
  rfl

/-- Under the link at the first slice of a key there is no room for a copy of the rest, or a border node
for its next slice. -/
def Deeper (m : Memory N) (root : Ptr) (key : Key) : Prop :=
  keysliceLength < key.length ∧ ∃ bn sub, m.border (getKeyslice key) root = some bn ∧
    BN_GetLink bn = some sub ∧ (2 ^ 32 ≤ (key.drop keysliceLength).length ∨
      ∃ bn', m.border (getKeyslice (key.drop keysliceLength)) sub = some bn')

/-- A second slice does not fit on the stack. -/
theorem make_cursor_full (compare : BorderNode → Key → Bool) (key : Key)
    (content : Option (List (CursorSlice Ptr (ICursor N)))) (held : Held m t inside)
    (correct : Correct N.toFlattenableTable rootSize below t) :
    (make_cursor compare key (addrOfTrie t) ⟨0, 1, content⟩ m).isSome ↔
      m.border (getKeyslice key) (addrOfTrie t) = none := by
  obtain ⟨addr, tableform, listform⟩ := t
  cases found : lookup (getKeyslice key) listform with
  | none =>
    rw [addrOfTrie, make_cursor_absent held correct found, border_absent held correct found]
    simp
  | some e =>
    obtain ⟨bn, border, node, view⟩ := border_found held correct found
    have pushed : make_cursor compare key addr ⟨0, 1, content⟩ m = none := by
      rw [make_cursor_found held correct found node]
      simp only [push_second, Option.bind_none, ite_self]
      cases BN_GetLink bn <;> simp
    rw [addrOfTrie, pushed, border]
    simp

theorem make_cursor_fresh (compare : BorderNode → Key → Bool) (key : Key) (held : Held m t inside)
    (correct : Correct N.toFlattenableTable rootSize below t) :
    (make_cursor compare key (addrOfTrie t) ⟨0, 0, none⟩ m).isSome ↔ ¬ Deeper m (addrOfTrie t) key := by
  obtain ⟨addr, tableform, listform⟩ := t
  rw [addrOfTrie]
  cases found : lookup (getKeyslice key) listform with
  | none =>
    have border := border_absent held correct found
    rw [make_cursor_absent held correct found]
    refine iff_of_true rfl ?_
    rintro ⟨-, bn, sub, here, -⟩
    rw [border] at here
    cases here
  | some e =>
    obtain ⟨bn, border, node, view⟩ := border_found held correct found
    have only : Deeper m addr key → keysliceLength < key.length ∧ ∃ sub, BN_GetLink bn = some sub ∧
        (2 ^ 32 ≤ (key.drop keysliceLength).length ∨
          ∃ bn', m.border (getKeyslice (key.drop keysliceLength)) sub = some bn') := by
      rintro ⟨long, bn', sub, here, rest⟩
      rw [border] at here
      obtain rfl := Option.some.inj here
      exact ⟨long, sub, rest⟩
    rw [make_cursor_found held correct found node]
    by_cases short : key.length ≤ keysliceLength
    · rw [if_pos short, push_first]
      exact iff_of_true rfl fun deeper => absurd (only deeper).1 (Nat.not_lt.mpr short)
    · rw [if_neg short]
      by_cases suffix : BN_HasSuffix bn = true
      · rw [if_pos suffix, push_first, push_first]
        refine iff_of_true (by split <;> rfl) fun deeper => ?_
        obtain ⟨-, sub, link, -⟩ := only deeper
        unfold BN_HasSuffix at suffix
        simp [BN_GetLink, suffix] at link
      · rw [if_neg suffix]
        cases link : BN_GetLink bn with
        | none =>
          rw [push_first]
          refine iff_of_true rfl fun deeper => ?_
          obtain ⟨-, sub, link', -⟩ := only deeper
          rw [link] at link'
          cases link'
        | some sub =>
          have linked := link
          rw [getLink_view, view, BorderNode.getLink_map, Option.map_eq_some_iff] at linked
          obtain ⟨t', link', rfl⟩ := linked
          have hs := BorderNode.getLink_eq_some.mp link'
          have second := make_cursor_full compare (key.drop keysliceLength)
            (some [⟨some addr, some (addr, N.makeCursor (getKeyslice key) tableform),
              some ((keysliceLength + 1) % 2 ^ 32)⟩]) (held.link found hs) ((correct.node found).link hs)
          have long : keysliceLength < key.length := Nat.lt_of_not_le short
          dsimp only
          rw [push_first, Option.bind_some, new_key_eq]
          by_cases fits : (key.drop keysliceLength).length < 2 ^ 32
          · rw [if_pos fits, Option.bind_some, second, ← Option.not_isSome_iff_eq_none,
              Option.isSome_iff_exists]
            refine not_congr ⟨fun deeper => ⟨long, bn, _, border, link, Or.inr deeper⟩, fun deeper => ?_⟩
            obtain ⟨-, sub, link', large | deeper⟩ := only deeper
            · exact absurd fits (Nat.not_lt.mpr large)
            · rw [link] at link'
              rwa [Option.some.inj link']
          · rw [if_neg fits]
            exact iff_of_false (by simp) fun no =>
              no ⟨long, bn, _, border, link, Or.inl (Nat.not_lt.mp fits)⟩

/-! ### The first cursor -/

/-- The first border node shows a link before any key of its own. -/
def FirstLinked (m : Memory N) (root : Ptr) : Prop :=
  ∃ tableform s a rest bn sub, m.index root = some tableform ∧ N.flatten tableform = (s, a) :: rest ∧
    m.node a = some bn ∧ bordernode_next_cursor 1 bn = keysliceLength + 1 ∧ BN_GetLink bn = some sub

theorem get_firstCursor (P : Positions N.toFlattenableTable) (table : N.TableCorrect tableform) :
    N.get (N.firstCursor tableform) tableform = (N.flatten tableform).head? := by
  rw [P.get (N.first_cursor_abs table), P.first_cursor table, List.head?_eq_getElem?]

theorem strict_first_cursor_nil (P : Positions N.toFlattenableTable)
    (held : Held m (.of addr tableform listform) inside)
    (correct : Correct N.toFlattenableTable rootSize below (.of addr tableform listform))
    (empty : listform = []) (fuel : Nat) :
    strict_first_cursor (fuel + 1) addr cursor m = some (false, cursor) := by
  have nothing : N.get (N.firstCursor tableform) tableform = none := by
    rw [get_firstCursor P correct.table, correct.entries, empty]
    rfl
  rw [strict_first_cursor]
  simp only [Ifirst_cursor, Iget_value, held.index, nothing, Option.bind_eq_bind, Option.bind_some,
    Option.pure_def, Option.map_none]

theorem strict_first_cursor_cons {s : Int} (P : Positions N.toFlattenableTable)
    (held : Held m (.of addr tableform ((s, (a, bnode)) :: listform)) inside)
    (correct : Correct N.toFlattenableTable rootSize below
      (.of addr tableform ((s, (a, bnode)) :: listform)))
    (node : m.node a = some bn) (fuel : Nat) :
    strict_first_cursor (fuel + 1) addr cursor m =
      if bordernode_next_cursor 1 bn ≤ keysliceLength then
        (push_cursor addr (addr, N.firstCursor tableform) (bordernode_next_cursor 1 bn) cursor).map
          fun cursor => (true, cursor)
      else if bordernode_next_cursor 1 bn = keysliceLength + 1 then
        (push_cursor addr (addr, N.firstCursor tableform) (bordernode_next_cursor 1 bn) cursor).bind
          fun cursor =>
            if BN_HasSuffix bn then some (true, cursor)
            else (BN_GetLink bn).bind fun sub => (strict_first_cursor fuel sub cursor m).bind fun x =>
              if x.1 then some (true, x.2) else (pop_cursor x.2).map fun cursor => (false, cursor)
      else some (false, cursor) := by
  have first : N.get (N.firstCursor tableform) tableform = some (s, a) := by
    rw [get_firstCursor P correct.table, correct.entries]
    rfl
  rw [strict_first_cursor]
  simp only [Ifirst_cursor, Iget_value, held.index, first, node, Option.bind_eq_bind, Option.bind_some,
    Option.pure_def, Option.map_some]
  split
  · cases push_cursor addr (addr, N.firstCursor tableform) (bordernode_next_cursor 1 bn) cursor <;> rfl
  · split
    · cases push_cursor addr (addr, N.firstCursor tableform) (bordernode_next_cursor 1 bn) cursor with
      | none => rfl
      | some cursor =>
        dsimp only [Option.bind_some]
        split
        · rfl
        · cases BN_GetLink bn with
          | none => rfl
          | some sub =>
            dsimp only [Option.bind_some]
            cases strict_first_cursor fuel sub cursor m with
            | none => rfl
            | some x =>
              dsimp only [Option.bind_some]
              split
              · rfl
              · cases pop_cursor x.2 <;> rfl
    · rfl

/-- What a border node shows first: a key that ends in the slice, a key with a suffix, or a link. -/
theorem first_shape (s : Int) (valid : bn.Valid) (view : bn.view = map addrOfTrie bnode)
    (correct : NodeCorrect N.toFlattenableTable 1 bnode) :
    (∃ len v rest, bordernode_next_cursor 1 bn = len ∧ len ≤ keysliceLength ∧
        readFlag bn.prefixFlags len = true ∧ bn.prefixLinks[len]? = some v ∧
        nodeContents s bnode = (spell s len, v) :: rest) ∨
      (bordernode_next_cursor 1 bn = keysliceLength + 1 ∧ ∃ k, bn.keySuffix = some k ∧
        nodeContents s bnode = [(spell s keysliceLength ++ k, bn.suffixLink)]) ∨
      (bordernode_next_cursor 1 bn = keysliceLength + 1 ∧ bn.keySuffix = none ∧
        ∃ t', bnode.suffix = some (.inr t') ∧ BN_GetLink bn = some (addrOfTrie t')) := by
  rw [bordernode_next_cursor_first valid view]
  have inside : Inside (.beforePrefix 1) := ⟨Nat.one_pos, by decide⟩
  have shape := nextCursor_shape (s := s) false correct.invariant inside
  rw [nodeFrom_one] at shape
  rcases shape with ⟨len, v, rest, found, -, high, value, list, -⟩ | ⟨found, more, list⟩ | ⟨found, list⟩
  · have set : readFlag bn.prefixFlags len = true := by
      rw [readFlag_iff valid, view, BorderNode.getPrefix_map]
      exact ⟨v, value⟩
    have link := getPrefix_view valid (i := len)
    rw [if_pos set, view, BorderNode.getPrefix_map, value] at link
    rw [found]
    exact Or.inl ⟨len, v, rest, rfl, high, set, link.symm, list⟩
  · rw [found]
    refine Or.inr ?_
    rcases hs : bnode.suffix with _ | ⟨k, v⟩ | t'
    · rw [hs] at more
      cases more
    · obtain ⟨suffix, value⟩ := keySuffix_view view hs
      refine Or.inl ⟨rfl, k, suffix, ?_⟩
      rw [list, suffixContents, hs, value]
    · have link : BN_GetLink bn = getLink bn.view := getLink_view
      rw [view, BorderNode.getLink_map, BorderNode.getLink_eq_some.mpr hs, Option.map_some] at link
      refine Or.inr ⟨rfl, ?_, t', rfl, link⟩
      by_contra suffix
      simp [BN_GetLink, Option.isSome_iff_ne_none.mpr suffix] at link
  · refine absurd list (nodeContents_ne_nil s correct fun t' hs => ?_)
    exact contents_ne_nil (correct.link hs)

/-- A second slice does not fit here either. -/
theorem strict_first_cursor_full (P : Positions N.toFlattenableTable) (valid : m.Valid)
    (held : Held m t inside) (correct : Correct N.toFlattenableTable 1 1 t)
    (content : Option (List (CursorSlice Ptr (ICursor N)))) (fuel : Nat) :
    strict_first_cursor fuel (addrOfTrie t) ⟨0, 1, content⟩ m = none := by
  cases fuel with
  | zero => rfl
  | succ fuel =>
    obtain ⟨addr, tableform, listform⟩ := t
    obtain ⟨⟨s, a, bnode⟩, listform, rfl⟩ :=
      List.exists_cons_of_length_pos (correct_size.mp correct).2
    have found := correct.lookup_of_mem List.mem_cons_self
    obtain ⟨bn, node, view⟩ := held.node found
    rw [addrOfTrie, strict_first_cursor_cons P held correct node]
    rcases first_shape s (valid.nodes a bn node) view (correct.node found) with
      ⟨len, v, rest, same, high, -⟩ | ⟨same, -⟩ | ⟨same, -⟩
    · rw [same, if_pos high, push_second]
      rfl
    · rw [same, if_neg (by decide), if_pos rfl, push_second]
      rfl
    · rw [same, if_neg (by decide), if_pos rfl, push_second]
      rfl

/-- The entry of a slice at the first border node of a layer. -/
theorem entryAt_first {s : Int} (P : Positions N.toFlattenableTable)
    (held : Held m (.of addr tableform ((s, (a, bnode)) :: listform)) inside)
    (correct : Correct N.toFlattenableTable rootSize below
      (.of addr tableform ((s, (a, bnode)) :: listform)))
    (node : m.node a = some bn) (bnodeCursor : Nat) :
    entryAt m [⟨some addr, some (addr, N.firstCursor tableform), some bnodeCursor⟩] =
      if bnodeCursor ≤ keysliceLength then
        if readFlag bn.prefixFlags bnodeCursor then
          bn.prefixLinks[bnodeCursor]?.map fun v => (spell s bnodeCursor, v)
        else none
      else if bnodeCursor = keysliceLength + 1 then
        bn.keySuffix.map fun k => (spell s keysliceLength ++ k, bn.suffixLink)
      else none := by
  have first : N.get (N.firstCursor tableform) tableform = some (s, a) := by
    rw [get_firstCursor P correct.table, correct.entries]
    rfl
  have slice : N.getKey (N.firstCursor tableform) tableform = some s := by
    rw [FlattenableTable.getKey, first]
  rw [entryAt]
  simp only [Iget_key, Iget_value, held.index, first, slice, node, Option.bind_eq_bind,
    Option.bind_some, Option.pure_def, Option.map_some]
  split
  · split
    · cases bn.prefixLinks[bnodeCursor]? <;> rfl
    · rfl
  · split
    · cases bn.keySuffix <;> rfl
    · rfl

theorem strict_first_cursor_fresh (P : Positions N.toFlattenableTable) (valid : m.Valid)
    (held : Held m t inside) (correct : Correct N.toFlattenableTable rootSize 1 t) :
    (∃ fuel result, strict_first_cursor fuel (addrOfTrie t) ⟨0, 0, none⟩ m = some result ∧
      DenotesEntry m result (contents t).head?) ↔ ¬ FirstLinked m (addrOfTrie t) := by
  obtain ⟨addr, tableform, listform⟩ := t
  rw [addrOfTrie, contents_of]
  cases listform with
  | nil =>
    refine iff_of_true ⟨1, _, strict_first_cursor_nil P held correct rfl 0, rfl⟩ ?_
    rintro ⟨tableform', s, a, rest, bn, sub, index, list, -⟩
    rw [held.index] at index
    obtain rfl := Option.some.inj index
    rw [correct.entries] at list
    cases list
  | cons e listform =>
    obtain ⟨s, a, bnode⟩ := e
    have found := correct.lookup_of_mem List.mem_cons_self
    obtain ⟨bn, node, view⟩ := held.node found
    have only : FirstLinked m addr →
        bordernode_next_cursor 1 bn = keysliceLength + 1 ∧ ∃ sub, BN_GetLink bn = some sub := by
      rintro ⟨tableform', s', a', rest, bn', sub, index, list, node', position, link⟩
      rw [held.index] at index
      obtain rfl := Option.some.inj index
      rw [correct.entries, List.map_cons] at list
      obtain ⟨same, -⟩ := List.cons.inj list
      obtain rfl : a = a' := congrArg Prod.snd same
      rw [node] at node'
      obtain rfl := Option.some.inj node'
      exact ⟨position, sub, link⟩
    rw [List.flatMap_cons, List.head?_append]
    rcases first_shape s (valid.nodes a bn node) view (correct.node found) with
      ⟨len, v, rest, position, high, set, link, list⟩ | ⟨position, k, suffix, list⟩ |
        ⟨position, suffix, t', hs, link⟩
    · have small : len % 2 ^ 32 = len := Nat.mod_eq_of_lt (Nat.lt_of_le_of_lt high (by decide))
      refine iff_of_true ⟨1, (true, ⟨0, 1, some [⟨some addr, some (addr, N.firstCursor tableform),
        some len⟩]⟩), ?_, ?_⟩ fun linked => ?_
      · rw [strict_first_cursor_cons P held correct node, position, if_pos high, push_first, small]
        rfl
      · rw [list]
        refine ⟨rfl, ?_⟩
        show entryAt m [_] = _
        rw [entryAt_first P held correct node, if_pos high, if_pos set, link]
        rfl
      · rw [(only linked).1] at position
        omega
    · refine iff_of_true ⟨1, (true, ⟨0, 1, some [⟨some addr, some (addr, N.firstCursor tableform),
        some (keysliceLength + 1)⟩]⟩), ?_, ?_⟩ fun linked => ?_
      · have has : BN_HasSuffix bn = true := by
          rw [BN_HasSuffix, suffix]
          rfl
        rw [strict_first_cursor_cons P held correct node, position, if_neg (by decide), if_pos rfl,
          push_first, Option.bind_some, if_pos has]
        rfl
      · rw [list]
        refine ⟨rfl, ?_⟩
        show entryAt m [_] = _
        rw [entryAt_first P held correct node, if_neg (by decide), if_pos rfl, suffix]
        rfl
      · obtain ⟨-, sub, link⟩ := only linked
        simp [BN_GetLink, suffix] at link
    · refine iff_of_false ?_ fun no => no ?_
      · rintro ⟨fuel, result, run, -⟩
        cases fuel with
        | zero => cases run
        | succ fuel =>
          have without : BN_HasSuffix bn = false := by
            rw [BN_HasSuffix, suffix]
            rfl
          rw [strict_first_cursor_cons P held correct node, position, if_neg (by decide), if_pos rfl,
            push_first, Option.bind_some, without, if_neg (by decide), link, Option.bind_some,
            strict_first_cursor_full P valid (held.link found hs) ((correct.node found).link hs)] at run
          cases run
      · exact ⟨tableform, s, a, _, bn, _, held.index, correct.entries, node, position, link⟩

end

/-! ### The law -/

section

variable {t : TrieOf N.toFlattenableTable Ptr} {log : List (Key × Ptr)} {k : Key}

theorem leastAtOrAfter_none {entries : List (Key × Ptr)} :
    leastAtOrAfter k entries = none ↔ ∀ e ∈ entries, e.1 < k := by
  rw [leastAtOrAfter, List.find?_eq_none]
  simp

/-- The stack that `Smake_cursor` returns is empty. -/
theorem seekString_iff (usable : Nat → Nat) (compare : BorderNode → Key → Bool) (k : Key)
    (inv : Inv m root log t) :
    (∃ cursor fuel result, Smake_cursor usable compare k root m = some cursor ∧
      normalize_cursor fuel cursor m = some result ∧
        DenotesEntry m result (leastAtOrAfter k (sortedMap log))) ↔
      sizeofCursor ≤ usable sizeofPointer ∧ (∀ e ∈ sortedMap log, e.1 < k) ∧ ¬ Deeper m root k := by
  have made := make_cursor_fresh compare k inv.held (runs_correct inv.runs).1
  rw [inv.addr] at made
  by_cases room : sizeofCursor ≤ usable sizeofPointer
  · have fresh : (new_cursor usable : Option (SStack N)) = some ⟨0, 0, none⟩ := if_pos room
    have call : Smake_cursor usable compare k root m =
        (make_cursor compare k root ⟨0, 0, none⟩ m).map fun _ => (⟨0, 0, none⟩ : SStack N) := by
      simp only [Smake_cursor, fresh, Option.bind_eq_bind, Option.bind_some]
      cases make_cursor compare k root (⟨0, 0, none⟩ : SStack N) m <;> rfl
    have normal : ∀ fuel, normalize_cursor fuel (⟨0, 0, none⟩ : SStack N) m =
        some (false, ⟨0, 0, none⟩) := fun _ => rfl
    constructor
    · rintro ⟨cursor, fuel, result, run, normalized, denotes⟩
      rw [call, Option.map_eq_some_iff] at run
      obtain ⟨pushed, make, rfl⟩ := run
      rw [normal] at normalized
      obtain rfl := Option.some.inj normalized
      refine ⟨room, ?_, made.mp (Option.isSome_of_eq_some make)⟩
      cases least : leastAtOrAfter k (sortedMap log) with
      | none => exact leastAtOrAfter_none.mp least
      | some e =>
        rw [least] at denotes
        cases denotes.1
    · rintro ⟨-, below, shallow⟩
      obtain ⟨pushed, make⟩ := Option.isSome_iff_exists.mp (made.mpr shallow)
      refine ⟨_, 0, _, by rw [call, make]; rfl, normal 0, ?_⟩
      rw [leastAtOrAfter_none.mpr below]
      rfl
  · refine iff_of_false ?_ fun right => room right.1
    rintro ⟨cursor, fuel, result, run, -⟩
    have none : (new_cursor usable : Option (SStack N)) = none := if_neg room
    rw [Smake_cursor, none] at run
    cases run

end

/-- After every run of puts: the cursors are right exactly when the block for a pointer has room for a
cursor, every stored key is below `k`, and neither `make_cursor` nor `strict_first_cursor` gets to push a
second slice. -/
theorem stringCursor_iff (P : Positions N.toFlattenableTable) (usable : Nat → Nat)
    (compare : BorderNode → Key → Bool) (log : List (Key × Ptr)) (hk : ∀ e ∈ log, e.1 ≠ [])
    (m : Memory N) (run : putAll (start (N := N)).1 log (start (N := N)).2 = some m) (k : Key) :
    CursorLaw usable compare m (start (N := N)).1 (sortedMap log) k ↔
      sizeofCursor ≤ usable sizeofPointer ∧ (∀ e ∈ sortedMap log, e.1 < k) ∧
        ¬ Deeper m (start (N := N)).1 k ∧ ¬ FirstLinked m (start (N := N)).1 := by
  obtain ⟨m', t, run', inv⟩ := putAll_inv inv_start hk (allFit_of_putAll inv_start hk run)
  rw [run] at run'
  obtain rfl := Option.some.inj run'
  rw [List.nil_append] at inv
  have seek := seekString_iff usable compare k inv
  have first := strict_first_cursor_fresh P inv.valid inv.held (runs_correct inv.runs).1
  rw [inv.addr, contents_runs inv.runs] at first
  constructor
  · intro law
    obtain ⟨room, below, shallow⟩ := seek.mp law.seek
    obtain ⟨cursor, fuel, result, made, went, denotes⟩ := law.first
    rw [new_cursor_eq, if_pos room] at made
    obtain rfl := Option.some.inj made
    exact ⟨room, below, shallow, first.mp ⟨fuel, result, went, denotes⟩⟩
  · rintro ⟨room, below, shallow, unlinked⟩
    refine ⟨seek.mpr ⟨room, below, shallow⟩, ?_⟩
    obtain ⟨fuel, result, went, denotes⟩ := first.mpr unlinked
    exact ⟨_, fuel, result, if_pos room, went, denotes⟩

/-- `BN_CompareSuffix` as its name says: the rest of the key is not above the suffix. -/
def compareSuffix (bn : BorderNode) (key : Key) : Bool :=
  match bn.keySuffix with
  | some suffix => key.drop keysliceLength ≤ suffix
  | none => false

/-- One key of one byte, and a greater one to look for. -/
theorem stringCursor_iff_greater : ∃ m, putAll (start (N := sortedIndex)).1 [([97], 5)]
      (start (N := sortedIndex)).2 = some m ∧
    CursorLaw (fun n => max n 24) compareSuffix m (start (N := sortedIndex)).1 (sortedMap [([97], 5)])
      [98] := by
  obtain ⟨m, t, run, inv⟩ := putAll_inv (N := sortedIndex) inv_start
    (show ∀ e ∈ [([97], 5)], e.1 ≠ [] by decide) (allFit_of_short inv_start (by decide) (by decide))
  refine ⟨m, run, (stringCursor_iff (sortedListPositions Ptr) _ compareSuffix _ (by decide) m run _).mpr
    ⟨by decide, by decide, fun deeper => absurd deeper.1 (by decide), ?_⟩⟩
  have stored : putAll (start (N := sortedIndex)).1 [([97], 5)] (start (N := sortedIndex)).2 =
      some ((newNode (start (N := sortedIndex)).2 (BN_SetPrefixValue BN_NewBorderNode 1 5)).2.setIndex 1
        [((UTIL_GetNextKeySlice [97]).toNat, 2)]) := by
    rw [putAll, put]
    rfl
  obtain rfl := Option.some.inj (run.symm.trans stored)
  rintro ⟨tableform, s, a, rest, bn, sub, index, list, node, position, -⟩
  obtain rfl := Option.some.inj index
  obtain ⟨entry, -⟩ := List.cons.inj list
  obtain ⟨rfl, rfl⟩ := Prod.mk.inj entry
  obtain rfl := Option.some.inj node
  exact absurd position (by decide)

/-- The key itself is not found. -/
theorem stringCursor_misses : ∃ m, putAll (start (N := sortedIndex)).1 [([97], 5)]
      (start (N := sortedIndex)).2 = some m ∧
    ¬ CursorLaw (fun n => max n 24) compareSuffix m (start (N := sortedIndex)).1 (sortedMap [([97], 5)])
      [97] := by
  obtain ⟨m, t, run, inv⟩ := putAll_inv (N := sortedIndex) inv_start
    (show ∀ e ∈ [([97], 5)], e.1 ≠ [] by decide) (allFit_of_short inv_start (by decide) (by decide))
  refine ⟨m, run, fun law => ?_⟩
  obtain ⟨-, below, -⟩ := (seekString_iff _ _ _ inv).mp law.seek
  exact absurd (below ([97], 5) (by decide)) (by decide)

end DeepDB.IndexString
