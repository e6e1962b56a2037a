import DeepDB.Trie.Normalize

/-!
Scanning a trie with `next_cursor`. From a key of eight bytes the scan goes to the end of the border
node and passes by the longer keys of the slice, and at the end of a link's subtrie it starts with
the subtrie again. So it lists a trie whose root has no links and no such border nodes.
-/

namespace DeepDB.Trie

open SortedAssoc

variable {Val V : Type} {N : FlattenableTable Val}

/-! ### Scanning -/

/-- What the cursors read from `c` on. -/
def reads (t : TrieOf N V) (c : Cursor N V) : Nat → Option V
  | 0 => getValue N c t
  | n + 1 => reads t (nextCursor N c t) n

/-- The scan from `strict_first_cursor`; there is no cursor for an empty trie. -/
def scan (t : TrieOf N V) : Nat → Option V := reads t ((strictFirstCursor N t).getD [])

theorem reads_none {t : TrieOf N V} {c : Cursor N V} (h : normalizeCursor N c = none) (n : Nat) :
    reads t c n = none := by
  have value : ∀ c : Cursor N V, normalizeCursor N c = none → getValue N c t = none := by
    intro c h
    simp only [getValue, get, h]
  induction n generalizing c with
  | zero => exact value c h
  | succ n ih =>
    have next : nextCursor N c t = [] := by simp only [nextCursor, h]
    rw [reads, next]
    exact ih rfl

theorem reads_normalize {t : TrieOf N V} {c c' : Cursor N V} (h : normalizeCursor N c = some c')
    (again : normalizeCursor N c' = some c') (n : Nat) : reads t c n = reads t c' n := by
  cases n with
  | zero => simp only [reads, getValue, get, h, again]
  | succ n => simp only [reads, nextCursor, h, again]

section

variable {root : Nat} {P : Positions N} {t : TrieOf N V} {c : Cursor N V} {v : V}

theorem Stands.reads_zero (h : Stands P t c v) (correct : Correct N root 1 t) {c₀ : Cursor N V}
    (normal : normalizeCursor N c₀ = some c) : reads t c₀ 0 = some v := by
  obtain ⟨key, raw⟩ := h.getRaw correct
  simp only [reads, getValue, get, normal, raw]

theorem reads_succ {c' : Cursor N V} (normal : normalizeCursor N c = some c') (n : Nat) :
    reads t c (n + 1) = reads t (strictNextCursor N c') n := by
  simp only [reads, nextCursor, normal]

/-! ### Below a link -/

/-- The cursor is below a link of the root. -/
inductive BelowLink (P : Positions N) : TrieOf N V → Cursor N V → Prop
  | of {addr : Val} {tableform : N.Table}
      {listform : List (Int × (Val × Bordernode V (TrieOf N V)))} {i : Nat} {s : Int} {tc : N.Cursor}
      {bnode : Bordernode V (TrieOf N V)} {t' : TrieOf N V} {c : Cursor N V}
      (here : At P tableform listform i s tc bnode) (hs : bnode.suffix = some (.inr t'))
      (path : OnPath P t' c) :
      BelowLink P (.of addr tableform listform)
        ((.of addr tableform listform, tc, bnode, .beforeSuffix) :: c)

/-- It is moved on to an entry and stays below the link. -/
theorem BelowLink.normalize (below : BelowLink P t c) (correct : Correct N root 1 t) :
    ∃ c' v, normalizeCursor N c = some c' ∧ Stands P t c' v ∧
      BelowLink P t (strictNextCursor N c') := by
  cases below with
  | of here hs path =>
    obtain ⟨a, entry⟩ := here.entry
    have sub := (correct.nodeOf entry).link hs
    obtain ⟨c', v, normal, stands⟩ := normalize_link hs (firstStands P sub) (path.normalize sub)
    refine ⟨_, v, normal, .link here hs stands, ?_⟩
    rw [strictNextCursor_cons _ stands.ne_nil]
    exact .of here hs stands.next

/-- The scan does not come out of a link. -/
theorem reads_belowLink (correct : Correct N root 1 t) (below : BelowLink P t c) (n : Nat) :
    (reads t c n).isSome := by
  obtain ⟨c', v, normal, stands, next⟩ := below.normalize correct
  induction n generalizing c c' v with
  | zero =>
    rw [stands.reads_zero correct normal]
    rfl
  | succ n ih =>
    rw [reads_succ normal]
    obtain ⟨c₂, v₂, normal₂, stands₂, next₂⟩ := next.normalize correct
    exact ih next _ _ normal₂ stands₂ next₂

end

/-! ### The root layer -/

section

variable {root : Nat} {P : Positions N} {addr : Val} {tableform : N.Table}
  {listform : List (Int × (Val × Bordernode V (TrieOf N V)))} {l : List (Key × V)}
  {c : Option (Cursor N V)}

/-- An entry below a link of the layer. -/
def Linked (listform : List (Int × (Val × Bordernode V (TrieOf N V)))) (e : Key × V) : Prop :=
  ∃ s a bnode t', (s, (a, bnode)) ∈ listform ∧ bnode.suffix = some (.inr t') ∧
    e ∈ suffixContents s bnode

section

variable (correct : Correct N root 1 (.of addr tableform listform))
  (spelled : Spelled (.of addr tableform listform))
include correct spelled

theorem linked_longer {e : Key × V} (linked : Linked listform e) : keysliceLength < e.1.length := by
  obtain ⟨s, a, bnode, t', member, hs, below⟩ := linked
  have found := correct.lookup_of_mem member
  obtain ⟨r, more, same⟩ := suffixContents_longer (correct.node found) (spelled.node found) below
  have positive := List.length_pos_iff.mpr more
  rw [same, List.length_append, length_spell s (Nat.le_refl _)]
  omega

theorem suffix_not_linked {s : Int} {a : Val} {bnode : Bordernode V (TrieOf N V)}
    (member : (s, (a, bnode)) ∈ listform) {k : Key} {v : V} (hs : bnode.suffix = some (.inl (k, v))) :
    ¬ Linked listform (spell s keysliceLength ++ k, v) := by
  intro ⟨s', a', bnode', t', member', hs', below⟩
  have here : (spell s keysliceLength ++ k, v) ∈ suffixContents s bnode := by
    unfold suffixContents
    rw [hs]
    exact List.mem_singleton_self _
  have slice := node_slice correct spelled member (List.mem_append_right _ here)
  have slice' := node_slice correct spelled member' (List.mem_append_right _ below)
  obtain rfl : s = s' := slice.symm.trans slice'
  have found := correct.lookup_of_mem member
  rw [correct.lookup_of_mem member'] at found
  cases found
  rw [hs] at hs'
  cases hs'

/-- From an entry of the root layer the scan goes on in this layer or below a link. -/
theorem settled_next (h : Settled P true addr tableform listform l c) :
    ∃ e rest c', l = e :: rest ∧ c = some c' ∧ Stands P (.of addr tableform listform) c' e.2 ∧
      ((¬ Linked listform e ∧ ∃ i s tc bnode pos, At P tableform listform i s tc bnode ∧ Inside pos ∧
          strictNextCursor N c' = [(.of addr tableform listform, tc, bnode, pos)] ∧
          rest = layerFrom true listform i s bnode pos) ∨
        (Linked listform e ∧
          BelowLink P (.of addr tableform listform) (strictNextCursor N c'))) := by
  obtain ⟨i, s, tc, bnode, q, here, rfl, entry⟩ := h
  obtain ⟨a, member⟩ := here.entry
  have listed := List.mem_of_getElem? member
  rcases entry with ⟨len, v, rest, rfl, positive, high, value, rfl, later⟩ | ⟨rfl, some_suffix, rfl⟩
  · refine ⟨_, _, _, rfl, rfl, .pre here ⟨positive, high⟩ value, Or.inl ⟨fun linked => ?_, i, s, tc,
      bnode, afterPrefix len, here, inside_afterPrefix len, strictNextCursor_slice, later rfl⟩⟩
    have longer := linked_longer correct spelled linked
    rw [length_spell s high] at longer
    omega
  · rcases hs : bnode.suffix with _ | ⟨k, v⟩ | t'
    · rw [hs] at some_suffix
      cases some_suffix
    · rw [settle, suffixContents, hs]
      exact ⟨_, _, _, rfl, rfl, .suf here hs, Or.inl ⟨suffix_not_linked correct spelled listed hs,
        i, s, tc, bnode, .afterSuffix, here, trivial, rfl, rfl⟩⟩
    · obtain ⟨e, rest, c, list, first, stands⟩ := correct.subtries_firstStands P _ listed t' hs
      have suffix : suffixContents s bnode = (spell s keysliceLength ++ e.1, e.2) ::
          prepend (spell s keysliceLength) rest := by
        rw [suffixContents, hs]
        dsimp only
        rw [list]
        rfl
      have first_settled : settle (.of addr tableform listform) tc bnode .beforeSuffix =
          some ((.of addr tableform listform, tc, bnode, .beforeSuffix) :: c) := by
        rw [settle, hs]
        dsimp only
        rw [first, Option.map_some]
      rw [suffix, List.cons_append, first_settled]
      refine ⟨_, _, _, rfl, rfl, .link here hs stands, Or.inr ⟨⟨s, a, bnode, t', listed, hs, ?_⟩, ?_⟩⟩
      · rw [suffix]
        exact List.mem_cons_self
      · rw [strictNextCursor_cons _ stands.ne_nil]
        exact .of here hs stands.next

/-- A scan from the root layer lists what is ahead, unless it comes to a link. -/
theorem reads_layer {i : Nat} {s : Int} {tc : N.Cursor} {bnode : Bordernode V (TrieOf N V)}
    {pos : BorderNode.Cursor} (here : At P tableform listform i s tc bnode) (inside : Inside pos) :
    ((∀ e ∈ layerFrom true listform i s bnode pos, ¬ Linked listform e) ∧
        ∀ n, reads (.of addr tableform listform) [(.of addr tableform listform, tc, bnode, pos)] n =
          (layerFrom true listform i s bnode pos)[n]?.map Prod.snd) ∨
      ((∃ e ∈ layerFrom true listform i s bnode pos, Linked listform e) ∧
        ∃ m, ∀ n, m ≤ n →
          (reads (.of addr tableform listform) [(.of addr tableform listform, tc, bnode, pos)] n).isSome) := by
  have nothing : normalizeCursor N ([] : Cursor N V) = none := rfl
  induction hl : layerFrom true listform i s bnode pos generalizing i s tc bnode pos with
  | nil =>
    rcases normalizeCursor_settled true correct here inside nothing with ⟨-, none⟩ | settled
    · refine Or.inl ⟨fun e no => (by cases no), fun n => ?_⟩
      rw [reads_none none]
      rfl
    · obtain ⟨e, rest, c', list, -⟩ := settled_next correct spelled settled
      rw [hl] at list
      cases list
  | cons e₀ l ih =>
    rcases normalizeCursor_settled true correct here inside nothing with ⟨no, -⟩ | settled
    · rw [hl] at no
      cases no
    · obtain ⟨e, rest, c', list, normal, stands, next⟩ := settled_next correct spelled settled
      rw [hl] at list
      obtain ⟨rfl, rfl⟩ := List.cons_eq_cons.mp list
      rcases next with ⟨unlinked, i', s', tc', bnode', pos', here', inside', next, later⟩ |
        ⟨linked, below⟩
      · have first := stands.reads_zero correct normal
        rcases ih here' inside' later.symm with ⟨free, listed⟩ | ⟨⟨e', member, linked⟩, m, always⟩
        · refine Or.inl ⟨fun e' he' => ?_, fun n => ?_⟩
          · rcases List.mem_cons.mp he' with rfl | he'
            · exact unlinked
            · exact free e' he'
          · cases n with
            | zero => rw [first, List.getElem?_cons_zero, Option.map_some]
            | succ n => rw [reads_succ normal, next, listed, List.getElem?_cons_succ]
        · refine Or.inr ⟨⟨e', List.mem_cons_of_mem _ member, linked⟩, m + 1, fun n le => ?_⟩
          obtain ⟨n, rfl⟩ : ∃ n', n = n' + 1 := ⟨n - 1, by omega⟩
          rw [reads_succ normal, next]
          exact always n (by omega)
      · refine Or.inr ⟨⟨e₀, List.mem_cons_self, linked⟩, 1, fun n le => ?_⟩
        obtain ⟨n, rfl⟩ : ∃ n', n = n' + 1 := ⟨n - 1, by omega⟩
        rw [reads_succ normal]
        exact reads_belowLink correct below n

/-- What a scan comes to, as far as it stays in the root layer. -/
def visited (listform : List (Int × (Val × Bordernode V (TrieOf N V)))) : List (Key × V) :=
  listform.flatMap fun e => nodeFrom true e.1 e.2.2 (.beforePrefix 1)

theorem scan_layer (P : Positions N) :
    ((∀ e ∈ visited listform, ¬ Linked listform e) ∧
        ∀ n, scan (.of addr tableform listform) n = (visited listform)[n]?.map Prod.snd) ∨
      ((∃ e ∈ visited listform, Linked listform e) ∧
        ∃ m, ∀ n, m ≤ n → (scan (.of addr tableform listform) n).isSome) := by
  cases listform with
  | nil =>
    refine Or.inl ⟨fun e no => (by cases no), fun n => ?_⟩
    have first : strictFirstCursor N (.of addr tableform [] : TrieOf N V) = none := by
      rw [strictFirstCursor]
      rfl
    rw [scan, first, reads_none rfl]
    rfl
  | cons e listform =>
    obtain ⟨s, a, bnode⟩ := e
    have here : At P tableform ((s, (a, bnode)) :: listform) 0 s (N.firstCursor tableform) bnode :=
      At.first correct rfl
    have node := correct.nodeOf (show ((s, (a, bnode)) :: listform)[0]? = some (s, (a, bnode)) from rfl)
    have nothing : normalizeCursor N ([] : Cursor N V) = none := rfl
    obtain ⟨e, rest, c, -, first, stands⟩ := settled_stands (settled_first false correct here)
      (correct.subtries_firstStands P)
    have start : strictFirstCursor N (.of addr tableform ((s, (a, bnode)) :: listform)) = some c := by
      rw [strictFirstCursor_cons (prefix_used node.invariant), first]
    have normal : normalizeCursor N [(.of addr tableform ((s, (a, bnode)) :: listform),
        N.firstCursor tableform, bnode, .beforePrefix 1)] = some c := by
      rw [normalizeCursor_here nothing (nextCursor_one node), first]
    have same (n : Nat) : scan (.of addr tableform ((s, (a, bnode)) :: listform)) n =
        reads (.of addr tableform ((s, (a, bnode)) :: listform))
          [(.of addr tableform ((s, (a, bnode)) :: listform), N.firstCursor tableform, bnode,
            .beforePrefix 1)] n := by
      rw [scan, start, reads_normalize normal stands.normalize]
      rfl
    simp only [same]
    exact reads_layer correct spelled here ⟨Nat.one_pos, by decide⟩

end

/-! ### What it leaves out -/

theorem nodeFrom_sublist (s : Int) (bnode : Bordernode V (TrieOf N V)) :
    (nodeFrom true s bnode (.beforePrefix 1)).Sublist (nodeContents s bnode) := by
  unfold nodeFrom nodeContents
  apply List.Sublist.append_left
  split
  · exact List.nil_sublist _
  · exact List.Sublist.refl _

theorem visited_sublist (listform : List (Int × (Val × Bordernode V (TrieOf N V)))) :
    (visited listform).Sublist (contents (.of addr tableform listform)) := by
  rw [contents_of, visited]
  induction listform with
  | nil => exact List.Sublist.refl _
  | cons e listform ih =>
    rw [List.flatMap_cons, List.flatMap_cons]
    exact (nodeFrom_sublist e.1 e.2.2).append ih

/-- No links, and no key of eight bytes before a longer one. -/
def Plain (listform : List (Int × (Val × Bordernode V (TrieOf N V)))) : Prop :=
  visited listform = listform.flatMap (fun e => nodeContents e.1 e.2.2) ∧
    ∀ e ∈ visited listform, ¬ Linked listform e

/-- The scan lists the trie exactly when it is plain. -/
theorem scan_contents_iff (P : Positions N) (correct : Correct N root 1 (.of addr tableform listform))
    (spelled : Spelled (.of addr tableform listform)) :
    (∀ n, scan (.of addr tableform listform) n =
        (contents (.of addr tableform listform))[n]?.map Prod.snd) ↔ Plain listform := by
  have part : (visited listform).Sublist (contents (.of addr tableform listform)) :=
    visited_sublist listform
  rcases scan_layer correct spelled P with ⟨free, listed⟩ | ⟨⟨e, member, linked⟩, m, always⟩
  · constructor
    · intro law
      refine ⟨?_, free⟩
      have whole := part.eq_of_length_le (Nat.le_of_not_lt fun less => ?_)
      · rw [whole, contents_of]
      · have behind := law (visited listform).length
        rw [listed, List.getElem?_eq_none (Nat.le_refl _), List.getElem?_eq_getElem less] at behind
        cases behind
    · intro plain n
      rw [listed, plain.1, contents_of]
  · constructor
    · intro law
      have here := always (max m (contents (.of addr tableform listform)).length) (Nat.le_max_left _ _)
      rw [law, List.getElem?_eq_none (Nat.le_max_right _ _)] at here
      cases here
    · intro plain
      exact absurd linked (plain.2 e member)

/-! ### The keys that were put -/

/-- Two different keys of at least eight bytes do not begin with the same eight bytes. -/
def ApartKeys (log : List (Key × V)) : Prop :=
  ∀ k ∈ log.map Prod.fst, ∀ k' ∈ log.map Prod.fst, keysliceLength ≤ k.length →
    keysliceLength ≤ k'.length → k.take keysliceLength = k'.take keysliceLength → k = k'

theorem getKeyslice_of_take {k k' : Key} (long' : keysliceLength ≤ k'.length)
    (same : k.take keysliceLength = k'.take keysliceLength) : getKeyslice k = getKeyslice k' := by
  calc getKeyslice k = getKeyslice (k.take keysliceLength ++ k.drop keysliceLength) := by
        rw [List.take_append_drop]
    _ = getKeyslice (k'.take keysliceLength ++ k.drop keysliceLength) := by rw [same]
    _ = getKeyslice k' := getKeyslice_replace _ long'

theorem contents_key {log : List (Key × V)} {t : TrieOf N V} (runs : Runs N log t) {k : Key} {v : V}
    (member : (k, v) ∈ contents t) : k ∈ log.map Prod.fst := by
  obtain ⟨correct, holds⟩ := runs_correct runs
  have found := (mem_contents_iff_find correct (runs_spelled runs)).mp member
  exact lastValue_mem ((holds k).symm.trans found)

theorem key_contents {log : List (Key × V)} {t : TrieOf N V} (runs : Runs N log t) {k : Key}
    (member : k ∈ log.map Prod.fst) : ∃ v, (k, v) ∈ contents t := by
  obtain ⟨correct, holds⟩ := runs_correct runs
  obtain ⟨v, last⟩ := lastValue_isSome member
  exact ⟨v, (mem_contents_iff_find correct (runs_spelled runs)).mpr ((holds k).trans last)⟩

def NoLinks : TrieOf N V → Prop
  | .of _ _ listform => ∀ e ∈ listform, ∀ t', e.2.2.suffix ≠ some (.inr t')

theorem noLinks_update {addr : Val} {tableform tableform' : N.Table}
    {listform : List (Int × (Val × Bordernode V (TrieOf N V)))} {s : Int} {a : Val}
    {bnode : Bordernode V (TrieOf N V)} (before : NoLinks (.of addr tableform listform))
    (node : ∀ t', bnode.suffix ≠ some (.inr t')) :
    NoLinks (.of addr tableform' (put s (a, bnode) listform)) := by
  intro e he
  rcases mem_put he with rfl | he
  · exact node
  · exact before e he

/-- A put makes no link when no other key begins with the same eight bytes. -/
theorem put_noLinks {k : Key} {v : V} {c c' : Cursor N V} {t t' : TrieOf N V}
    (h : Put N k v c t c' t') (correct : Correct N root 1 t) (before : NoLinks t)
    (apart : ∀ k' v', (k', v') ∈ contents t → keysliceLength ≤ k.length →
      keysliceLength ≤ k'.length → k.take keysliceLength = k'.take keysliceLength → k = k') :
    NoLinks t' := by
  cases h with
  | case1 found short hbnode abs list =>
    rw [Flattened.getExact_eq correct.sorted] at found
    rw [list.1]
    refine noLinks_update before fun t' => ?_
    rw [hbnode, BorderNode.putPrefix_suffix]
    exact before _ (mem_of_lookup found) t'
  | case2 found long link sub hbnode abs list =>
    rw [Flattened.getExact_eq correct.sorted] at found
    exact absurd (BorderNode.getLink_eq_some.mp link) (before _ (mem_of_lookup found) _)
  | case3 found long nothing hbnode abs list =>
    rw [list.1]
    refine noLinks_update before fun t' no => ?_
    rw [hbnode] at no
    cases no
  | case4 found long equal hbnode abs list =>
    rw [list.1]
    refine noLinks_update before fun t' no => ?_
    rw [hbnode] at no
    cases no
  | @case5 _ _ _ tableform listform _ _ _ _ addr bnode _ _ _ k' v' found long pair differ create hbnode abs list =>
    rw [Flattened.getExact_eq correct.sorted] at found
    have hs := getSuffixPair_eq pair
    have member : (k.take keysliceLength ++ k', v') ∈ contents (.of addr tableform listform) := by
      rw [contents_of]
      refine List.mem_flatMap.mpr ⟨_, mem_of_lookup found, List.mem_append_right _ ?_⟩
      rw [suffixContents, hs, spell_getKeyslice (Nat.le_refl _) long.le]
      exact List.mem_singleton_self _
    have front : (k.take keysliceLength).length = keysliceLength :=
      List.length_take_of_le long.le
    have same := apart _ v' member long.le (by rw [List.length_append]; omega)
      (by rw [List.take_append_of_le_length front.ge, List.take_take, Nat.min_self])
    have rest := getSuffix_replace k' long.le
    rw [← same] at rest
    exact absurd rest differ
  | case6 absent hbnode abs list tableAbs table =>
    rw [list.1]
    refine noLinks_update before fun t' no => ?_
    rw [hbnode, BorderNode.putValue] at no
    split at no
    · rw [BorderNode.putPrefix_suffix] at no
      cases no
    · cases no

theorem runs_noLinks {log : List (Key × V)} {t : TrieOf N V} (runs : Runs N log t)
    (apart : ApartKeys log) : NoLinks t := by
  induction runs with
  | @empty t h =>
    obtain ⟨addr, tableform, listform⟩ := t
    obtain ⟨-, rfl⟩ := h
    intro e no
    cases no
  | @put log t t' c c' k v before hk h ih =>
    have mem_log : ∀ k' ∈ log.map Prod.fst, k' ∈ (log ++ [(k, v)]).map Prod.fst := fun k' hk' => by
      rw [List.map_append]
      exact List.mem_append_left _ hk'
    have here : k ∈ (log ++ [(k, v)]).map Prod.fst := by
      rw [List.map_append]
      exact List.mem_append_right _ (List.mem_singleton_self k)
    refine put_noLinks h (runs_correct before).1 (ih fun k hk k' hk' =>
      apart k (mem_log k hk) k' (mem_log k' hk')) fun k' v' member => ?_
    exact apart k here k' (mem_log k' (contents_key before member))

/-! ### When the scan lists the trie -/

theorem getPrefix_inside {bnode : Bordernode V (TrieOf N V)} {len : Nat} {v : V}
    (inv : BorderNode.Invariant bnode) (h : BorderNode.getPrefix len bnode = some v) :
    len ≤ keysliceLength := by
  unfold BorderNode.Invariant at inv
  cases len with
  | zero => exact Nat.zero_le _
  | succ len =>
    rw [BorderNode.getPrefix, List.getD_eq_getElem?_getD] at h
    cases here : bnode.prefixes[len]? with
    | none =>
      rw [here] at h
      cases h
    | some w =>
      have room := (List.getElem?_eq_some_iff.mp here).1
      omega

/-- A key of at least eight bytes that the scan comes to in a border node. -/
theorem mem_nodeFrom_long {s : Int} {bnode : Bordernode V (TrieOf N V)} {k : Key} {v : V}
    (inv : BorderNode.Invariant bnode) (member : (k, v) ∈ nodeFrom true s bnode (.beforePrefix 1))
    (long : keysliceLength ≤ k.length) :
    (BorderNode.getPrefix keysliceLength bnode = some v ∧ k = spell s keysliceLength) ∨
      (BorderNode.getPrefix keysliceLength bnode = none ∧ (k, v) ∈ suffixContents s bnode) := by
  rw [nodeFrom, Nat.sub_self, List.drop_zero, List.mem_append] at member
  rcases member with ends | goes
  · obtain ⟨len, here, rfl⟩ := mem_prefixContents_one.mp ends
    have inside := getPrefix_inside inv here
    rw [length_spell s inside] at long
    obtain rfl : len = keysliceLength := Nat.le_antisymm inside long
    exact Or.inl ⟨here, rfl⟩
  · cases here : BorderNode.getPrefix keysliceLength bnode with
    | none =>
      rw [here] at goes
      exact Or.inr ⟨rfl, goes⟩
    | some w =>
      rw [here] at goes
      cases goes

theorem plain_noLinks (correct : Correct N root 1 (.of addr tableform listform))
    (plain : Plain listform) : NoLinks (.of addr tableform listform) := by
  intro e he t' hs
  have node := correct.node (correct.lookup_of_mem he)
  obtain ⟨e', rest, list⟩ := List.exists_cons_of_ne_nil (contents_ne_nil (node.link hs))
  have below : (spell e.1 keysliceLength ++ e'.1, e'.2) ∈ suffixContents e.1 e.2.2 := by
    rw [suffixContents, hs]
    dsimp only
    rw [list]
    exact List.mem_cons_self
  have member : (spell e.1 keysliceLength ++ e'.1, e'.2) ∈ visited listform := by
    rw [plain.1]
    exact List.mem_flatMap.mpr ⟨e, he, List.mem_append_right _ below⟩
  exact plain.2 _ member ⟨e.1, e.2.1, e.2.2, t', he, hs, below⟩

theorem plain_apart {log : List (Key × V)} (runs : Runs N log (.of addr tableform listform))
    (plain : Plain listform) : ApartKeys log := by
  intro k hk k' hk' long long' same
  obtain ⟨correct, -⟩ := runs_correct runs
  have spelled := runs_spelled runs
  have place : ∀ k v, (k, v) ∈ contents (.of addr tableform listform) → ∃ e ∈ listform,
      getKeyslice k = e.1 ∧ (k, v) ∈ nodeFrom true e.1 e.2.2 (.beforePrefix 1) := by
    intro k v member
    rw [contents_of, ← plain.1] at member
    obtain ⟨e, he, here⟩ := List.mem_flatMap.mp member
    exact ⟨e, he, node_slice correct spelled he ((nodeFrom_sublist e.1 e.2.2).subset here), here⟩
  obtain ⟨v, member⟩ := key_contents runs hk
  obtain ⟨v', member'⟩ := key_contents runs hk'
  obtain ⟨e, he, slice, here⟩ := place k v member
  obtain ⟨e', he', slice', here'⟩ := place k' v' member'
  obtain rfl : e' = e := by
    have found := correct.lookup_of_mem he
    have found' := correct.lookup_of_mem he'
    rw [← slice', ← getKeyslice_of_take long' same, slice, found] at found'
    obtain ⟨s, a, bnode⟩ := e
    obtain ⟨s', a', bnode'⟩ := e'
    cases found'
    rw [show s' = s from slice'.symm.trans ((getKeyslice_of_take long' same).symm.trans slice)]
  have inv := (correct.node (correct.lookup_of_mem he)).invariant
  rcases mem_nodeFrom_long inv here long with ⟨prefix8, rfl⟩ | ⟨none8, goes⟩ <;>
    rcases mem_nodeFrom_long inv here' long' with ⟨prefix8', rfl⟩ | ⟨none8', goes'⟩
  · rfl
  · rw [none8'] at prefix8
    cases prefix8
  · rw [none8] at prefix8'
    cases prefix8'
  · unfold suffixContents at goes goes'
    rcases hs : e'.2.2.suffix with _ | ⟨k₀, v₀⟩ | t'
    · rw [hs] at goes
      cases goes
    · rw [hs] at goes goes'
      rw [(Prod.mk.inj (List.mem_singleton.mp goes)).1, (Prod.mk.inj (List.mem_singleton.mp goes')).1]
    · exact absurd hs (plain_noLinks correct plain e' he t')

theorem apart_plain {log : List (Key × V)} (runs : Runs N log (.of addr tableform listform))
    (apart : ApartKeys log) : Plain listform := by
  obtain ⟨correct, -⟩ := runs_correct runs
  have spelled := runs_spelled runs
  have noLinks : NoLinks (.of addr tableform listform) := runs_noLinks runs apart
  refine ⟨?_, fun e _ ⟨s, a, bnode, t', member, hs, _⟩ => noLinks _ member t' hs⟩
  unfold visited
  refine List.flatMap_congr fun e he => ?_
  rw [nodeFrom, nodeContents, Nat.sub_self, List.drop_zero]
  cases prefix8 : BorderNode.getPrefix keysliceLength e.2.2 with
  | none => rfl
  | some w =>
    have node := correct.node (correct.lookup_of_mem he)
    have listed : ∀ k v, (k, v) ∈ nodeContents e.1 e.2.2 → k ∈ log.map Prod.fst := by
      intro k v member
      apply contents_key runs
      rw [contents_of]
      exact List.mem_flatMap.mpr ⟨e, he, member⟩
    have ends : (spell e.1 keysliceLength, w) ∈ prefixContents e.1 e.2.2.prefixes 1 :=
      mem_prefixContents_one.mpr ⟨keysliceLength, prefix8, rfl⟩
    cases suffix : suffixContents e.1 e.2.2 with
    | nil => rfl
    | cons e' rest =>
      obtain ⟨k, v⟩ := e'
      have goes : (k, v) ∈ suffixContents e.1 e.2.2 := by
        rw [suffix]
        exact List.mem_cons_self
      obtain ⟨r, more, rfl⟩ :=
        suffixContents_longer node (spelled.node (correct.lookup_of_mem he)) goes
      have front := length_spell e.1 (Nat.le_refl keysliceLength)
      have same := apart _ (listed _ _ (List.mem_append_left _ ends)) _
        (listed _ _ (List.mem_append_right _ goes)) front.ge
        (by rw [List.length_append]; omega)
        (by rw [List.take_append_of_le_length front.ge])
      exact absurd (List.self_eq_append_right.mp same) more

/-- The scan yields the value of every key once, in the order of the keys, and then nothing. -/
def ScanLaw (log : List (Key × V)) (t : TrieOf N V) : Prop :=
  ∃ l : List (Key × V), Sorted l ∧ (∀ k, lookup k l = lastValue k log) ∧
    ∀ n, scan t n = l[n]?.map Prod.snd

/-- The scan is right exactly when no two keys of at least eight bytes begin with the same eight. -/
theorem scanLaw_iff (P : Positions N) {log : List (Key × V)} {t : TrieOf N V} (runs : Runs N log t) :
    ScanLaw log t ↔ ApartKeys log := by
  obtain ⟨addr, tableform, listform⟩ := t
  obtain ⟨correct, holds⟩ := runs_correct runs
  have spelled := runs_spelled runs
  constructor
  · intro ⟨l, sorted, values, listed⟩
    apply plain_apart runs
    rw [← scan_contents_iff P correct spelled]
    have same : l = contents (.of addr tableform listform) :=
      sorted_ext sorted (contents_sorted correct spelled) fun k => by
        rw [values, lookup_contents correct spelled, holds]
    rw [← same]
    exact listed
  · intro apart
    refine ⟨contents (.of addr tableform listform), contents_sorted correct spelled, fun k => ?_, ?_⟩
    · rw [lookup_contents correct spelled, holds]
    · exact (scan_contents_iff P correct spelled).mpr (apart_plain runs apart)

end

/-! ### Examples -/

theorem scanLaw_two : ∃ t : TrieOf (sortedListTable Nat) Nat, ScanLaw [([98], 1), ([97], 2)] t := by
  have start : Runs (sortedListTable Nat) [] (.of 0 [] [] : TrieOf (sortedListTable Nat) Nat) :=
    .empty ⟨rfl, rfl⟩
  obtain ⟨c, t, h⟩ := put_exists [98] 1 [] (runs_correct start).1
  have runs := start.put (by decide) h
  obtain ⟨c', t', h'⟩ := put_exists [97] 2 [] (runs_correct runs).1
  refine ⟨t', (scanLaw_iff (sortedListPositions Nat) (runs.put (by decide) h')).mpr ?_⟩
  unfold ApartKeys
  decide

/-- The border node of a key of eight bytes and one that goes on after them. -/
def eightNode : Bordernode Nat (TrieOf (sortedListTable Nat) Nat) :=
  BorderNode.putSuffix [98] 6 (BorderNode.putPrefix 8 5 BorderNode.empty)

def eightAndNine : TrieOf (sortedListTable Nat) Nat :=
  .of 0 [(getKeyslice (List.replicate 8 97), 1)] [(getKeyslice (List.replicate 8 97), (1, eightNode))]

theorem runs_eightAndNine : Runs (sortedListTable Nat)
    [(List.replicate 8 97, 5), (List.replicate 8 97 ++ [98], 6)] eightAndNine := by
  have start : Runs (sortedListTable Nat) [] (.of 0 [] [] : TrieOf (sortedListTable Nat) Nat) :=
    .empty ⟨rfl, rfl⟩
  have first : Runs (sortedListTable Nat) [(List.replicate 8 97, 5)]
      (.of 0 [(getKeyslice (List.replicate 8 97), 1)]
        [(getKeyslice (List.replicate 8 97), (1, BorderNode.putPrefix 8 5 BorderNode.empty))]) :=
    start.put (c := []) (by decide)
      (.case6 rfl rfl ⟨sorted_nil, Nat.zero_le 0⟩ ⟨rfl, rfl⟩ ⟨sorted_nil, Nat.zero_le 0⟩ ⟨rfl, rfl⟩)
  have sorted := (runs_correct first).1.sorted
  have slice : getKeyslice (List.replicate 8 97 ++ [98]) = getKeyslice (List.replicate 8 97) :=
    getKeyslice_of_take (by decide) rfl
  have found : Flattened.getExact (getKeyslice (List.replicate 8 97 ++ [98]))
      [(getKeyslice (List.replicate 8 97), (1, BorderNode.putPrefix 8 5 BorderNode.empty))] =
      some (1, (BorderNode.putPrefix 8 5 BorderNode.empty :
        Bordernode Nat (TrieOf (sortedListTable Nat) Nat))) := by
    rw [Flattened.getExact_eq sorted, slice, lookup, if_pos rfl]
  obtain ⟨c, list⟩ : ∃ c, Flattened.Put (getKeyslice (List.replicate 8 97 ++ [98])) (1, eightNode) 0
      [(getKeyslice (List.replicate 8 97), (1, BorderNode.putPrefix 8 5 BorderNode.empty))] c
      [(getKeyslice (List.replicate 8 97), (1, eightNode))] := by
    refine ⟨_, ?_, rfl⟩
    rw [slice, Flattened.putAux, put, if_neg (Int.lt_irrefl _), if_pos rfl]
  exact first.put (c := []) (by decide)
    (.case3 found (by decide) rfl rfl ⟨sorted, Nat.zero_le _⟩ list)

theorem scan_misses_nine : Runs (sortedListTable Nat)
      [(List.replicate 8 97, 5), (List.replicate 8 97 ++ [98], 6)] eightAndNine ∧
    scan eightAndNine 0 = some 5 ∧ scan eightAndNine 1 = none ∧
    ¬ ScanLaw [(List.replicate 8 97, 5), (List.replicate 8 97 ++ [98], 6)] eightAndNine := by
  have found : BorderNode.nextCursor (.beforePrefix 1) eightNode = .beforePrefix 8 := rfl
  have used : ∀ len, BorderNode.nextCursor (.beforePrefix 1) eightNode = .beforePrefix len →
      ∃ v, BorderNode.getPrefix len eightNode = some v := by
    intro len here
    rw [found] at here
    cases here
    exact ⟨5, rfl⟩
  have first : strictFirstCursor (sortedListTable Nat) eightAndNine =
      some [(eightAndNine, (0 : Nat), eightNode, .beforePrefix 8)] := by
    refine (strictFirstCursor_cons used).trans ?_
    rw [found]
    rfl
  have one : scan eightAndNine 1 = none := by
    rw [scan, first]
    rfl
  refine ⟨runs_eightAndNine, ?_, one, ?_⟩
  · rw [scan, first]
    rfl
  · intro ⟨l, sorted, values, listed⟩
    have eight := mem_of_lookup (show lookup (List.replicate 8 97) l = some 5 from values _)
    have nine := mem_of_lookup (show lookup (List.replicate 8 97 ++ [98]) l = some 6 from values _)
    have behind := listed 1
    rw [one] at behind
    match l, eight, nine, behind with
    | [e], eight, nine, _ =>
      have same := (List.mem_singleton.mp nine).trans (List.mem_singleton.mp eight).symm
      exact absurd (congrArg Prod.snd same) (by decide)
    | _ :: _ :: _, _, _, behind => cases behind

end DeepDB.Trie
