import DeepDB.Trie.MapLaw

/-!
Where a trie keeps its values. A place is the slices on the way and then a length in the last slice,
or the rest of a key after it. A key spells the places where it may be kept, one of them is in use
if the trie holds the key, and in a trie made by puts every place in use is spelled by some key.
-/

namespace DeepDB.Trie

open SortedAssoc

variable {Val V Table : Type}

inductive Place where
  | pre (s : Int) (len : Nat)
  | suf (s : Int) (k : Key)
  | link (s : Int) (p : Place)

def Place.slice : Place → Int
  | .pre s _ => s
  | .suf s _ => s
  | .link s _ => s

/-- The key ends at the place: its last slice is short, or the rest of it is kept in one piece. -/
inductive Spells : Place → Key → Prop
  | pre {k : Key} (short : k.length ≤ keysliceLength) : Spells (.pre (getKeyslice k) k.length) k
  | suf {k : Key} (long : keysliceLength < k.length) : Spells (.suf (getKeyslice k) (getSuffix k)) k
  | link {k : Key} {p : Place} (long : keysliceLength < k.length) (sub : Spells p (getSuffix k)) :
      Spells (.link (getKeyslice k) p) k

/-- The value at a place. -/
def valueAt : Place → Trienode Table Val V → Option V
  | .pre s len, .of _ _ listform =>
    (lookup s listform).bind fun e => BorderNode.getPrefix len e.2
  | .suf s k, .of _ _ listform =>
    (lookup s listform).bind fun e => BorderNode.getSuffixValue k e.2
  | .link s p, .of _ _ listform =>
    (lookup s listform).bind fun e => (BorderNode.getLink e.2).bind (valueAt p)

/-- The value at a place in the border node of its slice. -/
def nodeAt (bnode : Bordernode V (Trienode Table Val V)) : Place → Option V
  | .pre _ len => BorderNode.getPrefix len bnode
  | .suf _ k => BorderNode.getSuffixValue k bnode
  | .link _ p => (BorderNode.getLink bnode).bind (valueAt p)

section Layers

variable {addr : Val} {tableform : Table} {p p' : Place} {k : Key} {v v' : V}
  {listform : List (Int × (Val × Bordernode V (Trienode Table Val V)))}
  {bnode : Bordernode V (Trienode Table Val V)} {t : Trienode Table Val V}

theorem valueAt_of : valueAt p (.of addr tableform listform)
    = (lookup p.slice listform).bind fun e => nodeAt e.2 p := by
  cases p <;> rfl

theorem valueAt_update {s : Int} {a : Val} :
    valueAt p (.of addr tableform (put s (a, bnode) listform))
      = if p.slice = s then nodeAt bnode p else valueAt p (.of addr tableform listform) := by
  rw [valueAt_of]
  split
  · rename_i same
    rw [same, lookup_put_self]
    rfl
  · rename_i apart
    rw [lookup_put_of_ne _ _ apart, valueAt_of]

/-! ### Keys and places -/

theorem find_of_valueAt (spells : Spells p k) (here : valueAt p t = some v) : find k t = some v := by
  induction spells generalizing t with
  | pre short =>
    obtain ⟨addr, tableform, listform⟩ := t
    obtain ⟨⟨a, bnode⟩, found, value⟩ := Option.bind_eq_some_iff.mp here
    rw [find_found found rfl, findNode_short short, value]
  | suf long =>
    obtain ⟨addr, tableform, listform⟩ := t
    obtain ⟨⟨a, bnode⟩, found, value⟩ := Option.bind_eq_some_iff.mp here
    have suffix : bnode.suffix = some (.inl (_, v)) := BorderNode.getSuffixValue_eq_some.mp value
    simp only [find_found found rfl, findNode_long long, suffix, if_true]
  | link long sub ih =>
    obtain ⟨addr, tableform, listform⟩ := t
    obtain ⟨⟨a, bnode⟩, found, value⟩ := Option.bind_eq_some_iff.mp here
    obtain ⟨t', link, below⟩ := Option.bind_eq_some_iff.mp value
    have suffix : bnode.suffix = some (.inr t') := BorderNode.getLink_eq_some.mp link
    simp only [find_found found rfl, findNode_long long, suffix, ih below]

theorem valueAt_of_find (held : find k t = some v) : ∃ p, Spells p k ∧ valueAt p t = some v := by
  induction hn : k.length using Nat.strongRecOn generalizing k t with
  | ind n ih =>
    obtain ⟨addr, tableform, listform⟩ := t
    cases found : lookup (getKeyslice k) listform with
    | none =>
      rw [find_absent found] at held
      cases held
    | some e =>
      obtain ⟨a, bnode⟩ := e
      rw [find_found found rfl] at held
      by_cases short : k.length ≤ keysliceLength
      · rw [findNode_short short] at held
        exact ⟨_, .pre short, Option.bind_eq_some_iff.mpr ⟨_, found, held⟩⟩
      · have long := Nat.lt_of_not_le short
        rw [findNode_long long] at held
        split at held
        · cases held
        · rename_i k' w hs
          rw [Option.ite_none_right_eq_some] at held
          obtain ⟨rfl, value⟩ := held
          have here : BorderNode.getSuffixValue (getSuffix k) bnode = some v :=
            BorderNode.getSuffixValue_eq_some.mpr (by rw [hs, Option.some.inj value])
          exact ⟨_, .suf long, Option.bind_eq_some_iff.mpr ⟨_, found, here⟩⟩
        · rename_i t' hs
          obtain ⟨p, spells, here⟩ := ih _ (hn ▸ length_getSuffix_lt long) held rfl
          exact ⟨_, .link long spells, Option.bind_eq_some_iff.mpr
            ⟨_, found, Option.bind_eq_some_iff.mpr ⟨t', BorderNode.getLink_eq_some.mpr hs, here⟩⟩⟩

/-- A key has one place in use. -/
theorem place_unique (spells : Spells p k) (spells' : Spells p' k) (here : valueAt p t = some v)
    (here' : valueAt p' t = some v') : p = p' := by
  induction spells generalizing t p' with
  | pre short =>
    cases spells' with
    | pre short' => rfl
    | suf long => omega
    | link long sub => omega
  | suf long =>
    obtain ⟨addr, tableform, listform⟩ := t
    obtain ⟨e, found, value⟩ := Option.bind_eq_some_iff.mp here
    cases spells' with
    | pre short => omega
    | suf long' => rfl
    | link long' sub =>
      obtain ⟨e', found', value'⟩ := Option.bind_eq_some_iff.mp here'
      obtain ⟨t', link, below⟩ := Option.bind_eq_some_iff.mp value'
      rw [found] at found'
      cases found'
      have suffix := (BorderNode.getSuffixValue_eq_some.mp value).symm.trans (BorderNode.getLink_eq_some.mp link)
      cases suffix
  | link long sub ih =>
    obtain ⟨addr, tableform, listform⟩ := t
    obtain ⟨e, found, value⟩ := Option.bind_eq_some_iff.mp here
    obtain ⟨t', link, below⟩ := Option.bind_eq_some_iff.mp value
    cases spells' with
    | pre short => omega
    | suf long' =>
      obtain ⟨e', found', value'⟩ := Option.bind_eq_some_iff.mp here'
      rw [found] at found'
      cases found'
      have suffix := (BorderNode.getSuffixValue_eq_some.mp value').symm.trans (BorderNode.getLink_eq_some.mp link)
      cases suffix
    | link long' sub' =>
      obtain ⟨e', found', value'⟩ := Option.bind_eq_some_iff.mp here'
      obtain ⟨t'', link', below'⟩ := Option.bind_eq_some_iff.mp value'
      rw [found] at found'
      cases found'
      rw [link] at link'
      cases link'
      rw [ih sub' below below']

/-- No place in use is spelled by the empty key. -/
theorem Spells.ne_nil (spells : Spells p k) (here : valueAt p t = some v) : k ≠ [] := by
  rintro rfl
  obtain ⟨addr, tableform, listform⟩ := t
  cases spells with
  | pre short =>
    obtain ⟨e, found, value⟩ := Option.bind_eq_some_iff.mp here
    cases value
  | suf long => exact absurd long (by decide)
  | link long sub => exact absurd long (by decide)

end Layers

/-! ### Layers -/

/-- The layer at the end of some links. -/
def trieAt : List Int → Trienode Table Val V → Option (Trienode Table Val V)
  | [], t => some t
  | s :: path, .of _ _ listform =>
    (lookup s listform).bind fun e => (BorderNode.getLink e.2).bind (trieAt path)

/-- A place as seen from above some links. -/
def Place.under : List Int → Place → Place
  | [], p => p
  | s :: path, p => .link s (under path p)

theorem valueAt_under {path : List Int} {t t' : Trienode Table Val V} (layer : trieAt path t = some t')
    (p : Place) : valueAt (p.under path) t = valueAt p t' := by
  induction path generalizing t with
  | nil =>
    cases layer
    rfl
  | cons s path ih =>
    obtain ⟨addr, tableform, listform⟩ := t
    obtain ⟨e, found, linked⟩ := Option.bind_eq_some_iff.mp layer
    obtain ⟨t1, link, below⟩ := Option.bind_eq_some_iff.mp linked
    rw [Place.under, valueAt, found, Option.bind_some, link, Option.bind_some, ih below]

/-- A key that ends in a layer's slice has its place there, once the layer exists. -/
theorem place_under {path : List Int} {t t' : Trienode Table Val V} {s : Int} {len : Nat} {p : Place}
    {k : Key} {v : V} (layer : trieAt path t = some t') (ends : Spells (Place.under path (.pre s len)) k)
    (spells : Spells p k) (here : valueAt p t = some v) : p = Place.under path (.pre s len) := by
  induction path generalizing t p k with
  | nil =>
    cases ends with
    | pre short =>
      cases spells with
      | pre _ => rfl
      | suf long => omega
      | link long _ => omega
  | cons s' path ih =>
    obtain ⟨addr, tableform, listform⟩ := t
    obtain ⟨e, found, linked⟩ := Option.bind_eq_some_iff.mp layer
    obtain ⟨t1, link, below⟩ := Option.bind_eq_some_iff.mp linked
    cases ends with
    | link long sub =>
      cases spells with
      | pre short => omega
      | suf long' =>
        obtain ⟨e', found', value⟩ := Option.bind_eq_some_iff.mp here
        rw [found] at found'
        cases found'
        have suffix := (BorderNode.getSuffixValue_eq_some.mp value).symm.trans
          (BorderNode.getLink_eq_some.mp link)
        cases suffix
      | link long' sub' =>
        obtain ⟨e', found', value⟩ := Option.bind_eq_some_iff.mp here
        obtain ⟨t2, link', below'⟩ := Option.bind_eq_some_iff.mp value
        rw [found] at found'
        cases found'
        rw [link] at link'
        cases link'
        rw [ih below sub sub' below', Place.under]

/-! ### Nothing but keys -/

/-- Every place in use is spelled by a key. -/
def Spelled (t : Trienode Table Val V) : Prop := ∀ p v, valueAt p t = some v → ∃ k, Spells p k

/-- The bytes of a long key's slice, in front of any other rest, give the same slice. -/
theorem getKeysliceAux_append {k r : Key} {n : Nat} {i : Int} (long : n ≤ k.length) :
    getKeysliceAux (k.take n ++ r) n i = getKeysliceAux k n i := by
  induction n generalizing k i with
  | zero => simp [getKeysliceAux]
  | succ n ih =>
    cases k with
    | nil => simp at long
    | cons ch k => exact ih (Nat.le_of_succ_le_succ long)

theorem getKeyslice_replace {k : Key} (r : Key) (long : keysliceLength ≤ k.length) :
    getKeyslice (k.take keysliceLength ++ r) = getKeyslice k := getKeysliceAux_append long

theorem getSuffix_replace {k : Key} (r : Key) (long : keysliceLength ≤ k.length) :
    getSuffix (k.take keysliceLength ++ r) = r := by
  unfold getSuffix
  rw [List.drop_append_of_le_length (by simp [long]), List.drop_of_length_le (by simp),
    List.nil_append]

theorem spells_replace {k r : Key} {p : Place} (long : keysliceLength < k.length) (hr : r ≠ [])
    (sub : Spells p r) : Spells (.link (getKeyslice k) p) (k.take keysliceLength ++ r) := by
  have suffix := getSuffix_replace r long.le
  have longer : keysliceLength < (k.take keysliceLength ++ r).length := by
    have := List.length_pos_iff.mpr hr
    rw [List.length_append, List.length_take]
    omega
  have spells : Spells (.link (getKeyslice (k.take keysliceLength ++ r)) p)
      (k.take keysliceLength ++ r) := .link longer (by rwa [suffix])
  rwa [getKeyslice_replace r long.le] at spells

section Spelled

variable {addr : Val} {tableform : Table} {k : Key} {v : V} {s : Int} {a : Val}
  {listform : List (Int × (Val × Bordernode V (Trienode Table Val V)))}
  {bnode bnode' : Bordernode V (Trienode Table Val V)} {t' : Trienode Table Val V}

/-- The places of one border node, as those of a layer. -/
def NodeSpelled (s : Int) (bnode : Bordernode V (Trienode Table Val V)) : Prop :=
  ∀ p v, p.slice = s → nodeAt bnode p = some v → ∃ k, Spells p k

theorem Spelled.node (h : Spelled (.of addr tableform listform))
    (found : lookup s listform = some (a, bnode)) : NodeSpelled s bnode := by
  intro p v same value
  refine h p v ?_
  rw [valueAt_of, same, found]
  exact value

theorem Spelled.update (h : Spelled (.of addr tableform listform)) (node : NodeSpelled s bnode) :
    Spelled (.of addr tableform (put s (a, bnode) listform)) := by
  intro p v here
  rw [valueAt_update] at here
  split at here
  · exact node p v ‹_› here
  · exact h p v here

theorem spelled_table {tableform' : Table} :
    Spelled (.of addr tableform' listform) ↔ Spelled (.of addr tableform listform) := by
  unfold Spelled
  simp only [valueAt_of]

theorem spelled_nil : Spelled (.of addr tableform [] : Trienode Table Val V) := by
  intro p v here
  rw [valueAt_of] at here
  cases here

theorem nodeSpelled_empty : NodeSpelled s (BorderNode.empty : Bordernode V (Trienode Table Val V)) := by
  intro p v _ value
  cases p with
  | pre _ len =>
    have none := BorderNode.getPrefix_empty (E := V) (T := Trienode Table Val V) len
    rw [nodeAt, none] at value
    cases value
  | suf _ k => cases value
  | link _ p => cases value

theorem NodeSpelled.putPrefix (h : NodeSpelled (getKeyslice k) bnode)
    (short : k.length ≤ keysliceLength) :
    NodeSpelled (getKeyslice k) (BorderNode.putPrefix k.length v bnode) := by
  intro p w same value
  cases p with
  | pre s len =>
    cases same
    by_cases here : len = k.length
    · rw [here]
      exact ⟨k, .pre short⟩
    · rw [nodeAt, BorderNode.get_put_prefix_diff here] at value
      exact h (.pre _ len) w rfl value
  | suf s r =>
    rw [nodeAt, BorderNode.getSuffixValue, BorderNode.putPrefix_suffix] at value
    exact h (.suf s r) w same value
  | link s p =>
    rw [nodeAt, BorderNode.getLink, BorderNode.putPrefix_suffix] at value
    exact h (.link s p) w same value

theorem NodeSpelled.putSuffix (h : NodeSpelled (getKeyslice k) bnode)
    (long : keysliceLength < k.length) :
    NodeSpelled (getKeyslice k) (BorderNode.putSuffix (getSuffix k) v bnode) := by
  intro p w same value
  cases p with
  | pre s len =>
    rw [nodeAt, BorderNode.getPrefix_putSuffix] at value
    exact h (.pre s len) w same value
  | suf s r =>
    cases same
    obtain ⟨rfl, -⟩ := Option.ite_none_right_eq_some.mp value
    exact ⟨k, .suf long⟩
  | link s p => cases value

theorem NodeSpelled.putLink (h : NodeSpelled (getKeyslice k) bnode)
    (long : keysliceLength < k.length) (sub : Spelled t') :
    NodeSpelled (getKeyslice k) (BorderNode.putLink t' bnode) := by
  intro p w same value
  cases p with
  | pre s len =>
    rw [nodeAt, BorderNode.getPrefix_putLink] at value
    exact h (.pre s len) w same value
  | suf s r => cases value
  | link s p =>
    cases same
    obtain ⟨r, spells⟩ := sub p w value
    exact ⟨_, spells_replace long (spells.ne_nil value) spells⟩

theorem NodeSpelled.putValue (h : NodeSpelled (getKeyslice k) bnode) :
    NodeSpelled (getKeyslice k) (BorderNode.putValue k v bnode) := by
  unfold BorderNode.putValue
  split
  · exact h.putPrefix ‹_›
  · exact h.putSuffix (by omega)

/-- A link's places are those of the layer under it. -/
theorem NodeSpelled.link (h : NodeSpelled s bnode) (link : bnode.suffix = some (.inr t')) :
    Spelled t' := by
  intro p v here
  have value : nodeAt bnode (.link s p) = some v := by
    rw [nodeAt, BorderNode.getLink_eq_some.mpr link]
    exact here
  obtain ⟨k, spells⟩ := h (.link s p) v rfl value
  cases spells with
  | link long sub => exact ⟨_, sub⟩

end Spelled

section Puts

variable {N : FlattenableTable Val} {k : Key} {v : V} {t t' : TrieOf N V} {c c' : Cursor N V}

theorem spelled_createPair {k1 k2 : Key} {v1 v2 : V} (h : CreatePair N k1 k2 v1 v2 c t) :
    Spelled t := by
  induction h with
  | @case1 k1 k2 v1 v2 _ _ _ _ _ _ _ _ _ same short hbnode nolist list notable table =>
    subst hbnode nolist
    rw [list.1]
    refine spelled_nil.update ?_
    rw [same]
    refine NodeSpelled.putValue ?_
    rw [← same]
    exact nodeSpelled_empty.putValue
  | case2 same long sub hbnode nolist list notable table ih =>
    subst hbnode nolist
    rw [list.1]
    exact spelled_nil.update (nodeSpelled_empty.putLink long.1 ih)
  | case3 apart hbnode1 hbnode2 nolist list2 list1 notable table2 table1 =>
    subst hbnode1 hbnode2 nolist
    rw [list1.1, list2.1]
    exact (spelled_nil.update nodeSpelled_empty.putValue).update nodeSpelled_empty.putValue

/-- A put keeps it. -/
theorem spelled_put {root below : Nat} (h : Put N k v c t c' t') (correct : Correct N root below t)
    (spelled : Spelled t) : Spelled t' := by
  induction h generalizing root with
  | case1 found short hbnode abs list =>
    subst hbnode
    rw [Flattened.getExact_eq correct.sorted] at found
    rw [list.1]
    exact spelled.update ((spelled.node found).putPrefix short)
  | case2 found long link sub hbnode abs list ih =>
    subst hbnode
    rw [Flattened.getExact_eq correct.sorted] at found
    rw [list.1]
    have hs := getLink_eq link
    have below := ih ((correct.node found).link hs) ((spelled.node found).link hs)
    exact spelled.update ((spelled.node found).putLink long below)
  | case3 found long nothing hbnode abs list =>
    subst hbnode
    rw [Flattened.getExact_eq correct.sorted] at found
    rw [list.1]
    exact spelled.update ((spelled.node found).putSuffix long)
  | case4 found long equal hbnode abs list =>
    subst hbnode
    rw [Flattened.getExact_eq correct.sorted] at found
    rw [list.1]
    exact spelled.update ((spelled.node found).putSuffix long)
  | case5 found long pair differ create hbnode abs list =>
    subst hbnode
    rw [Flattened.getExact_eq correct.sorted] at found
    rw [list.1]
    exact spelled.update ((spelled.node found).putLink long (spelled_createPair create))
  | case6 absent hbnode abs list tableAbs table =>
    subst hbnode
    rw [list.1]
    exact spelled_table.mpr (spelled.update nodeSpelled_empty.putValue)

end Puts

end DeepDB.Trie
