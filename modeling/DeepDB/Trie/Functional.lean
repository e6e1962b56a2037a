import DeepDB.Trie.BorderNode
import DeepDB.Trie.Table

/-!
The functional trie, `functional/trie.v`. A trie node has the address and the table of its layer and
the same layer as a sorted list, from slices to the address and the contents of a border node. A
cursor lists the layers it goes through. `put` and `create_pair` are relations, since they are free
in the addresses and in the cursors they hand to the layers.
-/

namespace DeepDB.Trie

inductive Trienode (Table Val V : Type) where
  | of (addr : Val) (tableform : Table)
    (listform : List (Int × (Val × Bordernode V (Trienode Table Val V))))

/-- `TrieKey`, the order of keys. -/
structure TrieKey where
  lt : Key → Key → Prop
  lt_dec : DecidableRel lt
  lt_trans : ∀ {x y z}, lt x y → lt y z → lt x z
  lt_not_eq : ∀ {x y}, lt x y → x ≠ y
  compare : ∀ x y, lt x y ∨ x = y ∨ lt y x

instance (K : TrieKey) : DecidableRel K.lt := K.lt_dec

variable {Val V : Type} (K : TrieKey) (N : FlattenableTable Val)

/-- The tries over a table. -/
abbrev TrieOf (N : FlattenableTable Val) (V : Type) := Trienode N.Table Val V

abbrev Cursor (N : FlattenableTable Val) (V : Type) :=
  List (TrieOf N V × N.Cursor × Bordernode V (TrieOf N V) × BorderNode.Cursor)

variable {N}

def Empty : TrieOf N V → Prop
  | .of _ trieform listform => N.Empty trieform ∧ listform = []

variable (N)

/-! ### Cursors -/

def strictFirstCursor : TrieOf N V → Option (Cursor N V)
  | .of addr tableform listform =>
    match _hv : Flattened.getValue (Flattened.firstCursor listform) listform with
    | some (_a, bnode) =>
      match BorderNode.nextCursor (.beforePrefix 1) bnode with
      | .beforePrefix len =>
        match BorderNode.getPrefix len bnode with
        | some _ =>
          some [(.of addr tableform listform, N.firstCursor tableform, bnode, .beforePrefix len)]
        | none => none
      | .beforeSuffix =>
        match _hs : bnode.suffix with
        | some (.inl _) =>
          some [(.of addr tableform listform, N.firstCursor tableform, bnode, .beforeSuffix)]
        | some (.inr t') =>
          match strictFirstCursor t' with
          | some c' =>
            some ((.of addr tableform listform, N.firstCursor tableform, bnode, .beforeSuffix) :: c')
          | none => none
        | none => none
      | .afterSuffix => none
    | none => none
termination_by t => sizeOf t
decreasing_by
  obtain ⟨k, member⟩ : ∃ k, (k, _a, bnode) ∈ listform := by
    unfold Flattened.getValue Flattened.get at _hv
    split at _hv
    · rename_i k w hw
      cases _hv
      exact ⟨k, List.mem_of_getElem? hw⟩
    · cases _hv
  have entry := List.sizeOf_lt_of_mem member
  obtain ⟨prefixes, suffix⟩ := bnode
  simp only at _hs
  subst _hs
  simp only [Trienode.of.sizeOf_spec, Prod.mk.sizeOf_spec, Bordernode.mk.sizeOf_spec,
    Option.some.sizeOf_spec, Sum.inr.sizeOf_spec] at entry ⊢
  omega

/-- The cursor moved on to the next entry when it is not at one. -/
def normalizeCursor : Cursor N V → Option (Cursor N V)
  | [] => none
  | (.of addr tableform listform, tableCursor, bnode, bnodeCursor) :: c' =>
    match normalizeCursor c' with
    | some c'' => some ((.of addr tableform listform, tableCursor, bnode, bnodeCursor) :: c'')
    | none =>
      match BorderNode.nextCursor bnodeCursor bnode with
      | .beforePrefix len =>
        some [(.of addr tableform listform, tableCursor, bnode, .beforePrefix len)]
      | .beforeSuffix =>
        match bnode.suffix with
        | none => none
        | some (.inl _) => some [(.of addr tableform listform, tableCursor, bnode, .beforeSuffix)]
        | some (.inr t') =>
          match strictFirstCursor N t' with
          | some c' => some ((.of addr tableform listform, tableCursor, bnode, .beforeSuffix) :: c')
          | none => none
      | .afterSuffix =>
        let tableCursor' := N.nextCursor tableCursor tableform
        match N.getKey tableCursor' tableform with
        | some key =>
          match Flattened.getValue (Flattened.makeCursor key listform) listform with
          | some (_, bnode') =>
            match BorderNode.nextCursor (.beforePrefix 1) bnode' with
            | .beforePrefix len =>
              match BorderNode.getPrefix len bnode' with
              | none => none
              | some _ =>
                some [(.of addr tableform listform, tableCursor', bnode', .beforePrefix len)]
            | .beforeSuffix =>
              match bnode'.suffix with
              | none => none
              | some (.inl _) =>
                some [(.of addr tableform listform, tableCursor', bnode', .beforeSuffix)]
              | some (.inr t') =>
                match strictFirstCursor N t' with
                | some c' =>
                  some ((.of addr tableform listform, tableCursor', bnode', .beforeSuffix) :: c')
                | none => none
            | .afterSuffix => none
          | none => none
        | none => none

def makeCursor (k : Key) : TrieOf N V → Cursor N V
  | .of addr tableform listform =>
    match Flattened.getExact (getKeyslice k) listform with
    | some (_, bnode) =>
      if _short : k.length ≤ keysliceLength then
        [(.of addr tableform listform, N.makeCursor (getKeyslice k) tableform, bnode,
          .beforePrefix k.length)]
      else
        match bnode.suffix with
        | none =>
          [(.of addr tableform listform, N.makeCursor (getKeyslice k) tableform, bnode,
            .afterSuffix)]
        | some (.inl (k', _)) =>
          if K.lt k' (getSuffix k) then
            [(.of addr tableform listform, N.makeCursor (getKeyslice k) tableform, bnode,
              .afterSuffix)]
          else
            [(.of addr tableform listform, N.makeCursor (getKeyslice k) tableform, bnode,
              .beforeSuffix)]
        | some (.inr t') =>
          (.of addr tableform listform, N.makeCursor (getKeyslice k) tableform, bnode,
            .beforeSuffix) :: makeCursor (getSuffix k) t'
    | none => []
termination_by k.length
decreasing_by exact length_getSuffix_lt (by omega)

def getRaw : Cursor N V → Option (Key × V)
  | (.of _ tableform _, tableCursor, bnode, bnodeCursor) :: c' =>
    match N.getKey tableCursor tableform with
    | some keyslice =>
      match bnodeCursor with
      | .beforePrefix len =>
        match BorderNode.getPrefix len bnode with
        | some v => some (reconstructKeyslice keyslice len, v)
        | none => none
      | .beforeSuffix =>
        match bnode.suffix with
        | some (.inl (k, v)) => some (reconstructKeyslice keyslice keysliceLength ++ k, v)
        | some (.inr _) =>
          match getRaw c' with
          | some (k', v') => some (reconstructKeyslice keyslice keysliceLength ++ k', v')
          | none => none
        | none => none
      | .afterSuffix => none
    | none => none
  | [] => none

def get (c : Cursor N V) (_t : TrieOf N V) : Option (Key × V) :=
  match normalizeCursor N c with
  | some c' => getRaw N c'
  | none => none

def getValue (c : Cursor N V) (t : TrieOf N V) : Option V :=
  match get N c t with
  | some (_, v) => some v
  | none => none

/-- The innermost layer's cursor is moved on. From `after_suffix` the source keeps the table's cursor
and the border node. -/
def strictNextCursor : Cursor N V → Cursor N V
  | [] => []
  | [(.of addr tableform listform, tableCursor, bnode, bnodeCursor)] =>
    match bnodeCursor with
    | .beforePrefix len =>
      if len < keysliceLength then
        [(.of addr tableform listform, tableCursor, bnode, .beforePrefix (len + 1))]
      else [(.of addr tableform listform, tableCursor, bnode, .afterSuffix)]
    | .beforeSuffix => [(.of addr tableform listform, tableCursor, bnode, .afterSuffix)]
    | .afterSuffix =>
      match N.getKey (N.nextCursor tableCursor tableform) tableform with
      | some key =>
        match Flattened.getValue (Flattened.makeCursor key listform) listform with
        | some _ => [(.of addr tableform listform, tableCursor, bnode, .beforePrefix 1)]
        | none => []
      | none => []
  | currentSlice :: c' => currentSlice :: strictNextCursor c'

def nextCursor (c : Cursor N V) (_t : TrieOf N V) : Cursor N V :=
  match normalizeCursor N c with
  | some c' => strictNextCursor N c'
  | none => []

/-! ### Putting a key -/

/-- The trie of two keys. -/
inductive CreatePair : Key → Key → V → V → Cursor N V → TrieOf N V → Prop
  | case1 {k1 k2 : Key} {v1 v2 : V} {emptylist listform} {emptytable tableform : N.Table}
      {listcursor tablecursor} {bnodeAddr addr : Val} {bnode : Bordernode V (TrieOf N V)}
      (same : getKeyslice k1 = getKeyslice k2)
      (short : k1.length ≤ keysliceLength ∨ k2.length ≤ keysliceLength)
      (hbnode : bnode = BorderNode.putValue k2 v2 (BorderNode.putValue k1 v1 BorderNode.empty))
      (nolist : emptylist = [])
      (list : Flattened.Put (getKeyslice k1) (bnodeAddr, bnode) (Flattened.firstCursor emptylist)
        emptylist listcursor listform)
      (notable : N.Empty emptytable)
      (table : N.Put (getKeyslice k1) bnodeAddr (N.firstCursor emptytable) emptytable tablecursor
        tableform) :
      CreatePair k1 k2 v1 v2
        [(.of addr tableform listform, tablecursor, bnode, BorderNode.lengthToCursor k1.length)]
        (.of addr tableform listform)
  | case2 {k1 k2 : Key} {v1 v2 : V} {emptylist listform} {emptytable tableform : N.Table}
      {listcursor tablecursor} {bnodeAddr addr : Val} {bnode : Bordernode V (TrieOf N V)} {c' t'}
      (same : getKeyslice k1 = getKeyslice k2)
      (long : keysliceLength < k1.length ∧ keysliceLength < k2.length)
      (sub : CreatePair (getSuffix k1) (getSuffix k2) v1 v2 c' t')
      (hbnode : bnode = BorderNode.putLink t' BorderNode.empty)
      (nolist : emptylist = [])
      (list : Flattened.Put (getKeyslice k1) (bnodeAddr, bnode) (Flattened.firstCursor emptylist)
        emptylist listcursor listform)
      (notable : N.Empty emptytable)
      (table : N.Put (getKeyslice k1) bnodeAddr (N.firstCursor emptytable) emptytable tablecursor
        tableform) :
      CreatePair k1 k2 v1 v2 ((.of addr tableform listform, tablecursor, bnode, .beforeSuffix) :: c')
        (.of addr tableform listform)
  | case3 {k1 k2 : Key} {v1 v2 : V} {emptylist listform1 listform2}
      {emptytable tableform1 tableform2 : N.Table} {listcursor1 listcursor2 tablecursor1 tablecursor2}
      {bnodeAddr1 bnodeAddr2 addr : Val} {bnode1 bnode2 : Bordernode V (TrieOf N V)}
      (apart : getKeyslice k1 ≠ getKeyslice k2)
      (hbnode1 : bnode1 = BorderNode.putValue k1 v1 BorderNode.empty)
      (hbnode2 : bnode2 = BorderNode.putValue k2 v2 BorderNode.empty)
      (nolist : emptylist = [])
      (list2 : Flattened.Put (getKeyslice k2) (bnodeAddr2, bnode2) (Flattened.firstCursor emptylist)
        emptylist listcursor2 listform2)
      (list1 : Flattened.Put (getKeyslice k1) (bnodeAddr1, bnode1) (Flattened.firstCursor listform2)
        listform2 listcursor1 listform1)
      (notable : N.Empty emptytable)
      (table2 : N.Put (getKeyslice k2) bnodeAddr2 (N.firstCursor emptytable) emptytable tablecursor2
        tableform2)
      (table1 : N.Put (getKeyslice k1) bnodeAddr1 (N.firstCursor tableform2) tableform2 tablecursor1
        tableform1) :
      CreatePair k1 k2 v1 v2
        [(.of addr tableform1 listform1, tablecursor1, bnode1, BorderNode.lengthToCursor k1.length)]
        (.of addr tableform1 listform1)

inductive Put : Key → V → Cursor N V → TrieOf N V → Cursor N V → TrieOf N V → Prop
  | case1 {k : Key} {v : V} {c} {tableform : N.Table} {listform listform' listcursor listcursor'}
      {bnodeAddr addr : Val} {bnode bnode' : Bordernode V (TrieOf N V)}
      (found : Flattened.getExact (getKeyslice k) listform = some (bnodeAddr, bnode))
      (short : k.length ≤ keysliceLength)
      (hbnode : bnode' = BorderNode.putPrefix k.length v bnode)
      (abs : Flattened.AbsRel listcursor listform)
      (list : Flattened.Put (getKeyslice k) (bnodeAddr, bnode') listcursor listform listcursor'
        listform') :
      Put k v c (.of addr tableform listform)
        [(.of addr tableform listform', N.makeCursor (getKeyslice k) tableform, bnode',
          .beforePrefix k.length)]
        (.of addr tableform listform')
  | case2 {k : Key} {v : V} {c} {tableform : N.Table} {listform listform' listcursor listcursor'}
      {bnodeAddr addr : Val} {bnode bnode' : Bordernode V (TrieOf N V)} {c' t' c'' t''}
      (found : Flattened.getExact (getKeyslice k) listform = some (bnodeAddr, bnode))
      (long : keysliceLength < k.length)
      (link : BorderNode.getLink bnode = some t')
      (sub : Put (getSuffix k) v c' t' c'' t'')
      (hbnode : bnode' = BorderNode.putLink t'' bnode)
      (abs : Flattened.AbsRel listcursor listform)
      (list : Flattened.Put (getKeyslice k) (bnodeAddr, bnode') listcursor listform listcursor'
        listform') :
      Put k v c (.of addr tableform listform)
        ((.of addr tableform listform', N.makeCursor (getKeyslice k) tableform, bnode',
          .beforeSuffix) :: c'')
        (.of addr tableform listform')
  | case3 {k : Key} {v : V} {c} {tableform : N.Table} {listform listform' listcursor listcursor'}
      {bnodeAddr addr : Val} {bnode bnode' : Bordernode V (TrieOf N V)}
      (found : Flattened.getExact (getKeyslice k) listform = some (bnodeAddr, bnode))
      (long : keysliceLength < k.length)
      (nothing : bnode.suffix = none)
      (hbnode : bnode' = BorderNode.putSuffix (getSuffix k) v bnode)
      (abs : Flattened.AbsRel listcursor listform)
      (list : Flattened.Put (getKeyslice k) (bnodeAddr, bnode') listcursor listform listcursor'
        listform') :
      Put k v c (.of addr tableform listform)
        [(.of addr tableform listform', N.makeCursor (getKeyslice k) tableform, bnode',
          .beforeSuffix)]
        (.of addr tableform listform')
  | case4 {k : Key} {v : V} {c} {tableform : N.Table} {listform listform' listcursor listcursor'}
      {bnodeAddr addr : Val} {bnode bnode' : Bordernode V (TrieOf N V)}
      (found : Flattened.getExact (getKeyslice k) listform = some (bnodeAddr, bnode))
      (long : keysliceLength < k.length)
      (equal : BorderNode.testSuffix (getSuffix k) bnode = true)
      (hbnode : bnode' = BorderNode.putSuffix (getSuffix k) v bnode)
      (abs : Flattened.AbsRel listcursor listform)
      (list : Flattened.Put (getKeyslice k) (bnodeAddr, bnode') listcursor listform listcursor'
        listform') :
      Put k v c (.of addr tableform listform)
        [(.of addr tableform listform', N.makeCursor (getKeyslice k) tableform, bnode',
          .beforeSuffix)]
        (.of addr tableform listform')
  | case5 {k : Key} {v : V} {c} {tableform : N.Table} {listform listform' listcursor listcursor'}
      {bnodeAddr addr : Val} {bnode bnode' : Bordernode V (TrieOf N V)} {c' t' k' v'}
      (found : Flattened.getExact (getKeyslice k) listform = some (bnodeAddr, bnode))
      (long : keysliceLength < k.length)
      (pair : BorderNode.getSuffixPair bnode = some (k', v'))
      (differ : getSuffix k ≠ k')
      (create : CreatePair N (getSuffix k) k' v v' c' t')
      (hbnode : bnode' = BorderNode.putLink t' bnode)
      (abs : Flattened.AbsRel listcursor listform)
      (list : Flattened.Put (getKeyslice k) (bnodeAddr, bnode') listcursor listform listcursor'
        listform') :
      Put k v c (.of addr tableform listform)
        ((.of addr tableform listform', N.makeCursor (getKeyslice k) tableform, bnode',
          .beforeSuffix) :: c')
        (.of addr tableform listform')
  | case6 {k : Key} {v : V} {c} {tableform tableform' : N.Table} {tablecursor tablecursor'}
      {listform listform' listcursor listcursor'} {bnodeAddr addr : Val}
      {bnode : Bordernode V (TrieOf N V)}
      (absent : Flattened.getExact (getKeyslice k) listform = none)
      (hbnode : bnode = BorderNode.putValue k v BorderNode.empty)
      (abs : Flattened.AbsRel listcursor listform)
      (list : Flattened.Put (getKeyslice k) (bnodeAddr, bnode) listcursor listform listcursor'
        listform')
      (tableAbs : N.AbsRel tablecursor tableform)
      (table : N.Put (getKeyslice k) bnodeAddr tablecursor tableform tablecursor' tableform') :
      Put k v c (.of addr tableform listform)
        [(.of addr tableform' listform', tablecursor', bnode, .beforeSuffix)]
        (.of addr tableform' listform')

end DeepDB.Trie
