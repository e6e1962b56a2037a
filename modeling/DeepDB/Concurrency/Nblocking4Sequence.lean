import DeepDB.Concurrency.Nblocking4Delete
import Mathlib.Data.List.Induction
import Mathlib.Data.List.Perm.Subperm

/-!
Any number of adds and deletes one after another. As long as every delete finds a node that it takes
out correctly, every call returns, and a find afterwards reports the keys whose last change was an
add, with the values that were added. A delete of another node loses keys.
-/

namespace DeepDB.Concurrency.Nblocking4
open RelyGuarantee SearchTree

variable {V : Type}

inductive Change (V : Type) where
  | add (key : Int) (value : V)
  | delete (key : Int)

def Change.key : Change V → Int
  | .add key _ => key
  | .delete key => key

def Change.isAdd : Change V → Bool
  | .add _ _ => true
  | .delete _ => false

variable {null : V} {m m' : Mem V} {s t : Tree Nat Int V} {room : Nat} {key : Int} {value : V}
  {c : List (Frame Nat Int V)}

def change (room : Nat) : Change V → Code V Unit
  | .add key value => add key value room room
  | .delete key => delete key room room

def changes (room : Nat) : List (Change V) → Mem V → Option (Mem V)
  | [], m => some m
  | x :: log, m => ((change room x).run exec m).bind fun y => changes room log y.2

/-! ### What the changes mean -/

/-- A key that is there keeps its value when it is added again. -/
def Change.apply (held : Int → Option V) : Change V → Int → Option V
  | .add key value, k => if k = key then some ((held k).getD value) else held k
  | .delete key, k => if k = key then none else held k

def contents (log : List (Change V)) : Int → Option V := log.foldl Change.apply fun _ => none

/-- The last change of a key was an add. -/
def lastAdded (log : List (Change V)) (key : Int) : Bool :=
  ((log.filter fun x => x.key = key).getLast?.map Change.isAdd).getD false

theorem contents_isSome (log : List (Change V)) (key : Int) :
    (contents log key).isSome = lastAdded log key := by
  induction log using List.reverseRecOn with
  | nil => rfl
  | append_singleton log x ih =>
    unfold contents lastAdded at ih ⊢
    rw [List.foldl_append, List.filter_append]
    by_cases same : x.key = key
    · subst same
      cases x <;> simp [Change.apply, Change.key, Change.isAdd]
    · have other : ([x].filter fun x => x.key = key) = [] := by simp [same]
      rw [other, List.append_nil, ← ih]
      cases x with
      | add k v => exact congrArg Option.isSome (if_neg fun h => same h.symm)
      | delete k => exact congrArg Option.isSome (if_neg fun h => same h.symm)

/-! ### Which nodes `delete` takes out correctly -/

/-- The least node is a leaf. -/
def leastLeaf : Tree Nat Int V → Bool
  | .nil _ => false
  | .node _ _ _ _ l r =>
    match l, r with
    | .nil _, .nil _ => true
    | .nil _, .node _ _ _ _ _ _ => false
    | .node a n k v l' r', _ => leastLeaf (.node a n k v l' r')

/-- The node of the key has no right child, or it has two children, and the least node of its right
subtree is a leaf and not the right child. -/
def removable (key : Int) : Tree Nat Int V → Bool
  | .nil _ => true
  | .node _ _ k _ l r =>
    if key < k then removable key l
    else if k < key then removable key r
    else match l, r with
      | _, .nil _ => true
      | .nil _, .node _ _ _ _ _ _ => false
      | .node _ _ _ _ _ _, .node _ _ _ _ l' _ => leastLeaf l'

/-- The tree at an atomic pointer, read for some rounds. -/
def treeAt (m : Mem V) : Nat → Nat → Tree Nat Int V
  | 0, a => .nil a
  | room + 1, a =>
    match m.ptr[a]? with
    | some (.node n) =>
      match m.tree[n]? with
      | some p => .node a n p.key p.value (treeAt m room p.left) (treeAt m room p.right)
      | none => .nil a
    | _ => .nil a

/-- Every delete of the log meets a node that it takes out correctly. -/
def allRemovable (room : Nat) : List (Change V) → Mem V → Bool
  | [], _ => true
  | x :: log, m =>
    (match x with
      | .add _ _ => true
      | .delete key => removable key (treeAt m m.tree.length (childOf 0 false))) &&
    (match (change room x).run exec m with
      | some (_, m') => allRemovable room log m'
      | none => true)

theorem treeAt_eq (repr : Repr (cell m) (node m) t) (fits : t.nodes.length ≤ room) :
    treeAt m room t.root = t := by
  induction t generalizing room with
  | nil a =>
    obtain ⟨r, stored, pointer⟩ := Option.map_eq_some_iff.mp repr
    cases room with
    | zero => rfl
    | succ room =>
      show (match m.ptr[a]? with | some (.node n) => _ | _ => _) = _
      rw [stored]
      cases r with
      | node n => cases pointer
      | NULL => rfl
      | tagged => rfl
  | node a n key value l r ihl ihr =>
    obtain ⟨full, ⟨op, here⟩, hl, hr⟩ := repr
    simp only [Tree.nodes, List.length_append, List.length_cons] at fits
    obtain ⟨room, rfl⟩ : ∃ room', room = room' + 1 := ⟨room - 1, by omega⟩
    show (match m.ptr[a]? with | some (.node n) => _ | _ => _) = _
    rw [cell_some full]
    show (match m.tree[n]? with | some p => _ | none => _) = _
    rw [here]
    show SearchTree.Tree.node a n key value (treeAt m room l.root) (treeAt m room r.root) = _
    rw [ihl hl (by omega), ihr hr (by omega)]

/-! ### One change -/

theorem leastLeaf_plug (leaf : leastLeaf t = true) :
    ∃ d b n k v e e', t = plug d (.node b n k v (.nil e) (.nil e')) ∧ Lefts d := by
  induction t with
  | nil => cases leaf
  | node a n k v l r ihl _ =>
    cases l with
    | nil e =>
      cases r with
      | nil e' => exact ⟨[], a, n, k, v, e, e', rfl, fun _ hf => absurd hf List.not_mem_nil⟩
      | node => cases leaf
    | node a' n' k' v' l' r' =>
      obtain ⟨d, b, w, rk, rv, e, e', eq, lefts⟩ := ihl leaf
      refine ⟨d ++ [.left a n k v r], b, w, rk, rv, e, e', ?_, fun f hf => ?_⟩
      · rw [plug_append, ← eq]
        rfl
      · rcases List.mem_append.mp hf with hf | hf
        · exact lefts f hf
        · exact ⟨a, n, k, v, r, List.mem_singleton.mp hf⟩

theorem removable_plug (goes : Goes key c) : removable key (plug c s) = removable key s := by
  induction c generalizing s with
  | nil => rfl
  | cons f c ih =>
    obtain ⟨here, there⟩ := goes_cons.mp goes
    refine (ih (s := f.fill s) there).trans ?_
    cases f with
    | left a n k v r => exact if_pos here
    | right a n k v l => exact (if_neg (lt_asymm here)).trans (if_pos here)

/-- A node that can be taken out, with what is left. -/
theorem Calm.run_delete_node {a n : Nat} {v : V} {l r : Tree Nat Int V}
    (calm : Calm m (plug c (.node a n key v l r))) (goes : Goes key c)
    (fits : (plug c (.node a n key v l r)).nodes.length < room)
    (ok : removable key (plug c (.node a n key v l r)) = true) :
    ∃ m' t', (delete key room room).run exec m = some ((), m') ∧ Calm m' t' ∧
      (entries (plug c (.node a n key v l r))).Perm ((key, v) :: entries t') := by
  have length := length_plug c (.node a n key v l r)
  have one : 0 < room := by omega
  have short : c.length < room := by omega
  rw [removable_plug goes] at ok
  unfold removable at ok
  rw [if_neg (lt_irrefl key), if_neg (lt_irrefl key)] at ok
  cases r with
  | nil b =>
    obtain ⟨m', done, calm'⟩ := calm.run_delete_bare goes short one
    refine ⟨m', _, done, calm', entries_more ?_⟩
    rw [entries_node, entries_moveTo]
    refine List.perm_middle.trans ?_
    simp [entries, Tree.nodes]
  | node b n' k' v' l' r' =>
    cases l with
    | nil => cases ok
    | node e i k'' v'' l'' r'' =>
      obtain ⟨d, b', w, rk, rv, e₁, e₂, rfl, lefts⟩ := leastLeaf_plug ok
      have split (s : Tree Nat Int V) : SearchTree.Tree.node b n' k' v' (plug d s) r'
          = plug (d ++ [.left b n' k' v' r']) s := by
        rw [plug_append]
        rfl
      rw [split] at calm length fits ⊢
      have lefts' : Lefts (d ++ [.left b n' k' v' r']) := by
        intro f hf
        rcases List.mem_append.mp hf with hf | hf
        · exact lefts f hf
        · exact ⟨b, n', k', v', r', List.mem_singleton.mp hf⟩
      have length' := length_plug (d ++ [.left b n' k' v' r']) (.node b' w rk rv (.nil e₁) (.nil e₂))
      simp only [Tree.nodes, List.length_append, List.length_cons] at length length'
      have deep : (d ++ [Frame.left b n' k' v' r']).length + 1 < room := by
        simp only [List.length_append, List.length_cons, List.length_nil] at length' ⊢
        omega
      obtain ⟨m', done, calm'⟩ := calm.run_delete_least goes lefts' (by simp) (by simp [Tree.nodes]) short
        deep one
      refine ⟨m', _, done, calm', entries_more ?_⟩
      rw [entries_node a, entries_node a]
      refine List.perm_middle.trans (List.Perm.cons _ (List.Perm.append_left _ ?_))
      exact entries_more (by simp [entries, Tree.nodes])

theorem Calm.run_change (calm : Calm m t) (fits : t.nodes.length < room) (x : Change V)
    (ok : ∀ key, x = .delete key → removable key t = true) :
    ∃ m' t', (change room x).run exec m = some ((), m') ∧ Calm m' t' ∧
      t'.nodes.length ≤ t.nodes.length + 1 ∧
      (fun k => SearchTree.find k t') = x.apply fun k => SearchTree.find k t := by
  have one : 0 < room := Nat.zero_lt_of_lt fits
  cases x with
  | add key value =>
    rcases exists_end key t with ⟨c, a, rfl, goes⟩ | ⟨c, a, n, v, l, r, rfl, goes⟩
    · have short : c.length < room := Nat.lt_of_le_of_lt (Nat.le_of_add_right_le (length_plug c _)) fits
      obtain ⟨m', w, b, b', done, calm'⟩ := calm.run_add_new value goes short one
      have more : (entries (plug c (.node a w key value (.nil b) (.nil b')))).Perm
          ((key, value) :: entries (plug c (.nil a))) := entries_more (by simp [entries, Tree.nodes])
      have length := more.length_eq
      simp only [entries, List.length_map, List.length_cons] at length
      obtain ⟨absent, found⟩ := find_more calm.ordered calm'.ordered more
      refine ⟨m', _, done, calm', Nat.le_of_eq length, funext fun k => ?_⟩
      rw [found, Change.apply]
      by_cases same : k = key
      · rw [if_pos same, if_pos same, same, absent, Option.getD_none]
      · rw [if_neg same, if_neg same]
    · have short : c.length < room := Nat.lt_of_le_of_lt (Nat.le_of_add_right_le (length_plug c _)) fits
      refine ⟨m, _, calm.run_add_old goes short one, calm, Nat.le_succ _, funext fun k => ?_⟩
      rw [Change.apply]
      by_cases same : k = key
      · have here : SearchTree.find k (plug c (.node a n key v l r)) = some v := by
          rw [same, find_plug goes, SearchTree.find, if_neg (lt_irrefl key), if_neg (lt_irrefl key)]
        rw [if_pos same, here, Option.getD_some]
      · rw [if_neg same]
  | delete key =>
    rcases exists_end key t with ⟨c, a, rfl, goes⟩ | ⟨c, a, n, v, l, r, rfl, goes⟩
    · have short : c.length < room := Nat.lt_of_le_of_lt (Nat.le_of_add_right_le (length_plug c _)) fits
      refine ⟨m, _, calm.run_delete_new goes short one, calm, Nat.le_succ _, funext fun k => ?_⟩
      rw [Change.apply]
      by_cases same : k = key
      · rw [if_pos same, same, find_plug goes]
        rfl
      · rw [if_neg same]
    · obtain ⟨m', t', done, calm', less⟩ := calm.run_delete_node goes fits (ok key rfl)
      have length := less.length_eq
      simp only [entries, List.length_map, List.length_cons] at length
      obtain ⟨absent, found⟩ := find_more calm'.ordered calm.ordered less
      refine ⟨m', t', done, calm', by omega, funext fun k => ?_⟩
      rw [Change.apply]
      by_cases same : k = key
      · rw [if_pos same, same, absent]
      · rw [if_neg same, found, if_neg same]

/-! ### Runs -/

theorem start_calm (null : V) : Calm (start null) (.nil (childOf 0 false)) where
  repr := rfl
  root := rfl
  cells := List.nodup_singleton _
  pointers := List.nodup_nil
  base := rfl
  sentinel := ⟨_, rfl⟩
  zero := List.not_mem_nil
  sides := by
    intro n p here is_left
    cases n with
    | zero =>
      cases here
      cases is_left <;> rfl
    | succ n => cases here
  lengths := rfl
  quiet := by
    intro n p _ member here
    rcases member with rfl | inside
    · cases here
      rfl
    · cases inside
  tagged := fun _ inside => absurd inside List.not_mem_nil
  unused := rfl
  ordered := trivial

/-- There are as many nodes in memory as in the tree at least. -/
theorem Layout.length_le (layout : Layout m t) : t.nodes.length ≤ m.tree.length := by
  have bound : t.pointers ⊆ List.range m.tree.length := by
    intro n inside
    obtain ⟨⟨n', k, v⟩, member, rfl⟩ := List.mem_map.mp inside
    obtain ⟨c, a, l, r, rfl⟩ := exists_plug_node member
    obtain ⟨op, here⟩ := (repr_plug layout.repr).2.1
    exact List.mem_range.mpr (List.getElem?_eq_some_iff.mp here).1
  have short := (List.subperm_of_subset layout.pointers bound).length_le
  rwa [Tree.pointers, List.length_map, List.length_range] at short

theorem Calm.run_changes (calm : Calm m t) {log : List (Change V)}
    (fits : t.nodes.length + log.length ≤ room) (ok : allRemovable room log m = true) :
    ∃ m' t', changes room log m = some m' ∧ Calm m' t' ∧ t'.nodes.length ≤ t.nodes.length + log.length ∧
      (fun k => SearchTree.find k t') = log.foldl Change.apply fun k => SearchTree.find k t := by
  induction log generalizing m t with
  | nil => exact ⟨m, t, rfl, calm, Nat.le_refl _, rfl⟩
  | cons x log ih =>
    rw [List.length_cons] at fits
    unfold allRemovable at ok
    rw [Bool.and_eq_true] at ok
    obtain ⟨first, rest⟩ := ok
    have room₁ : t.nodes.length < room := by omega
    obtain ⟨m₁, t₁, done, calm₁, length, held⟩ := calm.run_change room₁ x (by
      rintro key rfl
      have same := treeAt_eq calm.repr calm.toLayout.length_le
      rw [calm.root] at same
      rw [← same]
      exact first)
    rw [done] at rest
    obtain ⟨m', t', did, calm', length', held'⟩ := ih calm₁ (by omega) rest
    refine ⟨m', t', ?_, calm', by rw [List.length_cons]; omega, ?_⟩
    · rw [changes, done]
      exact did
    · rw [held', List.foldl_cons, held]

theorem Calm.run_find_key (calm : Calm m t) (fits : t.nodes.length < room) (key : Int) :
    ∃ out, (find key .none base_root room room).run exec m = some (out, m) ∧
      (out.result = .FOUND ↔ (SearchTree.find key t).isSome) ∧
      (out.result = .FOUND → out.value = SearchTree.find key t) := by
  have one : 0 < room := Nat.zero_lt_of_lt fits
  rcases exists_end key t with ⟨c, a, rfl, goes⟩ | ⟨c, a, n, v, l, r, rfl, goes⟩
  · have short : c.length < room := Nat.lt_of_le_of_lt (Nat.le_of_add_right_le (length_plug c _)) fits
    obtain ⟨n, p, -, -, -, -, missed, -⟩ := calm.curr .none
    have absent : SearchTree.find key (plug c (.nil a : Tree Nat Int V)) = .none := find_plug goes
    refine ⟨_, calm.run_find_empty goes short one, ?_, fun found => absurd found missed⟩
    rw [absent]
    exact iff_of_false missed (by simp)
  · have short : c.length < room := Nat.lt_of_le_of_lt (Nat.le_of_add_right_le (length_plug c _)) fits
    have here : SearchTree.find key (plug c (.node a n key v l r)) = some v := by
      rw [find_plug goes, SearchTree.find, if_neg (lt_irrefl key), if_neg (lt_irrefl key)]
    refine ⟨_, calm.run_find_node goes short one, ?_, fun _ => here.symm⟩
    rw [here]
    exact iff_of_true rfl rfl

/-- When every delete meets a node that it takes out correctly, every call returns, and a find
afterwards reports the keys whose last change was an add, each with its value. -/
theorem log_found (null : V) (log : List (Change V)) (room : Nat) (fits : log.length < room)
    (ok : allRemovable room log (start null) = true) :
    ∃ m, changes room log (start null) = some m ∧ ∀ key,
      ∃ out, (find key none base_root room room).run exec m = some (out, m) ∧
        (out.result = .FOUND ↔ lastAdded log key = true) ∧
        (out.result = .FOUND → out.value = contents log key) := by
  have empty : (SearchTree.Tree.nil (childOf 0 false) : Tree Nat Int V).nodes.length + log.length ≤ room := by
    rw [Tree.nodes, List.length_nil]
    omega
  obtain ⟨m, t, did, calm, length, held⟩ := (start_calm null).run_changes empty ok
  have length' : t.nodes.length < room := by
    rw [Tree.nodes, List.length_nil] at length
    omega
  refine ⟨m, did, fun key => ?_⟩
  obtain ⟨out, found, result, value⟩ := calm.run_find_key length' key
  have same : SearchTree.find key t = contents log key := congrFun held key
  rw [same] at result value
  rw [contents_isSome] at result
  exact ⟨out, found, result, value⟩

/-- A root with two children is deleted; the least key above it is in a leaf. -/
theorem log_found_least : ∃ m, changes 6
      [.add 5 50, .add 3 30, .add 9 90, .add 7 70, Change.delete 5] (start 0) = some m ∧ ∀ key,
    ∃ out, (find key none base_root 6 6).run exec m = some (out, m) ∧
      (out.result = .FOUND ↔
        lastAdded [.add 5 50, .add 3 30, .add 9 90, .add 7 70, Change.delete 5] key = true) ∧
      (out.result = .FOUND → out.value
        = contents [.add 5 50, .add 3 30, .add 9 90, .add 7 70, Change.delete 5] key) :=
  log_found 0 [.add 5 50, .add 3 30, .add 9 90, .add 7 70, .delete 5] 6 (by decide) (by decide)

/-- A node with a right child alone is deleted, and its right child is lost. -/
theorem delete_loses_key : ¬∀ (log : List (Change Nat)) (room : Nat), log.length < room →
    ∃ m, changes room log (start 0) = some m ∧ ∀ key,
      ∃ out, (find key none base_root room room).run exec m = some (out, m) ∧
        (out.result = .FOUND ↔ lastAdded log key = true) ∧
        (out.result = .FOUND → out.value = contents log key) := by
  intro all
  obtain ⟨m, did, found⟩ := all [.add 1 10, .add 2 20, .delete 1] 4 (by decide)
  obtain ⟨out, run, result, -⟩ := found 2
  have missed : ((changes 4 [.add 1 10, .add 2 20, Change.delete 1] (start 0)).bind fun m =>
      ((find 2 none base_root 4 4).run exec m).map fun x => x.1.result) = some .NOTFOUND_R := by decide
  rw [did, Option.bind_some, run, Option.map_some] at missed
  cases missed.symm.trans (congrArg some (result.mpr (by decide)))

end DeepDB.Concurrency.Nblocking4
