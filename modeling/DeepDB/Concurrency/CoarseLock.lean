import DeepDB.Concurrency.PureTree
import Mathlib.Logic.Function.Basic
import Mathlib.Data.List.Nodup

/-!
The search tree of `concurrency/bst_conc_cglock.c` under its one lock. The loops keep the place of the
pointer they came along, and write the new subtree there. `Rep` says that the subtree of a place is a
pure tree and names its nodes; a loop that works on it leaves the rest of the memory alone.
-/

namespace DeepDB.Concurrency.CoarseLock
open PureTree (Key SortedTree height entries)

def NULL : Nat := 0

/-- The pointers of the tree by where they are stored: `&tgt->t`, `&p->left` and `&p->right`. -/
inductive Place where
  | root
  | left (p : Nat)
  | right (p : Nat)
  deriving DecidableEq

/-- The node that holds a pointer. -/
def Place.owner : Place → Option Nat
  | root => none
  | left p => some p
  | right p => some p

structure Mem (V : Type) where
  cell : Place → Nat
  node : Nat → Option (Key × V)
  locked : Bool

/-- The program exits, waits for its own lock, follows a bad pointer, or is not done yet. -/
inductive Stop where
  | exit
  | blocked
  | fault
  | running

abbrev Exec := Except Stop

variable {V : Type}

/-! ### Memory -/

def Mem.allocated (m : Mem V) (p : Nat) : Bool := p ≠ NULL && (m.node p).isSome

def Mem.valid (m : Mem V) (tr : Place) : Bool := tr.owner.all m.allocated

def load (tr : Place) (m : Mem V) : Exec Nat :=
  if m.valid tr then .ok (m.cell tr) else .error .fault

def store (tr : Place) (q : Nat) (m : Mem V) : Exec (Mem V) :=
  if m.valid tr then .ok { m with cell := Function.update m.cell tr q } else .error .fault

def readNode (p : Nat) (m : Mem V) : Exec (Key × V) :=
  if p = NULL then .error .fault
  else
    match m.node p with
    | some x => .ok x
    | none => .error .fault

def free (p : Nat) (m : Mem V) : Exec (Mem V) :=
  if m.allocated p then .ok { m with node := Function.update m.node p none } else .error .fault

/-- `new` is what `malloc` answers. -/
def surelyMalloc (new : Nat) : Exec Nat := if new = NULL then .error .exit else .ok new

def acquire (m : Mem V) : Exec (Mem V) :=
  if m.locked then .error .blocked else .ok { m with locked := true }

def release (m : Mem V) : Exec (Mem V) :=
  if m.locked then .ok { m with locked := false } else .error .fault

/-! ### The functions -/

def insertLoop (x : Key) (value : V) (new : Nat) : (fuel : Nat) → Place → Mem V → Exec (Mem V)
  | 0, _, _ => .error .running
  | fuel + 1, tr, m => do
    let p ← load tr m
    if p = NULL then
      let p ← surelyMalloc new
      let m ← store tr p m
      release { m with
        node := Function.update m.node p (some (x, value))
        cell := Function.update (Function.update m.cell (.left p) NULL) (.right p) NULL }
    else
      let (y, _) ← readNode p m
      if x < y then insertLoop x value new fuel (.left p) m
      else if y < x then insertLoop x value new fuel (.right p) m
      else release { m with node := Function.update m.node p (some (y, value)) }

def insert (fuel new : Nat) (x : Key) (value : V) (m : Mem V) : Exec (Mem V) := do
  let m ← acquire m
  insertLoop x value new fuel .root m

def lookupLoop (default : V) (x : Key) : (fuel : Nat) → (p : Nat) → Mem V → Exec (V × Mem V)
  | 0, _, _ => .error .running
  | fuel + 1, p, m =>
    if p = NULL then do
      let m ← release m
      return (default, m)
    else do
      let (y, v) ← readNode p m
      if x < y then
        let p ← load (.left p) m
        lookupLoop default x fuel p m
      else if y < x then
        let p ← load (.right p) m
        lookupLoop default x fuel p m
      else
        let m ← release m
        return (v, m)

/-- `default` stands for the NULL of a key that is not there. -/
def lookup (fuel : Nat) (default : V) (x : Key) (m : Mem V) : Exec (V × Mem V) := do
  let m ← acquire m
  let p ← load .root m
  lookupLoop default x fuel p m

def turnLeft (t : Place) (l r : Nat) (m : Mem V) : Exec (Mem V) := do
  let mid ← load (.left r) m
  let m ← store (.right l) mid m
  let m ← store (.left r) l m
  store t r m

def pushdownLeft : (fuel : Nat) → Place → Mem V → Exec (Mem V)
  | 0, _, _ => .error .running
  | fuel + 1, t, m => do
    let p ← load t m
    let q ← load (.right p) m
    if q = NULL then
      let q ← load (.left p) m
      let m ← store t q m
      free p m
    else
      let m ← turnLeft t p q m
      pushdownLeft fuel (.left q) m

def deleteLoop (x : Key) : (fuel : Nat) → Place → Mem V → Exec (Mem V)
  | 0, _, _ => .error .running
  | fuel + 1, tr, m => do
    let p ← load tr m
    if p = NULL then release m
    else
      let (y, _) ← readNode p m
      if x < y then deleteLoop x fuel (.left p) m
      else if y < x then deleteLoop x fuel (.right p) m
      else
        let m ← pushdownLeft (fuel + 1) tr m
        release m

def delete (fuel : Nat) (x : Key) (m : Mem V) : Exec (Mem V) := do
  let m ← acquire m
  deleteLoop x fuel .root m

/-! ### Trees in memory -/

/-- The subtree of a place, and its nodes. -/
inductive Rep (m : Mem V) : PureTree.Tree V → Place → List Nat → Prop where
  | E {tr : Place} (cell : m.cell tr = NULL) : Rep m .E tr []
  | T {tr : Place} {p : Nat} {k : Key} {v : V} {l r : PureTree.Tree V} {ps qs : List Nat}
      (cell : m.cell tr = p) (notNull : p ≠ NULL) (node : m.node p = some (k, v)) (left : Rep m l (.left p) ps)
      (right : Rep m r (.right p) qs) (distinct : (p :: (ps ++ qs)).Nodup) :
      Rep m (.T l k v r) tr (p :: (ps ++ qs))

/-- The memories differ in the place `tr` and in the nodes `F` only. -/
structure Outside (tr : Place) (F : List Nat) (m m' : Mem V) : Prop where
  node : ∀ p, p ∉ F → m'.node p = m.node p
  cell : ∀ pl, pl ≠ tr → (∀ p ∈ F, pl.owner ≠ some p) → m'.cell pl = m.cell pl

variable {m m' m'' : Mem V} {t l r l' r' : PureTree.Tree V} {tr tr' : Place}
  {ps ps' qs qs' F : List Nat} {p : Nat} {k x : Key} {v : V}

theorem Rep.distinct (h : Rep m t tr ps) : ps.Nodup := by
  cases h with
  | E => exact List.nodup_nil
  | T _ _ _ _ _ distinct => exact distinct

/-- A subtree whose nodes are left alone, in the place that points to it now. -/
theorem Rep.move (h : Rep m t tr ps) (here : m'.cell tr' = m.cell tr)
    (same : ∀ a ∈ ps, m'.node a = m.node a ∧ m'.cell (.left a) = m.cell (.left a) ∧
      m'.cell (.right a) = m.cell (.right a)) : Rep m' t tr' ps := by
  induction h generalizing tr' with
  | E cell => exact .E (here.trans cell)
  | @T tr p k v l r ps qs cell notNull node _ _ distinct ihl ihr =>
    obtain ⟨node', left, right⟩ := same p List.mem_cons_self
    refine .T (here.trans cell) notNull (node'.trans node) (ihl left fun a ha => ?_)
      (ihr right fun a ha => ?_) distinct
    · exact same a (List.mem_cons_of_mem _ (List.mem_append_left _ ha))
    · exact same a (List.mem_cons_of_mem _ (List.mem_append_right _ ha))

theorem Outside.mono {G : List Nat} (h : Outside tr F m m') (sub : ∀ a ∈ F, a ∈ G) :
    Outside tr G m m' where
  node := fun p hp => h.node p fun hF => hp (sub p hF)
  cell := fun pl ne own => h.cell pl ne fun p hF => own p (sub p hF)

theorem Outside.trans (h : Outside tr F m m') (h' : Outside tr F m' m'') : Outside tr F m m'' where
  node := fun p hp => (h'.node p hp).trans (h.node p hp)
  cell := fun pl ne own => (h'.cell pl ne own).trans (h.cell pl ne own)

/-- Nodes outside the change keep what they hold. -/
theorem Outside.same (h : Outside tr F m m') {a : Nat} (ha : a ∉ F) (own : tr.owner ≠ some a) :
    m'.node a = m.node a ∧ m'.cell (.left a) = m.cell (.left a) ∧
      m'.cell (.right a) = m.cell (.right a) := by
  have apart : ∀ b ∈ F, some a ≠ some b := by
    intro b hb same
    exact ha (Option.some.inj same ▸ hb)
  refine ⟨h.node a ha, h.cell _ ?_ apart, h.cell _ ?_ apart⟩
  · rintro rfl
    exact own rfl
  · rintro rfl
    exact own rfl

theorem Rep.left_changed (cell : m.cell tr = p) (notNull : p ≠ NULL) (node : m.node p = some (k, v))
    (right : Rep m r (.right p) qs) (hp : p ∉ qs) (own : tr.owner ≠ some p)
    (out : Outside (.left p) F m m') (apart : ∀ a ∈ F, a ≠ p ∧ a ∉ qs ∧ tr.owner ≠ some a)
    (left : Rep m' l' (.left p) ps') (sub : ∀ a ∈ ps', a ∈ F) :
    Rep m' (.T l' k v r) tr (p :: (ps' ++ qs)) ∧ Outside tr (p :: (F ++ qs)) m m' := by
  have notF : p ∉ F := fun hF => (apart p hF).1 rfl
  have ownerF : ∀ a ∈ F, tr.owner ≠ some a := fun a hF => (apart a hF).2.2
  have place : tr ≠ .left p := by
    rintro rfl
    exact own rfl
  refine ⟨.T ((out.cell tr place ownerF).trans cell) notNull ((out.node p notF).trans node) left
    (right.move ?_ fun a ha => out.same (fun hF => (apart a hF).2.1 ha) ?_) ?_, ?_, ?_⟩
  · apply out.cell _ Place.noConfusion
    intro a hF same
    exact notF (Option.some.inj same ▸ hF)
  · rintro ⟨⟩
    exact hp ha
  · rw [List.nodup_cons, List.mem_append, List.nodup_append]
    refine ⟨not_or.mpr ⟨fun h => notF (sub p h), hp⟩, left.distinct, right.distinct, ?_⟩
    rintro a ha b hb rfl
    exact (apart a (sub a ha)).2.1 hb
  · intro a ha
    exact out.node a fun hF => ha (List.mem_cons_of_mem _ (List.mem_append_left _ hF))
  · intro pl ne own'
    apply out.cell pl
    · rintro rfl
      exact own' p List.mem_cons_self rfl
    · exact fun a hF => own' a (List.mem_cons_of_mem _ (List.mem_append_left _ hF))

theorem Rep.right_changed (cell : m.cell tr = p) (notNull : p ≠ NULL) (node : m.node p = some (k, v))
    (left : Rep m l (.left p) ps) (hp : p ∉ ps) (own : tr.owner ≠ some p)
    (out : Outside (.right p) F m m') (apart : ∀ a ∈ F, a ≠ p ∧ a ∉ ps ∧ tr.owner ≠ some a)
    (right : Rep m' r' (.right p) qs') (sub : ∀ a ∈ qs', a ∈ F) :
    Rep m' (.T l k v r') tr (p :: (ps ++ qs')) ∧ Outside tr (p :: (ps ++ F)) m m' := by
  have notF : p ∉ F := fun hF => (apart p hF).1 rfl
  have ownerF : ∀ a ∈ F, tr.owner ≠ some a := fun a hF => (apart a hF).2.2
  have place : tr ≠ .right p := by
    rintro rfl
    exact own rfl
  refine ⟨.T ((out.cell tr place ownerF).trans cell) notNull ((out.node p notF).trans node)
    (left.move ?_ fun a ha => out.same (fun hF => (apart a hF).2.1 ha) ?_) right ?_, ?_, ?_⟩
  · apply out.cell _ Place.noConfusion
    intro a hF same
    exact notF (Option.some.inj same ▸ hF)
  · rintro ⟨⟩
    exact hp ha
  · rw [List.nodup_cons, List.mem_append, List.nodup_append]
    refine ⟨not_or.mpr ⟨hp, fun h => notF (sub p h)⟩, left.distinct, right.distinct, ?_⟩
    rintro a ha b hb rfl
    exact (apart a (sub a hb)).2.1 ha
  · intro a ha
    exact out.node a fun hF => ha (List.mem_cons_of_mem _ (List.mem_append_right _ hF))
  · intro pl ne own'
    apply out.cell pl
    · rintro rfl
      exact own' p List.mem_cons_self rfl
    · exact fun a hF => own' a (List.mem_cons_of_mem _ (List.mem_append_right _ hF))

/-! ### Steps of the loops -/

theorem load_ok (h : m.valid tr = true) : load tr m = .ok (m.cell tr) := if_pos h

theorem store_ok (h : m.valid tr = true) (q : Nat) :
    store tr q m = .ok { m with cell := Function.update m.cell tr q } := if_pos h

theorem release_ok (h : m.locked = true) : release m = .ok { m with locked := false } := if_pos h

theorem readNode_ok (notNull : p ≠ NULL) (node : m.node p = some (k, v)) :
    readNode p m = .ok (k, v) := by
  rw [readNode, if_neg notNull, node]

theorem allocated_ok (notNull : p ≠ NULL) (node : m.node p = some (k, v)) : m.allocated p = true := by
  rw [Mem.allocated, node]
  simpa using notNull

/-- A valid place is in a node that is there. -/
theorem owner_ne_new {new : Nat} (valid : m.valid tr = true) (fresh : m.node new = none) :
    tr.owner ≠ some new := by
  intro same
  rw [Mem.valid, same, Option.all_some, Mem.allocated, fresh] at valid
  simp at valid

theorem Rep.node_ne_none (h : Rep m t tr ps) : ∀ a ∈ ps, m.node a ≠ none := by
  induction h with
  | E => exact fun a no => absurd no List.not_mem_nil
  | @T tr p k v l r ps qs cell notNull node left right distinct ihl ihr =>
    intro a ha
    rcases List.mem_cons.mp ha with rfl | ha
    · rw [node]
      exact Option.some_ne_none _
    · rcases List.mem_append.mp ha with ha | ha
      · exact ihl a ha
      · exact ihr a ha

/-- The nodes of the two subtrees are apart from each other, from the node and from its place. -/
theorem node_apart (distinct : (p :: (ps ++ qs)).Nodup)
    (own : ∀ a ∈ p :: (ps ++ qs), tr.owner ≠ some a) :
    p ∉ ps ∧ p ∉ qs ∧ (∀ a ∈ ps, a ≠ p ∧ a ∉ qs ∧ tr.owner ≠ some a) ∧
      ∀ a ∈ qs, a ≠ p ∧ a ∉ ps ∧ tr.owner ≠ some a := by
  obtain ⟨hp, distinct⟩ := List.nodup_cons.mp distinct
  obtain ⟨hps, hqs⟩ := not_or.mp fun member => hp (List.mem_append.mpr member)
  have apart := (List.nodup_append.mp distinct).2.2
  refine ⟨hps, hqs, fun a ha => ⟨?_, ?_, ?_⟩, fun a ha => ⟨?_, ?_, ?_⟩⟩
  · exact fun same => hps (same ▸ ha)
  · exact fun ha' => apart a ha a ha' rfl
  · exact own a (List.mem_cons_of_mem _ (List.mem_append_left _ ha))
  · exact fun same => hqs (same ▸ ha)
  · exact fun ha' => apart a ha' a ha rfl
  · exact own a (List.mem_cons_of_mem _ (List.mem_append_right _ ha))

/-! ### insert -/

/-- The loop puts the new subtree in its place, unless `malloc` fails. -/
theorem insertLoop_rep {fuel new : Nat} (h : Rep m t tr ps) (valid : m.valid tr = true)
    (own : ∀ a ∈ ps, tr.owner ≠ some a) (locked : m.locked = true) (fresh : m.node new = none)
    (enough : height t < fuel) :
    (new = NULL ∧ insertLoop x v new fuel tr m = .error .exit) ∨
      ∃ m' ps', insertLoop x v new fuel tr m = .ok m' ∧ m'.locked = false ∧
        Rep m' (PureTree.insert x v t) tr ps' ∧ Outside tr (new :: ps) m m' ∧
        ∀ a ∈ ps', a ∈ new :: ps := by
  induction h generalizing fuel with
  | @E tr cell =>
    obtain ⟨fuel, rfl⟩ := Nat.exists_eq_succ_of_ne_zero (Nat.ne_zero_of_lt enough)
    have ownNew := owner_ne_new valid fresh
    rw [insertLoop, load_ok valid]
    simp only [bind, Except.bind, cell, if_true]
    by_cases null : new = NULL
    · exact Or.inl ⟨null, by rw [surelyMalloc, if_pos null]⟩
    rw [surelyMalloc, if_neg null]
    simp only [store_ok valid]
    have kept : ∀ pl : Place, pl.owner ≠ some new →
        Function.update (Function.update (Function.update m.cell tr new) (.left new) NULL)
          (.right new) NULL pl = Function.update m.cell tr new pl := by
      intro pl ne
      rw [Function.update_of_ne (by rintro rfl; exact ne rfl),
        Function.update_of_ne (by rintro rfl; exact ne rfl)]
    refine Or.inr ⟨_, new :: ([] ++ []), release_ok locked, rfl, ?_, ⟨?_, ?_⟩, fun a ha => ha⟩
    · refine .T ((kept tr ownNew).trans (Function.update_self _ _ _)) null
        (Function.update_self _ _ _) (.E ?_) (.E (Function.update_self _ _ _)) (List.nodup_singleton new)
      show Function.update (Function.update (Function.update m.cell tr new) (.left new) NULL)
        (.right new) NULL (.left new) = NULL
      rw [Function.update_of_ne Place.noConfusion, Function.update_self]
    · intro a ha
      exact Function.update_of_ne (fun same => ha (List.mem_singleton.mpr same)) _ _
    · intro pl ne own'
      exact (kept pl (own' new List.mem_cons_self)).trans (Function.update_of_ne ne _ _)
  | @T tr p y w l r ps qs cell notNull node left right distinct ihl ihr =>
    obtain ⟨fuel, rfl⟩ := Nat.exists_eq_succ_of_ne_zero (Nat.ne_zero_of_lt enough)
    have allocated := allocated_ok notNull node
    obtain ⟨hps, hqs, apartL, apartR⟩ := node_apart distinct own
    have ownNew := owner_ne_new valid fresh
    have ownP := own p List.mem_cons_self
    have newTree : new ≠ p ∧ new ∉ ps ∧ new ∉ qs := by
      refine ⟨?_, fun member => left.node_ne_none new member fresh,
        fun member => right.node_ne_none new member fresh⟩
      rintro rfl
      rw [fresh] at node
      cases node
    have high : height l < fuel ∧ height r < fuel := by
      rw [height] at enough
      omega
    rw [insertLoop, load_ok valid, PureTree.insert]
    simp only [bind, Except.bind, cell, if_neg notNull, readNode_ok notNull node]
    split
    · rcases ihl allocated (fun a ha => by rintro ⟨⟩; exact hps ha) high.1 with
        exit | ⟨m', ps', run, free, rep, out, sub⟩
      · exact Or.inl exit
      · have around : ∀ a ∈ new :: ps, a ≠ p ∧ a ∉ qs ∧ tr.owner ≠ some a :=
          List.forall_mem_cons.mpr ⟨⟨newTree.1, newTree.2.2, ownNew⟩, apartL⟩
        obtain ⟨rep', out'⟩ := Rep.left_changed cell notNull node right hqs ownP out around rep sub
        refine Or.inr ⟨m', _, run, free, rep', out'.mono fun a ha => ?_, fun a ha => ?_⟩
        · simp only [List.mem_cons, List.mem_append] at ha ⊢
          tauto
        · have := sub a
          simp only [List.mem_cons, List.mem_append] at ha this ⊢
          tauto
    · split
      · rcases ihr allocated (fun a ha => by rintro ⟨⟩; exact hqs ha) high.2 with
          exit | ⟨m', qs', run, free, rep, out, sub⟩
        · exact Or.inl exit
        · have around : ∀ a ∈ new :: qs, a ≠ p ∧ a ∉ ps ∧ tr.owner ≠ some a :=
            List.forall_mem_cons.mpr ⟨⟨newTree.1, newTree.2.1, ownNew⟩, apartR⟩
          obtain ⟨rep', out'⟩ := Rep.right_changed cell notNull node left hps ownP out around rep sub
          refine Or.inr ⟨m', _, run, free, rep', out'.mono fun a ha => ?_, fun a ha => ?_⟩
          · simp only [List.mem_cons, List.mem_append] at ha ⊢
            tauto
          · have := sub a
            simp only [List.mem_cons, List.mem_append] at ha this ⊢
            tauto
      · rename_i notLess notMore
        obtain rfl : x = y := le_antisymm (not_lt.mp notMore) (not_lt.mp notLess)
        have others : ∀ a, a ≠ p → Function.update m.node p (some (x, v)) a = m.node a :=
          fun a ne => Function.update_of_ne ne _ _
        refine Or.inr ⟨_, p :: (ps ++ qs), release_ok locked, rfl, ?_, ⟨?_, fun _ _ _ => rfl⟩,
          fun a ha => List.mem_cons_of_mem _ ha⟩
        · refine .T cell notNull (Function.update_self _ _ _) (left.move rfl fun a ha => ?_)
            (right.move rfl fun a ha => ?_) distinct
          · exact ⟨others a (apartL a ha).1, rfl, rfl⟩
          · exact ⟨others a (apartR a ha).1, rfl, rfl⟩
        · intro a ha
          exact others a fun same => ha (by rw [same]; exact List.mem_cons_of_mem _ List.mem_cons_self)

/-! ### lookup -/

theorem lookupLoop_rep {fuel : Nat} {default : V} (h : Rep m t tr ps) (locked : m.locked = true)
    (enough : height t < fuel) :
    lookupLoop default x fuel (m.cell tr) m =
      .ok (PureTree.lookup default x t, { m with locked := false }) := by
  induction h generalizing fuel with
  | E cell =>
    obtain ⟨fuel, rfl⟩ := Nat.exists_eq_succ_of_ne_zero (Nat.ne_zero_of_lt enough)
    rw [lookupLoop, if_pos cell, release_ok locked]
    rfl
  | @T tr p y w l r ps qs cell notNull node left right distinct ihl ihr =>
    obtain ⟨fuel, rfl⟩ := Nat.exists_eq_succ_of_ne_zero (Nat.ne_zero_of_lt enough)
    have allocated := allocated_ok notNull node
    have high : height l < fuel ∧ height r < fuel := by
      rw [height] at enough
      omega
    rw [lookupLoop, cell, if_neg notNull, readNode_ok notNull node, PureTree.lookup]
    simp only [bind, Except.bind]
    split
    · have child : load (.left p) m = .ok (m.cell (.left p)) := load_ok allocated
      rw [child]
      exact ihl high.1
    · split
      · have child : load (.right p) m = .ok (m.cell (.right p)) := load_ok allocated
        rw [child]
        exact ihr high.2
      · rw [release_ok locked]
        rfl

/-! ### delete -/

/-- The memory after `turn_left`. -/
def turned (m : Mem V) (t : Place) (l r : Nat) : Mem V :=
  { m with cell := Function.update (Function.update (Function.update m.cell (.right l)
      (m.cell (.left r))) (.left r) l) t r }

theorem turnLeft_ok {a b : Nat} (valid : m.valid tr = true) (left : m.allocated a = true)
    (right : m.allocated b = true) : turnLeft tr a b m = .ok (turned m tr a b) := by
  have mid : load (.left b) m = .ok (m.cell (.left b)) := load_ok right
  have first : store (.right a) (m.cell (.left b)) m =
      .ok { m with cell := Function.update m.cell (.right a) (m.cell (.left b)) } := if_pos left
  have second : ∀ cell, store (.left b) a { m with cell } =
      .ok { m with cell := Function.update cell (.left b) a } := fun cell => if_pos right
  have third : ∀ cell, store tr b { m with cell } =
      .ok { m with cell := Function.update cell tr b } := fun cell => if_pos valid
  rw [turnLeft, mid]
  simp only [bind, Except.bind, first, second, third]
  rfl

theorem turned_cell {a b : Nat} {pl : Place} (ne : pl ≠ tr) (left : pl ≠ .left b) (right : pl ≠ .right a) :
    (turned m tr a b).cell pl = m.cell pl := by
  show Function.update (Function.update (Function.update m.cell _ _) _ _) _ _ pl = _
  rw [Function.update_of_ne ne, Function.update_of_ne left, Function.update_of_ne right]

/-- The doomed node goes down along the left edge of its right subtree, a rotation a round, until it
has no right child. -/
theorem pushdownLeft_rep {fuel : Nat} {a b : PureTree.Tree V} (cell : m.cell tr = p) (notNull : p ≠ NULL)
    (node : m.node p = some (k, v)) (left : Rep m a (.left p) ps) (right : Rep m b (.right p) qs)
    (distinct : (p :: (ps ++ qs)).Nodup) (valid : m.valid tr = true)
    (own : ∀ q ∈ p :: (ps ++ qs), tr.owner ≠ some q) (enough : height b < fuel) :
    ∃ m' ps', pushdownLeft fuel tr m = .ok m' ∧ m'.locked = m.locked ∧
      Rep m' (PureTree.pushdownLeft a b) tr ps' ∧ Outside tr (p :: (ps ++ qs)) m m' ∧
      ∀ q ∈ ps', q ∈ ps ++ qs := by
  induction b generalizing m tr qs fuel with
  | E =>
    obtain ⟨fuel, rfl⟩ := Nat.exists_eq_succ_of_ne_zero (Nat.ne_zero_of_lt enough)
    have allocated := allocated_ok notNull node
    have readR : load (.right p) m = .ok (m.cell (.right p)) := load_ok allocated
    have readL : load (.left p) m = .ok (m.cell (.left p)) := load_ok allocated
    cases right with
    | E null =>
      rw [pushdownLeft, load_ok valid]
      simp only [bind, Except.bind, cell, readR, null, if_true, readL, store_ok valid]
      refine ⟨_, ps, if_pos allocated, rfl, left.move (Function.update_self _ _ _) fun q hq => ?_,
        ⟨fun q hq => ?_, fun pl ne _ => Function.update_of_ne ne _ _⟩,
        fun q hq => List.mem_append_left _ hq⟩
      · have apart := (node_apart distinct own).2.2.1 q hq
        have ne : ∀ pl : Place, pl.owner = some q → pl ≠ tr := by
          rintro pl same rfl
          exact apart.2.2 same
        exact ⟨Function.update_of_ne apart.1 _ _, Function.update_of_ne (ne _ rfl) _ _,
          Function.update_of_ne (ne _ rfl) _ _⟩
      · exact Function.update_of_ne (fun same => hq (by rw [same]; exact List.mem_cons_self)) _ _
  | T b y w c ih _ =>
    obtain ⟨fuel, rfl⟩ := Nat.exists_eq_succ_of_ne_zero (Nat.ne_zero_of_lt enough)
    have allocated := allocated_ok notNull node
    obtain ⟨hps, hqs, apartL, apartR⟩ := node_apart distinct own
    have ownP := own p List.mem_cons_self
    generalize hr : PureTree.Tree.T b y w c = whole at right
    cases right with
    | E => cases hr
    | @T _ q _ _ _ _ bs cs cellR notNullR nodeR leftR rightR distinctR =>
      cases hr
      have allocatedR := allocated_ok notNullR nodeR
      have readR : load (.right p) m = .ok (m.cell (.right p)) := load_ok allocated
      have ownR : ∀ x ∈ q :: (bs ++ cs), (Place.right p).owner ≠ some x := by
        rintro x hx ⟨⟩
        exact hqs hx
      obtain ⟨hbs, hcs, apartB, apartC⟩ := node_apart distinctR ownR
      have ownQ : tr.owner ≠ some q := (apartR q List.mem_cons_self).2.2
      have ne : p ≠ q := (apartR q List.mem_cons_self).1.symm
      have trL : tr ≠ .left q := by
        rintro rfl
        exact ownQ rfl
      have trR : tr ≠ .right p := by
        rintro rfl
        exact ownP rfl
      have here : (turned m tr p q).cell tr = q := Function.update_self _ _ _
      have doomed : (turned m tr p q).cell (.left q) = p := by
        show Function.update (Function.update (Function.update m.cell _ _) (.left q) p) tr q (.left q) = p
        rw [Function.update_of_ne trL.symm, Function.update_self]
      have middle : (turned m tr p q).cell (.right p) = m.cell (.left q) := by
        show Function.update (Function.update (Function.update m.cell (.right p) _) (.left q) p) tr q
          (.right p) = _
        rw [Function.update_of_ne trR.symm, Function.update_of_ne Place.noConfusion, Function.update_self]
      have kept : ∀ x, tr.owner ≠ some x → x ≠ p → x ≠ q →
          (turned m tr p q).node x = m.node x ∧ (turned m tr p q).cell (.left x) = m.cell (.left x) ∧
            (turned m tr p q).cell (.right x) = m.cell (.right x) := by
        intro x own' neP neQ
        refine ⟨rfl, turned_cell ?_ ?_ Place.noConfusion, turned_cell ?_ Place.noConfusion ?_⟩
        · rintro rfl
          exact own' rfl
        · rintro ⟨⟩
          exact neQ rfl
        · rintro rfl
          exact own' rfl
        · rintro ⟨⟩
          exact neP rfl
      have left' : Rep (turned m tr p q) a (.left p) ps := by
        refine left.move (turned_cell ?_ ?_ Place.noConfusion) fun x hx => ?_
        · rintro rfl
          exact ownP rfl
        · rintro ⟨⟩
          exact ne rfl
        · exact kept x (apartL x hx).2.2 (apartL x hx).1 fun same =>
            (apartL x hx).2.1 (same ▸ List.mem_cons_self)
      have leftR' : Rep (turned m tr p q) b (.right p) bs := by
        refine leftR.move middle fun x hx => ?_
        have member := List.mem_cons_of_mem q (List.mem_append_left cs hx)
        exact kept x (apartR x member).2.2 (apartR x member).1 (apartB x hx).1
      have rightR' : Rep (turned m tr p q) c (.right q) cs := by
        refine rightR.move (turned_cell ?_ Place.noConfusion ?_) fun x hx => ?_
        · rintro rfl
          exact ownQ rfl
        · rintro ⟨⟩
          exact ne rfl
        · have member := List.mem_cons_of_mem q (List.mem_append_right bs hx)
          exact kept x (apartR x member).2.2 (apartR x member).1 (apartC x hx).1
      have fewer : (p :: (ps ++ bs)).Nodup := by
        refine distinct.sublist (List.Sublist.cons_cons p ?_)
        exact List.Sublist.append_left ((List.sublist_append_left bs cs).cons q) ps
      have notQ : ∀ x ∈ p :: (ps ++ bs), x ≠ q ∧ x ∉ cs ∧ tr.owner ≠ some x := by
        intro x hx
        rcases List.mem_cons.mp hx with rfl | hx
        · exact ⟨ne, fun hx => hqs (List.mem_cons_of_mem _ (List.mem_append_right _ hx)), ownP⟩
        · rcases List.mem_append.mp hx with hx | hx
          · exact ⟨fun same => (apartL x hx).2.1 (same ▸ List.mem_cons_self), fun hx' =>
              (apartL x hx).2.1 (List.mem_cons_of_mem _ (List.mem_append_right _ hx')), (apartL x hx).2.2⟩
          · exact ⟨(apartB x hx).1, (apartB x hx).2.1,
              (apartR x (List.mem_cons_of_mem _ (List.mem_append_left _ hx))).2.2⟩
      have high : height b < fuel := by
        rw [height] at enough
        omega
      obtain ⟨m', ps', run, locked, rep, out, sub⟩ := ih doomed node left' leftR' fewer allocatedR
        (fun x hx => by rintro ⟨⟩; exact (notQ _ hx).1 rfl) high
      obtain ⟨rep', out'⟩ := Rep.left_changed here notNullR nodeR rightR' hcs ownQ out notQ rep
        fun x hx => List.mem_cons_of_mem _ (sub x hx)
      have rotation : Outside tr (p :: (ps ++ q :: (bs ++ cs))) m (turned m tr p q) := by
        refine ⟨fun _ _ => rfl, fun pl ne own' => turned_cell ne ?_ ?_⟩
        · rintro rfl
          exact own' q (List.mem_cons_of_mem _ (List.mem_append_right _ List.mem_cons_self)) rfl
        · rintro rfl
          exact own' p List.mem_cons_self rfl
      refine ⟨m', _, ?_, locked, rep', rotation.trans (out'.mono fun x hx => ?_), fun x hx => ?_⟩
      · rw [pushdownLeft, load_ok valid]
        simp only [bind, Except.bind, cell, readR, cellR, if_neg notNullR,
          turnLeft_ok valid allocated allocatedR]
        exact run
      · simp only [List.mem_cons, List.mem_append] at hx ⊢
        tauto
      · have := sub x
        simp only [List.mem_cons, List.mem_append] at hx this ⊢
        tauto

theorem deleteLoop_rep {fuel : Nat} (h : Rep m t tr ps) (valid : m.valid tr = true)
    (own : ∀ a ∈ ps, tr.owner ≠ some a) (locked : m.locked = true) (enough : height t < fuel) :
    ∃ m' ps', deleteLoop x fuel tr m = .ok m' ∧ m'.locked = false ∧
      Rep m' (PureTree.delete x t) tr ps' ∧ Outside tr ps m m' ∧ ∀ a ∈ ps', a ∈ ps := by
  induction h generalizing fuel with
  | E cell =>
    obtain ⟨fuel, rfl⟩ := Nat.exists_eq_succ_of_ne_zero (Nat.ne_zero_of_lt enough)
    rw [deleteLoop, load_ok valid]
    simp only [bind, Except.bind, cell, if_true]
    exact ⟨_, [], release_ok locked, rfl, .E cell, ⟨fun _ _ => rfl, fun _ _ _ => rfl⟩, fun a ha => ha⟩
  | @T tr p y w l r ps qs cell notNull node left right distinct ihl ihr =>
    obtain ⟨fuel, rfl⟩ := Nat.exists_eq_succ_of_ne_zero (Nat.ne_zero_of_lt enough)
    have allocated := allocated_ok notNull node
    obtain ⟨hps, hqs, apartL, apartR⟩ := node_apart distinct own
    have ownP := own p List.mem_cons_self
    have high : height l < fuel ∧ height r < fuel := by
      rw [height] at enough
      omega
    rw [deleteLoop, load_ok valid, PureTree.delete]
    simp only [bind, Except.bind, cell, if_neg notNull, readNode_ok notNull node]
    split
    · obtain ⟨m', ps', run, free, rep, out, sub⟩ :=
        ihl allocated (fun a ha => by rintro ⟨⟩; exact hps ha) high.1
      obtain ⟨rep', out'⟩ := Rep.left_changed cell notNull node right hqs ownP out apartL rep sub
      refine ⟨m', _, run, free, rep', out', fun a ha => ?_⟩
      have := sub a
      simp only [List.mem_cons, List.mem_append] at ha ⊢
      tauto
    · split
      · obtain ⟨m', qs', run, free, rep, out, sub⟩ :=
          ihr allocated (fun a ha => by rintro ⟨⟩; exact hqs ha) high.2
        obtain ⟨rep', out'⟩ := Rep.right_changed cell notNull node left hps ownP out apartR rep sub
        refine ⟨m', _, run, free, rep', out', fun a ha => ?_⟩
        have := sub a
        simp only [List.mem_cons, List.mem_append] at ha ⊢
        tauto
      · obtain ⟨m', ps', run, same, rep, out, sub⟩ := pushdownLeft_rep cell notNull node left right
          distinct valid own (Nat.lt_succ_of_lt high.2)
        rw [run]
        refine ⟨_, ps', release_ok (same.trans locked), rfl, rep.move rfl fun _ _ => ⟨rfl, rfl, rfl⟩,
          ⟨out.node, out.cell⟩, fun a ha => List.mem_cons_of_mem _ (sub a ha)⟩

/-! ### The functions and the pure ones -/

/-- The lock is free and the tree of the box is `t`. -/
structure Good (m : Mem V) (t : PureTree.Tree V) : Prop where
  free : m.locked = false
  tree : ∃ ps, Rep m t .root ps

theorem acquire_ok (free : m.locked = false) : acquire m = .ok { m with locked := true } := by
  rw [acquire, free]
  rfl

/-- The loops do on the memory what the pure functions do on its tree, and deleting from a sorted tree
takes out the entry of the key. -/
theorem coarseLock_refines (default : V) (good : Good m t) {fuel : Nat} (enough : height t < fuel)
    (x : Key) :
    (∀ value new, m.node new = none →
      (new = NULL ∧ insert fuel new x value m = .error .exit) ∨
        ∃ m', insert fuel new x value m = .ok m' ∧ Good m' (PureTree.insert x value t)) ∧
    lookup fuel default x m = .ok (PureTree.lookup default x t, m) ∧
    (∃ m', delete fuel x m = .ok m' ∧ Good m' (PureTree.delete x t)) ∧
    (∀ a k v b, t = .T a k v b →
      ∃ m', pushdownLeft fuel .root m = .ok m' ∧ Good m' (PureTree.pushdownLeft a b)) ∧
    (SortedTree t → SortedTree (PureTree.delete x t) ∧
      ∀ k v, (k, v) ∈ entries (PureTree.delete x t) ↔ (k, v) ∈ entries t ∧ k ≠ x) := by
  obtain ⟨free, ps, rep⟩ := good
  have held : Rep { m with locked := true } t .root ps := rep.move rfl fun _ _ => ⟨rfl, rfl, rfl⟩
  have own : ∀ a ∈ ps, Place.root.owner ≠ some a := fun _ _ no => by cases no
  refine ⟨fun value new fresh => ?_, ?_, ?_, ?_, ?_⟩
  · rw [insert, acquire_ok free]
    rcases insertLoop_rep held rfl own rfl fresh enough with exit | ⟨m', ps', run, free', rep', -, -⟩
    · exact Or.inl exit
    · exact Or.inr ⟨m', run, free', ps', rep'⟩
  · rw [lookup, acquire_ok free]
    refine (lookupLoop_rep held rfl enough).trans ?_
    rw [← free]
  · obtain ⟨m', ps', run, free', rep', -, -⟩ := deleteLoop_rep held rfl own rfl enough
    refine ⟨m', ?_, free', ps', rep'⟩
    rw [delete, acquire_ok free]
    exact run
  · rintro a k v b rfl
    cases rep with
    | @T _ p _ _ _ _ ps qs cell notNull node left right distinct =>
      have high : height b < fuel := by
        rw [height] at enough
        omega
      obtain ⟨m', ps', run, same, rep', -, -⟩ :=
        pushdownLeft_rep cell notNull node left right distinct rfl own high
      exact ⟨m', run, same.trans free, ps', rep'⟩
  · exact fun sorted => ⟨PureTree.delete_sorted sorted x, PureTree.entries_delete sorted x⟩

/-- A node of key 1 at address 8 with the node of key 2 at address 16 on its right. -/
def twoNodes : Mem Nat where
  cell := fun pl => if pl = .root then 8 else if pl = .right 8 then 16 else NULL
  node := fun p => if p = 8 then some (1, 10) else if p = 16 then some (2, 20) else none
  locked := false

theorem coarseLock_refines_two :
    lookup 3 0 2 twoNodes = .ok (20, twoNodes) ∧
      ∃ m', delete 3 1 twoNodes = .ok m' ∧ Good m' (.T .E 2 20 .E) := by
  have below : Rep twoNodes (.T .E 2 20 .E) (.right 8) (16 :: ([] ++ [])) :=
    .T rfl (by decide) rfl (.E rfl) (.E rfl) (List.nodup_singleton 16)
  have good : Good twoNodes (.T .E 1 10 (.T .E 2 20 .E)) :=
    ⟨rfl, 8 :: ([] ++ (16 :: ([] ++ []))), .T rfl (by decide) rfl (.E rfl) below (by decide)⟩
  have two := coarseLock_refines 0 good (show 2 < 3 by decide) 2
  have one := coarseLock_refines 0 good (show 2 < 3 by decide) 1
  exact ⟨two.2.1, one.2.2.1⟩

end DeepDB.Concurrency.CoarseLock
