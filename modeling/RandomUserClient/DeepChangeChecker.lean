import RandomUserClient.TransactLogObserver

/-!
# Rows that have changed through their links

A row counts as modified when it was, or when a row is that can be reached from
it by a few links. The links are followed depth first; rows that were found not
to be modified are remembered, unless the search was cut off below them, at its
depth limit or where it met a link that it was following already.
-/

namespace DeepChangeChecking

open IndexSets TransactLogs

/-! ## Rows within a number of links -/

section Near

variable {N : Type} (E : N → N → Prop) (M : N → Prop)

/-- A marked node is at most `n` links away. -/
def Near : Nat → N → Prop
  | 0, x => M x
  | n + 1, x => M x ∨ ∃ y, E x y ∧ Near n y

variable {E M}

theorem Near.of_mark {x : N} (h : M x) (n : Nat) : Near E M n x := by
  cases n with
  | zero => exact h
  | succ n => exact Or.inl h

theorem Near.mono {m n : Nat} {x : N} (h : Near E M m x) (hmn : m ≤ n) : Near E M n x := by
  induction m generalizing n x with
  | zero => exact Near.of_mark h n
  | succ m ih =>
    obtain ⟨n, rfl⟩ : ∃ k, n = k + 1 := ⟨n - 1, by omega⟩
    rcases h with h | ⟨y, hxy, hy⟩
    · exact Or.inl h
    · exact Or.inr ⟨y, hxy, ih hy (by omega)⟩

/-- Nearness depends only on the marks and the links of a closed set of nodes. -/
theorem near_congr {E' : N → N → Prop} {M' S : N → Prop} (hmarks : ∀ x, S x → (M x ↔ M' x))
    (hlinks : ∀ x, S x → ∀ y, E x y ↔ E' x y) (hclosed : ∀ x y, S x → E x y → S y) (n : Nat)
    {x : N} (hx : S x) : Near E M n x ↔ Near E' M' n x := by
  induction n generalizing x with
  | zero => exact hmarks x hx
  | succ n ih =>
    apply or_congr (hmarks x hx)
    apply exists_congr
    intro y
    rw [← hlinks x hx y]
    exact and_congr_right fun hxy => ih (hclosed x y hx hxy)

/-- From a set of unmarked nodes that no link leaves, but for nodes that are known to be far from
all marked ones, no marked node is near. -/
theorem not_near_of_closed {n : Nat} {V : N → Prop} (hmark : ∀ w, V w → ¬ M w)
    (hclosed : ∀ w, V w → (¬ ∃ y, E w y ∧ Near E M n y) ∨ ∀ y, E w y → V y) {k : Nat}
    (hk : k ≤ n + 1) {w : N} (hw : V w) : ¬ Near E M k w := by
  induction k generalizing w with
  | zero => exact hmark w hw
  | succ k ih =>
    rintro (h | ⟨y, hwy, hy⟩)
    · exact hmark w hw h
    · rcases hclosed w hw with hfar | hnext
      · exact hfar ⟨y, hwy, hy.mono (by omega)⟩
      · exact ih (by omega) (hnext y hwy) hy

end Near

/-! ## The checker -/

structure OutgoingLink where
  colNdx : Nat
  isList : Bool
  deriving DecidableEq, Repr

structure RelatedTable where
  tableNdx : Nat
  links : List OutgoingLink
  deriving DecidableEq, Repr

/-- The columns of a table that matter here. -/
inductive Column where
  | link (target : Nat)
  | linkList (target : Nat)
  | other
  deriving DecidableEq, Repr

/-- The tables of a group: their columns, and where the links of their rows lead. -/
structure Tables where
  columns : Nat → List Column
  link : Nat → Nat → Nat → Option Nat
  linkList : Nat → Nat → Nat → List Nat

def Column.target : Column → Nat
  | .link target => target
  | .linkList target => target
  | .other => 0

def Tables.linkTarget (t : Tables) (table col : Nat) : Nat :=
  ((t.columns table)[col]?.map Column.target).getD 0

structure Path where
  table : Nat
  row : Nat
  col : Nat
  depthExceeded : Bool
  deriving DecidableEq, Repr

/-- What the checker has been given. -/
structure DeepChangeChecker where
  info : TransactionChangeInfo
  tables : Tables
  rootTable : Nat
  relatedTables : List RelatedTable

/-- What the checker has found out. -/
structure Findings where
  notModified : List IndexSet
  currentPath : List Path

/-- The length of the path. -/
def pathSize : Nat := 4

namespace Findings

def create : Findings := ⟨[], List.replicate pathSize ⟨0, 0, 0, false⟩⟩

def knows (s : Findings) (table idx : Nat) : Bool :=
  ((s.notModified[table]?).map fun rows => rows.contains idx).getD false

/-- `resize` if there are too few tables, and `add`. -/
def add (s : Findings) (table idx : Nat) : Findings :=
  let rows := s.notModified ++
    List.replicate (table + 1 - s.notModified.length) .empty
  { s with notModified := rows.modify table fun rows => rows.add idx }

/-- The entries from `start` up to `stop` cannot be trusted. -/
def exceed (s : Findings) (start stop : Nat) : Findings :=
  { s with currentPath := s.currentPath.mapIdx fun i p =>
      if start ≤ i ∧ i < stop then { p with depthExceeded := true } else p }

def exceededAt (s : Findings) (i : Nat) : Bool :=
  (s.currentPath[i]?.map Path.depthExceeded).getD false

/-- Check if we're already checking if the destination of the link is modified, and if not add it
to the stack. -/
def alreadyChecking (s : Findings) (table row col depth : Nat) : Bool × Findings :=
  match (s.currentPath.take depth).findIdx? fun p =>
      p.table = table ∧ p.row = row ∧ p.col = col with
  | some i => (true, s.exceed i depth)
  | none => (false, { s with currentPath := s.currentPath.set depth ⟨table, row, col, false⟩ })

end Findings

/-- `any_of`, with a state. -/
def anyOf {β σ : Type} (f : β → σ → Bool × σ) : List β → σ → Bool × σ
  | [], s => (false, s)
  | x :: xs, s =>
    match f x s with
    | (true, s) => (true, s)
    | (false, s) => anyOf f xs s

theorem anyOf_singleton {β σ : Type} (f : β → σ → Bool × σ) (x : β) (s : σ) :
    anyOf f [x] s = f x s := by
  simp only [anyOf]
  generalize f x s = r
  obtain ⟨ret, s'⟩ := r
  cases ret <;> rfl

/-- An item that is found in every state with a property is found if the others keep it. -/
theorem anyOf_complete {β σ : Type} {f : β → σ → Bool × σ} {P : σ → Prop} {l : List β} {s : σ}
    (hkeep : ∀ x ∈ l, ∀ s, P s → P (f x s).2) {x : β} (hx : x ∈ l)
    (hfound : ∀ s, P s → (f x s).1 = true) (hs : P s) : (anyOf f l s).1 = true := by
  induction l generalizing s with
  | nil => cases hx
  | cons y l ih =>
    have hnext := hkeep y List.mem_cons_self s hs
    have hhead := hfound s hs
    rw [anyOf]
    rcases List.mem_cons.mp hx with rfl | hx
    · generalize f x s = r at *
      obtain ⟨ret, s'⟩ := r
      obtain rfl : ret = true := hhead
      rfl
    · generalize f y s = r at *
      obtain ⟨ret, s'⟩ := r
      cases ret with
      | true => rfl
      | false => exact ih (fun x hx => hkeep x (List.mem_cons_of_mem y hx)) hx hnext

namespace DeepChangeChecker

def modified (c : DeepChangeChecker) (table idx : Nat) : Bool :=
  decide (table < c.info.tables.length) && (c.info.table table).modifications.contains idx

/-- The rows behind a link, and what is found out by checking them. -/
def linkedObjectChanged (c : DeepChangeChecker) (checkRow : Nat → Nat → Findings → Bool × Findings)
    (table row depth : Nat) (link : OutgoingLink) (s : Findings) : Bool × Findings :=
  match s.alreadyChecking table row link.colNdx depth with
  | (true, s) => (false, s)
  | (false, s) =>
    let target := c.tables.linkTarget table link.colNdx
    if !link.isList then
      match c.tables.link table link.colNdx row with
      | none => (false, s)
      | some dst => checkRow target dst s
    else anyOf (fun dst => checkRow target dst) (c.tables.linkList table link.colNdx row) s

def checkOutgoingLinks (c : DeepChangeChecker) (checkRow : Nat → Nat → Findings → Bool × Findings)
    (table row depth : Nat) (s : Findings) : Bool × Findings :=
  match c.relatedTables.find? fun tbl => tbl.tableNdx = table with
  | none => (false, s)
  | some it => anyOf (c.linkedObjectChanged checkRow table row depth) it.links s

/-- The row is `pathSize - left` links away from the one that is asked for. -/
def checkRow (c : DeepChangeChecker) : (left table idx : Nat) → Findings → Bool × Findings
  -- don't mark any of the intermediate rows checked along the path as not modified, as a search
  -- starting from them might hit a modification
  | 0, _, _, s => (false, s.exceed 0 pathSize)
  | left + 1, table, idx, s =>
    let depth := pathSize - (left + 1)
    if 0 < depth && c.modified table idx then (true, s)
    else if s.knows table idx then (false, s)
    else
      let (ret, s) := c.checkOutgoingLinks (c.checkRow left) table idx depth s
      if !ret && (depth = 0 || !s.exceededAt (depth - 1)) then (ret, s.add table idx)
      else (ret, s)

/-- `operator()` -/
def check (c : DeepChangeChecker) (ndx : Nat) (s : Findings) : Bool × Findings :=
  if c.modified c.rootTable ndx then (true, s) else c.checkRow pathSize c.rootTable ndx s

end DeepChangeChecker

/-! ## What the path says -/

/-- A row of a table. -/
abbrev Node := Nat × Nat

/-- The row whose link is followed at a depth. -/
def Findings.node (s : Findings) (i : Nat) : Node :=
  (s.currentPath[i]?.map fun p => (p.table, p.row)).getD (0, 0)

theorem node_exceed (s : Findings) (start stop i : Nat) :
    (s.exceed start stop).node i = s.node i := by
  simp only [Findings.node, Findings.exceed, List.getElem?_mapIdx, Option.map_map]
  congr 2
  funext p
  dsimp only [Function.comp]
  split <;> rfl

theorem exceededAt_exceed (s : Findings) (start stop i : Nat) :
    (s.exceed start stop).exceededAt i =
      (s.exceededAt i || decide (start ≤ i ∧ i < stop ∧ i < s.currentPath.length)) := by
  simp only [Findings.exceededAt, Findings.exceed, List.getElem?_mapIdx, Option.map_map]
  by_cases hi : i < s.currentPath.length
  · rw [List.getElem?_eq_getElem hi]
    by_cases h : start ≤ i ∧ i < stop <;> simp [h, hi]
  · rw [List.getElem?_eq_none (Nat.le_of_not_lt hi)]
    simp [hi]

theorem knows_add (s : Findings) (table idx table' idx' : Nat) :
    (s.add table idx).knows table' idx' =
      (decide (table' = table ∧ idx' = idx) || s.knows table' idx') := by
  simp only [Findings.knows, Findings.add, List.getElem?_modify, List.getElem?_append,
    List.getElem?_replicate]
  by_cases ht : table = table'
  · subst ht
    by_cases hlt : table < s.notModified.length
    · simp [hlt, IndexSet.contains_add]
    · have hlt' : table - s.notModified.length < table + 1 - s.notModified.length := by omega
      simp [hlt, hlt', IndexSet.contains_add]
  · have ht' : ¬ table' = table := fun h => ht h.symm
    by_cases hlt : table' < s.notModified.length
    · simp [hlt, ht, ht']
    · simp only [hlt, if_false, ht, ht', false_and, decide_false, Bool.false_or]
      split <;> simp [hlt]

/-! ## What a check finds out -/

namespace DeepChangeChecker

/-- The rows behind a link of a row. -/
def behind (c : DeepChangeChecker) (x : Node) (link : OutgoingLink) : List Node :=
  (if link.isList then c.tables.linkList x.1 link.colNdx x.2
    else (c.tables.link x.1 link.colNdx x.2).toList).map
    fun dst => (c.tables.linkTarget x.1 link.colNdx, dst)

def linksOf (c : DeepChangeChecker) (x : Node) : List OutgoingLink :=
  ((c.relatedTables.find? fun tbl => tbl.tableNdx = x.1).map RelatedTable.links).getD []

/-- One link leads from the one row to the other. -/
def Links (c : DeepChangeChecker) (x y : Node) : Prop :=
  ∃ link ∈ c.linksOf x, y ∈ c.behind x link

def Modified (c : DeepChangeChecker) (x : Node) : Prop := c.modified x.1 x.2 = true

/-- A modified row is one to three links away. -/
def Changes (c : DeepChangeChecker) (x : Node) : Prop :=
  ∃ y, c.Links x y ∧ Near c.Links c.Modified 2 y

/-- What is remembered is true. -/
def Sound (c : DeepChangeChecker) (s : Findings) : Prop :=
  ∀ x : Node, s.knows x.1 x.2 = true → ¬ c.Changes x

/-- What does not change at the depths below `d`. -/
structure Keeps (c : DeepChangeChecker) (d : Nat) (s s' : Findings) : Prop where
  length : s'.currentPath.length = s.currentPath.length
  node : ∀ i < d, s'.node i = s.node i
  exceeded : ∀ i < d, s.exceededAt i = true → s'.exceededAt i = true
  sound : c.Sound s → c.Sound s'

theorem Keeps.refl (c : DeepChangeChecker) (d : Nat) (s : Findings) : c.Keeps d s s :=
  ⟨rfl, fun _ _ => rfl, fun _ _ h => h, fun h => h⟩

theorem Keeps.trans {c : DeepChangeChecker} {d : Nat} {s s' s'' : Findings} (h : c.Keeps d s s')
    (h' : c.Keeps d s' s'') : c.Keeps d s s'' :=
  ⟨h'.length.trans h.length, fun i hi => (h'.node i hi).trans (h.node i hi),
    fun i hi hs => h'.exceeded i hi (h.exceeded i hi hs), fun hs => h'.sound (h.sound hs)⟩

theorem Keeps.mono {c : DeepChangeChecker} {d d' : Nat} {s s' : Findings} (h : c.Keeps d s s')
    (hd : d' ≤ d) : c.Keeps d' s s' :=
  ⟨h.length, fun i hi => h.node i (by omega), fun i hi => h.exceeded i (by omega), h.sound⟩

/-- Rows that were checked without finding a modified one: either the depth limit was met, or they
are among rows that no link leaves, but for those of `X`, of which the links are still followed,
and those on the path from `j` on, where nothing can be trusted. -/
def Clear (c : DeepChangeChecker) (d : Nat) (X G : Node → Prop) (s : Findings) : Prop :=
  (∀ i < d, s.exceededAt i = true) ∨ ∃ (V : Node → Prop) (j : Nat), j ≤ d ∧
    (∀ i, j ≤ i → i < d → s.exceededAt i = true) ∧ (∀ y, G y → V y) ∧
    (∀ w, V w → ¬ c.Modified w) ∧
    ∀ w, V w → ¬ c.Changes w ∨ (∀ y, c.Links w y → V y) ∨ X w ∨
      ∃ i, j ≤ i ∧ i < d ∧ s.node i = w

theorem Clear.keeps {c : DeepChangeChecker} {d : Nat} {X G : Node → Prop} {s s' : Findings}
    (h : c.Clear d X G s) (hk : c.Keeps d s s') : c.Clear d X G s' := by
  rcases h with h | ⟨V, j, hj, hflags, hgoal, hmark, hnext⟩
  · exact Or.inl fun i hi => hk.exceeded i hi (h i hi)
  · refine Or.inr ⟨V, j, hj, fun i hji hi => hk.exceeded i hi (hflags i hji hi), hgoal, hmark,
      fun w hw => ?_⟩
    rcases hnext w hw with h | h | h | ⟨i, hji, hi, hnode⟩
    · exact Or.inl h
    · exact Or.inr (Or.inl h)
    · exact Or.inr (Or.inr (Or.inl h))
    · exact Or.inr (Or.inr (Or.inr ⟨i, hji, hi, (hk.node i hi).trans hnode⟩))

theorem clear_none (c : DeepChangeChecker) (d : Nat) (X : Node → Prop) (s : Findings) :
    c.Clear d X (fun _ => False) s :=
  Or.inr ⟨fun _ => False, d, Nat.le_refl d, fun i hji hi => absurd hji (by omega),
    fun _ h => h, fun _ h => h.elim, fun _ h => h.elim⟩

theorem Clear.union {c : DeepChangeChecker} {d : Nat} {X G G' : Node → Prop} {s : Findings}
    (h : c.Clear d X G s) (h' : c.Clear d X G' s) : c.Clear d X (fun y => G y ∨ G' y) s := by
  rcases h with h | ⟨V, j, hj, hflags, hgoal, hmark, hnext⟩
  · exact Or.inl h
  rcases h' with h' | ⟨V', j', hj', hflags', hgoal', hmark', hnext'⟩
  · exact Or.inl h'
  refine Or.inr ⟨fun w => V w ∨ V' w, min j j', by omega, fun i hji hi => ?_, fun y hy => ?_,
    fun w hw => ?_, fun w hw => ?_⟩
  · rcases Nat.le_total j j' with hle | hle
    · exact hflags i (by omega) hi
    · exact hflags' i (by omega) hi
  · exact hy.imp (hgoal y) (hgoal' y)
  · exact hw.elim (hmark w) (hmark' w)
  · rcases hw with hw | hw
    · rcases hnext w hw with h | h | h | ⟨i, hji, hi, hnode⟩
      · exact Or.inl h
      · exact Or.inr (Or.inl fun y hy => Or.inl (h y hy))
      · exact Or.inr (Or.inr (Or.inl h))
      · exact Or.inr (Or.inr (Or.inr ⟨i, by omega, hi, hnode⟩))
    · rcases hnext' w hw with h | h | h | ⟨i, hji, hi, hnode⟩
      · exact Or.inl h
      · exact Or.inr (Or.inl fun y hy => Or.inr (h y hy))
      · exact Or.inr (Or.inr (Or.inl h))
      · exact Or.inr (Or.inr (Or.inr ⟨i, by omega, hi, hnode⟩))

/-- One more row of the path is taken into account. -/
theorem Clear.below {c : DeepChangeChecker} {d : Nat} {G : Node → Prop} {s : Findings} {x : Node}
    (h : c.Clear (d + 1) (fun _ => False) G s) (hx : s.node d = x) :
    c.Clear d (fun w => w = x) G s := by
  rcases h with h | ⟨V, j, hj, hflags, hgoal, hmark, hnext⟩
  · exact Or.inl fun i hi => h i (by omega)
  · refine Or.inr ⟨V, min j d, by omega, fun i hji hi => hflags i (by omega) (by omega), hgoal,
      hmark, fun w hw => ?_⟩
    rcases hnext w hw with h | h | h | ⟨i, hji, hi, hnode⟩
    · exact Or.inl h
    · exact Or.inr (Or.inl h)
    · exact h.elim
    · rcases Nat.lt_or_eq_of_le (Nat.le_of_lt_succ hi) with hi | rfl
      · exact Or.inr (Or.inr (Or.inr ⟨i, by omega, hi, hnode⟩))
      · exact Or.inr (Or.inr (Or.inl (hnode.symm.trans hx)))

/-- A link of the row is being followed already. -/
def Cut (d : Nat) (x : Node) (s : Findings) : Prop :=
  ∃ i < d, s.node i = x ∧ ∀ k, i ≤ k → k < d → s.exceededAt k = true

theorem Cut.keeps {c : DeepChangeChecker} {d : Nat} {x : Node} {s s' : Findings} (h : Cut d x s)
    (hk : c.Keeps d s s') : Cut d x s' := by
  obtain ⟨i, hi, hnode, hflags⟩ := h
  exact ⟨i, hi, (hk.node i hi).trans hnode, fun k hik hkd => hk.exceeded k hkd (hflags k hik hkd)⟩

theorem keeps_exceed (c : DeepChangeChecker) (d start stop : Nat) (s : Findings) :
    c.Keeps d s (s.exceed start stop) :=
  ⟨by simp [Findings.exceed], fun i _ => node_exceed s start stop i,
    fun i _ h => by rw [exceededAt_exceed, h, Bool.true_or], fun h => h⟩

theorem alreadyChecking_spec (c : DeepChangeChecker) {d : Nat} {s : Findings}
    (hlen : s.currentPath.length = pathSize) (hd : d < pathSize) (x : Node) (col : Nat) :
    c.Keeps d s (s.alreadyChecking x.1 x.2 col d).2 ∧
      ((s.alreadyChecking x.1 x.2 col d).1 = true → Cut d x (s.alreadyChecking x.1 x.2 col d).2) ∧
      ((s.alreadyChecking x.1 x.2 col d).1 = false →
        (s.alreadyChecking x.1 x.2 col d).2.node d = x) ∧
      ((∀ i < d, s.node i ≠ x) → (s.alreadyChecking x.1 x.2 col d).1 = false) := by
  rw [Findings.alreadyChecking]
  split
  · rename_i i hfind
    obtain ⟨hi, hmatch, -⟩ := List.findIdx?_eq_some_iff_getElem.mp hfind
    rw [List.length_take] at hi
    have hnode : s.node i = x := by
      simp only [List.getElem_take, decide_eq_true_eq] at hmatch
      rw [Findings.node, List.getElem?_eq_getElem (by omega), Option.map_some, Option.getD_some]
      exact Prod.ext hmatch.1 hmatch.2.1
    refine ⟨keeps_exceed c d i d s, fun _ => ⟨i, by omega, ?_, fun k hik hkd => ?_⟩,
      fun h => (by cases h), fun h => absurd hnode (h i (by omega))⟩
    · rw [node_exceed, hnode]
    · rw [exceededAt_exceed, Bool.or_eq_true, decide_eq_true_eq]
      exact Or.inr ⟨hik, hkd, by omega⟩
  · refine ⟨⟨by simp, fun i hi => ?_, fun i hi h => ?_, fun h => h⟩, fun h => (by cases h),
      fun _ => ?_, fun _ => rfl⟩
    · simp only [Findings.node, List.getElem?_set, Nat.ne_of_gt hi, if_false]
    · simpa only [Findings.exceededAt, List.getElem?_set, Nat.ne_of_gt hi, if_false] using h
    · simp [Findings.node, hlen, hd]

/-- What a call of `checkRow` tells, at a depth below the first. -/
structure Checked (c : DeepChangeChecker) (left : Nat) (x : Node) (s : Findings)
    (r : Bool × Findings) : Prop where
  keeps : c.Keeps (pathSize - left) s r.2
  found : r.1 = true → 0 < left ∧ Near c.Links c.Modified (left - 1) x
  clear : r.1 = false → c.Sound s → c.Clear (pathSize - left) (fun _ => False) (fun y => y = x) r.2

/-- The rows behind a link, one after the other. -/
theorem anyOf_behind {c : DeepChangeChecker} {left d : Nat} (hd : d + 1 = pathSize - left)
    (hcall : ∀ y s, s.currentPath.length = pathSize →
      c.Checked left y s (c.checkRow left y.1 y.2 s)) {x : Node} (ys : List Node) {s : Findings}
    (hlen : s.currentPath.length = pathSize) (hx : s.node d = x) :
    c.Keeps d s (anyOf (fun y => c.checkRow left y.1 y.2) ys s).2 ∧
      ((anyOf (fun y => c.checkRow left y.1 y.2) ys s).1 = true →
        ∃ y ∈ ys, 0 < left ∧ Near c.Links c.Modified (left - 1) y) ∧
      ((anyOf (fun y => c.checkRow left y.1 y.2) ys s).1 = false → c.Sound s →
        c.Clear d (fun w => w = x) (fun y => y ∈ ys)
          (anyOf (fun y => c.checkRow left y.1 y.2) ys s).2) := by
  induction ys generalizing s with
  | nil =>
    refine ⟨.refl c d s, fun h => (by cases h), fun _ _ => ?_⟩
    simpa [anyOf] using clear_none c d _ s
  | cons y ys ih =>
    have hy := hcall y s hlen
    rw [anyOf]
    obtain ⟨hkeeps, hfound, hclear⟩ := hy
    rw [← hd] at hkeeps hclear
    generalize c.checkRow left y.1 y.2 s = r at *
    obtain ⟨ret, s'⟩ := r
    cases ret with
    | true =>
      exact ⟨hkeeps.mono (Nat.le_succ d), fun _ => ⟨y, List.mem_cons_self, hfound rfl⟩,
        fun h => by cases h⟩
    | false =>
      dsimp only at *
      have hnode := hkeeps.node d (Nat.lt_succ_self d)
      obtain ⟨hkeeps', hfound', hclear'⟩ := ih (hkeeps.length.trans hlen) (hnode.trans hx)
      refine ⟨(hkeeps.mono (Nat.le_succ d)).trans hkeeps', fun h => ?_, fun h hs => ?_⟩
      · obtain ⟨z, hz, hnear⟩ := hfound' h
        exact ⟨z, List.mem_cons_of_mem y hz, hnear⟩
      · have hone := ((hclear rfl hs).below (hnode.trans hx)).keeps hkeeps'
        have hrest := hclear' h (hkeeps.sound hs)
        simpa only [List.mem_cons] using hone.union hrest

/-- A link is either being followed already, or the rows behind it are checked. -/
theorem linkedObjectChanged_eq (c : DeepChangeChecker) (left : Nat) (x : Node) (d : Nat)
    (link : OutgoingLink) (s : Findings) :
    c.linkedObjectChanged (c.checkRow left) x.1 x.2 d link s =
      if (s.alreadyChecking x.1 x.2 link.colNdx d).1 then
        (false, (s.alreadyChecking x.1 x.2 link.colNdx d).2)
      else anyOf (fun y => c.checkRow left y.1 y.2) (c.behind x link)
        (s.alreadyChecking x.1 x.2 link.colNdx d).2 := by
  have hmap : ∀ (table : Nat) (l : List Nat) (s : Findings),
      anyOf (fun y : Node => c.checkRow left y.1 y.2) (l.map fun dst => (table, dst)) s =
        anyOf (fun dst => c.checkRow left table dst) l s := fun table l s => by
    induction l generalizing s with
    | nil => rfl
    | cons dst l ih =>
      simp only [List.map_cons, anyOf]
      split
      · rfl
      · exact ih _
  rw [linkedObjectChanged]
  generalize s.alreadyChecking x.1 x.2 link.colNdx d = r
  obtain ⟨checking, s'⟩ := r
  cases checking with
  | true => rfl
  | false =>
    rw [behind, hmap]
    dsimp only
    cases hlist : link.isList with
    | true => rfl
    | false =>
      cases hlink : c.tables.link x.1 link.colNdx x.2 with
      | none => rfl
      | some dst => exact (anyOf_singleton _ dst s').symm

/-- The links of a row, one after the other. -/
theorem anyOf_links {c : DeepChangeChecker} {left d : Nat} (hd : d + 1 = pathSize - left)
    (hcall : ∀ y s, s.currentPath.length = pathSize →
      c.Checked left y s (c.checkRow left y.1 y.2 s)) (x : Node) (ls : List OutgoingLink)
    {s : Findings} (hlen : s.currentPath.length = pathSize) :
    c.Keeps d s (anyOf (c.linkedObjectChanged (c.checkRow left) x.1 x.2 d) ls s).2 ∧
      ((anyOf (c.linkedObjectChanged (c.checkRow left) x.1 x.2 d) ls s).1 = true →
        ∃ l ∈ ls, ∃ y ∈ c.behind x l, 0 < left ∧ Near c.Links c.Modified (left - 1) y) ∧
      ((anyOf (c.linkedObjectChanged (c.checkRow left) x.1 x.2 d) ls s).1 = false → c.Sound s →
        Cut d x (anyOf (c.linkedObjectChanged (c.checkRow left) x.1 x.2 d) ls s).2 ∨
          c.Clear d (fun w => w = x) (fun y => ∃ l ∈ ls, y ∈ c.behind x l)
            (anyOf (c.linkedObjectChanged (c.checkRow left) x.1 x.2 d) ls s).2) := by
  induction ls generalizing s with
  | nil =>
    refine ⟨.refl c d s, fun h => (by cases h), fun _ _ => Or.inr ?_⟩
    simpa [anyOf] using clear_none c d _ s
  | cons l ls ih =>
    obtain ⟨hkeeps₁, hcut, hnode, -⟩ :=
      alreadyChecking_spec c hlen (by omega : d < pathSize) x l.colNdx
    rw [anyOf, linkedObjectChanged_eq]
    generalize s.alreadyChecking x.1 x.2 l.colNdx d = r at *
    obtain ⟨checking, s₁⟩ := r
    have hlen₁ := hkeeps₁.length.trans hlen
    cases checking with
    | true =>
      dsimp only at *
      obtain ⟨hkeeps', hfound', hclear'⟩ := ih hlen₁
      refine ⟨hkeeps₁.trans hkeeps', fun h => ?_, fun _ _ => Or.inl ((hcut rfl).keeps hkeeps')⟩
      obtain ⟨l', hl', hfound⟩ := hfound' h
      exact ⟨l', List.mem_cons_of_mem l hl', hfound⟩
    | false =>
      dsimp only at *
      rw [if_neg Bool.false_ne_true]
      obtain ⟨hkeeps₂, hfound, hclear⟩ := anyOf_behind hd hcall (c.behind x l) hlen₁ (hnode rfl)
      generalize anyOf (fun y => c.checkRow left y.1 y.2) (c.behind x l) s₁ = r at *
      obtain ⟨ret, s₂⟩ := r
      cases ret with
      | true => exact ⟨hkeeps₁.trans hkeeps₂, fun _ => ⟨l, List.mem_cons_self, hfound rfl⟩,
          fun h => by cases h⟩
      | false =>
        dsimp only at *
        obtain ⟨hkeeps', hfound', hclear'⟩ := ih (hkeeps₂.length.trans hlen₁)
        refine ⟨(hkeeps₁.trans hkeeps₂).trans hkeeps', fun h => ?_, fun h hs => ?_⟩
        · obtain ⟨l', hl', hfound⟩ := hfound' h
          exact ⟨l', List.mem_cons_of_mem l hl', hfound⟩
        · have hone := (hclear rfl (hkeeps₁.sound hs)).keeps hkeeps'
          refine (hclear' h (hkeeps₂.sound (hkeeps₁.sound hs))).imp_right fun hrest => ?_
          simpa only [List.exists_mem_cons_iff] using hone.union hrest

theorem checkOutgoingLinks_eq (c : DeepChangeChecker) (left : Nat) (x : Node) (d : Nat)
    (s : Findings) : c.checkOutgoingLinks (c.checkRow left) x.1 x.2 d s =
      anyOf (c.linkedObjectChanged (c.checkRow left) x.1 x.2 d) (c.linksOf x) s := by
  rw [checkOutgoingLinks, linksOf]
  split
  · rename_i h
    rw [h]
    rfl
  · rename_i it h
    rw [h]
    rfl

/-- The row itself is clear once all its links have been followed. -/
theorem clear_row {c : DeepChangeChecker} {d : Nat} {x : Node} {s : Findings}
    (hmark : ¬ c.Modified x)
    (h : Cut d x s ∨ c.Clear d (fun w => w = x) (fun y => ∃ l ∈ c.linksOf x, y ∈ c.behind x l) s) :
    c.Clear d (fun _ => False) (fun y => y = x) s := by
  rcases h with ⟨i, hi, hnode, hflags⟩ | h | ⟨V, j, hj, hflags, hgoal, hmarks, hnext⟩
  · refine Or.inr ⟨fun w => w = x, i, Nat.le_of_lt hi, hflags, fun y hy => hy,
      fun w hw => hw ▸ hmark, fun w hw => ?_⟩
    exact Or.inr (Or.inr (Or.inr ⟨i, Nat.le_refl i, hi, hnode.trans hw.symm⟩))
  · exact Or.inl h
  · refine Or.inr ⟨fun w => V w ∨ w = x, j, hj, hflags, fun y hy => Or.inr hy, fun w hw => ?_,
      fun w hw => ?_⟩
    · exact hw.elim (hmarks w) fun hw => hw ▸ hmark
    · have hself : ∀ y, c.Links x y → V y ∨ y = x := fun y hy => Or.inl (hgoal y hy)
      rcases hw with hw | rfl
      · rcases hnext w hw with h | h | rfl | h
        · exact Or.inl h
        · exact Or.inr (Or.inl fun y hy => Or.inl (h y hy))
        · exact Or.inr (Or.inl hself)
        · exact Or.inr (Or.inr (Or.inr h))
      · exact Or.inr (Or.inl hself)

/-- What can be trusted about a row that was checked. -/
theorem Clear.not_changes {c : DeepChangeChecker} {d : Nat} {x : Node} {s : Findings}
    (h : c.Clear (d + 1) (fun _ => False) (fun y => y = x) s) (hd : s.exceededAt d = false) :
    ¬ c.Changes x := by
  have hlast : ∀ j ≤ d, ¬ ∀ i, j ≤ i → i < d + 1 → s.exceededAt i = true := fun j hj hall =>
    absurd (hall d hj (Nat.lt_succ_self d)) (by rw [hd]; exact Bool.false_ne_true)
  rcases h with h | ⟨V, j, hj, hflags, hgoal, hmark, hnext⟩
  · exact absurd (fun i _ hi => h i hi) (hlast 0 (Nat.zero_le d))
  · have hclosed : ∀ w, V w → ¬ c.Changes w ∨ ∀ y, c.Links w y → V y := fun w hw => by
      rcases hnext w hw with h | h | h | ⟨i, hji, hi, -⟩
      · exact Or.inl h
      · exact Or.inr h
      · exact h.elim
      · exact absurd hflags (hlast j (by omega))
    have hnear := not_near_of_closed hmark hclosed (Nat.le_refl 3) (hgoal x rfl)
    exact fun hchanges => hnear (Or.inr hchanges)

theorem Keeps.add {c : DeepChangeChecker} {d : Nat} {s s' : Findings} (h : c.Keeps d s s')
    {x : Node} (hx : c.Sound s → ¬ c.Changes x) : c.Keeps d s (s'.add x.1 x.2) := by
  refine ⟨h.length, h.node, h.exceeded, fun hs y hy => ?_⟩
  rw [knows_add, Bool.or_eq_true, decide_eq_true_eq] at hy
  rcases hy with ⟨h₁, h₂⟩ | hy
  · rw [Prod.ext h₁ h₂]
    exact hx hs
  · exact h.sound hs y hy

theorem checkRow_checked (c : DeepChangeChecker) {left : Nat} (hleft : left < pathSize) (x : Node)
    {s : Findings} (hlen : s.currentPath.length = pathSize) :
    c.Checked left x s (c.checkRow left x.1 x.2 s) := by
  induction left generalizing x s with
  | zero =>
    rw [checkRow]
    refine ⟨keeps_exceed c _ _ _ s, fun h => (by cases h), fun _ _ => Or.inl fun i hi => ?_⟩
    rw [exceededAt_exceed, hlen, Bool.or_eq_true, decide_eq_true_eq]
    exact Or.inr ⟨Nat.zero_le i, hi, hi⟩
  | succ left ih =>
    obtain ⟨d, hd⟩ : ∃ d, pathSize - (left + 1) = d + 1 := ⟨pathSize - (left + 1) - 1, by omega⟩
    have hcall := fun (y : Node) (s : Findings) (hlen : s.currentPath.length = pathSize) =>
      ih (by omega) y hlen
    obtain ⟨hkeeps, hfound, hclear⟩ :=
      anyOf_links (by omega : d + 1 + 1 = pathSize - left) hcall x (c.linksOf x) hlen
    rw [checkRow, hd]
    dsimp only
    rw [checkOutgoingLinks_eq]
    split
    · rename_i hmod
      rw [Bool.and_eq_true] at hmod
      have hmark : c.Modified x := hmod.2
      exact ⟨.refl c _ s, fun _ => ⟨Nat.succ_pos left, .of_mark hmark _⟩, fun h => by cases h⟩
    · rename_i hmod
      have hmark : ¬ c.Modified x := by simpa [Modified] using hmod
      split
      · rename_i hknows
        refine ⟨.refl c _ s, fun h => (by cases h), fun _ hs => Or.inr ⟨fun w => w = x, d + 1,
          by omega, fun i hji hi => absurd hji (by omega), fun y hy => hy, fun w hw => hw ▸ hmark,
          fun w hw => Or.inl ?_⟩⟩
        rw [hw]
        exact hs x hknows
      · generalize anyOf (c.linkedObjectChanged (c.checkRow left) x.1 x.2 (d + 1)) (c.linksOf x) s =
          r at *
        obtain ⟨ret, s₁⟩ := r
        dsimp only at *
        have hfound' : ret = true → 0 < left + 1 ∧ Near c.Links c.Modified left x := fun h => by
          obtain ⟨l, hl, y, hy, hpos, hnear⟩ := hfound h
          obtain ⟨left, rfl⟩ : ∃ n, left = n + 1 := ⟨left - 1, by omega⟩
          exact ⟨Nat.succ_pos _, Or.inr ⟨y, ⟨l, hl, hy⟩, hnear⟩⟩
        have hrow := fun (h : ret = false) hs => clear_row hmark (hclear h hs)
        split
        · rename_i hadd
          simp only [Nat.succ_ne_zero, decide_false, Bool.false_or, Bool.and_eq_true,
            Bool.not_eq_true'] at hadd
          have hnot := fun hs => (hrow hadd.1 hs).not_changes hadd.2
          refine ⟨?_, hfound', fun h hs => ?_⟩
          · rw [hd]
            exact hkeeps.add hnot
          · rw [hd]
            exact (hrow h hs).keeps ((Keeps.refl c _ s₁).add fun _ => hnot hs)
        · refine ⟨?_, hfound', fun h hs => ?_⟩
          · rw [hd]
            exact hkeeps
          · rw [hd]
            exact hrow h hs

/-! ## Nothing is missed -/

/-- A modified row at a distance of `n` links is found as long as it is not too far, and no row on
the path is as near to one. -/
theorem checkRow_complete (c : DeepChangeChecker) {n left : Nat} (hn : n < left)
    (hleft : left ≤ pathSize) {x : Node} {s : Findings} (hlen : s.currentPath.length = pathSize)
    (hs : c.Sound s) (hnear : Near c.Links c.Modified n x)
    (hmin : ∀ m < n, ¬ Near c.Links c.Modified m x)
    (hpath : ∀ i < pathSize - left, ¬ Near c.Links c.Modified n (s.node i))
    (hroot : left = pathSize → ¬ c.Modified x) : (c.checkRow left x.1 x.2 s).1 = true := by
  induction left generalizing n x s with
  | zero => omega
  | succ left ih =>
    obtain ⟨d, hd⟩ : ∃ d, pathSize - (left + 1) = d := ⟨_, rfl⟩
    have hcall := fun (y : Node) (s : Findings) (hlen : s.currentPath.length = pathSize) =>
      c.checkRow_checked (by omega : left < pathSize) y hlen
    rw [checkRow, hd]
    dsimp only
    cases n with
    | zero =>
      have hmark : c.modified x.1 x.2 = true := hnear
      have hpos : 0 < d := by
        by_contra hzero
        exact hroot (by omega) hnear
      rw [if_pos (by simp [hpos, hmark])]
    | succ k =>
      have hmark : ¬ c.Modified x := hmin 0 (Nat.succ_pos k)
      have hmod : c.modified x.1 x.2 = false := by simpa [Modified] using hmark
      obtain ⟨y, ⟨l, hl, hy⟩, hk⟩ := hnear.resolve_left hmark
      have hknows : s.knows x.1 x.2 = false := by
        rw [← Bool.not_eq_true]
        refine fun hknows => hs x hknows ⟨y, ⟨l, hl, hy⟩, hk.mono ?_⟩
        have : pathSize = 4 := rfl
        omega
      rw [if_neg (by simp [hmod]), if_neg (by simp [hknows]), checkOutgoingLinks_eq]
      have hdone : (anyOf (c.linkedObjectChanged (c.checkRow left) x.1 x.2 d) (c.linksOf x) s).1 =
          true := by
        refine anyOf_complete (P := fun s' => c.Keeps d s s') (fun l' _ s' hs' => ?_) hl
          (fun s₁ hs₁ => ?_) (.refl c d s)
        · have hone := (anyOf_links (by omega : d + 1 = pathSize - left) hcall x [l']
            (hs'.length.trans hlen)).1
          rw [anyOf_singleton] at hone
          exact hs'.trans hone
        · -- the link is not followed already, for the row is nearer than those on the path
          obtain ⟨hkeeps, -, hnode, hfree⟩ := alreadyChecking_spec c (hs₁.length.trans hlen)
            (by omega : d < pathSize) x l.colNdx
          have hfree := hfree fun i hi heq => hpath i (hd ▸ hi) (by
            rw [← hs₁.node i hi, heq]
            exact Or.inr ⟨y, ⟨l, hl, hy⟩, hk⟩)
          rw [linkedObjectChanged_eq, if_neg (by simp [hfree])]
          have hkeeps := hs₁.trans hkeeps
          have hnode := hnode hfree
          generalize (s₁.alreadyChecking x.1 x.2 l.colNdx d).2 = s₂ at *
          refine anyOf_complete (P := fun s' => c.Keeps (d + 1) s₂ s') (fun y' _ s' hs' => ?_) hy
            (fun s₃ hs₃ => ?_) (.refl c _ s₂)
          · have hone := (hcall y' s' (hs'.length.trans (hkeeps.length.trans hlen))).keeps
            rw [show pathSize - left = d + 1 by omega] at hone
            exact hs'.trans hone
          · refine ih (by omega) (by omega) (hs₃.length.trans (hkeeps.length.trans hlen))
              (hs₃.sound (hkeeps.sound hs)) hk (fun m hm hnear => ?_) (fun i hi hnear => ?_)
              fun h => absurd h (by omega)
            · exact hmin (m + 1) (by omega) (Or.inr ⟨y, ⟨l, hl, hy⟩, hnear⟩)
            · rw [hs₃.node i (by omega)] at hnear
              rcases Nat.lt_or_ge i d with hid | hid
              · rw [hkeeps.node i hid] at hnear
                exact hpath i (by omega) (hnear.mono (Nat.le_succ k))
              · obtain rfl : i = d := by omega
                rw [hnode] at hnear
                exact hmin k (Nat.lt_succ_self k) hnear
      generalize anyOf (c.linkedObjectChanged (c.checkRow left) x.1 x.2 d) (c.linksOf x) s = r at *
      obtain ⟨ret, s₁⟩ := r
      obtain rfl : ret = true := hdone
      simp

/-- What is known of the checker between two questions. -/
structure Ready (c : DeepChangeChecker) (s : Findings) : Prop where
  length : s.currentPath.length = pathSize
  sound : c.Sound s

theorem ready_create (c : DeepChangeChecker) : c.Ready .create :=
  ⟨rfl, fun _ h => by cases h⟩

/-- The answer is the same whatever has been asked before. -/
theorem Ready.check {c : DeepChangeChecker} {s : Findings} (h : c.Ready s) (ndx : Nat) :
    ((c.check ndx s).1 = true ↔ Near c.Links c.Modified 3 (c.rootTable, ndx)) ∧
      c.Ready (c.check ndx s).2 := by
  obtain ⟨x, hx⟩ : ∃ x : Node, x = (c.rootTable, ndx) := ⟨_, rfl⟩
  have hroot : c.rootTable = x.1 := by rw [hx]
  have hndx : ndx = x.2 := by rw [hx]
  rw [DeepChangeChecker.check, ← hx, hroot, hndx]
  split
  · rename_i hmark
    have hmark : c.Modified x := hmark
    exact ⟨⟨fun _ => .of_mark hmark 3, fun _ => rfl⟩, h⟩
  rename_i hmark
  have hmark : ¬ c.Modified x := hmark
  -- the nearest modified row is found
  have hcomplete : c.Changes x → (c.checkRow pathSize x.1 x.2 s).1 = true := fun hchanges => by
    classical
    have hex : ∃ n, Near c.Links c.Modified n x := ⟨3, Or.inr hchanges⟩
    have hle : Nat.find hex ≤ 3 := Nat.find_min' hex (Or.inr hchanges)
    exact c.checkRow_complete (by simp only [pathSize]; omega) (Nat.le_refl _) h.length h.sound
      (Nat.find_spec hex) (fun m hm => Nat.find_min hex hm)
      (fun i hi => absurd hi (by omega)) fun _ => hmark
  have hcall := fun (y : Node) (s : Findings) (hlen : s.currentPath.length = pathSize) =>
    c.checkRow_checked (by decide : 3 < pathSize) y hlen
  obtain ⟨hkeeps, hfound, -⟩ := anyOf_links (by rfl : 0 + 1 = pathSize - 3) hcall x (c.linksOf x)
    h.length
  rw [show pathSize = 3 + 1 from rfl, checkRow] at hcomplete ⊢
  dsimp only at hcomplete ⊢
  rw [checkOutgoingLinks_eq] at hcomplete ⊢
  simp only [show pathSize - (3 + 1) = 0 from rfl, Nat.lt_irrefl, decide_false, Bool.false_and,
    Bool.false_eq_true, if_false, decide_true, Bool.true_or, Bool.and_true] at hcomplete ⊢
  split
  · rename_i hknows
    refine ⟨⟨fun h => (by cases h), fun hnear => ?_⟩, h⟩
    exact absurd (hnear.resolve_left hmark) (h.sound x hknows)
  · rename_i hknows
    rw [if_neg hknows] at hcomplete
    generalize anyOf (c.linkedObjectChanged (c.checkRow 3) x.1 x.2 0) (c.linksOf x) s = r at *
    obtain ⟨ret, s₁⟩ := r
    cases ret with
    | true =>
      refine ⟨⟨fun _ => ?_, fun _ => rfl⟩, hkeeps.length.trans h.length, hkeeps.sound h.sound⟩
      obtain ⟨l, hl, y, hy, -, hnear⟩ := hfound rfl
      exact Or.inr ⟨y, ⟨l, hl, hy⟩, hnear⟩
    | false =>
      have hnot : ¬ c.Changes x := fun hchanges => Bool.false_ne_true (hcomplete hchanges)
      have hadd := hkeeps.add fun _ => hnot
      exact ⟨⟨fun h => (by cases h), fun hnear => (hnot (hnear.resolve_left hmark)).elim⟩,
        hadd.length.trans h.length, hadd.sound h.sound⟩

/-- The rows are checked one after the other. -/
def checkAll (c : DeepChangeChecker) : List Nat → Findings → List Bool
  | [], _ => []
  | ndx :: rows, s => (c.check ndx s).1 :: c.checkAll rows (c.check ndx s).2

theorem Ready.checkAll {c : DeepChangeChecker} {s : Findings} (h : c.Ready s) (rows : List Nat) :
    c.checkAll rows s = rows.map fun ndx => (c.check ndx .create).1 := by
  induction rows generalizing s with
  | nil => rfl
  | cons ndx rows ih =>
    obtain ⟨hanswer, hnext⟩ := h.check ndx
    rw [DeepChangeChecker.checkAll, List.map_cons, ih hnext]
    congr 1
    rw [Bool.eq_iff_iff, hanswer, (c.ready_create.check ndx).1]

end DeepChangeChecker

end DeepChangeChecking
