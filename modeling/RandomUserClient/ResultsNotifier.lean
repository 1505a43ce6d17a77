import RandomUserClient.CollectionNotifier
import RandomUserClient.CalculatedChanges
import RandomUserClient.ModificationChecker

/-!
# The notifier of a query

When the file has changed, the worker reads the transaction log, finds the rows
of the last result where they are now, runs the query again and compares the
two. The change set says of the objects in the result what has become of them,
although it was made from row numbers, which are given away as rows are deleted.
-/

namespace ResultsNotifiers

open IndexSets CollectionChangeBuilders CollectionChangeBuilder TransactLogs CollectionNotifiers
  CalculatedChanges DeepChangeChecking

/-! ## The notifier -/

/-- The query at the version that the worker reads: the version of its table and the rows it finds,
in their order. -/
structure QueryRun where
  version : Nat
  rows : List Nat

/-- The `Results` that the notifier updates. -/
structure TargetResults where
  tableView : Option (List Nat)
  hasUsedTableView : Bool
  wantsBackgroundUpdates : Bool

/-- If the previous TableView was never actually used, then stop generating new ones. -/
def TargetResults.setTableView (r : TargetResults) (tv : List Nat) : TargetResults :=
  ⟨some tv, false, if r.tableView.isSome then r.hasUsedTableView else r.wantsBackgroundUpdates⟩

structure ResultsNotifier extends CollectionNotifier where
  tableNdx : Nat
  relatedTables : List RelatedTable
  targetResults : TargetResults
  targetIsInTableOrder : Bool
  willApplySort : Bool
  lastSeenVersion : Option Nat
  previousRows : List Nat
  changes : CollectionChangeBuilder
  tv : Option (List Nat)
  tvHandover : Option (List Nat)
  tvToDeliver : Option (List Nat)

/-- Where a row of the table is now. The moves are sorted, so `lower_bound` finds the first one that
is not from a row before it. -/
def rowNow (changes : CollectionChangeBuilder) (idx : Nat) : Option Nat :=
  if changes.deletions.contains idx then
    -- check if this deletion was actually a move
    match changes.moves.find? fun m => idx ≤ m.fromIndex with
    | some m => if m.fromIndex = idx then some m.toIndex else none
    | none => none
  else some (changes.insertions.shift (changes.deletions.unshift idx))

/-- `resize`, if there are too few. -/
def resizeNeeded (needed : List Bool) (size : Nat) : List Bool :=
  needed ++ List.replicate (size - needed.length) false

namespace ResultsNotifier

/-- `add_required_change_info`, for a top-level table. -/
def addRequiredChangeInfo (n : ResultsNotifier) (info : TransactionChangeInfo) :
    TransactionChangeInfo :=
  let info := { info with
    tableMovesNeeded := (resizeNeeded info.tableMovesNeeded (n.tableNdx + 1)).set n.tableNdx true }
  if !(n.hasRun && n.haveCallbacks) || n.relatedTables.isEmpty then info
  else
    let max := n.relatedTables.foldl (fun m tbl => max m tbl.tableNdx) 0
    let needed := resizeNeeded info.tableModificationsNeeded (max + 1)
    { info with
      tableModificationsNeeded :=
        n.relatedTables.foldl (fun needed tbl => needed.set tbl.tableNdx true) needed }

/-- If we've run previously, check if we need to rerun. -/
def needToRun (n : ResultsNotifier) (version : Nat) : Bool :=
  if !n.haveCallbacks && !n.targetResults.wantsBackgroundUpdates then false
  else !(n.hasRun && n.lastSeenVersion = some version)

/-- The rows of the last run where they are now, if the table has been changed at all. -/
def prevRows (n : ResultsNotifier) (info : TransactionChangeInfo) : List (Option Nat) :=
  match info.tables[n.tableNdx]? with
  | some changes => n.previousRows.map (rowNow changes)
  | none => n.previousRows.map some

def moveCandidates (n : ResultsNotifier) (info : TransactionChangeInfo) : Option IndexSet :=
  match info.tables[n.tableNdx]? with
  | some changes =>
    if n.targetIsInTableOrder && !n.willApplySort then some changes.insertions else none
  | none => none

/-- `tables` are the tables and their links as the worker sees them. -/
def calculateChanges (n : ResultsNotifier) (info : TransactionChangeInfo) (tables : Tables)
    (nextRows : List Nat) : ResultsNotifier :=
  if n.hasRun && n.haveCallbacks then
    { n with
      changes := calculate (n.prevRows info) nextRows
        (getModificationChecker info tables n.tableNdx n.relatedTables).answer
        (n.moveCandidates info)
      previousRows := nextRows }
  else { n with previousRows := nextRows }

/-- A query whose table has been deleted cannot be run. -/
def run (n : ResultsNotifier) (info : TransactionChangeInfo) (tables : Tables) :
    Option QueryRun → ResultsNotifier
  | none => { n with
      changes := { empty with deletions := .set n.previousRows.length }
      previousRows := [] }
  | some query =>
    if !n.needToRun query.version then n
    else { n with
      tv := some query.rows
      lastSeenVersion := some query.version }.calculateChanges info tables query.rows

/-- The changes are added even if there are none, to clear the skip flag on the callbacks. -/
def prepareHandover (n : ResultsNotifier) : ResultsNotifier :=
  { n with
    toCollectionNotifier := n.toCollectionNotifier.prepareHandover n.changes
    changes := empty
    tvHandover := if n.tv.isSome then n.tv else n.tvHandover
    tv := none }

/-- `package_for_delivery` and `prepare_to_deliver` -/
def packageForDelivery (n : ResultsNotifier) : ResultsNotifier :=
  { n with
    toCollectionNotifier := n.toCollectionNotifier.packageForDelivery
    tvToDeliver := n.tvHandover
    tvHandover := none }

def deliver (n : ResultsNotifier) : ResultsNotifier :=
  match n.tvToDeliver with
  | some tv => { n with
      targetResults := n.targetResults.setTableView tv
      tvToDeliver := none }
  | none => n

end ResultsNotifier

/-! ## Rows of the table, now -/

/-- The row is where the change set says. -/
theorem rowNow_iff {c : CollectionChangeBuilder} (hc : c.Moved)
    (hsorted : c.moves.Pairwise fun l r => l.fromIndex < r.fromIndex) (i j : Nat) :
    rowNow c i = some j ↔ c.Follows i j := by
  rw [rowNow]
  split
  · rename_i hdel
    have hmove : c.Follows i j ↔ ⟨i, j⟩ ∈ c.moves := by
      constructor
      · rintro (⟨hdel', -, -⟩ | hm)
        · rw [hdel] at hdel'
          cases hdel'
        · exact hm
      · exact Or.inr
    rw [hmove]
    constructor
    · intro h
      split at h
      · rename_i m hfind
        obtain ⟨rfl, rfl⟩ : m.fromIndex = i ∧ m.toIndex = j := by
          split at h <;> grind
        exact List.mem_of_find?_eq_some hfind
      · cases h
    · intro hm
      obtain ⟨ms, ms', hmoves⟩ := List.append_of_mem hm
      rw [hmoves, List.pairwise_append] at hsorted
      have hfront : ∀ m ∈ ms, ¬ i ≤ m.fromIndex := fun m hms =>
        Nat.not_le.mpr (hsorted.2.2 m hms ⟨i, j⟩ List.mem_cons_self)
      have hfind : c.moves.find? (fun m => decide (i ≤ m.fromIndex)) = some ⟨i, j⟩ := by
        rw [hmoves, List.find?_eq_some_iff_append]
        refine ⟨by simp, ms, ms', rfl, fun m hms => ?_⟩
        simpa using hfront m hms
      rw [hfind]
      simp
  · rename_i hdel
    rw [follows_shift hc (Bool.eq_false_of_not_eq_true hdel), Option.some.injEq, eq_comm]

theorem rowNow_empty (i : Nat) : rowNow empty i = some i := by
  rw [rowNow_iff moved_empty List.Pairwise.nil, follows_empty]

/-- A row of the table is where its number is found. -/
theorem rowNow_complete {n : Nat} {rows : List TableRow} {c : CollectionChangeBuilder}
    (h : Complete n rows c) {i : Nat} (hi : i < n) (j : Nat) :
    rowNow c i = some j ↔ originAt rows j = some i := by
  rw [rowNow_iff h.moved h.sorted]
  constructor
  · intro hij
    by_cases hj : j < rows.length
    · exact (h.follows hi hj).mp hij
    · exfalso
      cases hdel : c.deletions.contains i with
      | true =>
        rcases hij with hij | hij
        · exact absurd hij.1 (by rw [hdel]; exact Bool.noConfusion)
        · exact hj (lt_length_of_originAt ((h.moves i j).mp hij).1)
      | false =>
        -- a row that is not deleted is where it was
        have hkept : originAt rows i = some i := by
          by_contra hne
          exact absurd ((h.deleted i hi).mpr hne) (by rw [hdel]; exact Bool.noConfusion)
        have hii := (h.follows hi (lt_length_of_originAt hkept)).mpr hkept
        rw [← hii.functional h.moved hij] at hj
        exact hj (lt_length_of_originAt hkept)
  · intro ho
    exact (h.follows hi (lt_length_of_originAt ho)).mpr ho

/-- Rows that are not new have not moved in front of a row that was before them. -/
theorem candidates_rowNow {n : Nat} {rows : List TableRow} {c : CollectionChangeBuilder}
    (h : Complete n rows c) (hlast : LastMoved rows) {previous : List Nat}
    (hprevious : previous.Pairwise (· < ·)) (hlt : ∀ i ∈ previous, i < n) :
    Candidates (previous.map (rowNow c)) c.insertions := by
  intro p q row row' hpq hp hq hnew
  rw [List.getElem?_map, Option.map_eq_some_iff] at hp hq
  obtain ⟨i, hp, hi⟩ := hp
  obtain ⟨i', hq, hi'⟩ := hq
  have hii : i < i' := by
    obtain ⟨hplt, rfl⟩ := List.getElem?_eq_some_iff.mp hp
    obtain ⟨hqlt, rfl⟩ := List.getElem?_eq_some_iff.mp hq
    exact List.pairwise_iff_getElem.mp hprevious p q hplt hqlt hpq
  have hrow := (rowNow_complete h (hlt i (List.mem_of_getElem? hp)) row).mp hi
  have hrow' := (rowNow_complete h (hlt i' (List.mem_of_getElem? hq)) row').mp hi'
  have hself : originAt rows row' = some row' := by
    by_contra hne
    have := (h.inserted row').mpr ⟨lt_length_of_originAt hrow', hne⟩
    rw [hnew] at this
    cases this
  obtain rfl : row' = i' := Option.some.inj (hself.symm.trans hrow')
  by_cases hsame : i = row
  · omega
  · have := (hlast i row hrow hsame).1
    omega

/-! ## The objects behind the rows -/

variable {ι : Type}

/-- The objects of some rows, where `ids` has the objects of all rows of the table. -/
def objects (ids : List ι) (rows : List Nat) : List ι := rows.filterMap fun row => ids[row]?

theorem getElem?_objects {ids : List ι} {rows : List Nat} (h : ∀ row ∈ rows, row < ids.length)
    (p : Nat) : (objects ids rows)[p]? = rows[p]?.bind fun row => ids[row]? := by
  induction rows generalizing p with
  | nil => rfl
  | cons row rows ih =>
    have hrow := h row List.mem_cons_self
    have hrest := ih fun row hmem => h row (List.mem_cons_of_mem _ hmem)
    rw [objects, List.filterMap_cons, List.getElem?_eq_getElem hrow]
    cases p with
    | zero => simp [hrow]
    | succ p => simpa [objects] using hrest p

theorem getElem?_objects_eq_some {ids : List ι} {rows : List Nat}
    (h : ∀ row ∈ rows, row < ids.length) {p : Nat} {x : ι} :
    (objects ids rows)[p]? = some x ↔ ∃ row, rows[p]? = some row ∧ ids[row]? = some x := by
  rw [getElem?_objects h, Option.bind_eq_some_iff]

theorem length_objects {ids : List ι} {rows : List Nat} (h : ∀ row ∈ rows, row < ids.length) :
    (objects ids rows).length = rows.length := by
  induction rows with
  | nil => rfl
  | cons row rows ih =>
    have hrow := h row List.mem_cons_self
    rw [objects, List.filterMap_cons, List.getElem?_eq_getElem hrow, List.length_cons,
      List.length_cons]
    exact congrArg Nat.succ (ih fun row hmem => h row (List.mem_cons_of_mem _ hmem))

/-- No object has two row numbers. -/
theorem getElem?_unique {α : Type} {l : List α} (hl : l.Nodup) {i j : Nat} {x : α}
    (hi : l[i]? = some x) (hj : l[j]? = some x) : i = j := by
  obtain ⟨hi, hx⟩ := List.getElem?_eq_some_iff.mp hi
  obtain ⟨hj, hy⟩ := List.getElem?_eq_some_iff.mp hj
  exact hl.getElem_inj_iff.mp (hx.trans hy.symm)

theorem nodup_objects {ids : List ι} (hids : ids.Nodup) {rows : List Nat} (hrows : rows.Nodup) :
    (objects ids rows).Nodup :=
  hrows.filterMap fun _ _ _ hi hj => getElem?_unique hids hi hj

/-- What becomes of the objects of a table: those of old rows stay with their row, and those of new
rows have not been in the table. -/
structure Renumbered (ids : List ι) (rows : List TableRow) (ids' : List ι) : Prop where
  length : ids'.length = rows.length
  nodup : ids'.Nodup
  kept : ∀ i j, originAt rows j = some i → ids'[j]? = ids[i]?
  fresh : ∀ j < rows.length, originAt rows j = none → ∀ x, ids'[j]? = some x → x ∉ ids

/-- The row of an object is the one that its old row has become. -/
theorem Renumbered.iff {ids ids' : List ι} {rows : List TableRow} (h : Renumbered ids rows ids')
    (hids : ids.Nodup) {i j : Nat} {x : ι} (hj : ids'[j]? = some x) :
    ids[i]? = some x ↔ i < ids.length ∧ originAt rows j = some i := by
  constructor
  · intro hi
    obtain ⟨hlt, -⟩ := List.getElem?_eq_some_iff.mp hi
    obtain ⟨hjlt, -⟩ := List.getElem?_eq_some_iff.mp hj
    refine ⟨hlt, ?_⟩
    rw [h.length] at hjlt
    cases ho : originAt rows j with
    | none => exact absurd (List.mem_of_getElem? hi) (h.fresh j hjlt ho x hj)
    | some i' =>
      have hi' := (h.kept i' j ho).symm.trans hj
      rw [getElem?_unique hids hi hi']
  · rintro ⟨-, ho⟩
    rw [← h.kept i j ho, hj]

/-! ## The changes of a run -/

/-- The objects that are in both lists are in the same order. -/
def SameOrder (old new : List ι) : Prop :=
  ∀ (p q t u : Nat) x y, old[p]? = some x → old[q]? = some y → new[t]? = some x →
    new[u]? = some y → t < u → p < q

/-- A change set of row numbers says the same of the objects. -/
theorem exact_of_calculated {ids' L : List ι} {prev : List (Option Nat)} {next : List Nat}
    {didChange : Nat → Bool} {c : CollectionChangeBuilder} {touched : ι → Prop} {ordered : Prop}
    (h : Calculated prev next didChange c) (hall : ordered → FollowsAll prev next c)
    (hlength : prev.length = L.length) (hnext : ∀ row ∈ next, row < ids'.length)
    (hprev : ∀ (p row : Nat) x, ids'[row]? = some x →
      (prev[p]? = some (some row) ↔ L[p]? = some x))
    (htouched : ∀ (row : Nat) x, ids'[row]? = some x → (didChange row = true ↔ touched x)) :
    Exact ⟨L, [], objects ids' next, touched, ordered⟩ c := by
  have hobject : ∀ {t row : Nat}, next[t]? = some row →
      ∃ x, ids'[row]? = some x ∧ (objects ids' next)[t]? = some x := fun {t row} ht => by
    have hrow := List.getElem?_eq_getElem (hnext row (List.mem_of_getElem? ht))
    exact ⟨_, hrow, (getElem?_objects_eq_some hnext).mpr ⟨row, ht, hrow⟩⟩
  have hsame : ∀ i j, c.Follows i j → (objects ids' next)[j]? = L[i]? := fun i j hij => by
    have hrow := h.carries i j hij
    rw [List.getElem?_map] at hrow
    cases hj : next[j]? with
    | none =>
      rw [hj] at hrow
      have hi : L.length ≤ i := hlength ▸ List.getElem?_eq_none_iff.mp hrow.symm
      have hj : (objects ids' next).length ≤ j := by
        rw [length_objects hnext]
        exact List.getElem?_eq_none_iff.mp hj
      rw [List.getElem?_eq_none hi, List.getElem?_eq_none hj]
    | some row =>
      rw [hj] at hrow
      obtain ⟨x, hx, ht⟩ := hobject hj
      rw [ht, (hprev i row x hx).mp hrow.symm]
  have hfits := h.fits
  rw [hlength, ← length_objects hnext] at hfits
  refine ⟨h.moved, hsame, fun i j x hi hij => ?_, fun ho i j x hi hj _ => ?_,
    fun i j x hi hij => ?_, hfits⟩
  · exact ⟨(hsame i j hij).trans hi, fun m hm => by cases hm⟩
  · obtain ⟨row, ht, hx⟩ := (getElem?_objects_eq_some hnext).mp hj
    exact hall ho i j row ((hprev i row x hx).mpr hi) ht
  · obtain ⟨row, ht, hx⟩ := (getElem?_objects_eq_some hnext).mp ((hsame i j hij).trans hi)
    have hmem : some row ∈ prev := List.mem_of_getElem? ((hprev i row x hx).mpr hi)
    rw [h.modifications]
    refine Iff.trans ?_ (htouched row x hx)
    constructor
    · rintro ⟨row', ht', -, hchange⟩
      obtain rfl := Option.some.inj (ht.symm.trans ht')
      exact hchange
    · intro hchange
      exact ⟨row, ht, hmem, hchange⟩

/-! ## What a notifier needs to know -/

theorem length_resizeNeeded (needed : List Bool) (size : Nat) :
    size ≤ (resizeNeeded needed size).length := by
  rw [resizeNeeded, List.length_append, List.length_replicate]
  omega

theorem getD_foldl_set {related : List RelatedTable} {needed : List Bool}
    (h : ∀ tbl ∈ related, tbl.tableNdx < needed.length) {ndx : Nat}
    (hndx : needed.getD ndx false = true ∨ ndx ∈ Tables.indices related) :
    (related.foldl (fun needed tbl => needed.set tbl.tableNdx true) needed).getD ndx false =
      true := by
  induction related generalizing needed with
  | nil =>
    rcases hndx with hndx | hndx
    · exact hndx
    · cases hndx
  | cons tbl related ih =>
    have hlt := h tbl List.mem_cons_self
    rw [List.foldl_cons]
    apply ih
    · intro tbl' htbl'
      rw [List.length_set]
      exact h tbl' (List.mem_cons_of_mem _ htbl')
    · rw [List.getD_eq_getElem?_getD, List.getElem?_set]
      rw [Tables.indices_cons, List.mem_cons, List.getD_eq_getElem?_getD] at hndx
      by_cases heq : tbl.tableNdx = ndx
      · left
        rw [if_pos heq, if_pos hlt]
        rfl
      · rw [if_neg heq]
        rcases hndx with hndx | hndx | hndx
        · exact Or.inl hndx
        · exact absurd hndx.symm heq
        · exact Or.inr hndx

theorem le_foldl_max (related : List RelatedTable) (m : Nat) :
    m ≤ related.foldl (fun m tbl => max m tbl.tableNdx) m ∧
      ∀ tbl ∈ related, tbl.tableNdx ≤ related.foldl (fun m tbl => max m tbl.tableNdx) m := by
  induction related generalizing m with
  | nil => exact ⟨Nat.le_refl m, fun tbl h => by cases h⟩
  | cons tbl related ih =>
    obtain ⟨hle, hall⟩ := ih (max m tbl.tableNdx)
    rw [List.foldl_cons]
    refine ⟨by omega, fun tbl' htbl' => ?_⟩
    rcases List.mem_cons.mp htbl' with rfl | htbl'
    · omega
    · exact hall tbl' htbl'

namespace ResultsNotifier

theorem tables_addRequiredChangeInfo (n : ResultsNotifier) (info : TransactionChangeInfo) :
    (n.addRequiredChangeInfo info).tables = info.tables := by
  rw [addRequiredChangeInfo]
  dsimp only
  split <;> rfl

theorem movesNeeded_addRequiredChangeInfo (n : ResultsNotifier) (info : TransactionChangeInfo) :
    (n.addRequiredChangeInfo info).movesNeeded n.tableNdx = true := by
  have hlt : n.tableNdx < (resizeNeeded info.tableMovesNeeded (n.tableNdx + 1)).length :=
    length_resizeNeeded _ _
  have hset : ((resizeNeeded info.tableMovesNeeded (n.tableNdx + 1)).set n.tableNdx true).getD
      n.tableNdx false = true := by
    rw [List.getD_eq_getElem?_getD, List.getElem?_set_self hlt]
    rfl
  rw [TransactionChangeInfo.movesNeeded, Bool.or_eq_true, addRequiredChangeInfo]
  right
  dsimp only
  split <;> exact hset

theorem modificationsNeeded_addRequiredChangeInfo (n : ResultsNotifier) (hrun : n.hasRun = true)
    (hcallbacks : n.haveCallbacks = true) (info : TransactionChangeInfo) {tbl : Nat}
    (htbl : tbl ∈ Tables.indices n.relatedTables) :
    (n.addRequiredChangeInfo info).modificationsNeeded tbl = true := by
  have hne : n.relatedTables.isEmpty = false := by
    cases hrelated : n.relatedTables with
    | nil =>
      rw [hrelated] at htbl
      cases htbl
    | cons tbl related => rfl
  rw [TransactionChangeInfo.modificationsNeeded, Bool.or_eq_true, addRequiredChangeInfo]
  right
  dsimp only
  rw [if_neg (by simp [hrun, hcallbacks, hne])]
  apply getD_foldl_set _ (Or.inr htbl)
  intro tbl htbl
  have hle := (le_foldl_max n.relatedTables 0).2 tbl htbl
  exact Nat.lt_of_lt_of_le (Nat.lt_succ_of_le hle) (length_resizeNeeded _ _)

end ResultsNotifier

/-! ## A commit -/

/-- What the worker finds when it goes on to a later version: the transaction log, what the other
notifiers need to know of it, and what there is at that version. -/
structure Commit (ι : Type) where
  log : List Instruction
  needed : TransactionChangeInfo
  group : Group
  tables : Tables
  ids : List ι
  query : Option QueryRun

/-- Rows in table order are compared with the help of the moves in the table. -/
def ResultsNotifier.InTableOrder (n : ResultsNotifier) : Prop :=
  n.targetIsInTableOrder = true ∧ n.willApplySort = false

/-- The change infos of the commit. -/
def Commit.info {ι : Type} (c : Commit ι) (n : ResultsNotifier) : TransactionChangeInfo :=
  advance (n.addRequiredChangeInfo c.needed) c.log

/-- The number of links that are followed. -/
def ResultsNotifier.depth (n : ResultsNotifier) : Nat :=
  if n.relatedTables.length = 1 then 0 else 3

/-- The row of the object has been modified, or one that it leads to. -/
def Commit.touched (c : Commit ι) (n : ResultsNotifier) (x : ι) : Prop :=
  ∃ row, c.ids[row]? = some x ∧ Near c.tables.Leads
    (fun y => modifiedAt (c.group.rows y.1) y.2 = true) n.depth (n.tableNdx, row)

/-- The log turns tables of these sizes, with these objects, into those of the commit, and the query
finds different rows of its table. -/
structure Commit.Valid (c : Commit ι) (n : ResultsNotifier) (sizes : Nat → Nat) (ids : List ι) :
    Prop where
  fits : ∀ tbl, sizes tbl ≤ npos
  length : sizes n.tableNdx = ids.length
  needed : c.needed.tables = []
  applies : applyAll (.begin sizes) c.log = some c.group
  renumbered : Renumbered ids (c.group.rows n.tableNdx) c.ids
  related : c.tables.Related n.tableNdx n.relatedTables
  swaps : n.InTableOrder → ∀ i j, .swapRows i j ∉ c.log
  rows : ∀ query, c.query = some query → query.rows.Nodup ∧
    (n.InTableOrder → query.rows.Pairwise (· < ·)) ∧ ∀ row ∈ query.rows, row < c.ids.length

/-- The rows of the last run are rows of the table. -/
structure ResultsNotifier.Previous (n : ResultsNotifier) (ids : List ι) : Prop where
  nodup : n.previousRows.Nodup
  ordered : n.InTableOrder → n.previousRows.Pairwise (· < ·)
  lt : ∀ row ∈ n.previousRows, row < ids.length

section Commit

variable {c : Commit ι} {n : ResultsNotifier} {sizes : Nat → Nat} {ids : List ι}

theorem Commit.Valid.complete (h : c.Valid n sizes ids) (hrun : n.hasRun = true)
    (hcallbacks : n.haveCallbacks = true) :
    Complete ids.length (c.group.rows n.tableNdx) ((c.info n).table n.tableNdx) := by
  have hneed := n.modificationsNeeded_addRequiredChangeInfo hrun hcallbacks c.needed
    ((h.related.mem n.tableNdx).mpr .refl)
  rw [← h.length]
  exact (advance_complete h.fits ((n.tables_addRequiredChangeInfo c.needed).trans h.needed)
    h.applies hneed).2 (n.movesNeeded_addRequiredChangeInfo c.needed)

/-- The modification checker knows the objects that have been modified. -/
theorem Commit.Valid.answer_iff (h : c.Valid n sizes ids) (hrun : n.hasRun = true)
    (hcallbacks : n.haveCallbacks = true) {row : Nat} {x : ι} (hx : c.ids[row]? = some x) :
    (getModificationChecker (c.info n) c.tables n.tableNdx n.relatedTables).answer row = true ↔
      c.touched n x := by
  have hmarks : ∀ y : Node, y.1 ∈ Tables.indices n.relatedTables →
      (ModifiedIn (c.info n) y ↔ modifiedAt (c.group.rows y.1) y.2 = true) := fun y hy => by
    have hneed := n.modificationsNeeded_addRequiredChangeInfo hrun hcallbacks c.needed hy
    have hmarked := (advance_complete h.fits ((n.tables_addRequiredChangeInfo c.needed).trans
      h.needed) h.applies hneed).1
    rw [ModifiedIn, Commit.info, hmarked y.2]
  have hclosed : ∀ x y : Node, x.1 ∈ Tables.indices n.relatedTables → c.tables.Leads x y →
      y.1 ∈ Tables.indices n.relatedTables := fun x y hx hxy =>
    (h.related.mem y.1).mpr (((h.related.mem x.1).mp hx).tail hxy.linksTo)
  have hnear : Near c.tables.Leads (ModifiedIn (c.info n)) n.depth (n.tableNdx, row) ↔
      Near c.tables.Leads (fun y => modifiedAt (c.group.rows y.1) y.2 = true) n.depth
        (n.tableNdx, row) :=
    near_congr hmarks (fun _ _ _ => Iff.rfl) hclosed n.depth ((h.related.mem n.tableNdx).mpr .refl)
  rw [DeepChangeChecking.answer_iff h.related]
  constructor
  · intro hrow
    exact ⟨row, hx, hnear.mp hrow⟩
  · rintro ⟨row', hx', hrow⟩
    obtain rfl : row' = row := getElem?_unique h.renumbered.nodup hx' hx
    exact hnear.mpr hrow

/-- Without any changes the rows are where they were. -/
theorem prevRows_eq (n : ResultsNotifier) (info : TransactionChangeInfo) :
    n.prevRows info = n.previousRows.map (rowNow (info.table n.tableNdx)) := by
  rw [ResultsNotifier.prevRows, TransactionChangeInfo.table, List.getD_eq_getElem?_getD]
  cases info.tables[n.tableNdx]? with
  | none =>
    apply List.map_congr_left
    intro i _
    exact (rowNow_empty i).symm
  | some changes => rfl

theorem moveCandidates_cases (n : ResultsNotifier) (info : TransactionChangeInfo) :
    (n.InTableOrder ∧ n.moveCandidates info = some (info.table n.tableNdx).insertions) ∨
      n.moveCandidates info = none ∧ (n.InTableOrder → info.table n.tableNdx = empty) := by
  rw [ResultsNotifier.moveCandidates, TransactionChangeInfo.table, List.getD_eq_getElem?_getD]
  cases info.tables[n.tableNdx]? with
  | none => exact Or.inr ⟨rfl, fun _ => rfl⟩
  | some changes =>
    dsimp only
    split
    · rename_i horder
      rw [Bool.and_eq_true, Bool.not_eq_true'] at horder
      exact Or.inl ⟨horder, rfl⟩
    · rename_i horder
      rw [Bool.and_eq_true, Bool.not_eq_true'] at horder
      exact Or.inr ⟨rfl, fun h => absurd h horder⟩

/-- The objects of the last run, by their rows now. -/
theorem Commit.Valid.prev_iff (h : c.Valid n sizes ids) (hids : ids.Nodup)
    (hprevious : n.Previous ids) {ch : CollectionChangeBuilder}
    (hch : Complete ids.length (c.group.rows n.tableNdx) ch) {p row : Nat} {x : ι}
    (hx : c.ids[row]? = some x) : (n.previousRows.map (rowNow ch))[p]? = some (some row) ↔
      (objects ids n.previousRows)[p]? = some x := by
  rw [List.getElem?_map, Option.map_eq_some_iff, getElem?_objects_eq_some hprevious.lt]
  apply exists_congr
  intro i
  apply and_congr_right
  intro hi
  have hlt := hprevious.lt i (List.mem_of_getElem? hi)
  rw [rowNow_complete hch hlt, h.renumbered.iff hids hx]
  exact ⟨fun ho => ⟨hlt, ho⟩, And.right⟩

/-- Row numbers in table order are in the order of their objects, and the other way round. -/
theorem followsAll_of_sameOrder {ids' L : List ι} {prev : List (Option Nat)} {next : List Nat}
    {didChange : Nat → Bool} (hnodup : (prev.filterMap id).Nodup) (hnext : next.Nodup)
    (hlt : ∀ row ∈ next, row < ids'.length)
    (hprev : ∀ (p row : Nat) x, ids'[row]? = some x →
      (prev[p]? = some (some row) ↔ L[p]? = some x))
    (horder : SameOrder L (objects ids' next)) :
    FollowsAll prev next (calculate prev next didChange none) := by
  apply followsAll_sorted hnodup hnext
  intro p q t u row row' hp hq ht hu
  have hx := List.getElem?_eq_getElem (hlt row (List.mem_of_getElem? ht))
  have hy := List.getElem?_eq_getElem (hlt row' (List.mem_of_getElem? hu))
  exact horder p q t u _ _ ((hprev p row _ hx).mp hp) ((hprev q row' _ hy).mp hq)
    ((getElem?_objects_eq_some hlt).mpr ⟨row, ht, hx⟩)
    ((getElem?_objects_eq_some hlt).mpr ⟨row', hu, hy⟩)

/-- Rows in the order of a table that has not changed are followed as well. -/
theorem followsAll_of_empty {previous next : List Nat} {didChange : Nat → Bool}
    (hprevious : previous.Pairwise (· < ·)) (hnext : next.Pairwise (· < ·)) :
    FollowsAll (previous.map (rowNow empty)) next
      (calculate (previous.map (rowNow empty)) next didChange none) := by
  have hrow : ∀ {p row : Nat}, (previous.map (rowNow empty))[p]? = some (some row) →
      previous[p]? = some row := fun {p row} h => by
    rw [List.getElem?_map, Option.map_eq_some_iff] at h
    obtain ⟨i, hi, heq⟩ := h
    rw [rowNow_empty] at heq
    rw [hi, Option.some.inj heq]
  have hdistinct : ((previous.map (rowNow empty)).filterMap id).Nodup := by
    have hsame : (previous.map (rowNow empty)).filterMap id = previous := by
      rw [List.filterMap_map]
      simp [rowNow_empty]
    rw [hsame]
    exact hprevious.imp Nat.ne_of_lt
  apply followsAll_sorted hdistinct (hnext.imp Nat.ne_of_lt)
  intro p q t u row row' hp hq ht hu htu
  exact (index_unique hprevious (hrow hp) (hrow hq)).mp ((index_unique hnext ht hu).mpr htu)

/-- The change set of a run says what has become of the objects. -/
theorem Commit.Valid.exact (h : c.Valid n sizes ids) (hids : ids.Nodup)
    (hrun : n.hasRun = true) (hcallbacks : n.haveCallbacks = true) (hprevious : n.Previous ids)
    {query : QueryRun} (hquery : c.query = some query) :
    Exact ⟨objects ids n.previousRows, [], objects c.ids query.rows, c.touched n,
        n.InTableOrder ∨ SameOrder (objects ids n.previousRows) (objects c.ids query.rows)⟩
      (n.calculateChanges (c.info n) c.tables query.rows).changes := by
  have hch := h.complete hrun hcallbacks
  obtain ⟨hnodup, hascending, hlt⟩ := h.rows query hquery
  have hprev := fun (p row : Nat) x (hx : c.ids[row]? = some x) =>
    h.prev_iff hids hprevious hch (p := p) hx
  have hdistinct : ((n.previousRows.map (rowNow ((c.info n).table n.tableNdx))).filterMap
      id).Nodup := by
    rw [List.filterMap_map]
    apply hprevious.nodup.filterMap
    intro i i' j hi hi'
    rw [Function.id_comp, Option.mem_def, rowNow_iff hch.moved hch.sorted] at hi hi'
    exact hi.injective hch.moved hi'
  have hlength : (n.previousRows.map (rowNow ((c.info n).table n.tableNdx))).length =
      (objects ids n.previousRows).length := by
    rw [List.length_map, length_objects hprevious.lt]
  have htouched := fun (row : Nat) x (hx : c.ids[row]? = some x) =>
    h.answer_iff hrun hcallbacks hx
  rw [ResultsNotifier.calculateChanges, if_pos (by simp [hrun, hcallbacks]), prevRows_eq]
  rcases moveCandidates_cases n (c.info n) with ⟨horder, hcandidates⟩ | ⟨hcandidates, hempty⟩
  · rw [hcandidates]
    have hlast := lastMoved_applyAll (h.swaps horder) h.applies n.tableNdx (lastMoved_oldRows _)
    have hcand := candidates_rowNow hch hlast (hprevious.ordered horder) hprevious.lt
    obtain ⟨hcalculated, hall, -⟩ :=
      calculated_unsorted hdistinct (hascending horder) _ hcand
    exact exact_of_calculated hcalculated (fun _ => hall) hlength hlt hprev htouched
  · rw [hcandidates]
    have hcalculated := (calculated_sorted hdistinct hnodup
      (getModificationChecker (c.info n) c.tables n.tableNdx n.relatedTables).answer).1
    apply exact_of_calculated hcalculated _ hlength hlt hprev htouched
    rintro (horder | horder)
    · rw [hempty horder]
      exact followsAll_of_empty (hprevious.ordered horder) (hascending horder)
    · exact followsAll_of_sameOrder hdistinct hnodup hlt hprev horder

end Commit

end ResultsNotifiers
