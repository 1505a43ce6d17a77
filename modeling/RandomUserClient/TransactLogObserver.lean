import RandomUserClient.TableChanges

/-!
# Reading a transaction log

The instructions of a transaction log act on the table that was selected last.
The observer brings the change set of that table up to date, if a notifier
needs it, and keeps none of the others. At the end the change set of each table
says where its rows have gone, and which ones were modified.
-/

namespace TransactLogs

open CollectionChangeBuilders CollectionChangeBuilder ListEdits

/-- `instr_SetDefault` and `instr_SetUnique` conceptually cannot be changes to existing rows. -/
inductive SetInstruction where
  | set
  | setDefault
  | setUnique
  deriving DecidableEq, Repr

/-- The instructions on the rows of top-level tables; rows are always deleted unordered. -/
inductive Instruction where
  | selectTable (groupLevelNdx : Nat)
  | insertEmptyRows (rowNdx numRowsToInsert priorNumRows : Nat)
  | eraseRows (rowNdx priorNumRows : Nat)
  | swapRows (rowNdx₁ rowNdx₂ : Nat)
  | setCell (row : Nat) (instr : SetInstruction)
  | clearTable
  deriving DecidableEq, Repr

/-! ## The observer -/

structure TransactionChangeInfo where
  tableModificationsNeeded : List Bool
  tableMovesNeeded : List Bool
  trackAll : Bool
  tables : List CollectionChangeBuilder

/-- `activeTable` is an index of `info.tables`. -/
structure TransactLogObserver where
  info : TransactionChangeInfo
  activeTable : Option Nat
  needMoveInfo : Bool

namespace TransactionChangeInfo

def modificationsNeeded (info : TransactionChangeInfo) (tbl : Nat) : Bool :=
  info.trackAll || info.tableModificationsNeeded.getD tbl false

def movesNeeded (info : TransactionChangeInfo) (tbl : Nat) : Bool :=
  info.trackAll || info.tableMovesNeeded.getD tbl false

/-- The change set of a table; there is none yet for a table that has not been selected. -/
def table (info : TransactionChangeInfo) (tbl : Nat) : CollectionChangeBuilder :=
  info.tables.getD tbl empty

/-- `tables.resize(max(tables.size() * 2, tbl + 1))`, when there are not enough. -/
def resize (info : TransactionChangeInfo) (tbl : Nat) : TransactionChangeInfo :=
  if info.tables.length ≤ tbl then
    let size := max (info.tables.length * 2) (tbl + 1)
    { info with tables := info.tables ++ List.replicate (size - info.tables.length) empty }
  else info

end TransactionChangeInfo

namespace TransactLogObserver

def ofInfo (info : TransactionChangeInfo) : TransactLogObserver := ⟨info, none, false⟩

/-- The active table, if any, is changed. -/
def update (o : TransactLogObserver)
    (f : CollectionChangeBuilder → CollectionChangeBuilder) : TransactLogObserver :=
  match o.activeTable with
  | some tbl => { o with info := { o.info with tables := o.info.tables.modify tbl f } }
  | none => o

def selectTable (o : TransactLogObserver) (tbl : Nat) : TransactLogObserver :=
  if !o.info.modificationsNeeded tbl then { o with activeTable := none }
  else
    { info := o.info.resize tbl
      activeTable := some tbl
      needMoveInfo := o.info.movesNeeded tbl }

/-- `insert` asserts that there are rows to insert. -/
def observe (o : TransactLogObserver) : Instruction → TransactLogObserver
  | .selectTable tbl => o.selectTable tbl
  | .insertEmptyRows rowNdx num _ =>
    o.update fun b => if h : 0 < num then b.insert rowNdx num o.needMoveInfo h else b
  | .eraseRows rowNdx priorNumRows =>
    o.update fun b => b.moveOver rowNdx (priorNumRows - 1) o.needMoveInfo
  | .swapRows rowNdx₁ rowNdx₂ => o.update fun b => b.swap rowNdx₁ rowNdx₂ o.needMoveInfo
  | .setCell row .set => o.update fun b => b.modify row
  | .setCell _ _ => o
  | .clearTable => o.update fun b => b.clear npos

def parseComplete (o : TransactLogObserver) : TransactionChangeInfo :=
  { o.info with tables := o.info.tables.map CollectionChangeBuilder.parseComplete }

end TransactLogObserver

/-- `advance` with change information gathered in `info`. -/
def advance (info : TransactionChangeInfo) (log : List Instruction) : TransactionChangeInfo :=
  (log.foldl TransactLogObserver.observe (.ofInfo info)).parseComplete

/-! ## The tables -/

/-- The rows of each table, and the table that has been selected. -/
structure Group where
  rows : Nat → List TableRow
  current : Option Nat

def Group.put (g : Group) (tbl : Nat) (rows : List TableRow) : Group :=
  { g with rows := fun t => if t = tbl then rows else g.rows t }

/-- The rows of one table after an instruction, unless the table does not have the rows that the
instruction is about. -/
def applyRows (rows : List TableRow) : Instruction → Option (List TableRow)
  | .selectTable _ => none
  | .insertEmptyRows rowNdx num prior =>
    if rowNdx = rows.length ∧ prior = rows.length ∧ 0 < num then some (rows ++ newRows num)
    else none
  | .eraseRows rowNdx prior =>
    if prior = rows.length ∧ rowNdx < prior then some (moveLastOver rows rowNdx) else none
  | .swapRows i j => if i < j ∧ j < rows.length then some (swapRows rows i j) else none
  | .setCell row instr =>
    if row < rows.length then some (if instr = .set then setRow rows row else rows) else none
  | .clearTable => some []

def apply (g : Group) : Instruction → Option Group
  | .selectTable tbl => some { g with current := some tbl }
  | instr => do
    let tbl ← g.current
    let rows ← applyRows (g.rows tbl) instr
    some (g.put tbl rows)

def applyAll (g : Group) (log : List Instruction) : Option Group := log.foldlM apply g

/-- Tables of the given sizes, at the beginning of a transaction. -/
def Group.begin (sizes : Nat → Nat) : Group := ⟨fun tbl => oldRows (sizes tbl), none⟩

/-! ## What the observer knows -/

/-- The observer keeps the change sets of the tables that are needed, and acts on the table that is
selected. -/
structure Following (sizes : Nat → Nat) (g : Group) (o : TransactLogObserver) : Prop where
  active : ∀ tbl, o.activeTable = some tbl → g.current = some tbl ∧
    tbl < o.info.tables.length ∧ o.needMoveInfo = o.info.movesNeeded tbl
  idle : ∀ tbl, g.current = some tbl → o.info.modificationsNeeded tbl = true →
    o.activeTable = some tbl
  marked : ∀ tbl, o.info.modificationsNeeded tbl = true →
    Marked (g.rows tbl) (o.info.table tbl).modifications
  traced : ∀ tbl, o.info.modificationsNeeded tbl = true → o.info.movesNeeded tbl = true →
    Traced (sizes tbl) (g.rows tbl) (o.info.table tbl)

/-- What is needed does not change. -/
def SameNeeds (info info' : TransactionChangeInfo) : Prop :=
  info'.tableModificationsNeeded = info.tableModificationsNeeded ∧
    info'.tableMovesNeeded = info.tableMovesNeeded ∧ info'.trackAll = info.trackAll

theorem SameNeeds.modificationsNeeded {info info' : TransactionChangeInfo}
    (h : SameNeeds info info') (tbl : Nat) :
    info'.modificationsNeeded tbl = info.modificationsNeeded tbl := by
  rw [TransactionChangeInfo.modificationsNeeded, TransactionChangeInfo.modificationsNeeded, h.1,
    h.2.2]

theorem SameNeeds.movesNeeded {info info' : TransactionChangeInfo}
    (h : SameNeeds info info') (tbl : Nat) : info'.movesNeeded tbl = info.movesNeeded tbl := by
  rw [TransactionChangeInfo.movesNeeded, TransactionChangeInfo.movesNeeded, h.2.1, h.2.2]

theorem sameNeeds_resize (info : TransactionChangeInfo) (tbl : Nat) :
    SameNeeds info (info.resize tbl) := by
  rw [TransactionChangeInfo.resize]
  split <;> exact ⟨rfl, rfl, rfl⟩

theorem table_resize (info : TransactionChangeInfo) (tbl t : Nat) :
    (info.resize tbl).table t = info.table t := by
  rw [TransactionChangeInfo.resize, TransactionChangeInfo.table, TransactionChangeInfo.table]
  split
  · simp only [List.getD_eq_getElem?_getD, List.getElem?_append, List.getElem?_replicate]
    grind
  · rfl

theorem lt_length_resize (info : TransactionChangeInfo) (tbl : Nat) :
    tbl < (info.resize tbl).tables.length := by
  rw [TransactionChangeInfo.resize]
  split
  · simp only [List.length_append, List.length_replicate]
    omega
  · omega

theorem sameNeeds_update (o : TransactLogObserver)
    (f : CollectionChangeBuilder → CollectionChangeBuilder) :
    SameNeeds o.info (o.update f).info := by
  rw [TransactLogObserver.update]
  split <;> exact ⟨rfl, rfl, rfl⟩

theorem sameNeeds_observe (o : TransactLogObserver) (instr : Instruction) :
    SameNeeds o.info (o.observe instr).info := by
  cases instr with
  | selectTable tbl =>
    rw [TransactLogObserver.observe, TransactLogObserver.selectTable]
    split
    · exact ⟨rfl, rfl, rfl⟩
    · exact sameNeeds_resize _ _
  | setCell row instr =>
    cases instr with
    | set => exact sameNeeds_update o _
    | setDefault => exact ⟨rfl, rfl, rfl⟩
    | setUnique => exact ⟨rfl, rfl, rfl⟩
  | _ => exact sameNeeds_update o _

/-- A change of the selected table and of its change set. -/
theorem Following.update {sizes : Nat → Nat} {g : Group} {o : TransactLogObserver}
    (h : Following sizes g o) {tbl : Nat} (hcur : g.current = some tbl) {rows : List TableRow}
    {f : CollectionChangeBuilder → CollectionChangeBuilder}
    (hmarked : ∀ b, Marked (g.rows tbl) b.modifications → Marked rows (f b).modifications)
    (htraced : ∀ b, o.needMoveInfo = true → Traced (sizes tbl) (g.rows tbl) b →
      Traced (sizes tbl) rows (f b)) :
    Following sizes (g.put tbl rows) (o.update f) := by
  cases hact : o.activeTable with
  | none =>
    have hsame : o.update f = o := by rw [TransactLogObserver.update, hact]
    have hother : ∀ t, o.info.modificationsNeeded t = true →
        (g.put tbl rows).rows t = g.rows t := fun t ht => if_neg fun heq => by
      subst heq
      have := h.idle t hcur ht
      rw [hact] at this
      cases this
    rw [hsame]
    refine ⟨h.active, h.idle, fun t ht => ?_, fun t ht hm => ?_⟩
    · rw [hother t ht]
      exact h.marked t ht
    · rw [hother t ht]
      exact h.traced t ht hm
  | some t =>
    obtain ⟨hcur', hlt, hneed⟩ := h.active t hact
    obtain rfl : tbl = t := Option.some.inj (hcur.symm.trans hcur')
    have htable : ∀ t, TransactionChangeInfo.table { o.info with
        tables := o.info.tables.modify tbl f } t = if t = tbl then f (o.info.table t)
        else o.info.table t := fun t => by
      simp only [TransactionChangeInfo.table, List.getD_eq_getElem?_getD, List.getElem?_modify]
      by_cases ht : t = tbl
      · subst ht
        simp [hlt]
      · cases o.info.tables[t]? <;> grind
    rw [TransactLogObserver.update, hact]
    refine ⟨fun t ht => ?_, fun t ht hm => hact.symm.trans (h.idle t ht hm), fun t ht => ?_,
      fun t ht hm => ?_⟩
    · obtain ⟨h₁, h₂, h₃⟩ := h.active t (hact.trans ht)
      exact ⟨h₁, by simpa using h₂, h₃⟩
    · rw [htable, Group.put]
      by_cases heq : t = tbl
      · subst heq
        simp only [if_true]
        exact hmarked _ (h.marked t ht)
      · simp only [if_neg heq]
        exact h.marked t ht
    · rw [htable, Group.put]
      by_cases heq : t = tbl
      · subst heq
        simp only [if_true]
        exact htraced _ (hneed.trans hm) (h.traced t ht hm)
      · simp only [if_neg heq]
        exact h.traced t ht hm

theorem Following.selectTable {sizes : Nat → Nat} {g : Group} {o : TransactLogObserver}
    (h : Following sizes g o) (tbl : Nat) :
    Following sizes { g with current := some tbl } (o.selectTable tbl) := by
  rw [TransactLogObserver.selectTable]
  split
  · rename_i hneed
    rw [Bool.not_eq_true'] at hneed
    refine ⟨fun t ht => (by cases ht), fun t ht hm => ?_, h.marked, h.traced⟩
    obtain rfl : tbl = t := Option.some.inj ht
    exact absurd hm (by rw [hneed]; exact Bool.false_ne_true)
  · have hneeds := sameNeeds_resize o.info tbl
    refine ⟨fun t ht => ?_, fun t ht _ => ht, fun t ht => ?_, fun t ht hm => ?_⟩
    · obtain rfl : tbl = t := Option.some.inj ht
      exact ⟨rfl, lt_length_resize o.info tbl, (hneeds.movesNeeded tbl).symm⟩
    · dsimp only at ht ⊢
      rw [table_resize]
      exact h.marked t ((hneeds.modificationsNeeded t).symm.trans ht)
    · dsimp only at ht hm ⊢
      rw [table_resize]
      exact h.traced t ((hneeds.modificationsNeeded t).symm.trans ht)
        ((hneeds.movesNeeded t).symm.trans hm)

theorem apply_eq_some {g g' : Group} {instr : Instruction} (h : apply g instr = some g')
    (hsel : ∀ tbl, instr ≠ .selectTable tbl) : ∃ tbl rows, g.current = some tbl ∧
      applyRows (g.rows tbl) instr = some rows ∧ g' = g.put tbl rows := by
  cases instr with
  | selectTable tbl => exact absurd rfl (hsel tbl)
  | _ =>
    simp only [apply, Option.bind_eq_bind, Option.bind_eq_some_iff, Option.some.injEq] at h
    obtain ⟨tbl, hcur, rows, hrows, rfl⟩ := h
    exact ⟨tbl, rows, hcur, hrows, rfl⟩

/-- Each instruction keeps the change sets up to date. -/
theorem Following.step {sizes : Nat → Nat} {g g' : Group} {o : TransactLogObserver}
    {instr : Instruction} (h : Following sizes g o) (hsize : ∀ tbl, sizes tbl ≤ npos)
    (happly : apply g instr = some g') : Following sizes g' (o.observe instr) := by
  cases instr with
  | selectTable tbl =>
    obtain rfl := Option.some.inj happly
    exact h.selectTable tbl
  | insertEmptyRows rowNdx num prior =>
    obtain ⟨tbl, rows, hcur, hrows, rfl⟩ := apply_eq_some happly (by simp)
    rw [applyRows] at hrows
    split at hrows
    · rename_i hvalid
      obtain ⟨rfl, -, hnum⟩ := hvalid
      obtain rfl := Option.some.inj hrows
      refine h.update hcur (fun b hb => ?_) fun b hneed hb => ?_
      · rw [dif_pos hnum]
        exact hb.insert _ hnum
      · rw [dif_pos hnum, hneed]
        exact hb.insert hnum
    · cases hrows
  | eraseRows rowNdx prior =>
    obtain ⟨tbl, rows, hcur, hrows, rfl⟩ := apply_eq_some happly (by simp)
    rw [applyRows] at hrows
    split at hrows
    · rename_i hvalid
      obtain ⟨rfl, hlt⟩ := hvalid
      obtain rfl := Option.some.inj hrows
      refine h.update hcur (fun b hb => hb.moveOver hlt _) fun b hneed hb => ?_
      rw [hneed]
      exact hb.moveOver hlt
    · cases hrows
  | swapRows i j =>
    obtain ⟨tbl, rows, hcur, hrows, rfl⟩ := apply_eq_some happly (by simp)
    rw [applyRows] at hrows
    split at hrows
    · rename_i hvalid
      obtain ⟨hij, hj⟩ := hvalid
      obtain rfl := Option.some.inj hrows
      have hi := Nat.lt_trans hij hj
      refine h.update hcur (fun b hb => hb.swap hi hj _) fun b hneed hb => ?_
      rw [hneed]
      exact hb.swap hi hj (Nat.ne_of_lt hij)
    · cases hrows
  | setCell row instr =>
    obtain ⟨tbl, rows, hcur, hrows, rfl⟩ := apply_eq_some happly (by simp)
    rw [applyRows] at hrows
    split at hrows
    · rename_i hlt
      obtain rfl := Option.some.inj hrows
      have hput : g.put tbl (g.rows tbl) = g := by
        obtain ⟨rows, current⟩ := g
        simp only [Group.put, Group.mk.injEq, and_true]
        funext t
        split
        · rename_i heq
          rw [heq]
        · rfl
      cases instr with
      | set => exact h.update hcur (fun b hb => hb.modify hlt) fun b _ hb => hb.modify row
      | setDefault => exact (congrArg (Following sizes · o) hput).mpr h
      | setUnique => exact (congrArg (Following sizes · o) hput).mpr h
    · cases hrows
  | clearTable =>
    obtain ⟨tbl, rows, hcur, hrows, rfl⟩ := apply_eq_some happly (by simp)
    obtain rfl := Option.some.inj hrows
    refine h.update hcur (fun b _ => ?_) fun b _ _ => Traced.clear b (hsize tbl)
    exact fun j => rfl

/-! ## Whole logs -/

theorem traced_oldRows (n : Nat) : Traced n (oldRows n) empty := by
  have horigin := originAt_oldRows n
  have hlen : (oldRows n).length = n := by simp [oldRows]
  have hnone : ∀ k, IndexSets.IndexSet.empty.contains k = false := fun _ => rfl
  refine ⟨fun i j k => ?_, fun i j => ?_, fun j h => ?_, fun j h _ => ?_, fun i h _ => ?_,
    fun j i => ?_, rfl⟩
  · grind
  · grind
  · cases h
  · exact ⟨by grind, rfl⟩
  · exact ⟨by omega, rfl⟩
  · simp [empty, hnone]

theorem following_begin (sizes : Nat → Nat) {info : TransactionChangeInfo}
    (hinfo : info.tables = []) : Following sizes (.begin sizes) (.ofInfo info) := by
  have htable : ∀ tbl, info.table tbl = empty := fun tbl => by
    rw [TransactionChangeInfo.table, hinfo]
    rfl
  refine ⟨fun t ht => (by cases ht), fun t ht => (by cases ht), fun t _ j => ?_, fun t _ _ => ?_⟩
  · dsimp only [TransactLogObserver.ofInfo]
    rw [htable, Group.begin, modifiedAt_oldRows]
    rfl
  · dsimp only [TransactLogObserver.ofInfo]
    rw [htable]
    exact traced_oldRows (sizes t)

theorem Following.run {sizes : Nat → Nat} (hsize : ∀ tbl, sizes tbl ≤ npos)
    {log : List Instruction}
    {g g' : Group} {o : TransactLogObserver} (h : Following sizes g o)
    (hrun : applyAll g log = some g') :
    Following sizes g' (log.foldl TransactLogObserver.observe o) ∧
      SameNeeds o.info (log.foldl TransactLogObserver.observe o).info := by
  induction log generalizing g o with
  | nil =>
    obtain rfl := Option.some.inj hrun
    exact ⟨h, rfl, rfl, rfl⟩
  | cons instr log ih =>
    rw [applyAll, List.foldlM_cons, Option.bind_eq_bind, Option.bind_eq_some_iff] at hrun
    obtain ⟨g₁, hstep, hrest⟩ := hrun
    obtain ⟨hfollowing, hneeds⟩ := ih (h.step hsize hstep) hrest
    have hone := sameNeeds_observe o instr
    exact ⟨hfollowing, hneeds.1.trans hone.1, hneeds.2.1.trans hone.2.1,
      hneeds.2.2.trans hone.2.2⟩

theorem table_parseComplete (o : TransactLogObserver) (tbl : Nat) :
    o.parseComplete.table tbl = (o.info.table tbl).parseComplete := by
  have hempty : empty = empty.parseComplete := by
    simp [CollectionChangeBuilder.parseComplete, empty]
  rw [TransactionChangeInfo.table, TransactionChangeInfo.table, TransactLogObserver.parseComplete,
    List.getD_eq_getElem?_getD, List.getD_eq_getElem?_getD, List.getElem?_map]
  cases o.info.tables[tbl]?
  · exact hempty
  · rfl

/-- What is known of a table that is needed, once the log has been read. -/
theorem advance_complete {sizes : Nat → Nat} (hsize : ∀ tbl, sizes tbl ≤ npos)
    {info : TransactionChangeInfo} (hinfo : info.tables = []) {log : List Instruction} {g : Group}
    (hrun : applyAll (.begin sizes) log = some g) {tbl : Nat}
    (hneed : info.modificationsNeeded tbl = true) :
    Marked (g.rows tbl) ((advance info log).table tbl).modifications ∧
      (info.movesNeeded tbl = true →
        Complete (sizes tbl) (g.rows tbl) ((advance info log).table tbl)) := by
  obtain ⟨h, hneeds⟩ := (following_begin sizes hinfo).run hsize hrun
  have hneed' := (hneeds.modificationsNeeded tbl).trans hneed
  rw [advance, table_parseComplete]
  refine ⟨?_, fun hmoves => ?_⟩
  · have hmarked := h.marked tbl hneed'
    rw [CollectionChangeBuilder.parseComplete, (completed_foldl _ _).modifications]
    exact hmarked
  · exact (h.traced tbl hneed' ((hneeds.movesNeeded tbl).trans hmoves)).complete

theorem lastMoved_applyRows {rows rows' : List TableRow} (h : LastMoved rows) {instr : Instruction}
    (hswap : ∀ i j, instr ≠ .swapRows i j) (happly : applyRows rows instr = some rows') :
    LastMoved rows' := by
  cases instr with
  | selectTable tbl => cases happly
  | swapRows i j => exact absurd rfl (hswap i j)
  | insertEmptyRows rowNdx num prior =>
    rw [TransactLogs.applyRows] at happly
    split at happly
    · obtain rfl := Option.some.inj happly
      exact h.insert num
    · cases happly
  | eraseRows rowNdx prior =>
    rw [TransactLogs.applyRows] at happly
    split at happly
    · rename_i hvalid
      obtain ⟨rfl, hlt⟩ := hvalid
      obtain rfl := Option.some.inj happly
      exact h.moveLastOver hlt
    · cases happly
  | setCell row instr =>
    rw [TransactLogs.applyRows] at happly
    split at happly
    · obtain rfl := Option.some.inj happly
      split
      · exact h.setRow row
      · exact h
    · cases happly
  | clearTable =>
    obtain rfl := Option.some.inj happly
    intro i j ho
    cases ho

/-- The rows of a table move as `LastMoved` says when a log swaps none. -/
theorem lastMoved_applyAll {log : List Instruction} (hswap : ∀ i j, .swapRows i j ∉ log)
    {g g' : Group} (hrun : applyAll g log = some g') (tbl : Nat) (h : LastMoved (g.rows tbl)) :
    LastMoved (g'.rows tbl) := by
  induction log generalizing g with
  | nil =>
    obtain rfl := Option.some.inj hrun
    exact h
  | cons instr log ih =>
    rw [applyAll, List.foldlM_cons, Option.bind_eq_bind, Option.bind_eq_some_iff] at hrun
    obtain ⟨g₁, hstep, hrest⟩ := hrun
    refine ih (fun i j hmem => hswap i j (List.mem_cons_of_mem _ hmem)) hrest ?_
    by_cases hsel : ∃ t, instr = .selectTable t
    · obtain ⟨t, rfl⟩ := hsel
      obtain rfl := Option.some.inj hstep
      exact h
    · obtain ⟨t, rows, -, hrows, rfl⟩ := apply_eq_some hstep fun t ht => hsel ⟨t, ht⟩
      rw [Group.put]
      dsimp only
      split
      · rename_i heq
        subst heq
        exact lastMoved_applyRows h (fun i j heq => hswap i j (heq ▸ List.mem_cons_self)) hrows
      · exact h

end TransactLogs
