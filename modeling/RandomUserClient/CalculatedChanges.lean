import RandomUserClient.RowsOfBoth
import RandomUserClient.CollectionChangeBuilder
import RandomUserClient.LongestMatches

/-!
# The changes between two results of a query

Rows that are in one of two lists only were removed or inserted. The rest are in
both lists, and those that are not in order are taken out of the one and put
into the other: in table order by watching for the row that should come next,
and in any other order by aligning the two lists at their longest matches.
Either way the change set turns the one list into the other.
-/

namespace CalculatedChanges

open IndexSets ListEdits CollectionChangeBuilders CollectionChangeBuilder LongestMatches

/-- `expected` is the row we expect to see, which in the absence of swaps is always the row
immediately after the last row which was not moved. -/
def calculateMovesUnsorted (moveCandidates : IndexSet) :
    List RowInfo → Nat → IndexSet → CollectionChangeBuilder → IndexSet × CollectionChangeBuilder
  | [], _, removed, changeset => (removed, changeset)
  | row :: rows, expected, removed, changeset =>
    let calcExpected := row.tvIndex - changeset.insertions.count 0 row.tvIndex +
      removed.count 0 row.prev
    if row.shiftedTvIndex = expected then
      calculateMovesUnsorted moveCandidates rows (expected + 1) removed changeset
    -- a row that cannot have moved is treated as a match
    else if !moveCandidates.contains row.rowIndex then
      calculateMovesUnsorted moveCandidates rows (row.shiftedTvIndex + 1) removed changeset
    -- the row may be here because the rows before it have been removed
    else if row.shiftedTvIndex = calcExpected then
      calculateMovesUnsorted moveCandidates rows (calcExpected + 1) removed changeset
    else
      calculateMovesUnsorted moveCandidates rows expected (removed.add row.prev) { changeset with
        moves := changeset.moves ++ [⟨row.prev, row.tvIndex⟩]
        insertions := changeset.insertions.add row.tvIndex }

/-- Insert and delete rows as needed to align two sequences at their matches. -/
def alignRows (a : List Row) (rows : List RowInfo) :
    List Match → Nat → Nat → CollectionChangeBuilder → CollectionChangeBuilder
  | [], _, _, changeset => changeset
  | m :: matches', i, j, changeset =>
    let deletions := (a.take m.i).drop i |>.foldl (fun s row => s.add row.tvIndex)
      changeset.deletions
    let insertions := (rows.take m.j).drop j |>.foldl (fun s row => s.add row.tvIndex)
      changeset.insertions
    alignRows a rows matches' (max i m.i + m.size) (max j m.j + m.size)
      { changeset with deletions := deletions, insertions := insertions }

def calculateMovesSorted (rows : List RowInfo) (changeset : CollectionChangeBuilder) :
    CollectionChangeBuilder :=
  let a := (rows.map fun row => (⟨row.rowIndex, row.prev⟩ : Row)).mergeSort
    fun lft rgt => lft.tvIndex < rgt.tvIndex ∨
      (lft.tvIndex = rgt.tvIndex ∧ lft.rowIndex ≤ rgt.rowIndex)
  -- the first index in `a` which will actually differ in `b`
  match (List.range a.length).find? fun i =>
      (a[i]?.map Row.rowIndex) ≠ (rows[i]?.map RowInfo.rowIndex) with
  | none => changeset
  | some firstDifference =>
    let b := (rows.mapIdx fun i row => (⟨row.rowIndex, i⟩ : Row)).mergeSort
      fun lft rgt => lft.rowIndex < rgt.rowIndex ∨
        (lft.rowIndex = rgt.rowIndex ∧ lft.tvIndex ≤ rgt.tvIndex)
    let longest := findLongestMatches changeset.modifications a b firstDifference a.length
      firstDifference b.length
    alignRows a rows (longest ++ [⟨a.length, b.length, 0, some 0⟩]) firstDifference
      firstDifference changeset

/-- The changes that turn `prevRows` into `nextRows`; a row that is no longer in the table has no
number. The move candidates are given for rows in table order. -/
def calculate (prevRows : List (Option Nat)) (nextRows : List Nat) (rowDidChange : Nat → Bool)
    (moveCandidates : Option IndexSet) : CollectionChangeBuilder :=
  let (newRows, deletions, removed, insertions) := rowsOfBoth prevRows nextRows
  let modifications := newRows.foldl (fun modifications row =>
    if rowDidChange row.rowIndex then modifications.add row.tvIndex else modifications) .empty
  let ret := { empty with
    deletions := deletions
    insertions := insertions
    modifications := modifications }
  let (removed, ret) := match moveCandidates with
    | some moveCandidates => calculateMovesUnsorted moveCandidates newRows 0 removed ret
    | none => (removed, calculateMovesSorted newRows ret)
  { ret with deletions := ret.deletions.addSet removed }

/-! ## In table order -/

/-- The kept rows and the rows that are still to come are those that are in neither set; no row that
is still to come was in front of a kept one. -/
structure Loop (prev : List (Option Nat)) (next : List Nat) (kept rows : List RowInfo)
    (expected : Nat) (removed insertions : IndexSet) : Prop where
  stays : ∀ r ∈ kept ++ rows, Stays prev next r
  sorted : (kept ++ rows).Pairwise fun l r => l.tvIndex < r.tvIndex
  places : kept.Pairwise fun l r => l.prev < r.prev
  ahead : ∀ k ∈ kept, ∀ r ∈ rows, k.prev < r.prev
  expected : expected = (kept.getLast?.map fun k => k.shiftedTvIndex + 1).getD 0
  within : ∀ p, removed.contains p = true → ∃ row, prev[p]? = some (some row)
  old : ∀ p, p ∈ (kept ++ rows).map RowInfo.prev ↔
    removed.contains p = false ∧ ∃ row, prev[p]? = some (some row)
  new : ∀ t, t ∈ (kept ++ rows).map RowInfo.tvIndex ↔
    insertions.contains t = false ∧ t < next.length

variable {prev : List (Option Nat)} {next : List Nat} {kept rows : List RowInfo} {r : RowInfo}
  {expected : Nat} {removed insertions : IndexSet}

/-- Rows of one place are one row. -/
theorem Stays.tvIndex_eq {q : RowInfo} (hnext : next.Nodup) (hr : Stays prev next r)
    (hq : Stays prev next q) (h : q.prev = r.prev) : q.tvIndex = r.tvIndex := by
  have hrow : q.rowIndex = r.rowIndex := by
    have := hr.old
    rw [← h, hq.old] at this
    simpa using this
  obtain ⟨hlt, hget⟩ := List.getElem?_eq_some_iff.mp hr.new
  obtain ⟨hlt', hget'⟩ := List.getElem?_eq_some_iff.mp hq.new
  exact (hnext.getElem_inj_iff).mp (by rw [hget, hget', hrow])

theorem Loop.nodup (h : Loop prev next kept rows expected removed insertions)
    (hnext : next.Nodup) : ((kept ++ rows).map RowInfo.prev).Nodup := by
  refine List.pairwise_map.mpr (List.Pairwise.imp_of_mem ?_ h.sorted)
  intro q r hq hr hlt heq
  have := (h.stays r hr).tvIndex_eq hnext (h.stays q hq) heq
  omega

/-- A row is kept if no row that is still to come was in front of it. -/
theorem Loop.keep (h : Loop prev next kept (r :: rows) expected removed insertions)
    (hnext : next.Nodup) (hfirst : ∀ q ∈ rows, ¬ q.prev < r.prev) :
    Loop prev next (kept ++ [r]) rows (r.shiftedTvIndex + 1) removed insertions := by
  have happ : kept ++ [r] ++ rows = kept ++ r :: rows := by simp
  have hnodup := h.nodup hnext
  obtain ⟨hstays, hsorted, hplaces, hahead, -, hwithin, hold, hnew⟩ := h
  refine ⟨happ ▸ hstays, happ ▸ hsorted, ?_, ?_, by simp, hwithin, happ ▸ hold, happ ▸ hnew⟩
  · refine List.pairwise_append.mpr ⟨hplaces, List.pairwise_singleton _ _, fun k hk q hq => ?_⟩
    rw [List.mem_singleton.mp hq]
    exact hahead k hk r List.mem_cons_self
  · intro k hk q hq
    rcases List.mem_append.mp hk with hk | hk
    · exact hahead k hk q (List.mem_cons_of_mem r hq)
    · rw [List.mem_singleton.mp hk]
      have hne : r.prev ≠ q.prev := by
        rw [List.map_append, List.map_cons] at hnodup
        exact (List.nodup_cons.mp (List.nodup_append.mp hnodup).2.1).1 ∘ fun heq =>
          heq ▸ List.mem_map_of_mem hq
      have := hfirst q hq
      omega

/-- Any row can be taken out of the one list and put into the other. -/
theorem Loop.move (h : Loop prev next kept (r :: rows) expected removed insertions)
    (hnext : next.Nodup) : Loop prev next kept rows expected (removed.add r.prev)
      (insertions.add r.tvIndex) := by
  have hsub : (kept ++ rows).Sublist (kept ++ r :: rows) :=
    (List.Sublist.refl kept).append (List.sublist_cons_self r rows)
  have hnodup := h.nodup hnext
  have hr := h.stays r (by simp)
  obtain ⟨hstays, hsorted, hplaces, hahead, hexpected, hwithin, hold, hnew⟩ := h
  have hperm : (kept ++ r :: rows).Perm (r :: (kept ++ rows)) := List.perm_middle
  refine ⟨fun q hq => hstays q (hsub.subset hq), hsorted.sublist hsub, hplaces,
    fun k hk q hq => hahead k hk q (List.mem_cons_of_mem r hq), hexpected, fun p hp => ?_,
    fun p => ?_, fun t => ?_⟩
  · rw [IndexSet.contains_add, Bool.or_eq_true, decide_eq_true_eq] at hp
    rcases hp with rfl | hp
    · exact ⟨_, hr.old⟩
    · exact hwithin p hp
  · have hp := hold p
    rw [(hperm.map _).mem_iff, List.map_cons, List.mem_cons] at hp
    have hnot := (List.nodup_cons.mp ((hperm.map _).nodup_iff.mp hnodup)).1
    rw [IndexSet.contains_add]
    grind
  · have ht := hnew t
    rw [(hperm.map _).mem_iff, List.map_cons, List.mem_cons] at ht
    have hnot : r.tvIndex ∉ (kept ++ rows).map RowInfo.tvIndex := by
      have hne : ((kept ++ r :: rows).map RowInfo.tvIndex).Nodup :=
        List.pairwise_map.mpr (hsorted.imp Nat.ne_of_lt)
      exact (List.nodup_cons.mp ((hperm.map _).nodup_iff.mp hne)).1
    rw [IndexSet.contains_add]
    grind

/-- The row right behind the last one that was kept. -/
theorem Loop.first_of_expected (h : Loop prev next kept (r :: rows) expected removed insertions)
    (heq : r.shiftedTvIndex = expected) : ∀ q ∈ rows, ¬ q.prev < r.prev := by
  intro q hq hlt
  have hq' := h.stays q (by simp [hq])
  have hr := h.stays r (by simp)
  have hfree : ∀ {q : RowInfo}, Stays prev next q → gone prev q.prev = false := fun h => by
    simp [gone, h.old]
  have hrank := unshift_lt (hfree hq') hlt
  rw [← hr.shifted, ← hq'.shifted, heq, h.expected] at hrank
  cases hlast : kept.getLast? with
  | none => simp [hlast] at hrank
  | some k =>
    have hk := List.mem_of_getLast? hlast
    have hkq := unshift_lt (hfree (h.stays k (by simp [hk]))) (h.ahead k hk q (by simp [hq]))
    rw [← hq'.shifted, ← (h.stays k (by simp [hk])).shifted] at hkq
    simp only [hlast, Option.map_some, Option.getD_some] at hrank
    omega

/-- How many old rows that were not removed are in front of a row, and how many new ones. -/
theorem Loop.ranks (h : Loop prev next kept (r :: rows) expected removed insertions) :
    r.shiftedTvIndex = unshift (union (gone prev) removed.contains) r.prev +
      removed.count 0 r.prev ∧
    r.tvIndex - insertions.count 0 r.tvIndex = kept.length := by
  refine ⟨?_, ?_⟩
  · have hfree : ∀ p, removed.contains p = true → gone prev p = false := fun p hp => by
      obtain ⟨row, hrow⟩ := h.within p hp
      simp [gone, hrow]
    rw [(h.stays r (by simp)).shifted, unshift_union hfree, IndexSet.count_zero]
  · have hsorted := List.pairwise_append.mp h.sorted
    have hlater := (List.pairwise_cons.mp hsorted.2.1).1
    have hlt := List.getElem?_eq_some_iff.mp (h.stays r (by simp)).new
    rw [← IndexSet.unshift, IndexSet.unshift_eq]
    refine Nat.le_antisymm ?_ ?_
    · rw [← List.length_map RowInfo.tvIndex]
      refine count_le_length fun t ht hnot => ?_
      have hmem := (h.new t).mpr ⟨hnot, by have := hlt.1; omega⟩
      rw [List.map_append, List.mem_append, List.map_cons, List.mem_cons] at hmem
      rcases hmem with hmem | rfl | hmem
      · exact hmem
      · exact absurd ht (Nat.lt_irrefl _)
      · obtain ⟨q, hq, rfl⟩ := List.mem_map.mp hmem
        have := hlater q hq
        omega
    · rw [← List.length_map RowInfo.tvIndex]
      refine length_le_count ?_ fun t ht => ?_
      · exact List.pairwise_map.mpr (hsorted.1.imp Nat.ne_of_lt)
      · refine ⟨?_, ((h.new t).mp (by simp only [List.map_append, List.mem_append, ht, true_or])).1⟩
        obtain ⟨k, hk, rfl⟩ := List.mem_map.mp ht
        exact hsorted.2.2 k hk r List.mem_cons_self

/-- The rows that were in front of a row and are still there are the kept ones, if none of those in
front of it is still to come. -/
theorem Loop.rank_iff (h : Loop prev next kept (r :: rows) expected removed insertions)
    (hnext : next.Nodup) : r.shiftedTvIndex = r.tvIndex - insertions.count 0 r.tvIndex +
      removed.count 0 r.prev ↔ ∀ q ∈ rows, ¬ q.prev < r.prev := by
  obtain ⟨hold, hnew⟩ := h.ranks
  rw [hold, hnew, Nat.add_right_cancel_iff]
  have hin : ∀ {q}, q ∈ kept ++ r :: rows →
      union (gone prev) removed.contains q.prev = false := fun hq => by
    have := (h.old _).mp (List.mem_map_of_mem hq)
    simp [union, gone, this.1, (h.stays _ hq).old]
  have hnodup := h.nodup hnext
  rw [List.map_append] at hnodup
  constructor
  · intro heq q hq hlt
    have hle : ((q :: kept).map RowInfo.prev).length ≤
        unshift (union (gone prev) removed.contains) r.prev := by
      refine length_le_count ?_ fun p hp => ?_
      · rw [List.map_cons, List.nodup_cons]
        refine ⟨fun hmem => ?_, (List.nodup_append.mp hnodup).1⟩
        exact (List.nodup_append.mp hnodup).2.2 _ hmem _
          (List.mem_map_of_mem (List.mem_cons_of_mem r hq)) rfl
      · obtain ⟨k, hk, rfl⟩ := List.mem_map.mp hp
        rcases List.mem_cons.mp hk with rfl | hk
        · exact ⟨hlt, hin (by simp [hq])⟩
        · exact ⟨h.ahead k hk r List.mem_cons_self, hin (by simp [hk])⟩
    rw [heq, List.length_map, List.length_cons] at hle
    omega
  · intro hfirst
    refine Nat.le_antisymm ?_ ?_
    · rw [← List.length_map RowInfo.prev]
      refine count_le_length fun p hp hnot => ?_
      have hlt := (List.getElem?_eq_some_iff.mp (h.stays r (by simp)).old).1
      rw [union, Bool.or_eq_false_iff] at hnot
      have hrow : ∃ row, prev[p]? = some (some row) := by
        rw [List.getElem?_eq_getElem (by omega)]
        cases hget : prev[p] with
        | none => exact absurd hnot.1 (by simp [gone, hget, hp.trans hlt])
        | some row => exact ⟨row, rfl⟩
      have hmem := (h.old p).mpr ⟨hnot.2, hrow⟩
      rw [List.map_append, List.mem_append, List.map_cons, List.mem_cons] at hmem
      rcases hmem with hmem | rfl | hmem
      · exact hmem
      · exact absurd hp (Nat.lt_irrefl _)
      · obtain ⟨q, hq, rfl⟩ := List.mem_map.mp hmem
        exact absurd hp (hfirst q hq)
    · rw [← List.length_map RowInfo.prev]
      refine length_le_count (List.nodup_append.mp hnodup).1 fun p hp => ?_
      obtain ⟨k, hk, rfl⟩ := List.mem_map.mp hp
      exact ⟨h.ahead k hk r List.mem_cons_self, hin (by simp [hk])⟩

/-- The moves that have been recorded: rows that came before another one which had been in front of
them, taken out of their old places and put into the new ones. -/
structure Recorded (rows : List RowInfo) (moves : List Move)
    (removed insertions removed' insertions' : IndexSet) : Prop where
  sub : moves.Sublist (rows.map fun r => ⟨r.prev, r.tvIndex⟩)
  passed : ∀ m ∈ moves, ∃ q ∈ rows, q.prev < m.fromIndex ∧ m.toIndex < q.tvIndex
  removed : ∀ p, removed'.contains p = true ↔ removed.contains p = true ∨
    p ∈ moves.map Move.fromIndex
  insertions : ∀ t, insertions'.contains t = true ↔ insertions.contains t = true ∨
    t ∈ moves.map Move.toIndex

theorem Recorded.cons {moves : List Move} {removed' insertions' : IndexSet}
    (h : Recorded rows moves removed insertions removed' insertions') (r : RowInfo) :
    Recorded (r :: rows) moves removed insertions removed' insertions' := by
  refine ⟨h.sub.cons _, fun m hm => ?_, h.removed, h.insertions⟩
  obtain ⟨q, hq, hlt⟩ := h.passed m hm
  exact ⟨q, List.mem_cons_of_mem r hq, hlt⟩

theorem unsorted_spec {candidates : IndexSet} (changeset : CollectionChangeBuilder)
    (hnext : next.Nodup) (hcand : ∀ r ∈ rows, candidates.contains r.rowIndex = false →
      ∀ q ∈ rows, q.prev < r.prev → q.tvIndex < r.tvIndex)
    (h : Loop prev next kept rows expected removed changeset.insertions) :
    ∃ kept' expected' moves insertions',
      let result := calculateMovesUnsorted candidates rows expected removed changeset
      Loop prev next kept' [] expected' result.1 insertions' ∧
      Recorded rows moves removed changeset.insertions result.1 insertions' ∧
      result.2 = { changeset with
        moves := changeset.moves ++ moves
        insertions := insertions' } := by
  induction rows generalizing kept expected removed changeset with
  | nil => exact ⟨kept, expected, [], changeset.insertions, h,
      ⟨by simp, by simp, by simp [calculateMovesUnsorted], by simp⟩,
      by simp [calculateMovesUnsorted]⟩
  | cons r rows ih =>
    have hcand' : ∀ r ∈ rows, candidates.contains r.rowIndex = false →
        ∀ q ∈ rows, q.prev < r.prev → q.tvIndex < r.tvIndex := fun r hr hnot q hq =>
      hcand r (List.mem_cons_of_mem _ hr) hnot q (List.mem_cons_of_mem _ hq)
    have hlater := (List.pairwise_cons.mp (List.pairwise_append.mp h.sorted).2.1).1
    have hkeep : (∀ q ∈ rows, ¬ q.prev < r.prev) → _ := fun hfirst =>
      ih changeset hcand' (h.keep hnext hfirst)
    rw [calculateMovesUnsorted]
    dsimp only
    split
    · rename_i heq
      obtain ⟨kept', expected', moves, insertions', hloop, hmoves, hresult⟩ :=
        hkeep (h.first_of_expected heq)
      rw [heq] at hloop hmoves hresult
      exact ⟨kept', expected', moves, insertions', hloop, hmoves.cons r, hresult⟩
    · split
      · rename_i hnot
        have hfirst : ∀ q ∈ rows, ¬ q.prev < r.prev := fun q hq hlt => by
          have := hcand r List.mem_cons_self (by simpa using hnot) q
            (List.mem_cons_of_mem r hq) hlt
          have := hlater q hq
          omega
        obtain ⟨kept', expected', moves, insertions', hloop, hmoves, hresult⟩ := hkeep hfirst
        exact ⟨kept', expected', moves, insertions', hloop, hmoves.cons r, hresult⟩
      · split
        · rename_i heq
          obtain ⟨kept', expected', moves, insertions', hloop, hmoves, hresult⟩ :=
            hkeep ((h.rank_iff hnext).mp heq)
          rw [heq] at hloop hmoves hresult
          exact ⟨kept', expected', moves, insertions', hloop, hmoves.cons r, hresult⟩
        · rename_i hne
          obtain ⟨kept', expected', moves, insertions', hloop, hmoves, hresult⟩ :=
            ih { changeset with
              moves := changeset.moves ++ [⟨r.prev, r.tvIndex⟩]
              insertions := changeset.insertions.add r.tvIndex } hcand' (h.move hnext)
          refine ⟨kept', expected', ⟨r.prev, r.tvIndex⟩ :: moves, insertions', hloop,
            ⟨hmoves.sub.cons_cons _, fun m hm => ?_, fun p => ?_, fun t => ?_⟩,
            by rw [hresult]; simp⟩
          · rcases List.mem_cons.mp hm with rfl | hm
            · rw [h.rank_iff hnext] at hne
              push Not at hne
              obtain ⟨q, hq, hlt⟩ := hne
              exact ⟨q, List.mem_cons_of_mem r hq, hlt, hlater q hq⟩
            · exact (hmoves.cons r).passed m hm
          · rw [hmoves.removed, IndexSet.contains_add]
            simp only [Bool.or_eq_true, decide_eq_true_eq, List.map_cons, List.mem_cons]
            tauto
          · rw [hmoves.insertions, IndexSet.contains_add]
            simp only [Bool.or_eq_true, decide_eq_true_eq, List.map_cons, List.mem_cons]
            tauto

/-- The rows are all still to come before the first one. -/
theorem Both.loop {deletions : IndexSet} (h : Both prev next rows deletions removed insertions) :
    Loop prev next [] rows 0 removed insertions := by
  obtain ⟨hsorted, hrows, -, hremoved, hinsertions⟩ := h
  have hhas : ∀ {p t row}, prev[p]? = some (some row) → next[t]? = some row →
      ⟨row, some p, t, unshift (gone prev) p⟩ ∈ rows := fun hp ht =>
    (hrows _).mpr ⟨hp, ht, rfl, rfl⟩
  refine ⟨fun r hr => (hrows r).mp hr, hsorted, List.Pairwise.nil, by simp, rfl, fun p hp => ?_,
    fun p => ?_, fun t => ?_⟩
  · obtain ⟨row, hrow, -⟩ := (hremoved p).mp hp
    exact ⟨row, hrow⟩
  · rw [List.nil_append, List.mem_map, ← Bool.not_eq_true, hremoved]
    constructor
    · rintro ⟨r, hr, rfl⟩
      have hstays := (hrows r).mp hr
      refine ⟨?_, _, hstays.old⟩
      rintro ⟨row, hrow, hnone⟩
      rw [hstays.old] at hrow
      cases hrow
      exact hnone (List.mem_of_getElem? hstays.new)
    · rintro ⟨hnot, row, hrow⟩
      have hmem : row ∈ next := by
        by_contra hnone
        exact hnot ⟨row, hrow, hnone⟩
      obtain ⟨t, ht⟩ := List.getElem?_of_mem hmem
      exact ⟨_, hhas hrow ht, rfl⟩
  · rw [List.nil_append, List.mem_map, ← Bool.not_eq_true, hinsertions]
    constructor
    · rintro ⟨r, hr, rfl⟩
      have hstays := (hrows r).mp hr
      refine ⟨?_, (List.getElem?_eq_some_iff.mp hstays.new).1⟩
      rintro ⟨row, hrow, hnone⟩
      rw [hstays.new] at hrow
      cases hrow
      exact hnone (List.mem_of_getElem? hstays.old)
    · rintro ⟨hnot, hlt⟩
      have ht := List.getElem?_eq_getElem hlt
      have hmem : some next[t] ∈ prev := by
        by_contra hnone
        exact hnot ⟨_, ht, hnone⟩
      obtain ⟨p, hp⟩ := List.getElem?_of_mem hmem
      exact ⟨_, hhas hp ht, rfl⟩

/-- The kept rows are what is left of both lists. -/
theorem Loop.edits (h : Loop prev next kept [] expected removed insertions) :
    Edits (union (gone prev) removed.contains) insertions.contains prev (next.map some) := by
  have hold := h.old
  have hnew := h.new
  rw [List.append_nil] at hold hnew
  refine edits_of_pairs (kept.map fun k => (k.prev, k.tvIndex)) ?_ (fun p => ?_) (fun t => ?_)
    fun x hx => ?_
  · have hsorted := h.sorted
    rw [List.append_nil] at hsorted
    exact List.pairwise_map.mpr (h.places.and hsorted)
  · rw [List.map_map]
    refine (hold p).trans ?_
    rw [union, Bool.or_eq_false_iff]
    constructor
    · rintro ⟨hp, row, hrow⟩
      exact ⟨(List.getElem?_eq_some_iff.mp hrow).1, by simp [gone, hrow], hp⟩
    · rintro ⟨hlt, hgone, hp⟩
      refine ⟨hp, ?_⟩
      rw [List.getElem?_eq_getElem hlt]
      cases hget : prev[p] with
      | none => exact absurd hgone (by simp [gone, hget, hlt])
      | some row => exact ⟨row, rfl⟩
  · rw [List.map_map, List.length_map, and_comm]
    exact hnew t
  · obtain ⟨k, hk, rfl⟩ := List.mem_map.mp hx
    have hstays := h.stays k (by simp [hk])
    rw [List.getElem?_map, hstays.old, hstays.new, Option.map_some]

/-! ## In any other order -/

theorem exists_mem_slice {α : Type} {l : List α} {i n : Nat} {Q : α → Prop} :
    (∃ x ∈ (l.take n).drop i, Q x) ↔ ∃ k x, i ≤ k ∧ k < n ∧ l[k]? = some x ∧ Q x := by
  constructor
  · rintro ⟨x, hx, hq⟩
    obtain ⟨k, hk⟩ := List.getElem?_of_mem hx
    rw [List.getElem?_drop, List.getElem?_take] at hk
    split at hk
    · exact ⟨i + k, x, by omega, by assumption, hk, hq⟩
    · cases hk
  · rintro ⟨k, x, hik, hkn, hx, hq⟩
    refine ⟨x, List.mem_of_getElem? (i := k - i) ?_, hq⟩
    rw [List.getElem?_drop, List.getElem?_take, Nat.add_sub_cancel' hik, if_pos hkn, hx]

/-- The indices of a block of pairs. -/
theorem mem_map_block {f : Nat × Nat → Nat} {i j m size k : Nat} {ps : List (Nat × Nat)}
    (hf : ∀ k, f (i + k, j + k) = m + k) :
    k ∈ ((List.range size).map (fun k => (i + k, j + k)) ++ ps).map f ↔
      m ≤ k ∧ k < m + size ∨ k ∈ ps.map f := by
  rw [List.map_append, List.mem_append, List.map_map, List.mem_map]
  refine or_congr_left ⟨?_, fun hk => ⟨k - m, ?_, ?_⟩⟩
  · rintro ⟨k, hk, rfl⟩
    have := List.mem_range.mp hk
    rw [Function.comp_apply, hf]
    omega
  · exact List.mem_range.mpr (by omega)
  · rw [Function.comp_apply, hf]
    omega

/-- The places of the rows from the `i`-th and the `j`-th on that are not in a match are added. -/
theorem alignRows_spec {same : Nat → Nat → Prop} {a : List Row} {ms : List Match} {i j : Nat}
    (changeset : CollectionChangeBuilder) (h : Chain same i j ms a.length rows.length) :
    ∃ ps : List (Nat × Nat), ps.Pairwise (fun x y => x.1 < y.1 ∧ x.2 < y.2) ∧
      (∀ x ∈ ps, i ≤ x.1 ∧ j ≤ x.2 ∧ same x.1 x.2) ∧
      ∃ deletions insertions,
        (∀ p, deletions.contains p = true ↔ changeset.deletions.contains p = true ∨
          ∃ k row, i ≤ k ∧ k ∉ ps.map Prod.fst ∧ a[k]? = some row ∧ p = row.tvIndex) ∧
        (∀ t, insertions.contains t = true ↔ changeset.insertions.contains t = true ∨
          ∃ k row, j ≤ k ∧ k ∉ ps.map Prod.snd ∧ rows[k]? = some row ∧ t = row.tvIndex) ∧
        alignRows a rows (ms ++ [⟨a.length, rows.length, 0, some 0⟩]) i j changeset =
          { changeset with deletions := deletions, insertions := insertions } := by
  induction ms generalizing i j changeset with
  | nil =>
    have hin : ∀ {α : Type} {l : List α} {k x}, l[k]? = some x → k < l.length := fun h =>
      (List.getElem?_eq_some_iff.mp h).1
    refine ⟨[], List.Pairwise.nil, by simp, _, _, fun p => ?_, fun t => ?_, rfl⟩
    · rw [contains_foldl_add, exists_mem_slice]
      grind
    · rw [contains_foldl_add, exists_mem_slice]
      grind
  | cons m ms ih =>
    obtain ⟨hi, hj, hsame, htail⟩ := h
    obtain ⟨ps, hps, hmem, deletions, insertions, hdel, hins, hresult⟩ := ih
      { changeset with
        deletions := (a.take m.i).drop i |>.foldl (fun s row => s.add row.tvIndex)
          changeset.deletions
        insertions := (rows.take m.j).drop j |>.foldl (fun s row => s.add row.tvIndex)
          changeset.insertions } htail
    have hblock : ∀ {x}, x ∈ (List.range m.size).map (fun k => (m.i + k, m.j + k)) ↔
        ∃ k < m.size, x = (m.i + k, m.j + k) := by
      simp [eq_comm]
    refine ⟨(List.range m.size).map (fun k => (m.i + k, m.j + k)) ++ ps,
      List.pairwise_append.mpr ⟨?_, hps, fun x hx y hy => ?_⟩, fun x hx => ?_, deletions,
      insertions, fun p => ?_, fun t => ?_, ?_⟩
    · exact List.pairwise_map.mpr (List.pairwise_lt_range.imp fun hlt => ⟨by omega, by omega⟩)
    · obtain ⟨k, hk, rfl⟩ := hblock.mp hx
      have := hmem y hy
      dsimp only
      omega
    · rcases List.mem_append.mp hx with hx | hx
      · obtain ⟨k, hk, rfl⟩ := hblock.mp hx
        exact ⟨by dsimp only; omega, by dsimp only; omega, hsame k hk⟩
      · obtain ⟨hx, hx', hs⟩ := hmem x hx
        exact ⟨by omega, by omega, hs⟩
    · have hlater : ∀ k ∈ ps.map Prod.fst, m.i + m.size ≤ k := by
        simp only [List.forall_mem_map]
        exact fun x hx => (hmem x hx).1
      rw [hdel, contains_foldl_add, exists_mem_slice]
      simp only [mem_map_block (f := Prod.fst) (m := m.i) fun _ => rfl]
      grind
    · have hlater : ∀ k ∈ ps.map Prod.snd, m.j + m.size ≤ k := by
        simp only [List.forall_mem_map]
        exact fun x hx => (hmem x hx).2.1
      rw [hins, contains_foldl_add, exists_mem_slice]
      simp only [mem_map_block (f := Prod.snd) (m := m.j) fun _ => rfl]
      grind
    · rw [List.cons_append, alignRows, Nat.max_eq_right hi, Nat.max_eq_right hj]
      exact hresult

/-- The rows of both lists in their old order. -/
structure OldOrder (rows : List RowInfo) (a : List Row) : Prop where
  sorted : a.Pairwise fun l r => l.tvIndex < r.tvIndex
  rows : ∀ row, row ∈ a ↔ ∃ r ∈ rows, row = ⟨r.rowIndex, r.prev⟩

/-- The same row in the old order and in the new one. -/
def Same (a : List Row) (rows : List RowInfo) (i j : Nat) : Prop :=
  ∃ row r, a[i]? = some row ∧ rows[j]? = some r ∧ row.rowIndex = r.rowIndex

/-- Items with different keys that are in order are at one index only. -/
theorem index_unique {α : Type} {key : α → Nat} {l : List α} {i j : Nat} {x y : α}
    (h : l.Pairwise fun x y => key x < key y) (hi : l[i]? = some x) (hj : l[j]? = some y) :
    (key x < key y ↔ i < j) := by
  obtain ⟨hi', rfl⟩ := List.getElem?_eq_some_iff.mp hi
  obtain ⟨hj', rfl⟩ := List.getElem?_eq_some_iff.mp hj
  have hlt := List.pairwise_iff_getElem.mp h
  rcases Nat.lt_trichotomy i j with hij | rfl | hij
  · simp only [hij, hlt i j hi' hj' hij]
  · simp only [Nat.lt_irrefl]
  · have := hlt j i hj' hi' hij
    omega

/-- The rows that are not aligned with themselves are taken out and put in again. -/
theorem Both.edits {a : List Row} {ps : List (Nat × Nat)}
    {deletions deletions' insertions' : IndexSet}
    (h : Both prev next rows deletions removed insertions) (ha : OldOrder rows a)
    (hps : ps.Pairwise fun x y => x.1 < y.1 ∧ x.2 < y.2)
    (hsame : ∀ x ∈ ps, Same a rows x.1 x.2)
    (hdel : ∀ p, deletions'.contains p = true ↔ deletions.contains p = true ∨
      ∃ k row, k ∉ ps.map Prod.fst ∧ a[k]? = some row ∧ p = row.tvIndex)
    (hins : ∀ t, insertions'.contains t = true ↔ insertions.contains t = true ∨
      ∃ k row, k ∉ ps.map Prod.snd ∧ rows[k]? = some row ∧ t = row.tvIndex) :
    Edits (union deletions'.contains removed.contains) insertions'.contains prev
      (next.map some) := by
  have hloop := h.loop
  refine edits_of_pairs (ps.map fun x => ((a[x.1]?.map Row.tvIndex).getD 0,
    (rows[x.2]?.map RowInfo.tvIndex).getD 0)) ?_ (fun p => ?_) (fun t => ?_) fun x hx => ?_
  · refine List.pairwise_map.mpr (hps.imp_of_mem fun {x y} hx hy hlt => ?_)
    obtain ⟨row, r, hrow, hr, -⟩ := hsame x hx
    obtain ⟨row', r', hrow', hr', -⟩ := hsame y hy
    simp only [hrow, hrow', hr, hr', Option.map_some, Option.getD_some]
    exact ⟨(index_unique ha.sorted hrow hrow').mpr hlt.1,
      (index_unique h.sorted hr hr').mpr hlt.2⟩
  · rw [List.map_map, List.mem_map, union, Bool.or_eq_false_iff, ← Bool.not_eq_true, hdel,
      h.deletions]
    constructor
    · rintro ⟨x, hx, rfl⟩
      obtain ⟨row, r, hrow, -, -⟩ := hsame x hx
      obtain ⟨r', hr', rfl⟩ := (ha.rows row).mp (List.mem_of_getElem? hrow)
      have hold := ((h.rows r').mp hr').old
      simp only [Function.comp_apply, hrow, Option.map_some, Option.getD_some]
      refine ⟨(List.getElem?_eq_some_iff.mp hold).1, ?_,
        ((hloop.old r'.prev).mp (List.mem_map_of_mem hr')).1⟩
      rintro (hgone | ⟨k, row, hk, hrow', heq⟩)
      · simp [gone, hold] at hgone
      · have h1 := index_unique ha.sorted hrow hrow'
        have h2 := index_unique ha.sorted hrow' hrow
        obtain rfl : k = x.1 := by
          dsimp only at h1 h2
          omega
        exact hk (List.mem_map_of_mem hx)
    · rintro ⟨hlt, hnot, hremoved⟩
      have hrow : ∃ row, prev[p]? = some (some row) := by
        rw [List.getElem?_eq_getElem hlt]
        cases hget : prev[p] with
        | none => exact absurd (Or.inl (by simp [gone, hget, hlt])) hnot
        | some row => exact ⟨row, rfl⟩
      obtain ⟨r, hr, rfl⟩ := List.mem_map.mp ((hloop.old p).mpr ⟨hremoved, hrow⟩)
      obtain ⟨k, hk⟩ := List.getElem?_of_mem ((ha.rows _).mpr ⟨r, hr, rfl⟩)
      have hmem : k ∈ ps.map Prod.fst := by
        by_contra hnone
        exact hnot (Or.inr ⟨k, _, hnone, hk, rfl⟩)
      obtain ⟨x, hx, rfl⟩ := List.mem_map.mp hmem
      exact ⟨x, hx, by simp [hk]⟩
  · rw [List.map_map, List.mem_map, List.length_map, ← Bool.not_eq_true, hins]
    constructor
    · rintro ⟨x, hx, rfl⟩
      obtain ⟨row, r, -, hr, -⟩ := hsame x hx
      have hmem := List.mem_of_getElem? hr
      have hnew := (hloop.new r.tvIndex).mp (List.mem_map_of_mem hmem)
      simp only [Function.comp_apply, hr, Option.map_some, Option.getD_some]
      refine ⟨hnew.2, ?_⟩
      rintro (hin | ⟨k, r', hk, hr', heq⟩)
      · exact absurd hin (by simp [hnew.1])
      · have h1 := index_unique h.sorted hr hr'
        have h2 := index_unique h.sorted hr' hr
        obtain rfl : k = x.2 := by omega
        exact hk (List.mem_map_of_mem hx)
    · rintro ⟨hlt, hnot⟩
      have hin : insertions.contains t = false := by
        rw [← Bool.not_eq_true]
        exact fun hin => hnot (Or.inl hin)
      obtain ⟨r, hr, rfl⟩ := List.mem_map.mp ((hloop.new t).mpr ⟨hin, hlt⟩)
      obtain ⟨k, hk⟩ := List.getElem?_of_mem (List.nil_append rows ▸ hr)
      have hmem : k ∈ ps.map Prod.snd := by
        by_contra hnone
        exact hnot (Or.inr ⟨k, _, hnone, hk, rfl⟩)
      obtain ⟨x, hx, rfl⟩ := List.mem_map.mp hmem
      exact ⟨x, hx, by simp [hk]⟩
  · obtain ⟨y, hy, rfl⟩ := List.mem_map.mp hx
    obtain ⟨row, r, hrow, hr, heq⟩ := hsame y hy
    obtain ⟨r', hr', rfl⟩ := (ha.rows row).mp (List.mem_of_getElem? hrow)
    have hold := ((h.rows r').mp hr').old
    have hnew := ((h.rows r).mp (List.mem_of_getElem? hr)).new
    simp only [hrow, hr, Option.map_some, Option.getD_some]
    rw [hold, List.getElem?_map, hnew, Option.map_some]
    exact congrArg (fun row => some (some row)) heq

theorem Both.nodup {deletions : IndexSet} (h : Both prev next rows deletions removed insertions)
    (hnext : next.Nodup) : (rows.map RowInfo.prev).Nodup :=
  h.loop.nodup hnext

theorem oldOrder_sort (h : (rows.map RowInfo.prev).Nodup) :
    OldOrder rows ((rows.map fun row => (⟨row.rowIndex, row.prev⟩ : Row)).mergeSort
      fun lft rgt => lft.tvIndex < rgt.tvIndex ∨
        (lft.tvIndex = rgt.tvIndex ∧ lft.rowIndex ≤ rgt.rowIndex)) := by
  refine ⟨?_, fun row => by rw [List.mem_mergeSort, List.mem_map]; simp only [eq_comm]⟩
  refine pairwise_mergeSort ?_ (fun x y z => ?_) (fun x y => ?_) fun x y => ?_
  · rw [List.map_map]
    exact h
  all_goals
    simp only [Bool.or_eq_true, decide_eq_true_eq]
    omega

theorem Both.lt_of_deleted {deletions : IndexSet}
    (h : Both prev next rows deletions removed insertions) {p : Nat}
    (hp : deletions.contains p = true) : p < prev.length := by
  rw [h.deletions, gone, decide_eq_true_eq] at hp
  exact (List.getElem?_eq_some_iff.mp hp).1

theorem Both.lt_of_removed {deletions : IndexSet}
    (h : Both prev next rows deletions removed insertions) {p : Nat}
    (hp : removed.contains p = true) : p < prev.length := by
  obtain ⟨row, hrow, -⟩ := (h.removed p).mp hp
  exact (List.getElem?_eq_some_iff.mp hrow).1

theorem Both.lt_of_inserted {deletions : IndexSet}
    (h : Both prev next rows deletions removed insertions) {t : Nat}
    (ht : insertions.contains t = true) : t < next.length := by
  obtain ⟨row, hrow, -⟩ := (h.insertions t).mp ht
  exact (List.getElem?_eq_some_iff.mp hrow).1

/-- Aligned at any matches, the lists differ by the edits that were made. -/
theorem Both.edits_alignRows {deletions : IndexSet} {changeset : CollectionChangeBuilder}
    {a : List Row} {ms : List Match}
    (h : Both prev next rows deletions removed insertions) (ha : OldOrder rows a)
    (hms : Chain (Same a rows) 0 0 ms a.length rows.length)
    (hdel : changeset.deletions = deletions) (hins : changeset.insertions = insertions) :
    ∃ deletions' insertions',
      alignRows a rows (ms ++ [⟨a.length, rows.length, 0, some 0⟩]) 0 0 changeset =
        { changeset with deletions := deletions', insertions := insertions' } ∧
      Edits (union deletions'.contains removed.contains) insertions'.contains prev
        (next.map some) ∧
      (∀ p, deletions'.contains p = true → p < prev.length) ∧
      ∀ t, insertions'.contains t = true → t < next.length := by
  obtain ⟨ps, hps, hmem, deletions', insertions', hdel', hins', hresult⟩ :=
    alignRows_spec changeset hms
  refine ⟨deletions', insertions', hresult, h.edits ha hps (fun x hx => (hmem x hx).2.2)
    (fun p => ?_) (fun t => ?_), fun p hp => ?_, fun t ht => ?_⟩
  · rw [hdel', hdel]
    simp only [Nat.zero_le, true_and]
  · rw [hins', hins]
    simp only [Nat.zero_le, true_and]
  · rw [hdel', hdel] at hp
    rcases hp with hp | ⟨k, row, -, -, hrow, rfl⟩
    · exact h.lt_of_deleted hp
    · obtain ⟨r, hr, rfl⟩ := (ha.rows row).mp (List.mem_of_getElem? hrow)
      exact (List.getElem?_eq_some_iff.mp ((h.rows r).mp hr).old).1
  · rw [hins', hins] at ht
    rcases ht with ht | ⟨k, r, -, -, hr, rfl⟩
    · exact h.lt_of_inserted ht
    · have hstays := (h.rows r).mp (List.mem_of_getElem? hr)
      exact (List.getElem?_eq_some_iff.mp hstays.new).1

theorem sorted_spec {deletions : IndexSet} (changeset : CollectionChangeBuilder)
    (h : Both prev next rows deletions removed insertions) (hnext : next.Nodup)
    (hdel : changeset.deletions = deletions) (hins : changeset.insertions = insertions) :
    ∃ deletions' insertions',
      calculateMovesSorted rows changeset =
        { changeset with deletions := deletions', insertions := insertions' } ∧
      Edits (union deletions'.contains removed.contains) insertions'.contains prev
        (next.map some) ∧
      (∀ p, deletions'.contains p = true → p < prev.length) ∧
      ∀ t, insertions'.contains t = true → t < next.length := by
  have hnodup : (rows.map RowInfo.prev).Nodup := h.loop.nodup hnext
  have ha := oldOrder_sort hnodup
  rw [calculateMovesSorted]
  generalize hgen : (rows.map fun row => (⟨row.rowIndex, row.prev⟩ : Row)).mergeSort _ = a at *
  have hlen : a.length = rows.length := by
    rw [← hgen, List.length_mergeSort, List.length_map]
  dsimp only
  have hdiag : ∀ k < rows.length, (a[k]?.map Row.rowIndex) = (rows[k]?.map RowInfo.rowIndex) →
      Same a rows (0 + k) (0 + k) := fun k hk heq => by
    rw [List.getElem?_eq_getElem (hlen ▸ hk), List.getElem?_eq_getElem hk] at heq
    rw [Nat.zero_add]
    exact ⟨a[k], rows[k], List.getElem?_eq_getElem _, List.getElem?_eq_getElem _,
      by simpa using heq⟩
  -- the rows in front of the first difference are a match too
  split
  · rename_i hnone
    have hchain : Chain (Same a rows) 0 0 [⟨0, 0, rows.length, none⟩] a.length rows.length := by
      refine ⟨Nat.le_refl 0, Nat.le_refl 0, fun k hk => hdiag k hk ?_, ?_⟩
      · have := List.find?_eq_none.mp hnone k (List.mem_range.mpr (hlen ▸ hk))
        simpa using this
      · simp [Chain, hlen]
    obtain ⟨deletions', insertions', hresult, hedits⟩ :=
      h.edits_alignRows ha hchain hdel hins
    refine ⟨deletions', insertions', ?_, hedits⟩
    rw [← hresult]
    simp [alignRows, hlen]
  · rename_i f hfind
    obtain ⟨-, hf, hbefore⟩ := List.find?_range_eq_some.mp hfind
    rw [List.mem_range] at hf
    generalize hb : (rows.mapIdx fun i row => (⟨row.rowIndex, i⟩ : Row)).mergeSort _ = b
    have hblen : b.length = rows.length := by
      rw [← hb, List.length_mergeSort, List.length_mapIdx]
    have hsame : ∀ i row j, a[i]? = some row → ⟨row.rowIndex, j⟩ ∈ b → Same a rows i j := by
      intro i row j hrow hmem
      rw [← hb, List.mem_mergeSort, List.mem_mapIdx] at hmem
      obtain ⟨j', hj, heq⟩ := hmem
      obtain ⟨hrowIndex, rfl⟩ := Row.mk.inj heq
      exact ⟨row, rows[j'], hrow, List.getElem?_eq_getElem hj, hrowIndex.symm⟩
    have hmatches := findLongestMatches_chain changeset.modifications hsame
      (Nat.le_of_lt hf) (by omega : f ≤ b.length)
    rw [hblen] at hmatches ⊢
    have hchain : Chain (Same a rows) 0 0 (⟨0, 0, f, none⟩ :: findLongestMatches
        changeset.modifications a b f a.length f rows.length) a.length rows.length := by
      refine ⟨Nat.le_refl 0, Nat.le_refl 0, fun k hk => hdiag k (by dsimp only at hk; omega) ?_, ?_⟩
      · have := hbefore k hk
        simpa using this
      · simpa using hmatches
    obtain ⟨deletions', insertions', hresult, hedits⟩ :=
      h.edits_alignRows ha hchain hdel hins
    refine ⟨deletions', insertions', ?_, hedits⟩
    rw [← hresult]
    simp [alignRows]

/-- Rows whose order has not changed are left alone. -/
theorem sorted_same (changeset : CollectionChangeBuilder)
    (h : rows.Pairwise fun l r => l.prev < r.prev) :
    calculateMovesSorted rows changeset = changeset := by
  have hsort : (rows.map fun row => (⟨row.rowIndex, row.prev⟩ : Row)).mergeSort
      (fun lft rgt => lft.tvIndex < rgt.tvIndex ∨
        (lft.tvIndex = rgt.tvIndex ∧ lft.rowIndex ≤ rgt.rowIndex)) =
      rows.map fun row => ⟨row.rowIndex, row.prev⟩ :=
    List.mergeSort_of_pairwise (List.pairwise_map.mpr (h.imp fun hlt => by simp [hlt]))
  have hnone : (List.range rows.length).find? (fun i => (rows.map fun row =>
      (⟨row.rowIndex, row.prev⟩ : Row))[i]?.map Row.rowIndex ≠ rows[i]?.map RowInfo.rowIndex) =
      none := by
    rw [List.find?_eq_none]
    intro i _
    simp [Function.comp_def]
  rw [calculateMovesSorted]
  dsimp only
  rw [hsort, List.length_map, hnone]

/-! ## The change set -/

theorem contains_foldl_didChange (didChange : Nat → Bool) (rows : List RowInfo) (s : IndexSet)
    (t : Nat) : (rows.foldl (fun s row =>
      if didChange row.rowIndex then s.add row.tvIndex else s) s).contains t = true ↔
    s.contains t = true ∨ ∃ row ∈ rows, didChange row.rowIndex = true ∧ t = row.tvIndex := by
  induction rows generalizing s with
  | nil => simp
  | cons row rows ih =>
    rw [List.foldl_cons, ih, List.exists_mem_cons_iff]
    cases didChange row.rowIndex with
    | true =>
      simp only [if_true, IndexSet.contains_add, Bool.or_eq_true, decide_eq_true_eq, true_and]
      tauto
    | false => simp

/-- Rows that cannot have moved are not in front of a row that they had behind them. -/
def Candidates (prev : List (Option Nat)) (s : IndexSet) : Prop :=
  ∀ p q row row' : Nat, p < q → prev[p]? = some (some row) → prev[q]? = some (some row') →
    s.contains row' = false → row < row'

/-- What a change set says of two lists of rows. -/
structure Calculated (prev : List (Option Nat)) (next : List Nat) (didChange : Nat → Bool)
    (c : CollectionChangeBuilder) : Prop where
  moved : c.Moved
  carries : c.Carries prev (next.map some)
  modifications : ∀ t, c.modifications.contains t = true ↔
    ∃ row, next[t]? = some row ∧ some row ∈ prev ∧ didChange row = true
  fits : c.Fits prev.length next.length

theorem Both.modifications {deletions : IndexSet}
    (h : Both prev next rows deletions removed insertions) (didChange : Nat → Bool) (t : Nat) :
    (∃ row ∈ rows, didChange row.rowIndex = true ∧ t = row.tvIndex) ↔
      ∃ row, next[t]? = some row ∧ some row ∈ prev ∧ didChange row = true := by
  constructor
  · rintro ⟨r, hr, hchange, rfl⟩
    have hstays := (h.rows r).mp hr
    exact ⟨r.rowIndex, hstays.new, List.mem_of_getElem? hstays.old, hchange⟩
  · rintro ⟨row, ht, hmem, hchange⟩
    obtain ⟨p, hp⟩ := List.getElem?_of_mem hmem
    exact ⟨_, (h.rows ⟨row, some p, t, unshift (gone prev) p⟩).mpr ⟨hp, ht, rfl, rfl⟩, hchange, rfl⟩

theorem carries_of_edits {c : CollectionChangeBuilder} {old new : List (Option Nat)}
    (h : Edits c.deletions.contains c.insertions.contains old new)
    (hmoves : ∀ m ∈ c.moves, new[m.toIndex]? = old[m.fromIndex]?) : c.Carries old new := by
  rintro i j (ht | hm)
  · exact h.getElem? ht
  · exact hmoves _ hm

/-- No row of both lists is taken for another one. -/
def FollowsAll (prev : List (Option Nat)) (next : List Nat) (c : CollectionChangeBuilder) : Prop :=
  ∀ p t row, prev[p]? = some (some row) → next[t]? = some row → c.Follows p t

/-- A row that was not taken out is still followed. -/
theorem Calculated.follows {didChange : Nat → Bool} {c : CollectionChangeBuilder}
    (h : Calculated prev next didChange c) (hnext : next.Nodup) {p t row : Nat}
    (hp : prev[p]? = some (some row)) (ht : next[t]? = some row)
    (hdel : c.deletions.contains p = false) : c.Follows p t := by
  have hfollows := (follows_shift h.moved hdel).mpr rfl
  have hrow := h.carries _ _ hfollows
  rw [hp, List.getElem?_map, Option.map_eq_some_iff] at hrow
  obtain ⟨row', hrow, heq⟩ := hrow
  obtain rfl := Option.some.inj heq
  obtain ⟨hlt, hget⟩ := List.getElem?_eq_some_iff.mp ht
  obtain ⟨hlt', hget'⟩ := List.getElem?_eq_some_iff.mp hrow
  rwa [hnext.getElem_inj_iff.mp (hget'.trans hget.symm)] at hfollows

/-- The rows of a list in any order. -/
theorem calculated_sorted (hprev : (prev.filterMap id).Nodup) (hnext : next.Nodup)
    (didChange : Nat → Bool) :
    Calculated prev next didChange (calculate prev next didChange none) ∧
      (calculate prev next didChange none).moves = [] := by
  have h := rowsOfBoth_spec hprev hnext
  rw [calculate]
  generalize rowsOfBoth prev next = both at *
  obtain ⟨rows, deletions, removed, insertions⟩ := both
  dsimp only at *
  obtain ⟨deletions', insertions', hresult, hedits, hlt, hlt'⟩ := sorted_spec
    { empty with
      deletions := deletions
      insertions := insertions
      modifications := rows.foldl (fun modifications row =>
        if didChange row.rowIndex then modifications.add row.tvIndex else modifications) .empty }
    h hnext rfl rfl
  rw [hresult]
  have hmodifications := fun t => contains_foldl_didChange didChange rows .empty t
  simp only [h.modifications, IndexSet.contains_empty, Bool.false_eq_true, false_or]
    at hmodifications
  rw [← IndexSet.contains_addSet] at hedits
  refine ⟨⟨by constructor <;> simp [empty], carries_of_edits hedits (by simp [empty]),
    hmodifications, ?_⟩, rfl⟩
  have hlength : (next.map some).length = next.length := List.length_map some
  rw [← hlength]
  apply fits_of_edits hedits
  · intro p hp
    dsimp only at hp
    rw [IndexSet.contains_addSet, union, Bool.or_eq_true] at hp
    rcases hp with hp | hp
    · exact hlt p hp
    · exact h.lt_of_removed hp
  · intro t ht
    rw [hlength]
    exact hlt' t ht
  · intro t ht
    obtain ⟨row, hrow, -⟩ := (hmodifications t).mp ht
    rw [hlength]
    exact (List.getElem?_eq_some_iff.mp hrow).1

/-- Rows that are in the same order in both lists are all followed. -/
theorem followsAll_sorted (hprev : (prev.filterMap id).Nodup) (hnext : next.Nodup)
    (didChange : Nat → Bool) (horder : ∀ p q t u row row' : Nat, prev[p]? = some (some row) →
      prev[q]? = some (some row') → next[t]? = some row → next[u]? = some row' → t < u → p < q) :
    FollowsAll prev next (calculate prev next didChange none) := by
  have hcalculated := (calculated_sorted hprev hnext didChange).1
  intro p t row hp ht
  refine hcalculated.follows hnext hp ht ?_
  have h := rowsOfBoth_spec hprev hnext
  rw [calculate]
  generalize rowsOfBoth prev next = both at *
  obtain ⟨rows, deletions, removed, insertions⟩ := both
  dsimp only at *
  have hrows : rows.Pairwise fun l r => l.prev < r.prev := by
    refine h.sorted.imp_of_mem fun {l r} hl hr hlt => ?_
    have hl := (h.rows l).mp hl
    have hr := (h.rows r).mp hr
    exact horder _ _ _ _ _ _ hl.old hr.old hl.new hr.new hlt
  rw [sorted_same _ hrows, IndexSet.contains_addSet, union, Bool.or_eq_false_iff]
  refine ⟨?_, ?_⟩
  · rw [h.deletions, gone, hp]
    simp
  · rw [← Bool.not_eq_true, h.removed]
    rintro ⟨row', hp', hnot⟩
    rw [hp] at hp'
    obtain rfl := Option.some.inj (Option.some.inj hp')
    exact hnot (List.mem_of_getElem? ht)

/-- The change set of the rows that have been kept and of the moves that have been recorded. -/
theorem Recorded.calculated {deletions removed' insertions' : IndexSet} {moves : List Move}
    {didChange : Nat → Bool} {c : CollectionChangeBuilder} (hnodup : next.Nodup)
    (h : Both prev next rows deletions removed insertions)
    (hloop : Loop prev next kept [] expected removed' insertions')
    (hrecorded : Recorded rows moves removed insertions removed' insertions')
    (hdeletions : c.deletions = deletions.addSet removed')
    (hinsertions : c.insertions = insertions')
    (hmoves : c.moves = moves) (hmodifications : ∀ t, c.modifications.contains t = true ↔
      ∃ row ∈ rows, didChange row.rowIndex = true ∧ t = row.tvIndex) :
    Calculated prev next didChange c ∧ FollowsAll prev next c ∧
      ∀ m ∈ c.moves, ∃ p t row, prev[p]? = some (some row) ∧ next[t]? = some row ∧
        p < m.fromIndex ∧ m.toIndex < t := by
  have hmove : ∀ m ∈ moves, ∃ r ∈ rows, m = ⟨r.prev, r.tvIndex⟩ := fun m hm => by
    obtain ⟨r, hr, rfl⟩ := List.mem_map.mp (hrecorded.sub.subset hm)
    exact ⟨r, hr, rfl⟩
  have hedits := hloop.edits
  rw [← h.deletions, ← IndexSet.contains_addSet, ← hdeletions, ← hinsertions] at hedits
  have hcalculated : Calculated prev next didChange c := by
    refine ⟨⟨fun m hm => ?_, fun m hm => ?_, ?_, ?_⟩, carries_of_edits hedits fun m hm => ?_,
      fun t => ?_, ?_⟩
    · rw [hmoves] at hm
      rw [hdeletions, IndexSet.contains_addSet, union, Bool.or_eq_true]
      exact Or.inr ((hrecorded.removed _).mpr (Or.inr (List.mem_map_of_mem hm)))
    · rw [hmoves] at hm
      rw [hinsertions]
      exact (hrecorded.insertions _).mpr (Or.inr (List.mem_map_of_mem hm))
    · rw [hmoves]
      refine (hrecorded.sub.map Move.fromIndex).nodup ?_
      rw [List.map_map]
      exact h.loop.nodup hnodup
    · rw [hmoves]
      refine (hrecorded.sub.map Move.toIndex).nodup ?_
      rw [List.map_map]
      exact List.pairwise_map.mpr (h.sorted.imp Nat.ne_of_lt)
    · obtain ⟨r, hr, rfl⟩ := hmove m (hmoves ▸ hm)
      have hstays := (h.rows r).mp hr
      rw [List.getElem?_map, hstays.new, hstays.old, Option.map_some]
    · rw [hmodifications, h.modifications]
    · have hlength : (next.map some).length = next.length := List.length_map some
      rw [← hlength]
      apply fits_of_edits hedits
      · intro p hp
        rw [hdeletions, IndexSet.contains_addSet, union, Bool.or_eq_true, hrecorded.removed] at hp
        rcases hp with hp | hp | hp
        · exact h.lt_of_deleted hp
        · exact h.lt_of_removed hp
        · obtain ⟨m, hm, rfl⟩ := List.mem_map.mp hp
          obtain ⟨r, hr, rfl⟩ := hmove m hm
          exact (List.getElem?_eq_some_iff.mp ((h.rows r).mp hr).old).1
      · intro t ht
        rw [hlength]
        rw [hinsertions, hrecorded.insertions] at ht
        rcases ht with ht | ht
        · exact h.lt_of_inserted ht
        · obtain ⟨m, hm, rfl⟩ := List.mem_map.mp ht
          obtain ⟨r, hr, rfl⟩ := hmove m hm
          exact (List.getElem?_eq_some_iff.mp ((h.rows r).mp hr).new).1
      · intro t ht
        obtain ⟨r, hr, -, rfl⟩ := (hmodifications t).mp ht
        rw [hlength]
        exact (List.getElem?_eq_some_iff.mp ((h.rows r).mp hr).new).1
  refine ⟨hcalculated, fun p t row hp ht => ?_, fun m hm => ?_⟩
  · cases hdel : c.deletions.contains p with
    | false => exact hcalculated.follows hnodup hp ht hdel
    | true =>
      rw [hdeletions, IndexSet.contains_addSet, union, Bool.or_eq_true, h.deletions,
        hrecorded.removed, h.removed] at hdel
      rcases hdel with hgone | ⟨row', hp', hnot⟩ | hmoved
      · simp [gone, hp] at hgone
      · rw [hp] at hp'
        obtain rfl := Option.some.inj (Option.some.inj hp')
        exact absurd (List.mem_of_getElem? ht) hnot
      · obtain ⟨m, hm, rfl⟩ := List.mem_map.mp hmoved
        obtain ⟨r, hr, rfl⟩ := hmove m hm
        have hstays := (h.rows r).mp hr
        rw [hstays.old] at hp
        obtain rfl := Option.some.inj (Option.some.inj hp)
        obtain ⟨hlt, hget⟩ := List.getElem?_eq_some_iff.mp ht
        obtain ⟨hlt', hget'⟩ := List.getElem?_eq_some_iff.mp hstays.new
        rw [hnodup.getElem_inj_iff.mp (hget.trans hget'.symm)]
        exact Or.inr (hmoves ▸ hm)
  · obtain ⟨q, hq, hlt, hlt'⟩ := hrecorded.passed m (hmoves ▸ hm)
    have hstays := (h.rows q).mp hq
    exact ⟨q.prev, q.tvIndex, q.rowIndex, hstays.old, hstays.new, hlt, hlt'⟩

/-- The rows of a list in table order; each move is one past a row that had been in front. -/
theorem calculated_unsorted (hprev : (prev.filterMap id).Nodup) (hnext : next.Pairwise (· < ·))
    (didChange : Nat → Bool) {s : IndexSet} (hs : Candidates prev s) :
    Calculated prev next didChange (calculate prev next didChange (some s)) ∧
      FollowsAll prev next (calculate prev next didChange (some s)) ∧
      ∀ m ∈ (calculate prev next didChange (some s)).moves, ∃ p t row,
        prev[p]? = some (some row) ∧ next[t]? = some row ∧ p < m.fromIndex ∧ m.toIndex < t := by
  have hnodup : next.Nodup := hnext.imp Nat.ne_of_lt
  have h := rowsOfBoth_spec hprev hnodup
  rw [calculate]
  generalize rowsOfBoth prev next = both at *
  obtain ⟨rows, deletions, removed, insertions⟩ := both
  dsimp only at *
  have hcand : ∀ r ∈ rows, s.contains r.rowIndex = false →
      ∀ q ∈ rows, q.prev < r.prev → q.tvIndex < r.tvIndex := fun r hr hnot q hq hlt => by
    obtain ⟨hold, hnew, -, -⟩ := (h.rows r).mp hr
    obtain ⟨hold', hnew', -, -⟩ := (h.rows q).mp hq
    have hrow := hs _ _ _ _ hlt hold' hold hnot
    by_contra hge
    rcases Nat.lt_or_eq_of_le (Nat.le_of_not_lt hge) with hlt' | heq
    · have := (index_unique hnext hnew hnew').mpr hlt'
      omega
    · rw [heq, hnew'] at hnew
      have := Option.some.inj hnew
      omega
  obtain ⟨kept', expected', moves, insertions', hloop, hrecorded, hresult⟩ := unsorted_spec
    { empty with
      deletions := deletions
      insertions := insertions
      modifications := rows.foldl (fun modifications row =>
        if didChange row.rowIndex then modifications.add row.tvIndex else modifications) .empty }
    hnodup hcand h.loop
  dsimp only at hloop hrecorded hresult
  rw [hresult]
  refine Recorded.calculated hnodup h hloop hrecorded rfl rfl (List.nil_append _) fun t => ?_
  rw [contains_foldl_didChange]
  simp

end CalculatedChanges
