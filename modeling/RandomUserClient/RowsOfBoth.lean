import RandomUserClient.IndexSets

/-!
# The rows of two lists

The rows of a list of results are numbers of rows in the table. Before two lists
are compared, the old one has the numbers that its rows have now, and a row that
is no longer in the table has none. Sorted by these numbers both lists are gone
through at once: a row is in both of them, was removed, or was inserted.
-/

namespace CalculatedChanges

open IndexSets ListEdits

/-- A row with its places in the old and the new list; one that was not in the old list has none
there. The shifted place does not count rows that were deleted outright. -/
structure RowInfo where
  rowIndex : Nat
  prevTvIndex : Option Nat
  tvIndex : Nat
  shiftedTvIndex : Nat
  deriving DecidableEq, Repr

/-- The old place of a row that has one. -/
def RowInfo.prev (row : RowInfo) : Nat := row.prevTvIndex.getD 0

/-- The old rows from the `i`-th on, and the places of those that were deleted. -/
def oldInfos (i deleted : Nat) (deletions : IndexSet) : List (Option Nat) → List RowInfo × IndexSet
  | [] => ([], deletions)
  | none :: prev => oldInfos (i + 1) (deleted + 1) (deletions.add i) prev
  | some row :: prev =>
    let (rows, deletions) := oldInfos (i + 1) deleted deletions prev
    (⟨row, none, i, i - deleted⟩ :: rows, deletions)

def newInfos (next : List Nat) : List RowInfo := next.mapIdx fun i row => ⟨row, none, i, 0⟩

/-- Now that both are sorted by row index, record the places of the rows that are present in both,
or mark them as inserted or removed if they appear only in one. -/
def matchRows : List RowInfo → List RowInfo → IndexSet → IndexSet →
    List RowInfo × IndexSet × IndexSet
  | old :: olds, new :: news, removed, insertions =>
    if old.rowIndex = new.rowIndex then
      let (rows, removed, insertions) := matchRows olds news removed insertions
      ({ new with
        prevTvIndex := some old.tvIndex
        shiftedTvIndex := old.shiftedTvIndex } :: rows, removed, insertions)
    else if old.rowIndex < new.rowIndex then
      matchRows olds (new :: news) (removed.add old.tvIndex) insertions
    else
      let (rows, removed, insertions) :=
        matchRows (old :: olds) news removed (insertions.add new.tvIndex)
      (new :: rows, removed, insertions)
  | olds, [], removed, insertions =>
    ([], olds.foldl (fun removed old => removed.add old.tvIndex) removed, insertions)
  | [], news, removed, insertions =>
    (news, removed, news.foldl (fun insertions new => insertions.add new.tvIndex) insertions)
termination_by olds news _ _ => olds.length + news.length

/-- The rows that are in both lists, in the order of the new one, with the places of the rows that
were deleted outright, of those that are not in the list any more and of the new ones. -/
def rowsOfBoth (prevRows : List (Option Nat)) (nextRows : List Nat) :
    List RowInfo × IndexSet × IndexSet × IndexSet :=
  let (oldRows, deletions) := oldInfos 0 0 .empty prevRows
  let oldRows := oldRows.mergeSort fun lft rgt => lft.rowIndex ≤ rgt.rowIndex
  let newRows := (newInfos nextRows).mergeSort fun lft rgt => lft.rowIndex ≤ rgt.rowIndex
  let (newRows, removed, insertions) := matchRows oldRows newRows .empty .empty
  -- the new insertions are not needed for any of the further calculations
  let newRows := newRows.filter fun row => row.prevTvIndex.isSome
  (newRows.mergeSort fun lft rgt => lft.tvIndex ≤ rgt.tvIndex, deletions, removed, insertions)

/-! ## The rows of both lists -/

/-- The places of the rows that were deleted outright. -/
def gone (prev : List (Option Nat)) : Positions := fun p => decide (prev[p]? = some none)

theorem gone_cons (x : Option Nat) (prev : List (Option Nat)) :
    (fun p => gone (x :: prev) (p + 1)) = gone prev := rfl

theorem exists_getElem?_cons {α : Type} {x : α} {xs : List α} {y : α} {Q : Nat → Prop} :
    (∃ p, (x :: xs)[p]? = some y ∧ Q p) ↔
      (x = y ∧ Q 0) ∨ ∃ p, xs[p]? = some y ∧ Q (p + 1) := by
  rw [← Nat.or_exists_add_one]
  simp

theorem mem_oldInfos {i deleted : Nat} {deletions : IndexSet} {prev : List (Option Nat)}
    (h : deleted ≤ i) (r : RowInfo) : r ∈ (oldInfos i deleted deletions prev).1 ↔
      ∃ row p, prev[p]? = some (some row) ∧
        r = ⟨row, none, i + p, i - deleted + unshift (gone prev) p⟩ := by
  induction prev generalizing i deleted deletions with
  | nil => simp [oldInfos]
  | cons x prev ih =>
    have hnum : ∀ p, unshift (gone (x :: prev)) (p + 1) =
        unshift (gone prev) p + if x = none then 0 else 1 := fun p => by
      rw [unshift_succ', gone_cons]
      cases x <;> simp [gone]
    have hplace : ∀ p, i + 1 + p = i + (p + 1) := by omega
    simp only [exists_getElem?_cons, hnum, unshift_zero]
    cases x with
    | none =>
      have hrank : ∀ n, i + 1 - (deleted + 1) + n = i - deleted + (n + 0) := by omega
      rw [oldInfos, ih (by omega)]
      simp only [hplace, hrank, reduceCtorEq, false_and, false_or, if_true]
    | some row =>
      have hrank : ∀ n, i + 1 - deleted + n = i - deleted + (n + 1) := by omega
      rw [oldInfos]
      dsimp only
      rw [List.mem_cons, ih (by omega)]
      simp only [hplace, hrank, reduceCtorEq, if_false, Option.some.injEq, exists_or,
        Nat.add_zero]
      refine or_congr_left ⟨fun h => ⟨row, rfl, h⟩, ?_⟩
      rintro ⟨row, rfl, h⟩
      exact h

theorem contains_oldInfos {i deleted : Nat} {deletions : IndexSet} {prev : List (Option Nat)}
    (k : Nat) : (oldInfos i deleted deletions prev).2.contains k = true ↔
      deletions.contains k = true ∨ ∃ p, prev[p]? = some none ∧ k = i + p := by
  induction prev generalizing i deleted deletions with
  | nil => simp [oldInfos]
  | cons x prev ih =>
    have hplace : ∀ p, i + 1 + p = i + (p + 1) := by omega
    rw [exists_getElem?_cons]
    cases x with
    | none =>
      rw [oldInfos, ih, IndexSet.contains_add]
      simp only [hplace, Bool.or_eq_true, decide_eq_true_eq, true_and, Nat.add_zero]
      tauto
    | some row =>
      rw [oldInfos]
      dsimp only
      rw [ih]
      simp only [hplace, reduceCtorEq, false_and, false_or]

/-- A new row with the places of the old one. -/
def RowInfo.found (old new : RowInfo) : RowInfo :=
  { new with prevTvIndex := some old.tvIndex, shiftedTvIndex := old.shiftedTvIndex }

/-- The rows that are in both lists, the removed ones and the inserted ones. -/
structure Matching (olds news rows : List RowInfo) (removed insertions : Nat → Prop)
    (removed' insertions' : IndexSet) : Prop where
  places : rows.map RowInfo.tvIndex = news.map RowInfo.tvIndex
  rows : ∀ r, r ∈ rows ↔
    (∃ new ∈ news, ∃ old ∈ olds, old.rowIndex = new.rowIndex ∧ r = old.found new) ∨
    (r ∈ news ∧ ∀ old ∈ olds, old.rowIndex ≠ r.rowIndex)
  removed : ∀ k, removed'.contains k = true ↔ removed k ∨
    ∃ old ∈ olds, (∀ new ∈ news, old.rowIndex ≠ new.rowIndex) ∧ k = old.tvIndex
  insertions : ∀ k, insertions'.contains k = true ↔ insertions k ∨
    ∃ new ∈ news, (∀ old ∈ olds, old.rowIndex ≠ new.rowIndex) ∧ k = new.tvIndex

theorem contains_foldl_add {α : Type} (f : α → Nat) (l : List α) (s : IndexSet) (k : Nat) :
    (l.foldl (fun s x => s.add (f x)) s).contains k = true ↔
      s.contains k = true ∨ ∃ x ∈ l, k = f x := by
  rw [← List.foldl_map, IndexSet.contains_foldl_add, Bool.or_eq_true, decide_eq_true_eq,
    List.mem_map]
  exact or_congr_right (by simp only [eq_comm])

theorem matchRows_matching {olds news : List RowInfo} (removed insertions : IndexSet)
    (ho : olds.Pairwise fun l r => l.rowIndex < r.rowIndex)
    (hn : news.Pairwise fun l r => l.rowIndex < r.rowIndex) :
    Matching olds news (matchRows olds news removed insertions).1
      (fun k => removed.contains k = true) (fun k => insertions.contains k = true)
      (matchRows olds news removed insertions).2.1
      (matchRows olds news removed insertions).2.2 := by
  fun_induction matchRows with
  | case1 old olds new news removed insertions heq rows removed' insertions' hrec ih =>
    obtain ⟨ho', ho⟩ := List.pairwise_cons.mp ho
    obtain ⟨hn', hn⟩ := List.pairwise_cons.mp hn
    obtain ⟨hplaces, hrows, hrem, hins⟩ := ih ho hn
    rw [hrec] at hplaces hrows hrem hins
    dsimp only at hplaces hrows hrem hins ⊢
    rw [← RowInfo.found]
    have hfar : ∀ o ∈ olds, ¬ o.rowIndex = new.rowIndex := fun o h => by
      have := ho' o h
      omega
    have hfar' : ∀ n ∈ news, ¬ old.rowIndex = n.rowIndex := fun n h => by
      have := hn' n h
      omega
    refine ⟨congrArg (new.tvIndex :: ·) hplaces, fun r => ?_, fun k => ?_, fun k => ?_⟩
    · rw [List.mem_cons, hrows]
      simp only [List.mem_cons]
      grind
    · rw [hrem]
      simp only [List.exists_mem_cons_iff, List.forall_mem_cons]
      grind
    · rw [hins]
      simp only [List.exists_mem_cons_iff, List.forall_mem_cons]
      grind
  | case2 old olds new news removed insertions hne hlt ih =>
    obtain ⟨ho', ho⟩ := List.pairwise_cons.mp ho
    obtain ⟨hn', -⟩ := List.pairwise_cons.mp hn
    obtain ⟨hplaces, hrows, hrem, hins⟩ := ih ho hn
    -- the old row comes before every new one
    have hfar : ∀ n ∈ new :: news, ¬ old.rowIndex = n.rowIndex := fun n h => by
      rcases List.mem_cons.mp h with rfl | h
      · exact hne
      · have := hn' n h
        omega
    refine ⟨hplaces, fun r => ?_, fun k => ?_, fun k => ?_⟩
    · rw [hrows]
      simp only [List.exists_mem_cons_iff _ old, List.forall_mem_cons]
      grind
    · rw [hrem, IndexSet.contains_add]
      simp only [List.exists_mem_cons_iff _ old]
      grind
    · rw [hins]
      simp only [List.forall_mem_cons]
      grind
  | case3 old olds new news removed insertions hne hlt rows removed' insertions' hrec ih =>
    obtain ⟨ho', -⟩ := List.pairwise_cons.mp ho
    obtain ⟨hn', hn⟩ := List.pairwise_cons.mp hn
    obtain ⟨hplaces, hrows, hrem, hins⟩ := ih ho hn
    rw [hrec] at hplaces hrows hrem hins
    dsimp only at hplaces hrows hrem hins ⊢
    have hfar : ∀ o ∈ old :: olds, ¬ o.rowIndex = new.rowIndex := fun o h => by
      rcases List.mem_cons.mp h with rfl | h
      · exact hne
      · have := ho' o h
        omega
    refine ⟨by simp [hplaces], fun r => ?_, fun k => ?_, fun k => ?_⟩
    · rw [List.mem_cons, hrows]
      simp only [List.mem_cons]
      grind
    · rw [hrem]
      simp only [List.forall_mem_cons]
      grind
    · rw [hins, IndexSet.contains_add]
      simp only [List.exists_mem_cons_iff _ new]
      grind
  | case4 olds removed insertions =>
    refine ⟨rfl, by simp, fun k => ?_, by simp⟩
    rw [contains_foldl_add]
    simp
  | case5 news removed insertions hne =>
    refine ⟨rfl, by simp, by simp, fun k => ?_⟩
    rw [contains_foldl_add]
    simp

/-! ## Both lists together -/

/-- Items with different keys are in order once they are sorted by them, whatever comes next. -/
theorem pairwise_mergeSort {α : Type} {key : α → Nat} {le : α → α → Bool} {l : List α}
    (h : (l.map key).Nodup) (htrans : ∀ x y z, le x y → le y z → le x z)
    (htotal : ∀ x y, le x y || le y x) (hle : ∀ x y, le x y → key x ≤ key y) :
    (l.mergeSort le).Pairwise fun x y => key x < key y := by
  have hnodup := ((l.mergeSort_perm le).map key).nodup_iff.mpr h
  refine ((List.pairwise_mergeSort htrans htotal l).and (List.pairwise_map.mp hnodup)).imp
    fun {x y} hboth => ?_
  have := hle x y hboth.1
  omega

theorem pairwise_mergeSort_key {α : Type} {key : α → Nat} {l : List α} (h : (l.map key).Nodup) :
    (l.mergeSort fun x y => key x ≤ key y).Pairwise fun x y => key x < key y := by
  refine pairwise_mergeSort h (fun x y z => ?_) (fun x y => ?_) fun x y => ?_ <;>
    simp only [Bool.or_eq_true, decide_eq_true_eq] <;> omega

theorem map_rowIndex_oldInfos (i deleted : Nat) (deletions : IndexSet) (prev : List (Option Nat)) :
    (oldInfos i deleted deletions prev).1.map RowInfo.rowIndex = prev.filterMap id := by
  induction prev generalizing i deleted deletions with
  | nil => rfl
  | cons x prev ih =>
    cases x with
    | none => exact ih _ _ _
    | some row => exact congrArg (row :: ·) (ih _ _ _)

theorem mem_newInfos {next : List Nat} {r : RowInfo} : r ∈ newInfos next ↔
    ∃ t row, next[t]? = some row ∧ r = ⟨row, none, t, 0⟩ := by
  rw [newInfos, List.mem_mapIdx]
  constructor
  · rintro ⟨t, ht, rfl⟩
    exact ⟨t, next[t], List.getElem?_eq_getElem ht, rfl⟩
  · rintro ⟨t, row, ht, rfl⟩
    obtain ⟨hlt, rfl⟩ := List.getElem?_eq_some_iff.mp ht
    exact ⟨t, hlt, rfl⟩

theorem map_rowIndex_newInfos (next : List Nat) :
    (newInfos next).map RowInfo.rowIndex = next := by
  refine List.ext_getElem? fun t => ?_
  simp [newInfos, Function.comp_def]

theorem map_tvIndex_newInfos (next : List Nat) :
    (newInfos next).map RowInfo.tvIndex = List.range next.length := by
  refine List.ext_getElem? fun t => ?_
  rcases Nat.lt_or_ge t next.length with ht | ht <;> simp [newInfos, ht]

/-- A row of both lists. -/
structure Stays (prev : List (Option Nat)) (next : List Nat) (r : RowInfo) : Prop where
  old : prev[r.prev]? = some (some r.rowIndex)
  new : next[r.tvIndex]? = some r.rowIndex
  has : r.prevTvIndex.isSome
  shifted : r.shiftedTvIndex = unshift (gone prev) r.prev

/-- What is known of the rows of both lists. -/
structure Both (prev : List (Option Nat)) (next : List Nat) (rows : List RowInfo)
    (deletions removed insertions : IndexSet) : Prop where
  sorted : rows.Pairwise fun l r => l.tvIndex < r.tvIndex
  rows : ∀ r, r ∈ rows ↔ Stays prev next r
  deletions : deletions.contains = gone prev
  removed : ∀ p, removed.contains p = true ↔ ∃ row, prev[p]? = some (some row) ∧ row ∉ next
  insertions : ∀ t, insertions.contains t = true ↔ ∃ row, next[t]? = some row ∧ some row ∉ prev

theorem rowsOfBoth_spec {prev : List (Option Nat)} {next : List Nat}
    (hprev : (prev.filterMap id).Nodup) (hnext : next.Nodup) :
    Both prev next (rowsOfBoth prev next).1 (rowsOfBoth prev next).2.1
      (rowsOfBoth prev next).2.2.1 (rowsOfBoth prev next).2.2.2 := by
  rw [← map_rowIndex_oldInfos 0 0 .empty] at hprev
  rw [← map_rowIndex_newInfos next] at hnext
  have hold : ∀ r, r ∈ (oldInfos 0 0 .empty prev).1.mergeSort
      (fun lft rgt => lft.rowIndex ≤ rgt.rowIndex) ↔ ∃ row p, prev[p]? = some (some row) ∧
        r = ⟨row, none, p, unshift (gone prev) p⟩ := fun r => by
    rw [List.mem_mergeSort, mem_oldInfos (Nat.le_refl 0)]
    simp only [Nat.zero_add, Nat.sub_zero]
  have hnew : ∀ r, r ∈ (newInfos next).mergeSort
      (fun lft rgt => lft.rowIndex ≤ rgt.rowIndex) ↔ ∃ t row, next[t]? = some row ∧
        r = ⟨row, none, t, 0⟩ := fun r => by
    rw [List.mem_mergeSort, mem_newInfos]
  obtain ⟨hplaces, hrows, hrem, hins⟩ := matchRows_matching .empty .empty
    (pairwise_mergeSort_key hprev) (pairwise_mergeSort_key hnext)
  rw [rowsOfBoth]
  dsimp only at *
  refine ⟨?_, fun r => ?_, ?_, fun p => ?_, fun t => ?_⟩
  · refine pairwise_mergeSort_key ?_
    refine ((List.filter_sublist).map _).nodup ?_
    rw [hplaces]
    refine (((newInfos next).mergeSort_perm _).map _).nodup_iff.mpr ?_
    rw [map_tvIndex_newInfos]
    exact List.nodup_range
  · rw [List.mem_mergeSort, List.mem_filter, hrows]
    simp only [hold, hnew]
    constructor
    · rintro ⟨⟨new, ⟨t, row, ht, rfl⟩, old, ⟨row', p, hp, rfl⟩, heq, rfl⟩ |
        ⟨⟨t, row, ht, rfl⟩, -⟩, hhas⟩
      · dsimp only at heq
        exact ⟨by rw [heq] at hp; exact hp, ht, rfl, rfl⟩
      · cases hhas
    · rintro ⟨hp, ht, hhas, hshift⟩
      obtain ⟨row, prevTv, t, shifted⟩ := r
      obtain ⟨p, rfl⟩ := Option.isSome_iff_exists.mp hhas
      obtain rfl : shifted = unshift (gone prev) p := hshift
      exact ⟨Or.inl ⟨_, ⟨t, row, ht, rfl⟩, _, ⟨row, p, hp, rfl⟩, rfl, rfl⟩, rfl⟩
  · funext p
    rw [Bool.eq_iff_iff, contains_oldInfos]
    simp [gone, IndexSet.contains_empty]
  · rw [hrem]
    simp only [hold, hnew, IndexSet.contains_empty]
    constructor
    · rintro (h | ⟨old, ⟨row, q, hq, rfl⟩, hnone, rfl⟩)
      · cases h
      · refine ⟨row, hq, fun hmem => ?_⟩
        obtain ⟨t, ht⟩ := List.getElem?_of_mem hmem
        exact hnone _ ⟨t, row, ht, rfl⟩ rfl
    · rintro ⟨row, hp, hnone⟩
      refine Or.inr ⟨_, ⟨row, p, hp, rfl⟩, ?_, rfl⟩
      rintro new ⟨t, row', ht, rfl⟩ heq
      dsimp only at heq
      exact hnone (heq ▸ List.mem_of_getElem? ht)
  · rw [hins]
    simp only [hold, hnew, IndexSet.contains_empty]
    constructor
    · rintro (h | ⟨new, ⟨t, row, ht, rfl⟩, hnone, rfl⟩)
      · cases h
      · refine ⟨row, ht, fun hmem => ?_⟩
        obtain ⟨p, hp⟩ := List.getElem?_of_mem hmem
        exact hnone _ ⟨row, p, hp, rfl⟩ rfl
    · rintro ⟨row, ht, hnone⟩
      refine Or.inr ⟨_, ⟨t, row, ht, rfl⟩, ?_, rfl⟩
      rintro old ⟨row', p, hp, rfl⟩ heq
      dsimp only at heq
      exact hnone (heq ▸ List.mem_of_getElem? hp)

end CalculatedChanges
