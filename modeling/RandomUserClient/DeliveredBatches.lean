import RandomUserClient.CollectionNotifier
import RandomUserClient.ListBatches

/-!
# Change sets as batch updates

The binding hands a change set on as arrays of positions, and a table view that
shows the collection is updated with them. The arrays always fit the table: it
has the rows of the new collection afterwards, and a cell is kept for each row
that was left alone and not modified. Without moves they are the difference of
the two collections.
-/

namespace DeliveredBatches

open IndexSets ListEdits CollectionChangeBuilders CollectionChangeBuilder CollectionNotifiers
  ListBatches

/-! ## The arrays -/

/-- The arrays of an `RLMCollectionChange`. -/
def batchOf (changes : CollectionChangeSet) : Batch where
  deletions := changes.deletions.asIndexes
  insertions := changes.insertions.asIndexes
  modifications := changes.modifications.asIndexes

inductive RealmCollectionChange where
  | initial
  | update (batch : Batch)
  deriving DecidableEq

/-- What the block of `RLMAddNotificationBlock` calls the observer with, and its `skip` then. -/
def notificationBlock (skip : Bool) (changes : CollectionChangeSet) :
    RealmCollectionChange × Bool :=
  if skip then (.initial, false)
  else if isEmptyChangeSet changes then (.initial, skip)
  else (.update (batchOf changes), skip)

variable {α β : Type}

/-- A table has a row for each item, and its cells are those of their items. -/
structure Shows (rows : List (Option α)) (l : List α) : Prop where
  length : rows.length = l.length
  cells : ∀ (j : Nat) x, rows[j]? = some (some x) → l[j]? = some x

theorem shows_replicate (l : List α) : Shows (List.replicate l.length none) l := by
  refine ⟨List.length_replicate, fun j x hj => ?_⟩
  rw [List.getElem?_replicate] at hj
  split at hj <;> simp at hj

/-! ## What a batch does to the rows -/

theorem filter_zipIdx (positions : List Nat) (k : Nat) (rows : List (Option β)) :
    ((rows.zipIdx k).filter fun row => row.2 ∉ positions).map (·.1) =
      removeAt (fun i => decide (k + i ∈ positions)) rows := by
  induction rows generalizing k with
  | nil => rfl
  | cons row rows ih =>
    have hnext : (fun i => decide (k + (i + 1) ∈ positions)) =
        fun i => decide (k + 1 + i ∈ positions) := by
      funext i
      rw [Nat.add_comm i 1, Nat.add_assoc]
    rw [List.zipIdx_cons, removeAt_cons, hnext, ← ih, Nat.add_zero, List.filter_cons]
    by_cases hk : k ∈ positions <;> simp [hk]

theorem deleteRows_eq (positions : List Nat) (rows : List (Option β)) :
    deleteRows positions rows = removeAt (fun i => decide (i ∈ positions)) rows := by
  have h := filter_zipIdx positions 0 rows
  simp only [Nat.zero_add] at h
  exact h

theorem getElem?_reloadRows (positions : List Nat) (rows : List (Option β)) (i : Nat) :
    ((reloadRows positions rows)[i]?).join =
      if i ∈ positions then none else (rows[i]?).join := by
  rw [reloadRows, List.getElem?_mapIdx]
  cases rows[i]? with
  | none => simp
  | some row => split <;> simp_all

/-- The rows that are put in are fresh, and the others are the old ones in their order. -/
theorem getElem?_insertRows (positions : List Nat) (i : Nat) {n j : Nat} (hj : j < n)
    (rows : List (Option β)) : (insertRows positions i n rows)[j]? =
      some (if i + j ∈ positions then none
        else (rows[unshift (fun k => decide (i + k ∈ positions)) j]?).join) := by
  induction n generalizing i j rows with
  | zero => cases hj
  | succ n ih =>
    cases j with
    | zero =>
      have hplace : i + 0 = i := rfl
      rw [insertRows, unshift_zero, hplace]
      by_cases hi : i ∈ positions
      · rw [if_pos hi, if_pos hi]
        rfl
      · rw [if_neg hi, if_neg hi]
        cases rows <;> rfl
    | succ j =>
      have hnext : (fun k => decide (i + (k + 1) ∈ positions)) =
          fun k => decide (i + 1 + k ∈ positions) := by
        funext k
        rw [Nat.add_comm k 1, Nat.add_assoc]
      have hplace : i + (j + 1) = i + 1 + j := by omega
      rw [insertRows, unshift_succ', hnext, hplace, Nat.add_zero]
      by_cases hi : i ∈ positions
      · rw [if_pos hi, List.getElem?_cons_succ, ih (i + 1) (by omega)]
        simp [hi]
      · rw [if_neg hi, List.getElem?_cons_succ, ih (i + 1) (by omega)]
        simp [hi]

variable {b : CollectionChangeBuilder}

theorem decide_mem_asIndexes (s : IndexSet) : (fun i => decide (i ∈ s.asIndexes)) = s.contains := by
  funext i
  simp

theorem keeps_of_not_inserted {j : Nat} (h : b.insertions.contains j = false) :
    ∃ i, b.Keeps i j :=
  ⟨_, (tracks_shift_iff b _ j).mpr ⟨h, rfl⟩⟩

/-- A row that has been left alone has its cell, unless it has been modified. -/
theorem getElem?_apply_of_keeps {i j n : Nat} (h : b.Keeps i j) (hj : j < n)
    (rows : List (Option β)) : ((batchOf b.finalize).apply n rows)[j]? =
      some (if b.modifications.contains j then none else (rows[i]?).join) := by
  have hmodified : i ∈ b.finalize.modifications.asIndexes ↔
      b.modifications.contains j = true := by
    rw [IndexSet.mem_asIndexes, contains_modificationsOld]
    constructor
    · rintro ⟨j', ht, hmod⟩
      rwa [← unshift_inj ht.2.1 h.2.1 (ht.2.2.symm.trans h.2.2)]
    · intro hmod
      exact ⟨j, h, hmod⟩
  have hj' : ¬ j ∈ b.finalize.insertions.asIndexes := by
    rw [IndexSet.mem_asIndexes, Bool.not_eq_true]
    exact h.2.1
  rw [Batch.apply, getElem?_insertRows _ _ hj, deleteRows_eq, batchOf]
  dsimp only
  simp only [Nat.zero_add, if_neg hj', decide_mem_asIndexes]
  rw [finalize, ← h.2.2, getElem?_removeAt h.1, ← finalize, getElem?_reloadRows]
  simp only [hmodified]

theorem getElem?_apply_of_inserted {j n : Nat} (h : b.insertions.contains j = true) (hj : j < n)
    (rows : List (Option β)) : ((batchOf b.finalize).apply n rows)[j]? = some none := by
  have hj' : j ∈ b.finalize.insertions.asIndexes := IndexSet.mem_asIndexes.mpr h
  rw [Batch.apply, getElem?_insertRows _ _ hj, batchOf]
  dsimp only
  rw [Nat.zero_add, if_pos hj']

/-! ## The batch of a change set -/

variable {s : Span α}

/-- Which cells of a table are kept. -/
theorem Exact.cell_iff (h : Exact s b) {rows : List (Option α)} (hrows : Shows rows s.first)
    {j : Nat} {x : α} :
    ((batchOf b.finalize).apply s.last.length rows)[j]? = some (some x) ↔
      ∃ i, b.Keeps i j ∧ rows[i]? = some (some x) ∧ ¬ s.touched x := by
  have hmodified : ∀ {i}, b.Keeps i j → rows[i]? = some (some x) →
      (b.modifications.contains j = true ↔ s.touched x) := fun hij hx =>
    h.modified _ j x (hrows.cells _ x hx) (Or.inl hij)
  constructor
  · intro hj
    have hlt : j < s.last.length := by
      obtain ⟨hlt, -⟩ := List.getElem?_eq_some_iff.mp hj
      rwa [length_apply] at hlt
    cases hins : b.insertions.contains j with
    | true =>
      rw [getElem?_apply_of_inserted hins hlt] at hj
      cases hj
    | false =>
      obtain ⟨i, hij⟩ := keeps_of_not_inserted hins
      rw [getElem?_apply_of_keeps hij hlt, Option.some.injEq] at hj
      split at hj
      · cases hj
      · rename_i hmod
        have hx := Option.join_eq_some_iff.mp hj
        exact ⟨i, hij, hx, fun ht => hmod ((hmodified hij hx).mpr ht)⟩
  · rintro ⟨i, hij, hx, htouched⟩
    have hlast := h.carries i j (Or.inl hij)
    rw [hrows.cells i x hx] at hlast
    rw [getElem?_apply_of_keeps hij (List.getElem?_eq_some_iff.mp hlast).1, hx,
      if_neg fun hmod => htouched ((hmodified hij hx).mp hmod)]
    rfl

theorem Exact.shows (h : Exact s b) {rows : List (Option α)} (hrows : Shows rows s.first) :
    Shows ((batchOf b.finalize).apply s.last.length rows) s.last := by
  refine ⟨length_apply _ _ _, fun j x hj => ?_⟩
  obtain ⟨i, hij, hx, -⟩ := (Exact.cell_iff h hrows).mp hj
  rw [h.carries i j (Or.inl hij)]
  exact hrows.cells i x hx

/-! ## The difference of two lists -/

/-- An item of both lists has been left alone, if the items are in order and nothing is moved. -/
theorem Exact.keeps (h : Exact s b) (hordered : s.ordered) (hmoves : b.moves = [])
    (hmids : ∀ x ∈ s.first, x ∈ s.last → ∀ m ∈ s.mids, x ∈ m) {i j : Nat} {x : α}
    (hi : s.first[i]? = some x) (hj : s.last[j]? = some x) : b.Keeps i j := by
  have hfollows := h.kept hordered i j x hi hj
    (hmids x (List.mem_of_getElem? hi) (List.mem_of_getElem? hj))
  rcases hfollows with ht | hm
  · exact ht
  · rw [hmoves] at hm
    cases hm

end DeliveredBatches
