import RandomUserClient.CollectionChangeBuilder

/-!
# The changes of the rows of a table

While a transaction log is read, the change set of a table is kept up to date
with each instruction. Rows are added at the end, the last row takes the place
of one that is deleted, and two rows may change places. `move_mapping` has the
old row for each row that was moved, so that a row that moves twice has moved
once in the end.
-/

namespace CollectionChangeBuilders

open IndexSets ListEdits CollectionChangeBuilder

/-- `std::numeric_limits<size_t>::max()` -/
def npos : Nat := 2 ^ 64 - 1

namespace CollectionChangeBuilder

/-- The rows of `move_mapping` from `index` on, in their new places. -/
def shiftMapping (mapping : AList fun _ : Nat => Nat) (index count : Nat) :
    AList fun _ : Nat => Nat :=
  let shifted := mapping.entries.filter fun it => index ≤ it.1
  let kept := shifted.foldl (fun m it => m.erase it.1) mapping
  shifted.foldl (fun m it => m.insert (it.1 + count) it.2) kept

def insert (b : CollectionChangeBuilder) (index count : Nat) (trackMoves : Bool) (h : 0 < count) :
    CollectionChangeBuilder :=
  let b := { b with modifications := b.modifications.shiftForInsertAt index count h }
  if !trackMoves then b
  else { b with
    insertions := b.insertions.insertAt index count
    moves := b.moves.map fun m => if index ≤ m.toIndex then ⟨m.fromIndex, m.toIndex + count⟩ else m
    moveMapping := shiftMapping b.moveMapping index count }

def modify (b : CollectionChangeBuilder) (ndx : Nat) : CollectionChangeBuilder :=
  { b with modifications := b.modifications.add ndx }

/-- Without a size the whole of the old collection has been deleted. -/
def clear (b : CollectionChangeBuilder) (oldSize : Nat) : CollectionChangeBuilder :=
  let oldSize := if oldSize ≠ npos
    then oldSize + b.deletions.size - b.insertions.size else oldSize
  { empty with deletions := .set oldSize }

/-- The modification of the last row moves with it. -/
def moveModification (col : IndexSet) (rowNdx lastRow : Nat) : IndexSet :=
  if col.contains lastRow then (col.remove lastRow 1 Nat.one_pos).add rowNdx
  else col.remove rowNdx 1 Nat.one_pos

/-- `add_shifted` of a row that `insertions` has not moved. -/
def deleteRow (b : CollectionChangeBuilder) (ndx : Nat) : Nat × CollectionChangeBuilder :=
  let (shifted, deletions) := b.deletions.addShifted (b.insertions.unshift ndx)
  (shifted, { b with deletions := deletions })

/-- The last row is deleted. -/
def eraseLast (b : CollectionChangeBuilder) (rowNdx : Nat) : CollectionChangeBuilder :=
  let (shiftedFrom, insertions) := b.insertions.eraseOrUnshift rowNdx
  let deletions := match shiftedFrom with
    | some shiftedFrom => (b.deletions.addShifted shiftedFrom).2
    | none => b.deletions
  { b with
    insertions := insertions
    deletions := deletions
    moveMapping := b.moveMapping.erase rowNdx }

/-- The last row goes where another one was; what is known of it goes there as well. -/
def moveLast (b : CollectionChangeBuilder) (rowNdx lastRow : Nat) : CollectionChangeBuilder :=
  let rowIsInsertion := b.insertions.contains rowNdx
  let lastIsInsertion := b.insertions.endsAt (lastRow + 1)
  -- collapse A -> B, B -> C into a single A -> C move
  let it := if lastIsInsertion then b.moveMapping.lookup lastRow else none
  let b := match it with
    | some old =>
      { b with moveMapping := (b.moveMapping.insert rowNdx old).erase lastRow }
    | none =>
      -- remove moves to the row being deleted
      if rowIsInsertion then { b with moveMapping := b.moveMapping.erase rowNdx } else b
  let b :=
    -- don't report deletions/moves if the last row is newly inserted
    if lastIsInsertion then { b with insertions := b.insertions.remove lastRow 1 Nat.one_pos }
    else
      let (shifted, b) := b.deleteRow lastRow
      { b with moveMapping := b.moveMapping.insert rowNdx shifted }
  -- don't mark the moved-over row as deleted if it was a new insertion
  if rowIsInsertion then b
  else
    let b := (b.deleteRow rowNdx).2
    { b with insertions := b.insertions.add rowNdx }

def moveOver (b : CollectionChangeBuilder) (rowNdx lastRow : Nat) (trackMoves : Bool) :
    CollectionChangeBuilder :=
  if rowNdx = lastRow then
    let b := if trackMoves then b.eraseLast rowNdx else b
    { b with modifications := b.modifications.remove rowNdx 1 Nat.one_pos }
  else
    let b := { b with modifications := moveModification b.modifications rowNdx lastRow }
    if trackMoves then b.moveLast rowNdx lastRow else b

/-- One modified row of two has become the other. -/
def swapModification (col : IndexSet) (ndx₁ ndx₂ : Nat) : IndexSet :=
  if col.contains ndx₁ ≠ col.contains ndx₂ then
    if col.contains ndx₁ then (col.remove ndx₁ 1 Nat.one_pos).add ndx₂
    else (col.remove ndx₂ 1 Nat.one_pos).add ndx₁
  else col

/-- A row that is no insertion is moved to another. -/
def moveKept (b : CollectionChangeBuilder) (ndx target : Nat) : CollectionChangeBuilder :=
  if b.insertions.contains ndx then b
  else
    let (shifted, b) := b.deleteRow ndx
    { b with
      moveMapping := b.moveMapping.insert target shifted
      insertions := b.insertions.add ndx }

/-- The existing move to `ndx₂` points at `ndx₁` now, and the row that was there is moved to
`ndx₂`. -/
def updateMoveMapping (b : CollectionChangeBuilder) (original ndx₁ ndx₂ : Nat) :
    CollectionChangeBuilder :=
  moveKept { b with moveMapping := (b.moveMapping.erase ndx₂).insert ndx₁ original } ndx₁ ndx₂

/-- The moves of `swap`, for `ndx₁ < ndx₂`. -/
def swapMoves (b : CollectionChangeBuilder) (ndx₁ ndx₂ : Nat) : CollectionChangeBuilder :=
  match b.moveMapping.lookup ndx₁, b.moveMapping.lookup ndx₂ with
  | some old₁, some old₂ =>
    { b with moveMapping := (b.moveMapping.insert ndx₁ old₂).insert ndx₂ old₁ }
  | some old₁, none => b.updateMoveMapping old₁ ndx₂ ndx₁
  | none, some old₂ => b.updateMoveMapping old₂ ndx₁ ndx₂
  -- the second row needs to be done before the first to avoid incorrect shifting
  | none, none => (b.moveKept ndx₂ ndx₁).moveKept ndx₁ ndx₂

def swap (b : CollectionChangeBuilder) (ndx₁ ndx₂ : Nat) (trackMoves : Bool) :
    CollectionChangeBuilder :=
  let (ndx₁, ndx₂) := if ndx₂ < ndx₁ then (ndx₂, ndx₁) else (ndx₁, ndx₂)
  let b := { b with modifications := swapModification b.modifications ndx₁ ndx₂ }
  if trackMoves then b.swapMoves ndx₁ ndx₂ else b

/-- One entry of `move_mapping`: a row that is back in its place has not moved. -/
def completeMove (b : CollectionChangeBuilder) (it : (_ : Nat) × Nat) : CollectionChangeBuilder :=
  if it.1 = it.2 then { b with
    deletions := b.deletions.remove it.2 1 Nat.one_pos
    insertions := b.insertions.remove it.1 1 Nat.one_pos }
  else { b with moves := b.moves ++ [⟨it.2, it.1⟩] }

def parseComplete (b : CollectionChangeBuilder) : CollectionChangeBuilder :=
  let b := b.moveMapping.entries.foldl completeMove b
  { b with
    moves := b.moves.mergeSort fun l r => l.fromIndex ≤ r.fromIndex
    moveMapping := ∅ }

end CollectionChangeBuilder

/-! ## The rows -/

/-- A row of a table: the old row it is, unless it is new, and whether it has been modified. -/
structure TableRow where
  origin : Option Nat
  modified : Bool
  deriving DecidableEq, Repr

def originAt (rows : List TableRow) (j : Nat) : Option Nat := rows[j]?.bind TableRow.origin

def modifiedAt (rows : List TableRow) (j : Nat) : Bool :=
  (rows[j]?.map TableRow.modified).getD false

/-- Two rows change places. -/
def swapRows (rows : List TableRow) (i j : Nat) : List TableRow :=
  match rows[i]?, rows[j]? with
  | some r, some s => (rows.set i s).set j r
  | _, _ => rows

/-- The rows of a table of `n` rows before any change. -/
def oldRows (n : Nat) : List TableRow := (List.range n).map fun i => ⟨some i, false⟩

theorem originAt_oldRows (n j : Nat) :
    originAt (oldRows n) j = if j < n then some j else none := by
  rw [originAt, oldRows, List.getElem?_map]
  by_cases h : j < n
  · rw [List.getElem?_range h, if_pos h]
    rfl
  · rw [List.getElem?_eq_none (by simpa using h), if_neg h]
    rfl

theorem modifiedAt_oldRows (n j : Nat) : modifiedAt (oldRows n) j = false := by
  rw [modifiedAt, oldRows, List.getElem?_map, Option.map_map]
  cases (List.range n)[j]? <;> rfl

theorem getElem?_swapRows {rows : List TableRow} {i j : Nat} (hi : i < rows.length)
    (hj : j < rows.length) (k : Nat) : (swapRows rows i j)[k]? =
      if k = j then rows[i]? else if k = i then rows[j]? else rows[k]? := by
  rw [swapRows, List.getElem?_eq_getElem hi, List.getElem?_eq_getElem hj]
  dsimp only
  grind

theorem length_swapRows (rows : List TableRow) (i j : Nat) :
    (swapRows rows i j).length = rows.length := by
  rw [swapRows]
  split <;> simp

/-- The change set knows where each old row is. -/
structure Traced (n : Nat) (rows : List TableRow) (b : CollectionChangeBuilder) : Prop where
  origins : ∀ i j k, originAt rows j = some i → originAt rows k = some i → j = k
  old : ∀ i j, originAt rows j = some i → i < n
  inserted : ∀ j, b.insertions.contains j = true → j < rows.length
  kept : ∀ j < rows.length, b.insertions.contains j = false →
    originAt rows j = some j ∧ b.deletions.contains j = false
  deleted : ∀ i < n, b.deletions.contains i = false →
    i < rows.length ∧ b.insertions.contains i = false
  mapping : ∀ j i, b.moveMapping.lookup j = some i ↔
    b.insertions.contains j = true ∧ originAt rows j = some i
  moves : b.moves = []

/-- The change set knows which rows have been modified. -/
def Marked (rows : List TableRow) (modifications : IndexSet) : Prop :=
  ∀ j, modifications.contains j = modifiedAt rows j

theorem lt_length_of_originAt {rows : List TableRow} {i j : Nat} (h : originAt rows j = some i) :
    j < rows.length := by
  by_contra hge
  rw [originAt, List.getElem?_eq_none (Nat.le_of_not_lt hge)] at h
  cases h

theorem Traced.agree {n : Nat} {rows : List TableRow} {b : CollectionChangeBuilder}
    (h : Traced n rows b) {i : Nat} (hn : i < n) (hi : i < rows.length) :
    b.deletions.contains i = b.insertions.contains i := by
  cases hins : b.insertions.contains i with
  | true =>
    by_contra hne
    have := (h.deleted i hn (Bool.eq_false_of_not_eq_true hne)).2
    rw [hins] at this
    cases this
  | false => exact (h.kept i hi hins).2

theorem Traced.withModifications {n : Nat} {rows : List TableRow} {b : CollectionChangeBuilder}
    (h : Traced n rows b) (modifications : IndexSet) :
    Traced n rows { b with modifications := modifications } :=
  ⟨h.origins, h.old, h.inserted, h.kept, h.deleted, h.mapping, h.moves⟩

theorem Traced.lookup_none {n : Nat} {rows : List TableRow} {b : CollectionChangeBuilder}
    (h : Traced n rows b) {k : Nat} (hk : b.insertions.contains k = false) :
    b.moveMapping.lookup k = none := by
  rcases hl : b.moveMapping.lookup k with _ | i
  · rfl
  · rw [((h.mapping k i).mp hl).1] at hk
    cases hk

/-- `move_mapping` has the old row of an inserted one, and every other row is its own. -/
theorem Traced.originAt_eq {n : Nat} {rows : List TableRow} {b : CollectionChangeBuilder}
    (h : Traced n rows b) {k : Nat} (hk : k < rows.length) :
    originAt rows k = if b.insertions.contains k then b.moveMapping.lookup k else some k := by
  split
  · rename_i hins
    refine Option.ext fun i => ?_
    rw [h.mapping, hins]
    simp
  · rename_i hins
    exact (h.kept k hk (Bool.eq_false_of_not_eq_true hins)).1

namespace CollectionChangeBuilder

/-- A row in its old place is deleted under its own number. -/
theorem deleteRow_eq {b : CollectionChangeBuilder} {ndx : Nat}
    (hagree : ∀ i < ndx, b.deletions.contains i = b.insertions.contains i)
    (hkept : b.deletions.contains ndx = false) :
    b.deleteRow ndx = (ndx, { b with deletions := b.deletions.add ndx }) := by
  have hrow : b.deletions.shift (b.insertions.unshift ndx) = ndx := by
    rw [IndexSet.shift_eq, IndexSet.unshift_eq, ← unshift_congr hagree, shift_unshift hkept]
  rw [deleteRow, IndexSet.addShifted, hrow]

/-- What a step has done to the rows `ndx` and `target`: the row `source` is at `target` now. -/
structure Relocated (b c : CollectionChangeBuilder) (deletions insertions : Nat → Bool)
    (mapping : Nat → Option Nat) : Prop where
  deletions : ∀ k, c.deletions.contains k = (b.deletions.contains k || deletions k)
  insertions : ∀ k, c.insertions.contains k = insertions k
  mapping : ∀ k, c.moveMapping.lookup k = mapping k
  modifications : c.modifications = b.modifications
  moves : c.moves = b.moves

theorem lookup_erase_eq (m : AList fun _ : Nat => Nat) (a k : Nat) :
    (m.erase a).lookup k = if k = a then none else m.lookup k := by
  split
  · rename_i h
    rw [h, AList.lookup_erase]
  · rename_i h
    exact AList.lookup_erase_ne h

theorem lookup_insert_eq (m : AList fun _ : Nat => Nat) (a v k : Nat) :
    (m.insert a v).lookup k = if k = a then some v else m.lookup k := by
  split
  · rename_i h
    rw [h, AList.lookup_insert]
  · rename_i h
    exact AList.lookup_insert_ne h

/-- A row that is no insertion is deleted under its own number, also when rows behind it have been
dealt with. -/
theorem deleteRow_kept {n : Nat} {rows : List TableRow} {b c : CollectionChangeBuilder}
    (h : Traced n rows b) {ndx : Nat} (hlt : ndx < rows.length)
    (hins : b.insertions.contains ndx = false)
    (hdel : ∀ i ≤ ndx, c.deletions.contains i = b.deletions.contains i)
    (hsame : ∀ i ≤ ndx, c.insertions.contains i = b.insertions.contains i) :
    c.deleteRow ndx = (ndx, { c with deletions := c.deletions.add ndx }) := by
  obtain ⟨horigin, hkept⟩ := h.kept ndx hlt hins
  have hn := h.old ndx ndx horigin
  refine deleteRow_eq (fun i hi => ?_) ((hdel ndx (Nat.le_refl ndx)).trans hkept)
  rw [hdel i (Nat.le_of_lt hi), hsame i (Nat.le_of_lt hi)]
  exact h.agree (Nat.lt_trans hi hn) (Nat.lt_trans hi hlt)

theorem moveLast_relocated {n : Nat} {rows : List TableRow} {b : CollectionChangeBuilder}
    (h : Traced n rows b) {rowNdx lastRow : Nat} (hlen : rows.length = lastRow + 1)
    (hlt : rowNdx < lastRow) :
    Relocated b (b.moveLast rowNdx lastRow)
      (fun k => (decide (k = lastRow) && !b.insertions.contains lastRow) ||
        (decide (k = rowNdx) && !b.insertions.contains rowNdx))
      (fun k => (b.insertions.contains k && !decide (k = lastRow)) || decide (k = rowNdx))
      (fun k => if k = rowNdx then originAt rows lastRow else if k = lastRow then none
        else b.moveMapping.lookup k) := by
  have hends : b.insertions.endsAt (lastRow + 1) = b.insertions.contains lastRow :=
    IndexSet.endsAt_eq fun k hk => by
      have := h.inserted k hk
      omega
  have hlast := h.originAt_eq (by omega : lastRow < rows.length)
  have hnone := fun {k} => h.lookup_none (k := k)
  have hne : ¬ lastRow = rowNdx := by omega
  have hadd := IndexSet.contains_add
  have hremove := IndexSet.contains_remove
  have herase := lookup_erase_eq
  have hinsert := lookup_insert_eq
  rw [moveLast, hends]
  dsimp only
  cases hL : b.insertions.contains lastRow with
  | true =>
    rw [hL, if_pos rfl] at hlast
    simp only [if_true, Bool.not_true, Bool.and_false, Bool.false_or]
    cases hit : b.moveMapping.lookup lastRow with
    | none =>
      cases hR : b.insertions.contains rowNdx with
      | true =>
        simp only [if_true]
        refine ⟨fun k => ?_, fun k => ?_, fun k => ?_, rfl, rfl⟩ <;> grind
      | false =>
        simp only [if_false, Bool.false_eq_true]
        rw [deleteRow_kept h (by omega) hR]
        · refine ⟨fun k => ?_, fun k => ?_, fun k => ?_, rfl, rfl⟩ <;> grind
        · exact fun _ _ => rfl
        · grind
    | some old =>
      cases hR : b.insertions.contains rowNdx with
      | true =>
        simp only [if_true]
        refine ⟨fun k => ?_, fun k => ?_, fun k => ?_, rfl, rfl⟩ <;> grind
      | false =>
        simp only [if_false, Bool.false_eq_true]
        rw [deleteRow_kept h (by omega) hR]
        · refine ⟨fun k => ?_, fun k => ?_, fun k => ?_, rfl, rfl⟩ <;> grind
        · exact fun _ _ => rfl
        · grind
  | false =>
    rw [hL, if_neg Bool.false_ne_true] at hlast
    simp only [if_false, Bool.false_eq_true]
    cases hR : b.insertions.contains rowNdx with
    | true =>
      simp only [if_true]
      rw [deleteRow_kept h (by omega) hL]
      · refine ⟨fun k => ?_, fun k => ?_, fun k => ?_, rfl, rfl⟩ <;> grind
      · exact fun _ _ => rfl
      · exact fun _ _ => rfl
    | false =>
      simp only [if_false, Bool.false_eq_true]
      rw [deleteRow_kept h (by omega) hL]
      · dsimp only
        rw [deleteRow_kept h (by omega) hR]
        · refine ⟨fun k => ?_, fun k => ?_, fun k => ?_, rfl, rfl⟩ <;> grind
        · grind
        · exact fun _ _ => rfl
      · exact fun _ _ => rfl
      · exact fun _ _ => rfl

theorem eraseLast_relocated {n : Nat} {rows : List TableRow} {b : CollectionChangeBuilder}
    (h : Traced n rows b) {lastRow : Nat} (hlen : rows.length = lastRow + 1) :
    Relocated b (b.eraseLast lastRow)
      (fun k => decide (k = lastRow) && !b.insertions.contains lastRow)
      (fun k => b.insertions.contains k && !decide (k = lastRow))
      (fun k => if k = lastRow then none else b.moveMapping.lookup k) := by
  have hgone : ∀ k, (b.insertions.eraseAt lastRow).contains k =
      (b.insertions.contains k && !decide (k = lastRow)) := fun k => by
    have hin := h.inserted
    rw [IndexSet.contains_eraseAt]
    grind
  rw [eraseLast, IndexSet.eraseOrUnshift]
  dsimp only
  cases hL : b.insertions.contains lastRow with
  | true =>
    simp only [if_true]
    exact ⟨fun k => by simp, hgone, lookup_erase_eq _ _, rfl, rfl⟩
  | false =>
    have hdelete := congrArg (fun r => r.2.deletions) (deleteRow_kept h
      (by omega : lastRow < rows.length) hL (fun _ _ => rfl) fun _ _ => rfl)
    rw [deleteRow] at hdelete
    simp only [if_false, Bool.false_eq_true]
    refine ⟨fun k => ?_, hgone, lookup_erase_eq _ _, rfl, rfl⟩
    dsimp only at hdelete ⊢
    rw [hdelete, IndexSet.contains_add]
    grind

end CollectionChangeBuilder

theorem originAt_moveLastOver {rows : List TableRow} {i : Nat} (h : i < rows.length) (j : Nat) :
    originAt (moveLastOver rows i) j = if j < rows.length - 1 then
      (if j = i then originAt rows (rows.length - 1) else originAt rows j) else none := by
  simp only [originAt]
  rw [getElem?_moveLastOver h]
  grind

theorem modifiedAt_moveLastOver {rows : List TableRow} {i : Nat} (h : i < rows.length) (j : Nat) :
    modifiedAt (moveLastOver rows i) j = if j < rows.length - 1 then
      (if j = i then modifiedAt rows (rows.length - 1) else modifiedAt rows j) else false := by
  simp only [modifiedAt]
  rw [getElem?_moveLastOver h]
  grind

theorem Traced.moveOver {n : Nat} {rows : List TableRow} {b : CollectionChangeBuilder}
    (h : Traced n rows b) {rowNdx : Nat} (hlt : rowNdx < rows.length) :
    Traced n (moveLastOver rows rowNdx) (b.moveOver rowNdx (rows.length - 1) true) := by
  obtain ⟨lastRow, hlen⟩ : ∃ lastRow, rows.length = lastRow + 1 :=
    ⟨rows.length - 1, by omega⟩
  have horigin := originAt_moveLastOver hlt
  have hlength := length_moveLastOver rows rowNdx
  have hlast := h.originAt_eq (by omega : lastRow < rows.length)
  have hnone := fun {k} => h.lookup_none (k := k)
  have herased := CollectionChangeBuilder.eraseLast_relocated h hlen
  have hover := fun hne : rowNdx < lastRow => CollectionChangeBuilder.moveLast_relocated
    (h.withModifications (moveModification b.modifications rowNdx lastRow)) hlen hne
  rw [hlen, Nat.add_sub_cancel] at horigin hlength
  rw [hlen, Nat.add_sub_cancel, CollectionChangeBuilder.moveOver]
  obtain ⟨horigins, hold, hinserted, hkept, hdeleted, hmapping, hmoves⟩ := h
  split
  · rename_i hsame
    subst hsame
    obtain ⟨hdel, hins, hmap, -, hmoved⟩ := herased
    refine ⟨?_, ?_, ?_, ?_, ?_, ?_, hmoved.trans hmoves⟩
    · grind
    · grind
    · grind
    · grind
    · grind
    · grind
  · rename_i hne
    obtain ⟨hdel, hins, hmap, -, hmoved⟩ := hover (by omega)
    dsimp only at hdel hins hmap hmoved
    refine ⟨?_, ?_, ?_, ?_, ?_, ?_, hmoved.trans hmoves⟩
    · grind
    · grind
    · grind
    · grind
    · grind
    · grind

theorem CollectionChangeBuilder.swapMoves_relocated {n : Nat} {rows : List TableRow}
    {b : CollectionChangeBuilder} (h : Traced n rows b) {i j : Nat} (hij : i < j)
    (hj : j < rows.length) :
    Relocated b (b.swapMoves i j)
      (fun k => (decide (k = i) || decide (k = j)) && !b.insertions.contains k)
      (fun k => b.insertions.contains k || decide (k = i) || decide (k = j))
      (fun k => if k = i then originAt rows j else if k = j then originAt rows i
        else b.moveMapping.lookup k) := by
  have horigini := h.originAt_eq (Nat.lt_trans hij hj)
  have horiginj := h.originAt_eq hj
  have hnone := fun {k} => h.lookup_none (k := k)
  have hsome : ∀ {k old}, b.moveMapping.lookup k = some old → b.insertions.contains k = true :=
    fun hk => ((h.mapping _ _).mp hk).1
  have hadd := IndexSet.contains_add
  have herase := lookup_erase_eq
  have hinsert := lookup_insert_eq
  rw [swapMoves]
  split
  · rename_i old₁ old₂ h₁ h₂
    have hi := hsome h₁
    have hj := hsome h₂
    refine ⟨fun k => ?_, fun k => ?_, fun k => ?_, rfl, rfl⟩ <;> grind
  · rename_i old₁ h₁ h₂
    have hi := hsome h₁
    rw [updateMoveMapping, moveKept]
    split
    · refine ⟨fun k => ?_, fun k => ?_, fun k => ?_, rfl, rfl⟩ <;> grind
    · rename_i hins
      rw [deleteRow_kept h hj (Bool.eq_false_of_not_eq_true hins)]
      · refine ⟨fun k => ?_, fun k => ?_, fun k => ?_, rfl, rfl⟩ <;> grind
      · exact fun _ _ => rfl
      · exact fun _ _ => rfl
  · rename_i old₂ h₁ h₂
    have hj := hsome h₂
    rw [updateMoveMapping, moveKept]
    split
    · refine ⟨fun k => ?_, fun k => ?_, fun k => ?_, rfl, rfl⟩ <;> grind
    · rename_i hins
      rw [deleteRow_kept h (by omega) (Bool.eq_false_of_not_eq_true hins)]
      · refine ⟨fun k => ?_, fun k => ?_, fun k => ?_, rfl, rfl⟩ <;> grind
      · exact fun _ _ => rfl
      · exact fun _ _ => rfl
  · rename_i h₁ h₂
    have hrel : Relocated b (b.moveKept j i)
        (fun k => decide (k = j) && !b.insertions.contains j)
        (fun k => b.insertions.contains k || decide (k = j))
        (fun k => if k = i then originAt rows j else b.moveMapping.lookup k) := by
      rw [moveKept]
      split
      · refine ⟨fun k => ?_, fun k => ?_, fun k => ?_, rfl, rfl⟩ <;> grind
      · rename_i hins
        rw [deleteRow_kept h hj (Bool.eq_false_of_not_eq_true hins)]
        · refine ⟨fun k => ?_, fun k => ?_, fun k => ?_, rfl, rfl⟩ <;> grind
        · exact fun _ _ => rfl
        · exact fun _ _ => rfl
    obtain ⟨hdel, hins, hmap, hmod, hmoves⟩ := hrel
    rw [moveKept]
    split
    · refine ⟨fun k => ?_, fun k => ?_, fun k => ?_, hmod, hmoves⟩ <;> grind
    · rename_i hnot
      rw [deleteRow_kept h (by omega : i < rows.length)]
      · refine ⟨fun k => ?_, fun k => ?_, fun k => ?_, hmod, hmoves⟩ <;> grind
      · grind
      · grind
      · grind

theorem originAt_swapRows {rows : List TableRow} {i j : Nat} (hi : i < rows.length)
    (hj : j < rows.length) (k : Nat) : originAt (swapRows rows i j) k =
      if k = j then originAt rows i else if k = i then originAt rows j else originAt rows k := by
  simp only [originAt]
  rw [getElem?_swapRows hi hj]
  grind

theorem modifiedAt_swapRows {rows : List TableRow} {i j : Nat} (hi : i < rows.length)
    (hj : j < rows.length) (k : Nat) : modifiedAt (swapRows rows i j) k =
      if k = j then modifiedAt rows i else if k = i then modifiedAt rows j
      else modifiedAt rows k := by
  simp only [modifiedAt]
  rw [getElem?_swapRows hi hj]
  grind

theorem Traced.swap {n : Nat} {rows : List TableRow} {b : CollectionChangeBuilder}
    (h : Traced n rows b) {i j : Nat} (hi : i < rows.length) (hj : j < rows.length)
    (hij : i ≠ j) : Traced n (swapRows rows i j) (b.swap i j true) := by
  have horigin := originAt_swapRows hi hj
  have hlength := length_swapRows rows i j
  have hrel := fun {i j} (hij : i < j) (hj : j < rows.length) => swapMoves_relocated
    (h.withModifications (swapModification b.modifications i j)) hij hj
  rw [CollectionChangeBuilder.swap]
  obtain ⟨horigins, hold, hinserted, hkept, hdeleted, hmapping, hmoves⟩ := h
  by_cases hlt : j < i
  · obtain ⟨hdel, hins, hmap, -, hmoved⟩ := hrel hlt hi
    simp only [if_pos hlt, if_true]
    dsimp only at hdel hins hmap hmoved
    refine ⟨?_, ?_, ?_, ?_, ?_, ?_, hmoved.trans hmoves⟩ <;> grind
  · obtain ⟨hdel, hins, hmap, -, hmoved⟩ := hrel (by omega : i < j) hj
    simp only [if_neg hlt, if_true]
    dsimp only at hdel hins hmap hmoved
    refine ⟨?_, ?_, ?_, ?_, ?_, ?_, hmoved.trans hmoves⟩ <;> grind

/-- New rows, at the end. -/
def newRows (num : Nat) : List TableRow := List.replicate num ⟨none, false⟩

theorem originAt_append_newRows (rows : List TableRow) (num k : Nat) :
    originAt (rows ++ newRows num) k = originAt rows k := by
  rw [originAt, originAt, newRows, List.getElem?_append, List.getElem?_replicate]
  grind

theorem modifiedAt_append_newRows (rows : List TableRow) (num k : Nat) :
    modifiedAt (rows ++ newRows num) k = modifiedAt rows k := by
  rw [modifiedAt, modifiedAt, newRows, List.getElem?_append, List.getElem?_replicate]
  grind

/-- Nothing in the mapping is behind the end of the table. -/
theorem shiftMapping_end {mapping : AList fun _ : Nat => Nat} {index : Nat} (count : Nat)
    (h : ∀ it ∈ mapping.entries, it.1 < index) :
    shiftMapping mapping index count = mapping := by
  have hnone : mapping.entries.filter (fun it => index ≤ it.1) = [] :=
    List.filter_eq_nil_iff.mpr fun it hit => by
      have := h it hit
      simp only [decide_eq_true_eq]
      omega
  rw [shiftMapping, hnone]
  rfl

theorem Traced.insert {n : Nat} {rows : List TableRow} {b : CollectionChangeBuilder}
    (h : Traced n rows b) {num : Nat} (hnum : 0 < num) :
    Traced n (rows ++ newRows num) (b.insert rows.length num true hnum) := by
  have horigin := originAt_append_newRows rows num
  have hlength : (rows ++ newRows num).length = rows.length + num := by
    rw [List.length_append, newRows, List.length_replicate]
  have hins : ∀ k, (b.insertions.insertAt rows.length num).contains k =
      (b.insertions.contains k || decide (rows.length ≤ k ∧ k < rows.length + num)) := fun k => by
    have hin := h.inserted
    rw [IndexSet.contains_insertAt, insertAt, unshift_block, block]
    grind
  have hmap : shiftMapping b.moveMapping rows.length num = b.moveMapping :=
    shiftMapping_end num fun it hit =>
      h.inserted _ ((h.mapping it.1 it.2).mp (AList.mem_lookup_iff.mpr hit)).1
  have hlt : ∀ {i j}, originAt rows j = some i → j < rows.length := lt_length_of_originAt
  rw [CollectionChangeBuilder.insert]
  simp only [Bool.not_true, Bool.false_eq_true, if_false]
  obtain ⟨horigins, hold, hinserted, hkept, hdeleted, hmapping, hmoves⟩ := h
  refine ⟨?_, ?_, ?_, ?_, ?_, ?_, ?_⟩
  · grind
  · grind
  · grind
  · grind
  · grind
  · grind
  · rw [hmoves]
    rfl

theorem Traced.clear {n : Nat} (b : CollectionChangeBuilder) (hn : n ≤ npos) :
    Traced n [] (b.clear npos) := by
  have hdel : ∀ k, (b.clear npos).deletions.contains k = decide (k < npos) := fun k => by
    rw [CollectionChangeBuilder.clear]
    simp only [ne_eq, not_true_eq_false, if_false]
    exact IndexSet.contains_set npos k
  refine ⟨?_, ?_, ?_, ?_, ?_, ?_, rfl⟩
  · intro i j k h
    cases h
  · intro i j h
    cases h
  · intro j h
    cases h
  · intro j h
    cases h
  · intro i hi h
    rw [hdel, decide_eq_false_iff_not] at h
    omega
  · intro j i
    simp [CollectionChangeBuilder.clear, CollectionChangeBuilder.empty]

/-! ## Modified rows -/

theorem modifiedAt_of_le {rows : List TableRow} {j : Nat} (h : rows.length ≤ j) :
    modifiedAt rows j = false := by
  rw [modifiedAt, List.getElem?_eq_none h]
  rfl

theorem Marked.insert {rows : List TableRow} {b : CollectionChangeBuilder}
    (h : Marked rows b.modifications) {num : Nat} (track : Bool) (hnum : 0 < num) :
    Marked (rows ++ newRows num) (b.insert rows.length num track hnum).modifications := by
  have hout : ∀ {j}, rows.length ≤ j → modifiedAt rows j = false := modifiedAt_of_le
  have hsame : (b.insert rows.length num track hnum).modifications =
      b.modifications.shiftForInsertAt rows.length num hnum := by
    rw [CollectionChangeBuilder.insert]
    cases track <;> rfl
  intro k
  have hk := h k
  have hback := h (k - num)
  rw [hsame, IndexSet.contains_shiftForInsertAt, shiftForInsertAt, unshift_block, block,
    modifiedAt_append_newRows]
  grind

theorem moveLast_modifications (b : CollectionChangeBuilder) (rowNdx lastRow : Nat) :
    (b.moveLast rowNdx lastRow).modifications = b.modifications := by
  rw [moveLast]
  cases b.insertions.endsAt (lastRow + 1) <;> cases b.insertions.contains rowNdx <;>
    simp only [if_true, if_false, Bool.false_eq_true] <;>
    first
      | rfl
      | (cases b.moveMapping.lookup lastRow <;> rfl)

theorem Marked.moveOver {rows : List TableRow} {b : CollectionChangeBuilder}
    (h : Marked rows b.modifications) {rowNdx : Nat} (hlt : rowNdx < rows.length) (track : Bool) :
    Marked (moveLastOver rows rowNdx)
      (b.moveOver rowNdx (rows.length - 1) track).modifications := by
  have hout : ∀ {j}, rows.length ≤ j → modifiedAt rows j = false := modifiedAt_of_le
  have hadd := IndexSet.contains_add
  have hremove := IndexSet.contains_remove
  intro k
  rw [modifiedAt_moveLastOver hlt, CollectionChangeBuilder.moveOver]
  split
  · have hsame : (if track = true then b.eraseLast rowNdx else b).modifications =
        b.modifications := by
      cases track <;> rfl
    dsimp only
    rw [hsame, hremove, h k]
    grind
  · have hsame : ∀ c : CollectionChangeBuilder,
        (if track = true then c.moveLast rowNdx (rows.length - 1) else c).modifications =
          c.modifications := fun c => by
      cases track
      · rfl
      · exact moveLast_modifications c _ _
    have hk := h k
    have hlast := h (rows.length - 1)
    dsimp only
    rw [hsame, moveModification]
    grind

theorem Marked.swap {rows : List TableRow} {b : CollectionChangeBuilder}
    (h : Marked rows b.modifications) {i j : Nat} (hi : i < rows.length) (hj : j < rows.length)
    (track : Bool) : Marked (swapRows rows i j) (b.swap i j track).modifications := by
  have hadd := IndexSet.contains_add
  have hremove := IndexSet.contains_remove
  have hkept : ∀ (c : CollectionChangeBuilder) (i j : Nat),
      (c.moveKept i j).modifications = c.modifications := fun c i j => by
    rw [moveKept]
    split <;> rfl
  have hsame : ∀ (c : CollectionChangeBuilder) (i j : Nat),
      (if track = true then c.swapMoves i j else c).modifications = c.modifications := by
    intro c i j
    cases track
    · rfl
    · simp only [if_true]
      rw [swapMoves]
      split
      · rfl
      · exact hkept _ _ _
      · exact hkept _ _ _
      · exact (hkept _ _ _).trans (hkept _ _ _)
  intro k
  have hk := h k
  have hi' := h i
  have hj' := h j
  rw [modifiedAt_swapRows hi hj, CollectionChangeBuilder.swap]
  dsimp only
  rw [hsame, swapModification]
  split <;> dsimp only <;> grind

/-- A cell of a row is set. -/
def setRow (rows : List TableRow) (ndx : Nat) : List TableRow :=
  rows.modify ndx fun r => { r with modified := true }

theorem originAt_setRow (rows : List TableRow) (ndx k : Nat) :
    originAt (setRow rows ndx) k = originAt rows k := by
  rw [originAt, originAt, setRow, List.getElem?_modify]
  cases rows[k]? <;> grind

theorem Marked.modify {rows : List TableRow} {b : CollectionChangeBuilder}
    (h : Marked rows b.modifications) {ndx : Nat} (hlt : ndx < rows.length) :
    Marked (setRow rows ndx) (b.modify ndx).modifications := by
  intro k
  have hk := h k
  rw [modifiedAt] at hk
  rw [CollectionChangeBuilder.modify, IndexSet.contains_add, modifiedAt, setRow,
    List.getElem?_modify, hk]
  by_cases hkn : k = ndx
  · subst hkn
    simp [hlt]
  · cases rows[k]? <;> grind

theorem Traced.modify {n : Nat} {rows : List TableRow} {b : CollectionChangeBuilder}
    (h : Traced n rows b) (ndx : Nat) : Traced n (setRow rows ndx) (b.modify ndx) := by
  have horigin := originAt_setRow rows ndx
  have hlength : (setRow rows ndx).length = rows.length := by simp [setRow]
  obtain ⟨horigins, hold, hinserted, hkept, hdeleted, hmapping, hmoves⟩ := h
  refine ⟨?_, ?_, ?_, ?_, ?_, ?_, hmoves⟩ <;> simp only [horigin, hlength]
  all_goals assumption

/-! ## Rows that have been moved -/

/-- Without swaps a row moves to the front, and it was behind every row that is in its place. -/
def LastMoved (rows : List TableRow) : Prop :=
  ∀ i j, originAt rows j = some i → i ≠ j → j < i ∧ ∀ k, originAt rows k = some k → k < i

theorem lastMoved_oldRows (n : Nat) : LastMoved (oldRows n) := by
  intro i j h
  rw [originAt_oldRows] at h
  grind

theorem LastMoved.moveLastOver {rows : List TableRow} (h : LastMoved rows) {rowNdx : Nat}
    (hlt : rowNdx < rows.length) : LastMoved (moveLastOver rows rowNdx) := by
  have horigin := originAt_moveLastOver hlt
  -- the last row cannot be back in its place
  have hback : ∀ k, originAt rows (rows.length - 1) = some k → rows.length - 1 ≤ k := fun k hk => by
    have := h k (rows.length - 1) hk
    omega
  intro i j
  have hlast := h i (rows.length - 1)
  have hj := h i j
  rw [horigin]
  grind

theorem LastMoved.insert {rows : List TableRow} (h : LastMoved rows) (num : Nat) :
    LastMoved (rows ++ newRows num) := by
  intro i j
  simpa only [originAt_append_newRows] using h i j

theorem LastMoved.setRow {rows : List TableRow} (h : LastMoved rows) (ndx : Nat) :
    LastMoved (setRow rows ndx) := by
  intro i j
  simpa only [originAt_setRow] using h i j

/-! ## When the log has been read -/

/-- The change set of a table says of each row where it is now. -/
structure Complete (n : Nat) (rows : List TableRow) (c : CollectionChangeBuilder) : Prop where
  origins : ∀ i j k, originAt rows j = some i → originAt rows k = some i → j = k
  old : ∀ i j, originAt rows j = some i → i < n
  inserted : ∀ j, c.insertions.contains j = true ↔ j < rows.length ∧ originAt rows j ≠ some j
  deleted : ∀ i < n, c.deletions.contains i = true ↔ originAt rows i ≠ some i
  moves : ∀ i j, ⟨i, j⟩ ∈ c.moves ↔ originAt rows j = some i ∧ i ≠ j
  sorted : c.moves.Pairwise fun l r => l.fromIndex < r.fromIndex

/-- What the entries of the mapping do, all of them. -/
structure Completed (b c : CollectionChangeBuilder) (entries : List ((_ : Nat) × Nat)) : Prop where
  deletions : ∀ k, c.deletions.contains k = true ↔
    b.deletions.contains k = true ∧ ⟨k, k⟩ ∉ entries
  insertions : ∀ k, c.insertions.contains k = true ↔
    b.insertions.contains k = true ∧ ⟨k, k⟩ ∉ entries
  moves : c.moves = b.moves ++
    (entries.filter fun it => it.1 ≠ it.2).map fun it => ⟨it.2, it.1⟩
  modifications : c.modifications = b.modifications

theorem completed_foldl (b : CollectionChangeBuilder) (entries : List ((_ : Nat) × Nat)) :
    Completed b (entries.foldl completeMove b) entries := by
  induction entries generalizing b with
  | nil => exact ⟨by simp, by simp, by simp, rfl⟩
  | cons it entries ih =>
    obtain ⟨new, old⟩ := it
    obtain ⟨hdel, hins, hmoves, hmod⟩ := ih (completeMove b ⟨new, old⟩)
    rw [List.foldl_cons]
    have hremove := IndexSet.contains_remove
    by_cases hsame : new = old
    · subst hsame
      simp only [completeMove, if_true] at hdel hins hmoves hmod ⊢
      refine ⟨fun k => ?_, fun k => ?_, ?_, hmod⟩
      · rw [hdel, hremove, List.mem_cons]
        grind
      · rw [hins, hremove, List.mem_cons]
        grind
      · rw [hmoves]
        simp
    · simp only [completeMove, if_neg hsame] at hdel hins hmoves hmod ⊢
      refine ⟨fun k => ?_, fun k => ?_, ?_, hmod⟩
      · rw [hdel, List.mem_cons]
        grind
      · rw [hins, List.mem_cons]
        grind
      · rw [hmoves, List.filter_cons_of_pos (by simpa using hsame), List.map_cons,
          List.append_assoc, List.singleton_append]

theorem Traced.complete {n : Nat} {rows : List TableRow} {b : CollectionChangeBuilder}
    (h : Traced n rows b) : Complete n rows b.parseComplete := by
  have hcomp := completed_foldl b b.moveMapping.entries
  have hmem : ∀ j i, ⟨j, i⟩ ∈ b.moveMapping.entries ↔
      b.insertions.contains j = true ∧ originAt rows j = some i := fun j i => by
    rw [← AList.mem_lookup_iff, Option.mem_def, h.mapping]
  have horigin := fun {k} => h.originAt_eq (k := k)
  have hlt : ∀ {i j}, originAt rows j = some i → j < rows.length := lt_length_of_originAt
  have hperm := List.mergeSort_perm (b.moveMapping.entries.foldl completeMove b).moves
    fun l r => l.fromIndex ≤ r.fromIndex
  have hmoves : ∀ i j, ⟨i, j⟩ ∈ b.parseComplete.moves ↔ originAt rows j = some i ∧ i ≠ j := by
    intro i j
    rw [parseComplete]
    dsimp only
    rw [hperm.mem_iff, hcomp.moves, h.moves, List.nil_append, List.mem_map]
    constructor
    · rintro ⟨⟨new, old⟩, hit, heq⟩
      obtain ⟨rfl, rfl⟩ := Move.mk.inj heq
      obtain ⟨hit, hne⟩ := List.mem_filter.mp hit
      exact ⟨((hmem _ _).mp hit).2, Ne.symm (of_decide_eq_true hne)⟩
    · rintro ⟨ho, hne⟩
      have hins : b.insertions.contains j = true := by
        by_contra hnot
        have := (h.kept j (hlt ho) (Bool.eq_false_of_not_eq_true hnot)).1
        exact hne (Option.some.inj (ho.symm.trans this))
      exact ⟨⟨j, i⟩, List.mem_filter.mpr ⟨(hmem j i).mpr ⟨hins, ho⟩,
        decide_eq_true (Ne.symm hne)⟩, rfl⟩
  have hnodup : (b.parseComplete.moves.map Move.fromIndex).Nodup := by
    rw [parseComplete]
    dsimp only
    rw [(hperm.map Move.fromIndex).nodup_iff, hcomp.moves, h.moves, List.nil_append, List.map_map]
    refine (b.moveMapping.nodupKeys.nodup.filter _).map_on fun it hit jt hjt heq => ?_
    obtain ⟨j, i⟩ := it
    obtain ⟨k, i'⟩ := jt
    obtain rfl : i = i' := heq
    have hj := ((hmem _ _).mp (List.mem_filter.mp hit).1).2
    have hk := ((hmem _ _).mp (List.mem_filter.mp hjt).1).2
    rw [h.origins i j k hj hk]
  refine ⟨h.origins, h.old, fun j => ?_, fun i hi => ?_, hmoves, ?_⟩
  · have hin := h.inserted j
    have hkept := h.kept j
    rw [parseComplete]
    dsimp only
    rw [hcomp.insertions, hmem]
    grind
  · have hin := h.kept i
    have hdel := h.deleted i hi
    rw [parseComplete]
    dsimp only
    rw [hcomp.deletions, hmem]
    grind
  · rw [List.nodup_iff_pairwise_ne, List.pairwise_map] at hnodup
    refine ((List.pairwise_mergeSort ?_ ?_ _).and hnodup).imp fun hboth => ?_
    · intro l m r hlm hmr
      simp only [decide_eq_true_eq] at *
      omega
    · intro l r
      simp only [Bool.or_eq_true, decide_eq_true_eq]
      omega
    · have hle := of_decide_eq_true hboth.1
      have hne := hboth.2
      omega

theorem Complete.moved {n : Nat} {rows : List TableRow} {c : CollectionChangeBuilder}
    (h : Complete n rows c) : c.Moved := by
  have hmove : ∀ m ∈ c.moves, originAt rows m.toIndex = some m.fromIndex ∧
      m.fromIndex ≠ m.toIndex := fun m hm => (h.moves m.fromIndex m.toIndex).mp hm
  refine ⟨fun m hm => ?_, fun m hm => ?_, ?_, ?_⟩
  · obtain ⟨ho, hne⟩ := hmove m hm
    rw [h.deleted _ (h.old _ _ ho)]
    exact fun hself => hne (h.origins _ _ _ hself ho)
  · obtain ⟨ho, hne⟩ := hmove m hm
    rw [h.inserted, ho]
    exact ⟨lt_length_of_originAt ho, fun heq => hne (Option.some.inj heq)⟩
  · exact List.pairwise_map.mpr (h.sorted.imp Nat.ne_of_lt)
  · refine List.pairwise_map.mpr (h.sorted.imp_of_mem fun {l r} hl hr hlt heq => ?_)
    have hlr := (hmove l hl).1
    rw [heq, (hmove r hr).1] at hlr
    exact Nat.ne_of_gt hlt (Option.some.inj hlr)

/-- The change set follows each row of the table. -/
theorem Complete.follows {n : Nat} {rows : List TableRow} {c : CollectionChangeBuilder}
    (h : Complete n rows c) {i j : Nat} (hi : i < n) (hj : j < rows.length) :
    c.Follows i j ↔ originAt rows j = some i := by
  have hlt : ∀ {i j}, originAt rows j = some i → j < rows.length := lt_length_of_originAt
  have hdel : ∀ k < n, c.deletions.contains k = false ↔ originAt rows k = some k := fun k hk => by
    rw [← Bool.not_eq_true, h.deleted k hk, ne_eq, Decidable.not_not]
  have hins : ∀ k < rows.length, c.insertions.contains k = false ↔ originAt rows k = some k :=
    fun k hk => by
      rw [← Bool.not_eq_true, h.inserted]
      simp [hk]
  -- both sets are the same in front of a row that has kept its place
  have hrank : ∀ k, originAt rows k = some k → unshift c.deletions.contains k =
      unshift c.insertions.contains k := fun k hk => unshift_congr fun l hl => by
    have hn := h.old _ _ hk
    have hlen := hlt hk
    rw [Bool.eq_iff_iff, h.deleted l (by omega), h.inserted]
    exact ⟨fun hne => ⟨by omega, hne⟩, And.right⟩
  constructor
  · rintro (⟨hdi, hij, heq⟩ | hm)
    · have hi := (hdel i hi).mp hdi
      rw [hrank i hi] at heq
      rw [← unshift_inj ((hins i (hlt hi)).mpr hi) hij heq]
      exact hi
    · exact ((h.moves i j).mp hm).1
  · intro ho
    by_cases hij : i = j
    · subst hij
      exact Or.inl ⟨(hdel i hi).mpr ho, (hins i hj).mpr ho, hrank i ho⟩
    · exact Or.inr ((h.moves i j).mpr ⟨ho, hij⟩)

end CollectionChangeBuilders
