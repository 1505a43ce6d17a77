import Mathlib.Data.List.AList
import RandomUserClient.IndexSets

/-!
# The change sets of a collection

A change set says what has happened to a list between two versions: the
positions that were deleted in the old one, those inserted in the new one, the
modified ones, and which deleted item has moved to which inserted position.
`merge` makes one change set out of two in a row, and `finalize` prepares one
for delivery. The row that a change set follows through both is the meaning of
it. Changes of single columns are not modelled.
-/

namespace CollectionChangeBuilders

open IndexSets ListEdits

/-- An item that was at `fromIndex` of the old list and is at `toIndex` of the new one. -/
structure Move where
  fromIndex : Nat
  toIndex : Nat
  deriving DecidableEq, Repr

/-- A change set that is being built; `moveMapping` has the old row for each row of a table that has
moved, until `parse_complete`. -/
structure CollectionChangeBuilder where
  deletions : IndexSet
  insertions : IndexSet
  modifications : IndexSet
  moves : List Move
  moveMapping : AList fun _ : Nat => Nat

/-- What is delivered: the modifications in the old list and in the new one. -/
structure CollectionChangeSet where
  deletions : IndexSet
  insertions : IndexSet
  modifications : IndexSet
  modificationsNew : IndexSet
  moves : List Move

namespace CollectionChangeBuilder

variable {α : Type}

def empty : CollectionChangeBuilder := ⟨.empty, .empty, .empty, [], ∅⟩

def isEmpty (c : CollectionChangeBuilder) : Bool :=
  c.deletions.isEmpty && c.insertions.isEmpty && c.modifications.isEmpty && c.moves.isEmpty

/-! ## Merging -/

/-- What becomes of an old move: a new move of its row is used up; without one, the row may have
been deleted, or is shifted with the others. `*it = c.moves.back(); c.moves.pop_back()` -/
def updateMove (modifications : IndexSet) (c : CollectionChangeBuilder) (old : Move) :
    Option Move × CollectionChangeBuilder :=
  let it := c.moves.findIdx fun m => old.toIndex = m.fromIndex
  match c.moves[it]? with
  | some m =>
    let col := if modifications.contains m.fromIndex then c.modifications.add m.toIndex
      else c.modifications
    (some ⟨old.fromIndex, m.toIndex⟩,
      { c with moves := moveLastOver c.moves it, modifications := col })
  | none =>
    if c.deletions.contains old.toIndex then (none, c)
    else (some ⟨old.fromIndex, c.insertions.shift (c.deletions.unshift old.toIndex)⟩, c)

/-- The `remove_if` over the old moves. -/
def updateMoves (modifications : IndexSet) :
    List Move → CollectionChangeBuilder → List Move × CollectionChangeBuilder
  | [], c => ([], c)
  | old :: olds, c =>
    let (m, c) := updateMove modifications c old
    let (moves, c) := updateMoves modifications olds c
    (m.toList ++ moves, c)

/-- The loop of `clean_up_stale_moves`, over moves with what they delete and insert. -/
def staleMoves : List Move → IndexSet → IndexSet → List Move × IndexSet × IndexSet
  | [], deletions, insertions => ([], deletions, insertions)
  | m :: moves, deletions, insertions =>
    if m.fromIndex - deletions.count 0 m.fromIndex ≠ m.toIndex - insertions.count 0 m.toIndex then
      let (moves, deletions, insertions) := staleMoves moves deletions insertions
      (m :: moves, deletions, insertions)
    else staleMoves moves (deletions.remove m.fromIndex 1 Nat.one_pos)
      (insertions.remove m.toIndex 1 Nat.one_pos)

/-- Look for moves which are now no-ops, and remove them plus the associated insert and delete. -/
def cleanUpStaleMoves (b : CollectionChangeBuilder) : CollectionChangeBuilder :=
  let (moves, deletions, insertions) := staleMoves b.moves b.deletions b.insertions
  { b with moves := moves, deletions := deletions, insertions := insertions }

/-- First update any old moves. -/
def updateOldMoves (b c : CollectionChangeBuilder) : List Move × CollectionChangeBuilder :=
  if !c.moves.isEmpty || !c.deletions.isEmpty || !c.insertions.isEmpty
    then updateMoves b.modifications b.moves c else (b.moves, c)

/-- Ignore new moves of rows which were previously inserted. -/
def newMoves (b : CollectionChangeBuilder) (moves : List Move) : List Move :=
  if !b.insertions.isEmpty && !moves.isEmpty
    then moves.filter fun m => !b.insertions.contains m.fromIndex else moves

/-- Ensure that any previously modified rows which were moved are still modified. -/
def movedModifications (b : CollectionChangeBuilder) (moves : List Move) (other : IndexSet) :
    IndexSet :=
  if !b.modifications.isEmpty && !moves.isEmpty
    then moves.foldl (fun other m =>
      if b.modifications.contains m.fromIndex then other.add m.toIndex else other) other
    else other

/-- Update the source position of new moves to compensate for the changes made before. -/
def shiftSources (b : CollectionChangeBuilder) (moves : List Move) : List Move :=
  if !b.deletions.isEmpty || !b.insertions.isEmpty
    then moves.map fun m => ⟨b.deletions.shift (b.insertions.unshift m.fromIndex), m.toIndex⟩
    else moves

/-- The change set of `b` and then `c`. -/
def merge (b c : CollectionChangeBuilder) : CollectionChangeBuilder :=
  if c.isEmpty then b
  else if b.isEmpty then c
  else
    let (moves, c) := updateOldMoves b c
    let news := newMoves b c.moves
    let other := movedModifications b news c.modifications
    cleanUpStaleMoves {
      deletions := b.deletions.addShiftedBy b.insertions c.deletions
      insertions := (b.insertions.eraseAtSet c.deletions).insertAtSet c.insertions
      modifications :=
        ((b.modifications.eraseAtSet c.deletions).shiftForInsertAtSet c.insertions).addSet other
      moves := moves ++ shiftSources b news
      moveMapping := b.moveMapping }

/-! ## Delivery -/

/-- A row may be inserted and modified until now; a modified row that is not inserted is one of the
old list as well. -/
def finalize (b : CollectionChangeBuilder) : CollectionChangeSet where
  deletions := b.deletions
  insertions := b.insertions
  modifications := (b.modifications.eraseAtSet b.insertions).shiftForInsertAtSet b.deletions
  modificationsNew := b.modifications.removeSet b.insertions
  moves := b.moves

/-! ## What a change set means -/

/-- The row at `i` of the old list is the one at `j` of the new list. -/
def Follows (b : CollectionChangeBuilder) (i j : Nat) : Prop :=
  Tracks b.deletions.contains b.insertions.contains i j ∨ ⟨i, j⟩ ∈ b.moves

/-- The row has been left alone. -/
def Keeps (b : CollectionChangeBuilder) (i j : Nat) : Prop :=
  Tracks b.deletions.contains b.insertions.contains i j

/-- The rows of two lists are where the change set says. -/
def Carries (b : CollectionChangeBuilder) (old new : List α) : Prop :=
  ∀ i j, b.Follows i j → new[j]? = old[i]?

/-- The change set is one between lists of these lengths: it leaves what is behind them alone. -/
structure Fits (b : CollectionChangeBuilder) (n m : Nat) : Prop where
  behind : ∀ k, b.Keeps (n + k) (m + k)
  modifications : ∀ j, b.modifications.contains j = true → j < m

/-- A moved row has been deleted where it was and inserted where it is, and has moved once. -/
structure Moved (b : CollectionChangeBuilder) : Prop where
  deleted : ∀ m ∈ b.moves, b.deletions.contains m.fromIndex = true
  inserted : ∀ m ∈ b.moves, b.insertions.contains m.toIndex = true
  sources : (b.moves.map Move.fromIndex).Nodup
  targets : (b.moves.map Move.toIndex).Nodup

/-! ## One row at a time -/

theorem Follows.injective {b : CollectionChangeBuilder} (hb : b.Moved) {i i' j : Nat}
    (h : b.Follows i j) (h' : b.Follows i' j) : i = i' := by
  rcases h with h | h <;> rcases h' with h' | h'
  · exact unshift_inj h.1 h'.1 (h.2.2.trans h'.2.2.symm)
  · exact absurd (hb.inserted _ h') (by rw [h.2.1]; exact Bool.false_ne_true)
  · exact absurd (hb.inserted _ h) (by rw [h'.2.1]; exact Bool.false_ne_true)
  · exact congrArg Move.fromIndex (List.inj_on_of_nodup_map hb.targets h h' rfl)

theorem Follows.functional {b : CollectionChangeBuilder} (hb : b.Moved) {i j j' : Nat}
    (h : b.Follows i j) (h' : b.Follows i j') : j = j' := by
  rcases h with h | h <;> rcases h' with h' | h'
  · exact unshift_inj h.2.1 h'.2.1 (h.2.2.symm.trans h'.2.2)
  · exact absurd (hb.deleted _ h') (by rw [h.1]; exact Bool.false_ne_true)
  · exact absurd (hb.deleted _ h) (by rw [h'.1]; exact Bool.false_ne_true)
  · exact congrArg Move.toIndex (List.inj_on_of_nodup_map hb.sources h h' rfl)

/-- A row that has not been deleted is shifted with the others. -/
theorem follows_shift {b : CollectionChangeBuilder} (hb : b.Moved) {i j : Nat}
    (h : b.deletions.contains i = false) :
    b.Follows i j ↔ j = b.insertions.shift (b.deletions.unshift i) := by
  rw [IndexSet.shift_eq, IndexSet.unshift_eq, eq_comm, shift_eq_iff b.insertions.finite]
  constructor
  · rintro (ht | hm)
    · exact ⟨ht.2.1, ht.2.2.symm⟩
    · exact absurd (hb.deleted _ hm) (by rw [h]; exact Bool.false_ne_true)
  · rintro ⟨hj, heq⟩
    exact Or.inl ⟨h, hj, heq.symm⟩

theorem follows_empty (i j : Nat) : empty.Follows i j ↔ i = j := by
  simp [Follows, empty, Tracks, unshift_none]

theorem moved_empty : empty.Moved := by
  constructor <;> simp [empty]

/-! ## Merging -/

/-- The new change set without the moves of some rows, whose modifications it has taken over. -/
structure Taken (col : IndexSet) (rows : Nat → Prop) (c c' : CollectionChangeBuilder) : Prop where
  deletions : c'.deletions = c.deletions
  insertions : c'.insertions = c.insertions
  sublist : c'.moves.Subperm c.moves
  moves : ∀ m, m ∈ c'.moves ↔ m ∈ c.moves ∧ ¬ rows m.fromIndex
  modifications : ∀ k, c'.modifications.contains k = true ↔ c.modifications.contains k = true ∨
    ∃ m ∈ c.moves, rows m.fromIndex ∧ col.contains m.fromIndex = true ∧ k = m.toIndex

theorem Taken.refl (col : IndexSet) (c : CollectionChangeBuilder) :
    Taken col (fun _ => False) c c :=
  ⟨rfl, rfl, List.Subperm.refl _, by simp, by simp⟩

theorem Taken.trans {col : IndexSet} {rows rows' : Nat → Prop} {c c' c'' : CollectionChangeBuilder}
    (h : Taken col rows c c') (h' : Taken col rows' c' c'') :
    Taken col (fun k => rows k ∨ rows' k) c c'' where
  deletions := h'.deletions.trans h.deletions
  insertions := h'.insertions.trans h.insertions
  sublist := h'.sublist.trans h.sublist
  moves m := by
    rw [h'.moves, h.moves]
    tauto
  modifications k := by
    rw [h'.modifications, h.modifications]
    simp only [h.moves]
    grind

theorem Taken.moved {col : IndexSet} {rows : Nat → Prop} {c c' : CollectionChangeBuilder}
    (h : Taken col rows c c') (hc : c.Moved) : c'.Moved := by
  obtain ⟨l, hperm, hsub⟩ := h.sublist
  have hmem := fun m hm => ((h.moves m).mp hm).1
  refine ⟨fun m hm => ?_, fun m hm => ?_, ?_, ?_⟩
  · rw [h.deletions]
    exact hc.deleted m (hmem m hm)
  · rw [h.insertions]
    exact hc.inserted m (hmem m hm)
  · exact (hperm.map Move.fromIndex).nodup_iff.mp (hc.sources.sublist (hsub.map _))
  · exact (hperm.map Move.toIndex).nodup_iff.mp (hc.targets.sublist (hsub.map _))

/-- A row whose move has not been taken is followed as before. -/
theorem Taken.follows {col : IndexSet} {rows : Nat → Prop} {c c' : CollectionChangeBuilder}
    (h : Taken col rows c c') {i : Nat} (hi : ¬ rows i) (j : Nat) :
    c'.Follows i j ↔ c.Follows i j := by
  rw [Follows, Follows, h.deletions, h.insertions, h.moves]
  simp [hi]

theorem mem_some_move {m : Move} {i j : Nat} :
    m ∈ some (⟨i, j⟩ : Move) ↔ m.fromIndex = i ∧ m.toIndex = j := by
  cases m
  simp [eq_comm]

/-- What is left when the first move of a row has been taken. -/
theorem mem_moveLastOver {c : CollectionChangeBuilder} (hc : c.Moved) {it : Nat} {m : Move}
    (hit : c.moves[it]? = some m) (n : Move) :
    n ∈ moveLastOver c.moves it ↔ n ∈ c.moves ∧ ¬ n.fromIndex = m.fromIndex := by
  obtain ⟨hlt, rfl⟩ := List.getElem?_eq_some_iff.mp hit
  have hperm := List.getElem_cons_eraseIdx_perm hlt
  have hnodup := (hperm.map Move.fromIndex).nodup_iff.mpr hc.sources
  rw [List.map_cons, List.nodup_cons] at hnodup
  rw [(moveLastOver_perm hlt).mem_iff, ← hperm.mem_iff, List.mem_cons]
  constructor
  · intro hn
    exact ⟨Or.inr hn, fun heq => hnodup.1 (List.mem_map.mpr ⟨n, hn, heq⟩)⟩
  · rintro ⟨rfl | hn, hne⟩
    · exact absurd rfl hne
    · exact hn

theorem updateMove_spec (col : IndexSet) {c : CollectionChangeBuilder} (hc : c.Moved) (old : Move) :
    Taken col (fun k => k = old.toIndex) c (updateMove col c old).2 ∧
      ∀ m, m ∈ (updateMove col c old).1 ↔
        m.fromIndex = old.fromIndex ∧ c.Follows old.toIndex m.toIndex := by
  rw [updateMove]
  dsimp only
  split
  · rename_i m hit
    have hmem := List.mem_of_getElem? hit
    obtain ⟨hlt, hm⟩ := List.getElem?_eq_some_iff.mp hit
    have hsame : m.fromIndex = old.toIndex := by
      have h := List.findIdx_getElem (w := hlt)
      rw [hm] at h
      exact (of_decide_eq_true h).symm
    have hfollows : c.Follows old.toIndex m.toIndex := Or.inr (by rw [← hsame]; exact hmem)
    have hsub : (moveLastOver c.moves
        (c.moves.findIdx fun m => old.toIndex = m.fromIndex)).Subperm c.moves :=
      (moveLastOver_perm hlt).subperm.trans (List.eraseIdx_sublist _ _).subperm
    refine ⟨⟨rfl, rfl, hsub, fun n => ?_, fun k => ?_⟩, fun n => ?_⟩
    · have hleft := mem_moveLastOver hc hit n
      rwa [hsame] at hleft
    · have honly : ∀ n ∈ c.moves, n.fromIndex = old.toIndex → n = m := fun n hn h =>
        List.inj_on_of_nodup_map hc.sources hn hmem (h.trans hsame.symm)
      dsimp only
      split
      · rw [IndexSet.contains_add]
        grind
      · grind
    · rw [mem_some_move]
      refine and_congr_right fun _ => ⟨fun h => h ▸ hfollows, fun h => h.functional hc hfollows⟩
  · -- no new move is of this row
    rename_i hit
    have hnone : ∀ m ∈ c.moves, ¬ m.fromIndex = old.toIndex := fun m hm => by
      have hlen := List.getElem?_eq_none_iff.mp hit
      have hall := List.findIdx_eq_length.mp (Nat.le_antisymm List.findIdx_le_length hlen) m hm
      exact fun h => of_decide_eq_false hall h.symm
    have hmoves : ∀ m, m ∈ c.moves ↔ m ∈ c.moves ∧ ¬ m.fromIndex = old.toIndex := fun m =>
      ⟨fun hm => ⟨hm, hnone m hm⟩, And.left⟩
    have htaken : Taken col (fun k => k = old.toIndex) c c :=
      ⟨rfl, rfl, List.Subperm.refl _, hmoves, fun k => by grind⟩
    split
    · rename_i hdeleted
      refine ⟨htaken, fun m => ⟨fun hm => absurd hm (Option.not_mem_none m), ?_⟩⟩
      rintro ⟨-, ht | hm⟩
      · rw [ht.1] at hdeleted
        cases hdeleted
      · exact absurd rfl (hnone _ hm)
    · rename_i hdeleted
      refine ⟨htaken, fun m => ?_⟩
      rw [mem_some_move, follows_shift hc (Bool.eq_false_of_not_eq_true hdeleted)]

theorem updateMoves_spec (col : IndexSet) {c : CollectionChangeBuilder} (hc : c.Moved)
    {olds : List Move} (ho : (olds.map Move.toIndex).Nodup) :
    Taken col (fun k => ∃ old ∈ olds, k = old.toIndex) c (updateMoves col olds c).2 ∧
      ((updateMoves col olds c).1.map Move.fromIndex).Sublist (olds.map Move.fromIndex) ∧
      ∀ m, m ∈ (updateMoves col olds c).1 ↔
        ∃ old ∈ olds, m.fromIndex = old.fromIndex ∧ c.Follows old.toIndex m.toIndex := by
  induction olds generalizing c with
  | nil => exact ⟨by simpa [updateMoves] using Taken.refl col c, by simp [updateMoves],
      by simp [updateMoves]⟩
  | cons old olds ih =>
    rw [List.map_cons, List.nodup_cons] at ho
    obtain ⟨htaken, hmem⟩ := updateMove_spec col hc old
    obtain ⟨htakens, hsub, hmems⟩ := ih (htaken.moved hc) ho.2
    rw [updateMoves]
    dsimp only
    refine ⟨?_, ?_, fun m => ?_⟩
    · simpa using htaken.trans htakens
    · rw [List.map_append, List.map_cons]
      rcases hone : (updateMove col c old).1 with _ | n
      · exact hsub.cons _
      · have hn := (hmem n).mp hone
        simpa [hn.1] using hsub
    · rw [List.mem_append, Option.mem_toList, ← Option.mem_def, hmem, hmems,
        List.exists_mem_cons_iff]
      refine or_congr_right (exists_congr fun other => and_congr_right fun hother => ?_)
      have hne : ¬ other.toIndex = old.toIndex := fun h =>
        ho.1 (List.mem_map.mpr ⟨other, hother, h⟩)
      rw [htaken.follows hne]

theorem contains_without (s : IndexSet) (p : Nat) :
    (s.remove p 1 Nat.one_pos).contains = without s.contains p :=
  funext fun k => IndexSet.contains_remove s p k

/-- Some moves have gone, and their rows are left alone now. -/
structure Cleaned (moves : List Move) (deletions insertions : IndexSet)
    (r : List Move × IndexSet × IndexSet) : Prop where
  sublist : r.1.Sublist moves
  sources : ∀ k, (∀ m ∈ moves, ¬ m.fromIndex = k) → r.2.1.contains k = deletions.contains k
  targets : ∀ k, (∀ m ∈ moves, ¬ m.toIndex = k) → r.2.2.contains k = insertions.contains k
  deleted : ∀ m ∈ r.1, r.2.1.contains m.fromIndex = true
  inserted : ∀ m ∈ r.1, r.2.2.contains m.toIndex = true
  follows : ∀ i j, (Tracks r.2.1.contains r.2.2.contains i j ∨ ⟨i, j⟩ ∈ r.1) ↔
    (Tracks deletions.contains insertions.contains i j ∨ ⟨i, j⟩ ∈ moves)

theorem staleMoves_cleaned {moves : List Move} {deletions insertions : IndexSet}
    (hdel : ∀ m ∈ moves, deletions.contains m.fromIndex = true)
    (hins : ∀ m ∈ moves, insertions.contains m.toIndex = true)
    (hsrc : (moves.map Move.fromIndex).Nodup) (htgt : (moves.map Move.toIndex).Nodup) :
    Cleaned moves deletions insertions (staleMoves moves deletions insertions) := by
  induction moves generalizing deletions insertions with
  | nil => exact ⟨List.Sublist.refl _, fun _ _ => rfl, fun _ _ => rfl, by simp [staleMoves],
      by simp [staleMoves], fun _ _ => Iff.rfl⟩
  | cons m moves ih =>
    simp only [List.map_cons, List.nodup_cons, List.mem_map, not_exists, not_and] at hsrc htgt
    rw [List.forall_mem_cons] at hdel hins
    rw [staleMoves]
    split
    · have ih := ih hdel.2 hins.2 hsrc.2 htgt.2
      refine ⟨ih.sublist.cons_cons m, fun k hk => ?_, fun k hk => ?_, ?_, ?_, fun i j => ?_⟩
      · exact ih.sources k (List.forall_mem_cons.mp hk).2
      · exact ih.targets k (List.forall_mem_cons.mp hk).2
      · exact List.forall_mem_cons.mpr
          ⟨(ih.sources _ hsrc.1).trans hdel.1, ih.deleted⟩
      · exact List.forall_mem_cons.mpr
          ⟨(ih.targets _ htgt.1).trans hins.1, ih.inserted⟩
      · rw [List.mem_cons, List.mem_cons, ← or_assoc, ← or_assoc, or_right_comm, ih.follows i j]
        rw [or_right_comm]
    · rename_i hstale
      rw [ne_eq, Decidable.not_not, ← IndexSet.unshift, ← IndexSet.unshift, IndexSet.unshift_eq,
        IndexSet.unshift_eq] at hstale
      have hdel' : ∀ k, ¬ k = m.fromIndex →
          (deletions.remove m.fromIndex 1 Nat.one_pos).contains k = deletions.contains k :=
        fun k hk => by simp [IndexSet.contains_remove, hk]
      have hins' : ∀ k, ¬ k = m.toIndex →
          (insertions.remove m.toIndex 1 Nat.one_pos).contains k = insertions.contains k :=
        fun k hk => by simp [IndexSet.contains_remove, hk]
      have ih := ih (fun n hn => (hdel' _ (hsrc.1 n hn)).trans (hdel.2 n hn))
        (fun n hn => (hins' _ (htgt.1 n hn)).trans (hins.2 n hn)) hsrc.2 htgt.2
      refine ⟨ih.sublist.cons m, fun k hk => ?_, fun k hk => ?_, ih.deleted, ih.inserted,
        fun i j => ?_⟩
      · obtain ⟨hm, hk⟩ := List.forall_mem_cons.mp hk
        exact (ih.sources k hk).trans (hdel' k (Ne.symm hm))
      · obtain ⟨hm, hk⟩ := List.forall_mem_cons.mp hk
        exact (ih.targets k hk).trans (hins' k (Ne.symm hm))
      · rw [ih.follows i j, contains_without, contains_without,
          tracks_without_iff hdel.1 hins.1 hstale, List.mem_cons, or_assoc]
        cases m
        simp only [Move.mk.injEq]

theorem cleanUpStaleMoves_spec {b : CollectionChangeBuilder} (hb : b.Moved) :
    b.cleanUpStaleMoves.Moved ∧ (∀ i j, b.cleanUpStaleMoves.Follows i j ↔ b.Follows i j) ∧
      ∀ i j, b.Keeps i j → b.cleanUpStaleMoves.Keeps i j := by
  have hclean := staleMoves_cleaned hb.deleted hb.inserted hb.sources hb.targets
  refine ⟨⟨hclean.deleted, hclean.inserted, ?_, ?_⟩, hclean.follows, fun i j hij => ?_⟩
  · exact hb.sources.sublist (hclean.sublist.map _)
  · exact hb.targets.sublist (hclean.sublist.map _)
  · rcases (hclean.follows i j).mpr (Or.inl hij) with ht | hm
    · exact ht
    · -- a row that was moved is no row that was left alone
      have hdel := hb.deleted _ (hclean.sublist.subset hm)
      rw [hij.1] at hdel
      cases hdel

theorem follows_of_isEmpty {c : CollectionChangeBuilder} (h : c.isEmpty = true) (i j : Nat) :
    c.Follows i j ↔ i = j := by
  simp only [isEmpty, Bool.and_eq_true, List.isEmpty_iff] at h
  rw [Follows, IndexSet.eq_empty h.1.1.1, IndexSet.eq_empty h.1.1.2, h.2]
  simp [Tracks, unshift_none]

theorem mem_updateOldMoves {b c : CollectionChangeBuilder} (hb : b.Moved) (hc : c.Moved) :
    Taken b.modifications (fun k => ∃ old ∈ b.moves, k = old.toIndex) c (updateOldMoves b c).2 ∧
      (updateOldMoves b c).1.Nodup ∧
      ∀ i j, ⟨i, j⟩ ∈ (updateOldMoves b c).1 ↔ ∃ k, ⟨i, k⟩ ∈ b.moves ∧ c.Follows k j := by
  have hspec := updateMoves_spec b.modifications hc hb.targets
  have hmem : ∀ {moves : List Move}, (∀ m, m ∈ moves ↔
      ∃ old ∈ b.moves, m.fromIndex = old.fromIndex ∧ c.Follows old.toIndex m.toIndex) →
      ∀ i j, ⟨i, j⟩ ∈ moves ↔ ∃ k, ⟨i, k⟩ ∈ b.moves ∧ c.Follows k j := by
    intro moves h i j
    rw [h]
    constructor
    · rintro ⟨⟨i', k⟩, hold, rfl, hfollows⟩
      exact ⟨k, hold, hfollows⟩
    · rintro ⟨k, hold, hfollows⟩
      exact ⟨⟨i, k⟩, hold, rfl, hfollows⟩
  rw [updateOldMoves]
  split
  · exact ⟨hspec.1, (hb.sources.sublist hspec.2.1).of_map, hmem hspec.2.2⟩
  · -- nothing has been moved, deleted or inserted
    rename_i hnone
    simp only [Bool.or_eq_true, Bool.not_eq_true', not_or, Bool.not_eq_false,
      List.isEmpty_iff] at hnone
    have hsame : ∀ k j, c.Follows k j ↔ k = j := fun k j => by
      rw [Follows, IndexSet.eq_empty hnone.1.2, IndexSet.eq_empty hnone.2, hnone.1.1]
      simp [Tracks, unshift_none]
    refine ⟨⟨rfl, rfl, List.Subperm.refl _, ?_, ?_⟩, hb.sources.of_map, fun i j => ?_⟩
    · simp [hnone.1.1]
    · simp [hnone.1.1]
    · simp [hsame]

theorem mem_newMoves (b : CollectionChangeBuilder) (moves : List Move) (m : Move) :
    m ∈ newMoves b moves ↔ m ∈ moves ∧ b.insertions.contains m.fromIndex = false := by
  rw [newMoves]
  split
  · simp
  · rename_i hnone
    simp only [Bool.and_eq_true, Bool.not_eq_true', not_and, Bool.not_eq_false,
      List.isEmpty_iff] at hnone
    cases hi : b.insertions.isEmpty with
    | true =>
      rw [IndexSet.eq_empty hi]
      simp
    | false => simp [hnone hi]

theorem mem_movedModifications (b : CollectionChangeBuilder) (moves : List Move) (other : IndexSet)
    (k : Nat) : (movedModifications b moves other).contains k = true ↔ other.contains k = true ∨
      ∃ m ∈ moves, b.modifications.contains m.fromIndex = true ∧ k = m.toIndex := by
  have hfold : (moves.foldl (fun other m =>
      if b.modifications.contains m.fromIndex then other.add m.toIndex else other)
      other).contains k = true ↔ other.contains k = true ∨
      ∃ m ∈ moves, b.modifications.contains m.fromIndex = true ∧ k = m.toIndex := by
    induction moves generalizing other with
    | nil => simp
    | cons m moves ih =>
      rw [List.foldl_cons, ih, List.exists_mem_cons_iff]
      split
      · rw [IndexSet.contains_add]
        grind
      · grind
  rw [movedModifications]
  split
  · exact hfold
  · rename_i hnone
    simp only [Bool.and_eq_true, Bool.not_eq_true', not_and, Bool.not_eq_false,
      List.isEmpty_iff] at hnone
    cases hm : b.modifications.isEmpty with
    | true =>
      rw [IndexSet.eq_empty hm]
      simp
    | false => simp [hnone hm]

theorem shiftSources_eq (b : CollectionChangeBuilder) (moves : List Move) :
    shiftSources b moves = moves.map fun m =>
      ⟨b.deletions.shift (b.insertions.unshift m.fromIndex), m.toIndex⟩ := by
  rw [shiftSources]
  split
  · rfl
  · rename_i hnone
    simp only [Bool.or_eq_true, Bool.not_eq_true', not_or, Bool.not_eq_false] at hnone
    rw [IndexSet.eq_empty hnone.1, IndexSet.eq_empty hnone.2]
    exact (List.map_id moves).symm

/-- Where a row of the list in the middle has been, if it was there already. -/
theorem tracks_shift_iff (b : CollectionChangeBuilder) (i k : Nat) :
    Tracks b.deletions.contains b.insertions.contains i k ↔ b.insertions.contains k = false ∧
      i = b.deletions.shift (b.insertions.unshift k) := by
  rw [IndexSet.shift_eq, IndexSet.unshift_eq, eq_comm (a := i), shift_eq_iff b.deletions.finite,
    Tracks]
  tauto

/-- The two change sets, and the parts of the merged one before the stale moves are cleaned up. -/
structure Merged (b c x : CollectionChangeBuilder) (olds news : List Move) : Prop where
  deletions : x.deletions.contains =
    insertAt b.deletions.contains (eraseAt b.insertions.contains c.deletions.contains)
  insertions : x.insertions.contains =
    insertAt c.insertions.contains (eraseAt c.deletions.contains b.insertions.contains)
  moves : x.moves = olds ++ news.map fun m =>
    ⟨b.deletions.shift (b.insertions.unshift m.fromIndex), m.toIndex⟩
  nodup : olds.Nodup ∧ news.Nodup
  olds : ∀ i j, ⟨i, j⟩ ∈ olds ↔ ∃ k, ⟨i, k⟩ ∈ b.moves ∧ c.Follows k j
  news : ∀ m, m ∈ news ↔ m ∈ c.moves ∧ b.insertions.contains m.fromIndex = false

theorem Merged.mem_moves {b c x : CollectionChangeBuilder} {olds news : List Move}
    (h : Merged b c x olds news) (i j : Nat) : ⟨i, j⟩ ∈ x.moves ↔
      (∃ k, ⟨i, k⟩ ∈ b.moves ∧ c.Follows k j) ∨
      ∃ k, Tracks b.deletions.contains b.insertions.contains i k ∧ ⟨k, j⟩ ∈ c.moves := by
  rw [h.moves, List.mem_append, h.olds, List.mem_map]
  refine or_congr_right ?_
  constructor
  · rintro ⟨⟨k, j'⟩, hm, heq⟩
    obtain ⟨rfl, rfl⟩ := Move.mk.inj heq
    obtain ⟨hm, hk⟩ := (h.news _).mp hm
    exact ⟨k, (tracks_shift_iff b _ k).mpr ⟨hk, rfl⟩, hm⟩
  · rintro ⟨k, ht, hm⟩
    obtain ⟨hk, rfl⟩ := (tracks_shift_iff b i k).mp ht
    exact ⟨⟨k, j⟩, (h.news _).mpr ⟨hm, hk⟩, rfl⟩

theorem Merged.follows {b c x : CollectionChangeBuilder} {olds news : List Move}
    (h : Merged b c x olds news) (i j : Nat) :
    x.Follows i j ↔ ∃ k, b.Follows i k ∧ c.Follows k j := by
  rw [Follows, h.deletions, h.insertions, h.mem_moves,
    tracks_trans_iff b.insertions.finite c.deletions.finite]
  constructor
  · rintro (⟨k, hb, hc⟩ | ⟨k, hb, hc⟩ | ⟨k, hb, hc⟩)
    · exact ⟨k, Or.inl hb, Or.inl hc⟩
    · exact ⟨k, Or.inr hb, hc⟩
    · exact ⟨k, Or.inl hb, Or.inr hc⟩
  · rintro ⟨k, hb | hb, hc⟩
    · rcases hc with hc | hc
      · exact Or.inl ⟨k, hb, hc⟩
      · exact Or.inr (Or.inr ⟨k, hb, hc⟩)
    · exact Or.inr (Or.inl ⟨k, hb, hc⟩)

theorem Merged.moved {b c x : CollectionChangeBuilder} {olds news : List Move}
    (h : Merged b c x olds news) (hb : b.Moved) (hc : c.Moved) : x.Moved := by
  have hpath : ∀ m ∈ x.moves, ∃ k, b.Follows m.fromIndex k ∧ c.Follows k m.toIndex := fun m hm =>
    (h.follows _ _).mp (Or.inr hm)
  have hnodup : x.moves.Nodup := by
    rw [h.moves, List.nodup_append']
    refine ⟨h.nodup.1, h.nodup.2.map_on fun m hm n hn heq => ?_, fun m hm hm' => ?_⟩
    · -- two new moves from one row are one
      obtain ⟨hfrom, hto⟩ := Move.mk.inj heq
      exact List.inj_on_of_nodup_map hc.targets ((h.news m).mp hm).1 ((h.news n).mp hn).1 hto
    · obtain ⟨k, hold, -⟩ := (h.olds m.fromIndex m.toIndex).mp hm
      obtain ⟨n, -, rfl⟩ := List.mem_map.mp hm'
      have hdeleted := hb.deleted _ hold
      rw [b.deletions.contains_shift] at hdeleted
      cases hdeleted
  refine ⟨fun m hm => ?_, fun m hm => ?_, ?_, ?_⟩
  · rw [h.deletions]
    rcases (h.mem_moves m.fromIndex m.toIndex).mp hm with ⟨k, hold, -⟩ | ⟨k, ht, hnew⟩
    · rw [insertAt, hb.deleted _ hold, Bool.true_or]
    · rw [insertAt_of_not_mem _ ht.1, ht.2.2, eraseAt_unshift _ ht.2.1]
      exact hc.deleted _ hnew
  · rw [h.insertions]
    rcases (h.mem_moves m.fromIndex m.toIndex).mp hm with ⟨k, hold, ht | hm⟩ | ⟨k, -, hnew⟩
    · rw [insertAt_of_not_mem _ ht.2.1, ← ht.2.2, eraseAt_unshift _ ht.1]
      exact hb.inserted _ hold
    · rw [insertAt, hc.inserted _ hm, Bool.true_or]
    · rw [insertAt, hc.inserted _ hnew, Bool.true_or]
  · refine hnodup.map_on fun m hm n hn heq => ?_
    obtain ⟨k, hbm, hcm⟩ := hpath m hm
    obtain ⟨l, hbn, hcn⟩ := hpath n hn
    rw [heq] at hbm
    obtain rfl := hbm.functional hb hbn
    cases m
    cases n
    exact congrArg₂ Move.mk heq (hcm.functional hc hcn)
  · refine hnodup.map_on fun m hm n hn heq => ?_
    obtain ⟨k, hbm, hcm⟩ := hpath m hm
    obtain ⟨l, hbn, hcn⟩ := hpath n hn
    rw [heq] at hcm
    obtain rfl := hcm.injective hc hcn
    cases m
    cases n
    exact congrArg₂ Move.mk (hbm.injective hb hbn) heq

/-- The modifications of a merged change set, at a row that both followed. -/
theorem contains_merged {b c : CollectionChangeBuilder} (hc : c.Moved) {other : IndexSet}
    (hother : ∀ k, other.contains k = true ↔ c.modifications.contains k = true ∨
      ∃ m ∈ c.moves, ((∃ old ∈ b.moves, m.fromIndex = old.toIndex) ∨
        b.insertions.contains m.fromIndex = false) ∧
        b.modifications.contains m.fromIndex = true ∧ k = m.toIndex)
    {i k j : Nat} (hik : b.Follows i k) (hkj : c.Follows k j) :
    (((b.modifications.eraseAtSet c.deletions).shiftForInsertAtSet c.insertions).addSet
      other).contains j = (b.modifications.contains k || c.modifications.contains j) := by
  rw [IndexSet.contains_addSet, union, IndexSet.contains_shiftForInsertAtSet,
    IndexSet.contains_eraseAtSet, shiftForInsertAt, Bool.eq_iff_iff, Bool.or_eq_true,
    Bool.or_eq_true, hother j]
  rcases hkj with ⟨hk, hj, hrank⟩ | hmove
  · -- a row that the second change set leaves alone is not the target of a move
    rw [hj, ← hrank, eraseAt_unshift _ hk, Bool.not_false, Bool.true_and]
    refine or_congr_right (or_iff_left ?_)
    rintro ⟨m, hm, -, -, rfl⟩
    rw [hc.inserted m hm] at hj
    cases hj
  · have hj := hc.inserted _ hmove
    rw [hj, Bool.not_true, Bool.false_and]
    have hrow : (∃ old ∈ b.moves, k = old.toIndex) ∨ b.insertions.contains k = false := by
      rcases hik with ht | hm
      · exact Or.inr ht.2.1
      · exact Or.inl ⟨_, hm, rfl⟩
    have honly : ∀ m ∈ c.moves, j = m.toIndex → m = ⟨k, j⟩ := fun m hm h =>
      List.inj_on_of_nodup_map hc.targets hm hmove h.symm
    grind

/-- Merging two change sets follows each row through both. -/
theorem merge_spec {b c : CollectionChangeBuilder} (hb : b.Moved) (hc : c.Moved) :
    (b.merge c).Moved ∧
      (∀ i j, (b.merge c).Follows i j ↔ ∃ k, b.Follows i k ∧ c.Follows k j) ∧
      (∀ i k j, b.Follows i k → c.Follows k j → (b.merge c).modifications.contains j =
        (b.modifications.contains k || c.modifications.contains j)) ∧
      ∀ i k j, b.Keeps i k → c.Keeps k j → (b.merge c).Keeps i j := by
  rw [merge]
  split
  · rename_i hempty
    have hsame := fun i j => (follows_of_isEmpty hempty i j).mp
    refine ⟨hb, fun i j => by simp [follows_of_isEmpty hempty], fun i k j _ hkj => ?_,
      fun i k j hik hkj => hsame k j (Or.inl hkj) ▸ hik⟩
    rw [follows_of_isEmpty hempty] at hkj
    simp only [isEmpty, Bool.and_eq_true] at hempty
    rw [IndexSet.eq_empty hempty.1.2, hkj]
    exact (Bool.or_false _).symm
  · split
    · rename_i hempty
      have hsame := fun i j => (follows_of_isEmpty hempty i j).mp
      refine ⟨hc, fun i j => by simp [follows_of_isEmpty hempty], fun i k j _ hkj => ?_,
        fun i k j hik hkj => hsame i k (Or.inl hik) ▸ hkj⟩
      simp only [isEmpty, Bool.and_eq_true] at hempty
      rw [IndexSet.eq_empty hempty.1.2]
      exact (Bool.false_or _).symm
    · obtain ⟨htaken, holds, hmem⟩ := mem_updateOldMoves hb hc
      generalize updateOldMoves b c = r at htaken holds hmem ⊢
      obtain ⟨olds, c'⟩ := r
      dsimp only at *
      have hnews : ∀ m, m ∈ newMoves b c'.moves ↔
          m ∈ c.moves ∧ b.insertions.contains m.fromIndex = false := fun m => by
        rw [mem_newMoves, htaken.moves, and_assoc]
        refine and_congr_right fun _ => and_iff_right_of_imp fun hnot => ?_
        rintro ⟨old, hold, heq⟩
        rw [heq, hb.inserted old hold] at hnot
        cases hnot
      have hnodup : (newMoves b c'.moves).Nodup := by
        have hsub : (newMoves b c'.moves).Sublist c'.moves := by
          rw [newMoves]
          split
          · exact List.filter_sublist
          · exact List.Sublist.refl _
        exact (htaken.moved hc).sources.of_map.sublist hsub
      have hother : ∀ k, (movedModifications b (newMoves b c'.moves) c'.modifications).contains k =
          true ↔ c.modifications.contains k = true ∨
            ∃ m ∈ c.moves, ((∃ old ∈ b.moves, m.fromIndex = old.toIndex) ∨
              b.insertions.contains m.fromIndex = false) ∧
              b.modifications.contains m.fromIndex = true ∧ k = m.toIndex := fun k => by
        rw [mem_movedModifications, htaken.modifications]
        simp only [hnews]
        grind
      generalize hx : CollectionChangeBuilder.mk
        (b.deletions.addShiftedBy b.insertions c'.deletions) _ _ _ _ = x
      have hmerged : Merged b c x olds (newMoves b c'.moves) := by
        subst hx
        refine ⟨?_, ?_, ?_, ⟨holds, hnodup⟩, hmem, hnews⟩
        · rw [IndexSet.contains_addShiftedBy, htaken.deletions]
        · rw [IndexSet.contains_insertAtSet, IndexSet.contains_eraseAtSet, htaken.deletions,
            htaken.insertions]
        · rw [shiftSources_eq]
      obtain ⟨hmoved, hfollows, htracks⟩ := cleanUpStaleMoves_spec (hmerged.moved hb hc)
      refine ⟨hmoved, fun i j => (hfollows i j).trans (hmerged.follows i j), ?_, ?_⟩
      · intro i k j hik hkj
        have hmod := contains_merged hc hother hik hkj
        rw [← htaken.deletions, ← htaken.insertions] at hmod
        subst hx
        exact hmod
      · intro i k j hik hkj
        apply htracks
        rw [Keeps, hmerged.deletions, hmerged.insertions,
          tracks_trans_iff b.insertions.finite c.deletions.finite]
        exact ⟨k, hik, hkj⟩

theorem Carries.edits {b : CollectionChangeBuilder} {old new : List α} (h : b.Carries old new) :
    Edits b.deletions.contains b.insertions.contains old new :=
  (edits_iff b.deletions.finite b.insertions.finite).mpr fun i j ht => h i j (Or.inl ht)

/-! ## The lengths of the lists -/

theorem fits_of_edits {b : CollectionChangeBuilder} {old new : List α}
    (h : Edits b.deletions.contains b.insertions.contains old new)
    (hdel : ∀ i, b.deletions.contains i = true → i < old.length)
    (hins : ∀ j, b.insertions.contains j = true → j < new.length)
    (hmod : ∀ j, b.modifications.contains j = true → j < new.length) :
    b.Fits old.length new.length := by
  refine ⟨h.behind (fun i hi => ?_) (fun j hj => ?_), hmod⟩
  · apply Bool.eq_false_of_not_eq_true
    exact fun hmem => Nat.not_lt.mpr hi (hdel i hmem)
  · apply Bool.eq_false_of_not_eq_true
    exact fun hmem => Nat.not_lt.mpr hj (hins j hmem)

theorem fits_of_isEmpty {b : CollectionChangeBuilder} (h : b.isEmpty = true) (n : Nat) :
    b.Fits n n := by
  simp only [isEmpty, Bool.and_eq_true] at h
  refine ⟨fun k => ?_, fun j hj => ?_⟩
  · rw [Keeps, IndexSet.eq_empty h.1.1.1, IndexSet.eq_empty h.1.1.2]
    exact ⟨rfl, rfl, rfl⟩
  · rw [IndexSet.eq_empty h.1.2] at hj
    cases hj

theorem Fits.merge {b c : CollectionChangeBuilder} {n m l : Nat} (hb : b.Moved) (hc : c.Moved)
    (h : b.Fits n m) (h' : c.Fits m l) : (b.merge c).Fits n l := by
  obtain ⟨-, -, hmodified, hkeeps⟩ := merge_spec hb hc
  refine ⟨fun k => hkeeps _ _ _ (h.behind k) (h'.behind k), fun j hj => ?_⟩
  by_contra hge
  obtain ⟨k, rfl⟩ := Nat.exists_eq_add_of_le (Nat.le_of_not_lt hge)
  rw [hmodified _ _ _ (Or.inl (h.behind k)) (Or.inl (h'.behind k)), Bool.or_eq_true] at hj
  rcases hj with hj | hj
  · have := h.modifications _ hj
    omega
  · have := h'.modifications _ hj
    omega

theorem Fits.deletions {b : CollectionChangeBuilder} {n m i : Nat} (h : b.Fits n m)
    (hi : b.deletions.contains i = true) : i < n := by
  by_contra hge
  obtain ⟨k, rfl⟩ := Nat.exists_eq_add_of_le (Nat.le_of_not_lt hge)
  rw [(h.behind k).1] at hi
  cases hi

theorem Fits.insertions {b : CollectionChangeBuilder} {n m j : Nat} (h : b.Fits n m)
    (hj : b.insertions.contains j = true) : j < m := by
  by_contra hge
  obtain ⟨k, rfl⟩ := Nat.exists_eq_add_of_le (Nat.le_of_not_lt hge)
  rw [(h.behind k).2.1] at hj
  cases hj

/-- What is kept of one list is kept of the other. -/
theorem Fits.keeps_lt_iff {b : CollectionChangeBuilder} {n m i j : Nat} (h : b.Fits n m)
    (hij : b.Keeps i j) : i < n ↔ j < m := by
  constructor
  · intro hi
    by_contra hge
    obtain ⟨k, rfl⟩ := Nat.exists_eq_add_of_le (Nat.le_of_not_lt hge)
    have hsame := unshift_inj hij.1 (h.behind k).1 (hij.2.2.trans (h.behind k).2.2.symm)
    omega
  · intro hj
    by_contra hge
    obtain ⟨k, rfl⟩ := Nat.exists_eq_add_of_le (Nat.le_of_not_lt hge)
    have hsame := unshift_inj hij.2.1 (h.behind k).2.1 (hij.2.2.symm.trans (h.behind k).2.2)
    omega

/-- All sets that `merge` counts in are short: those by which rows are shifted back, and those that
stale moves are looked for in, which only get smaller. -/
structure Counted (b c : CollectionChangeBuilder) : Prop where
  removed : c.deletions.Short
  inserted : b.insertions.Short
  deletions : (b.deletions.addShiftedBy b.insertions c.deletions).Short
  insertions : ((b.insertions.eraseAtSet c.deletions).insertAtSet c.insertions).Short

/-- Between lists that are not too long, nothing else is counted. -/
theorem Fits.counted {b c : CollectionChangeBuilder} {n m l : Nat} (hb : b.Fits n m)
    (hc : c.Fits m l) (hn : n ≤ 2 * RangeChunks.maxSize) (hm : m ≤ 2 * RangeChunks.maxSize)
    (hl : l ≤ 2 * RangeChunks.maxSize) : Counted b c := by
  refine ⟨fun i hi => Nat.lt_of_lt_of_le (hc.deletions hi) hm,
    fun j hj => Nat.lt_of_lt_of_le (hb.insertions hj) hm, fun i hi => ?_, fun j hj => ?_⟩
  · rw [IndexSet.contains_addShiftedBy, insertAt, Bool.or_eq_true] at hi
    apply Nat.lt_of_lt_of_le _ hn
    cases hdel : b.deletions.contains i with
    | true => exact hb.deletions hdel
    | false =>
      have hmoved := hc.deletions (hi.resolve_left (by simp [hdel]))
      have hkept : b.Keeps i (shift b.insertions.contains (unshift b.deletions.contains i)) :=
        ⟨hdel, shift_not_mem b.insertions.finite _, (unshift_shift b.insertions.finite _).symm⟩
      exact (hb.keeps_lt_iff hkept).mpr hmoved
  · rw [IndexSet.contains_insertAtSet, IndexSet.contains_eraseAtSet, insertAt,
      Bool.or_eq_true] at hj
    apply Nat.lt_of_lt_of_le _ hl
    cases hins : c.insertions.contains j with
    | true => exact hc.insertions hins
    | false =>
      have hmoved := hb.insertions (hj.resolve_left (by simp [hins]))
      have hkept : c.Keeps (shift c.deletions.contains (unshift c.insertions.contains j)) j :=
        ⟨shift_not_mem c.deletions.finite _, hins, unshift_shift c.deletions.finite _⟩
      exact (hc.keeps_lt_iff hkept).mp hmoved

/-! ## Delivery -/

theorem contains_modificationsNew (b : CollectionChangeBuilder) (j : Nat) :
    b.finalize.modificationsNew.contains j = true ↔
      b.modifications.contains j = true ∧ b.insertions.contains j = false := by
  rw [finalize, IndexSet.contains_removeSet]
  simp

theorem contains_modificationsOld (b : CollectionChangeBuilder) (i : Nat) :
    b.finalize.modifications.contains i = true ↔
      ∃ j, Tracks b.deletions.contains b.insertions.contains i j ∧
        b.modifications.contains j = true := by
  rw [finalize, IndexSet.contains_shiftForInsertAtSet, IndexSet.contains_eraseAtSet,
    shiftForInsertAt, Bool.and_eq_true, Bool.not_eq_true', eraseAt]
  constructor
  · rintro ⟨hi, hmod⟩
    refine ⟨_, ⟨hi, shift_not_mem b.insertions.finite _, ?_⟩, hmod⟩
    exact (unshift_shift b.insertions.finite _).symm
  · rintro ⟨j, ⟨hi, hj, hrank⟩, hmod⟩
    rw [hrank, shift_unshift hj]
    exact ⟨hi, hmod⟩

end CollectionChangeBuilder

end CollectionChangeBuilders
