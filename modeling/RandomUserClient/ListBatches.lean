import Mathlib.Data.List.Nodup
import Mathlib.Data.List.Perm.Basic

/-!
# Batch updates of a list on screen

A table view keeps its own rows and is told what changed: the old positions of
the items that left and of those that were modified, and the new positions of
the items that came. The table can follow only if its own row count fits.
-/

namespace ListBatches

variable {α : Type} [DecidableEq α]

/-- Positions in the old list, in the new list, and in the old list again. -/
structure Batch where
  deletions : List Nat
  insertions : List Nat
  modifications : List Nat
  deriving DecidableEq, Repr

/-- The difference between two contents, when the items of `touched` were modified. -/
def between (old new touched : List α) : Batch where
  deletions := old.findIdxs fun x => x ∉ new
  insertions := new.findIdxs fun x => x ∉ old
  modifications := old.findIdxs fun x => x ∈ new ∧ x ∈ touched

def Batch.IsEmpty (b : Batch) : Prop :=
  b.deletions = [] ∧ b.insertions = [] ∧ b.modifications = []

instance (b : Batch) : Decidable b.IsEmpty :=
  inferInstanceAs (Decidable (b.deletions = [] ∧ b.insertions = [] ∧ b.modifications = []))

/-- The number of rows before the batch, minus the deletions, plus the insertions, is the number
of rows asked for. -/
def Batch.Consistent (b : Batch) (before after : Nat) : Prop :=
  before + b.insertions.length = after + b.deletions.length

instance (b : Batch) (before after : Nat) : Decidable (b.Consistent before after) :=
  inferInstanceAs (Decidable (before + b.insertions.length = after + b.deletions.length))

variable {β : Type}

def reloadRows (positions : List Nat) (rows : List (Option β)) : List (Option β) :=
  rows.mapIdx fun i row => if i ∈ positions then none else row

def deleteRows (positions : List Nat) (rows : List (Option β)) : List (Option β) :=
  (rows.zipIdx.filter fun row => row.2 ∉ positions).map (·.1)

/-- `n` rows from position `i` on: fresh ones at the given positions, the kept ones around them. -/
def insertRows (positions : List Nat) : Nat → Nat → List (Option β) → List (Option β)
  | _, 0, _ => []
  | i, n + 1, rows =>
    if i ∈ positions then none :: insertRows positions (i + 1) n rows
    else rows.headD none :: insertRows positions (i + 1) n rows.tail

/-- The rows after a consistent batch. -/
def Batch.apply (b : Batch) (after : Nat) (rows : List (Option β)) : List (Option β) :=
  insertRows b.insertions 0 after (deleteRows b.deletions (reloadRows b.modifications rows))

theorem length_insertRows (positions : List Nat) (i n : Nat) (rows : List (Option β)) :
    (insertRows positions i n rows).length = n := by
  induction n generalizing i rows with
  | zero => rfl
  | succ n ih =>
    unfold insertRows
    split <;> rw [List.length_cons, ih]

@[simp] theorem length_apply (b : Batch) (after : Nat) (rows : List (Option β)) :
    (b.apply after rows).length = after :=
  length_insertRows _ _ _ _

theorem insertRows_nil (i : Nat) (rows : List (Option β)) :
    insertRows [] i rows.length rows = rows := by
  induction rows generalizing i with
  | nil => rfl
  | cons row rows ih => simp [insertRows, ih]

theorem deleteRows_nil (rows : List (Option β)) : deleteRows [] rows = rows := by
  simp [deleteRows]

/-- A batch of modifications only moves no row. -/
theorem apply_modifications {b : Batch} (hd : b.deletions = []) (hi : b.insertions = [])
    (rows : List (Option β)) : b.apply rows.length rows = reloadRows b.modifications rows := by
  have hlen : rows.length = (reloadRows b.modifications rows).length := by simp [reloadRows]
  rw [Batch.apply, hd, hi, deleteRows_nil, hlen, insertRows_nil]

/-- The items common to two lists without repetitions are as many in the one as in the other. -/
theorem countP_mem_comm {old new : List α} (ho : old.Nodup) (hn : new.Nodup) :
    old.countP (fun x => x ∈ new) = new.countP (fun x => x ∈ old) := by
  rw [List.countP_eq_length_filter, List.countP_eq_length_filter]
  refine List.Perm.length_eq ((List.perm_ext_iff_of_nodup (ho.filter _) (hn.filter _)).mpr ?_)
  intro x
  simp [and_comm]

theorem length_split (l k : List α) :
    l.length = l.countP (fun x => x ∈ k) + l.countP (fun x => x ∉ k) := by
  rw [List.length_eq_countP_add_countP fun x => decide (x ∈ k)]
  simp

/-- So a difference fits a table exactly when the table has as many rows as the old contents. -/
theorem consistent_between_iff {old new : List α} (ho : old.Nodup) (hn : new.Nodup)
    (touched : List α) (before : Nat) :
    (between old new touched).Consistent before new.length ↔ before = old.length := by
  have hold := length_split old new
  have hnew := length_split new old
  have hcommon := countP_mem_comm ho hn
  simp only [Batch.Consistent, between, List.length_findIdxs]
  omega

/-! ## Positions in a filtered list -/

/-- An item is at position `i` of the filtered list when it passes the filter and `i` of the items
before it do. -/
theorem getElem?_filter_eq_some {l : List α} (hl : l.Nodup) {p : α → Bool} {i : Nat} {a : α} :
    (l.filter p)[i]? = some a ↔
      a ∈ l ∧ p a = true ∧ (l.takeWhile fun x => x ≠ a).countP p = i := by
  induction l generalizing i with
  | nil => simp
  | cons x l ih =>
    obtain ⟨hx, hl⟩ := List.nodup_cons.mp hl
    by_cases hxa : x = a
    · subst hxa
      have hno : ∀ j, (l.filter p)[j]? ≠ some x := fun j hj =>
        hx (List.mem_filter.mp (List.mem_of_getElem? hj)).1
      by_cases hp : p x = true
      · cases i with
        | zero => simp [hp]
        | succ i => simp [hp, hno]
      · simp [hp, hno]
    · have htake : (x :: l).takeWhile (fun y => y ≠ a) = x :: l.takeWhile fun y => y ≠ a := by
        simp [hxa]
      rw [htake, List.countP_cons]
      have hmem : a ∈ x :: l ↔ a ∈ l := by simp [Ne.symm hxa]
      rw [hmem]
      by_cases hp : p x = true
      · cases i with
        | zero => simp [hp, hxa]
        | succ i => simp [hp, ih hl]
      · simp [hp, ih hl]

end ListBatches
