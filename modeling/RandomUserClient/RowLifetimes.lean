import Mathlib.Logic.Basic

/-!
# Lifetimes of rows

A row is more than its key: a key that is deleted and used again names another
row. A row is known here by the commit that created it. A commit keeps the rows
there are and may add some; a wipe deletes them all. An object held since an
earlier version is valid in a later one exactly when no wipe lies between.
-/

namespace RowLifetimes

variable {κ : Type}

structure Lifetimes (κ : Type) where
  born : κ → Option Nat
  commits : Nat
  wipes : Nat

namespace Lifetimes

def start : Lifetimes κ := ⟨fun _ => none, 0, 0⟩

/-- A commit that deletes every row. -/
def wipe (l : Lifetimes κ) : Lifetimes κ := ⟨fun _ => none, l.commits + 1, l.wipes + 1⟩

/-- Every row was created by a commit of the past. -/
def Past (l : Lifetimes κ) : Prop := ∀ k i, l.born k = some i → i < l.commits

/-- `w` is `v` or a version after it. -/
structure Later (v w : Lifetimes κ) : Prop where
  past : Past v
  wipes : v.wipes ≤ w.wipes
  commits : v.commits ≤ w.commits
  row : ∀ k i, v.born k = some i → (w.born k = some i ↔ w.wipes = v.wipes)

theorem past_start : Past (start : Lifetimes κ) := by
  intro k i h
  cases h

theorem past_wipe (l : Lifetimes κ) : Past l.wipe := by
  intro k i h
  cases h

theorem Past.later {l : Lifetimes κ} (h : Past l) : Later l l where
  past := h
  wipes := Nat.le_refl _
  commits := Nat.le_refl _
  row := fun _ _ hb => iff_of_true hb rfl

theorem Later.wipe {v w : Lifetimes κ} (h : Later v w) : Later v w.wipe where
  past := h.past
  wipes := Nat.le_succ_of_le h.wipes
  commits := Nat.le_succ_of_le h.commits
  row := by
    intro k i _
    have hw := h.wipes
    simp only [Lifetimes.wipe, reduceCtorEq, false_iff]
    omega

variable [DecidableEq κ]

/-- A commit after which the keys are `keys`, without a deletion. -/
def commit (keys : List κ) (l : Lifetimes κ) : Lifetimes κ where
  born k := if k ∈ keys then some ((l.born k).getD l.commits) else none
  commits := l.commits + 1
  wipes := l.wipes

theorem isSome_born_commit (keys : List κ) (l : Lifetimes κ) (k : κ) :
    ((l.commit keys).born k).isSome ↔ k ∈ keys := by
  by_cases hk : k ∈ keys <;> simp [commit, hk]

theorem Past.commit {l : Lifetimes κ} (h : Past l) (keys : List κ) : Past (l.commit keys) := by
  intro k i hb
  simp only [Lifetimes.commit, Option.ite_none_right_eq_some, Option.some.injEq] at hb
  obtain ⟨-, rfl⟩ := hb
  cases hl : l.born k with
  | none => exact Nat.lt_succ_self _
  | some j => exact Nat.lt_succ_of_lt (h k j hl)

/-- A commit that deletes nothing changes the validity of no object. -/
theorem Later.commit {v w : Lifetimes κ} (h : Later v w) {keys : List κ}
    (hkeep : ∀ k, (w.born k).isSome → k ∈ keys) : Later v (w.commit keys) where
  past := h.past
  wipes := h.wipes
  commits := Nat.le_succ_of_le h.commits
  row := by
    intro k i hv
    have hold : i < w.commits := Nat.lt_of_lt_of_le (h.past k i hv) h.commits
    have hborn : (w.commit keys).born k = some i ↔ w.born k = some i := by
      cases hw : w.born k with
      | none =>
        -- a row added under this key is a new one
        by_cases hk : k ∈ keys
        · simp only [Lifetimes.commit, hk, hw, if_true, Option.getD_none, Option.some.injEq,
            reduceCtorEq, iff_false]
          omega
        · simp [Lifetimes.commit, hk]
      | some j =>
        have hk : k ∈ keys := hkeep k (by rw [hw]; rfl)
        simp only [Lifetimes.commit, hk, hw, if_true, Option.getD_some]
    exact hborn.trans (h.row k i hv)

end Lifetimes

end RowLifetimes
