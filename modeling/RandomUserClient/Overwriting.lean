import Mathlib.Data.Set.Defs
import Mathlib.Logic.Function.Basic

/-!
# Overwriting what was there

A memory that is used again is overwritten place by place. What can be seen of
it afterwards does not depend on what it held exactly when every place that can
be seen is written, provided that the places could have held different things.
-/

namespace Overwriting

variable {κ α : Type} [DecidableEq κ]

/-- Make the writes one after another. -/
def assign : List (κ × α) → (κ → α) → κ → α
  | [], t => t
  | (k, a) :: writes, t => assign writes (Function.update t k a)

/-- The places that are written. -/
def written (writes : List (κ × α)) : List κ := writes.map Prod.fst

theorem assign_other {writes : List (κ × α)} {k : κ} (h : k ∉ written writes) (t : κ → α) :
    assign writes t k = t k := by
  induction writes generalizing t with
  | nil => rfl
  | cons w writes ih =>
    have hk : k ≠ w.1 ∧ k ∉ written writes := by simpa [written] using h
    rw [assign, ih hk.2, Function.update_of_ne hk.1]

theorem assign_same {writes : List (κ × α)} {k : κ} (h : k ∈ written writes) (t t' : κ → α) :
    assign writes t k = assign writes t' k := by
  induction writes generalizing t t' with
  | nil => cases h
  | cons w writes ih =>
    by_cases hk : k ∈ written writes
    · exact ih hk _ _
    · have hw : k = w.1 := by
        rw [written, List.map_cons, List.mem_cons] at h
        exact h.resolve_right hk
      rw [assign, assign, assign_other hk, assign_other hk, hw, Function.update_self,
        Function.update_self]

/-- What the writes leave is the same from all memories in `S` exactly when they reach every place
that can be seen. -/
theorem forgets_iff {S : Set (κ → α)} {writes : List (κ × α)} {seen : List κ}
    (hvary : ∀ k ∈ seen, ∃ t ∈ S, ∃ t' ∈ S, t k ≠ t' k) :
    (∀ t ∈ S, ∀ t' ∈ S, ∀ k ∈ seen, assign writes t k = assign writes t' k) ↔
      ∀ k ∈ seen, k ∈ written writes := by
  constructor
  · intro h k hk
    by_contra hno
    obtain ⟨t, ht, t', ht', hne⟩ := hvary k hk
    have hsame := h t ht t' ht' k hk
    rw [assign_other hno, assign_other hno] at hsame
    exact hne hsame
  · intro h t _ t' _ k hk
    exact assign_same (h k hk) t t'

end Overwriting
