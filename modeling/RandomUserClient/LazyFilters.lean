import Mathlib.Data.List.Basic

/-!
# Lazily filtered collections

A lazy filter keeps the collection below it and a predicate, and is evaluated on
what the collection holds at that time. It counts the elements that pass, but it
is indexed like the collection below. The two fit together as long as every
element there passes.
-/

namespace LazyFilters

variable {σ α : Type}

/-- A lazy filter over a collection whose contents depend on a state. -/
structure LazyFilterSequence (σ α : Type) where
  base : σ → List α
  isIncluded : α → Bool

namespace LazyFilterSequence

/-- The number of elements that pass. -/
def count (sequence : LazyFilterSequence σ α) (s : σ) : Nat :=
  (sequence.base s).countP sequence.isIncluded

/-- The subscript takes an index of the base; `none` is an index out of range. -/
def get? (sequence : LazyFilterSequence σ α) (s : σ) (index : Nat) : Option α :=
  (sequence.base s)[index]?

theorem count_eq_length {sequence : LazyFilterSequence σ α} {s : σ}
    (h : ∀ a ∈ sequence.base s, sequence.isIncluded a = true) :
    sequence.count s = (sequence.base s).length :=
  List.countP_eq_length.mpr h

end LazyFilterSequence

/-- The element at a position of a filtered list is the one that passes with that many before it
that pass. -/
theorem getElem?_filter_iff (p : α → Bool) {l : List α} {n : Nat} {a : α} :
    (l.filter p)[n]? = some a ↔
      ∃ i, l[i]? = some a ∧ p a = true ∧ (l.take i).countP p = n := by
  induction l generalizing n with
  | nil => simp
  | cons x l ih =>
    -- the head is at index 0 of the list, all others at an index of the tail plus one
    rw [← Nat.or_exists_add_one]
    simp only [List.getElem?_cons_zero, List.getElem?_cons_succ, List.take_zero, List.countP_nil,
      List.take_succ_cons, List.countP_cons, Option.some.injEq]
    by_cases hx : p x = true
    · rw [List.filter_cons_of_pos hx]
      cases n with
      | zero =>
        rw [List.getElem?_cons_zero, Option.some.injEq]
        constructor
        · rintro rfl
          exact Or.inl ⟨rfl, hx, rfl⟩
        · rintro (⟨rfl, -, -⟩ | ⟨i, -, -, hcount⟩)
          · rfl
          · simp [hx] at hcount
      | succ n =>
        rw [List.getElem?_cons_succ, ih]
        simp [hx]
    · rw [List.filter_cons_of_neg hx, ih]
      simp only [hx]
      refine (or_iff_right ?_).symm
      rintro ⟨rfl, ha, -⟩
      exact hx ha

end LazyFilters
