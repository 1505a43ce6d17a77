import Mathlib.Algebra.Order.BigOperators.Group.Finset
import Mathlib.Order.Interval.Finset.Nat

/-!
# A cursor that counts

A feed is cut into pages of `n` items, no item on two pages. A collection that
is filled page by page keeps no cursor: it divides the number of items it holds
by `n`. That number names the next page only as long as the items are those of
the first pages, with none left out.
-/

namespace PagedCursor

variable {α : Type} [DecidableEq α]

/-- Pages from 1 on, of `n` items each and without a common item. -/
structure Paged (n : Nat) (page : Nat → Finset α) : Prop where
  pos : 0 < n
  card : ∀ p, 1 ≤ p → (page p).card = n
  apart : ∀ p q, 1 ≤ p → 1 ≤ q → p ≠ q → Disjoint (page p) (page q)

/-- The items of pages 1 to m. -/
def upTo (page : Nat → Finset α) (m : Nat) : Finset α := (Finset.Icc 1 m).biUnion page

/-- Pages 1 to m and nothing else but items of the page behind them. -/
def NoHole (page : Nat → Finset α) (K : Finset α) : Prop :=
  ∃ m, upTo page m ⊆ K ∧ K ⊆ upTo page (m + 1)

theorem mem_upTo {page : Nat → Finset α} {m : Nat} {x : α} :
    x ∈ upTo page m ↔ ∃ p, 1 ≤ p ∧ p ≤ m ∧ x ∈ page p := by
  simp only [upTo, Finset.mem_biUnion, Finset.mem_Icc, and_assoc]

theorem upTo_mono (page : Nat → Finset α) {l m : Nat} (h : l ≤ m) :
    upTo page l ⊆ upTo page m := by
  intro x hx
  obtain ⟨p, hp, hl, hx⟩ := mem_upTo.mp hx
  exact mem_upTo.mpr ⟨p, hp, Nat.le_trans hl h, hx⟩

@[simp] theorem upTo_one (page : Nat → Finset α) : upTo page 1 = page 1 := by
  simp [upTo]

/-- Whatever part of the first page is there, there is no hole. -/
theorem noHole_first {page : Nat → Finset α} {K : Finset α} (h : K ⊆ page 1) : NoHole page K := by
  refine ⟨0, Finset.empty_subset K, ?_⟩
  rw [upTo_one]
  exact h

variable {n : Nat} {page : Nat → Finset α}

namespace Paged

theorem card_upTo (h : Paged n page) (m : Nat) : (upTo page m).card = n * m := by
  have hdis : ((Finset.Icc 1 m : Finset Nat) : Set Nat).PairwiseDisjoint page := by
    intro p hp q hq hne
    exact h.apart p q (Finset.mem_Icc.mp hp).1 (Finset.mem_Icc.mp hq).1 hne
  have hall : ∀ p ∈ Finset.Icc 1 m, (page p).card = n := fun p hp =>
    h.card p (Finset.mem_Icc.mp hp).1
  rw [upTo, Finset.card_biUnion hdis, Finset.sum_congr rfl hall]
  simp [Nat.mul_comm]

/-- An item of a page is on none of the pages before it. -/
theorem not_mem_upTo (h : Paged n page) {p m : Nat} {x : α} (hx : x ∈ page p) (hm : m < p) :
    x ∉ upTo page m := by
  intro hu
  obtain ⟨q, hq, hqm, hxq⟩ := mem_upTo.mp hu
  have hdis := h.apart p q (by omega) hq (by omega)
  exact Finset.disjoint_left.mp hdis hx hxq

/-- An item behind a missing one is a hole. -/
theorem hole (h : Paged n page) {K : Finset α} {p q : Nat} {x y : α} (hq : 1 ≤ q) (hqp : q < p)
    (hx : x ∈ page p) (hxK : x ∈ K) (hy : y ∈ page q) (hyK : y ∉ K) : ¬ NoHole page K := by
  rintro ⟨m, hlow, hhigh⟩
  by_cases hm : q ≤ m
  · exact hyK (hlow (mem_upTo.mpr ⟨q, hq, hm, hy⟩))
  · exact h.not_mem_upTo hx (by omega : m + 1 < p) (hhigh hxK)

/-- Without a hole, the count names the page that is being filled. -/
theorem noHole_count (h : Paged n page) {K : Finset α} (hK : NoHole page K) :
    upTo page (K.card / n) ⊆ K ∧ K ⊆ upTo page (K.card / n + 1) := by
  obtain ⟨m, hlow, hhigh⟩ := hK
  have hge : n * m ≤ K.card := by
    rw [← h.card_upTo m]
    exact Finset.card_le_card hlow
  have hle : K.card ≤ n * (m + 1) := by
    rw [← h.card_upTo (m + 1)]
    exact Finset.card_le_card hhigh
  by_cases hfull : K.card = n * (m + 1)
  · have hall : K = upTo page (m + 1) :=
      Finset.eq_of_subset_of_card_le hhigh (by rw [h.card_upTo, hfull])
    have hdiv : K.card / n = m + 1 := by rw [hfull, Nat.mul_div_cancel_left _ h.pos]
    rw [hdiv, ← hall]
    refine ⟨Finset.Subset.refl K, ?_⟩
    rw [hall]
    exact upTo_mono page (Nat.le_succ _)
  · have hdiv : K.card / n = m := by
      refine Nat.div_eq_of_lt_le ?_ ?_
      · rw [Nat.mul_comm]; exact hge
      · rw [Nat.mul_comm]; exact Nat.lt_of_le_of_ne hle hfull
    rw [hdiv]
    exact ⟨hlow, hhigh⟩

/-- One more item makes no hole exactly when it is on one of the pages up to the one the count
names. -/
theorem noHole_insert_iff (h : Paged n page) {K : Finset α} (hK : NoHole page K) (x : α) :
    NoHole page (insert x K) ↔ x ∈ upTo page (K.card / n + 1) := by
  obtain ⟨hlow, hhigh⟩ := h.noHole_count hK
  constructor
  · intro hx
    by_cases hmem : x ∈ K
    · exact hhigh hmem
    · obtain ⟨hlow', hhigh'⟩ := h.noHole_count hx
      rw [Finset.card_insert_of_notMem hmem] at hlow' hhigh'
      by_cases hdiv : (K.card + 1) / n = K.card / n
      · rw [hdiv] at hhigh'
        exact hhigh' (Finset.mem_insert_self x K)
      · -- the item fills the page up, so the collection is all of the pages so far
        have hmod : (K.card + 1) / n = K.card / n + if n ∣ K.card + 1 then 1 else 0 := Nat.succ_div
        have hdvd : n ∣ K.card + 1 := by
          by_contra hno
          rw [if_neg hno] at hmod
          exact hdiv hmod
        rw [if_pos hdvd] at hmod
        rw [hmod] at hlow'
        have hcard : (insert x K).card ≤ (upTo page (K.card / n + 1)).card := by
          rw [h.card_upTo, ← hmod, Nat.mul_div_cancel' hdvd, Finset.card_insert_of_notMem hmem]
        rw [Finset.eq_of_subset_of_card_le hlow' hcard]
        exact Finset.mem_insert_self x K
  · intro hx
    exact ⟨K.card / n, hlow.trans (Finset.subset_insert x K), Finset.insert_subset hx hhigh⟩

end Paged

end PagedCursor
