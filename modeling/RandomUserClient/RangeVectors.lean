import RandomUserClient.ListEdits

/-!
# Vectors of ranges

A set of indices is kept as a vector of ranges that are not empty and do not
touch, in order, so that a set has one form only. Each operation on the ranges
comes with what it does to the set. The ranges are in one vector here, as they
are while there is one chunk of them.
-/

namespace RangeVectors

structure Range where
  first : Nat
  second : Nat
  deriving DecidableEq, Repr

/-- `verify()`: the ranges are not empty, and each begins behind the end of the one before it. -/
def Verified : Nat → List Range → Prop
  | _, [] => True
  | n, r :: rs => n ≤ r.first ∧ r.first < r.second ∧ Verified (r.second + 1) rs

/-! ## Vectors of ranges -/

namespace Ranges

/-- The first range that ends behind the index has it, or none does. -/
def contains : List Range → Nat → Bool
  | [], _ => false
  | r :: rs, index => if index < r.second then decide (r.first ≤ index) else contains rs index

/-- The number of indices from `start` on and below `stop`. -/
def count : List Range → Nat → Nat → Nat
  | [], _, _ => 0
  | r :: rs, start, stop =>
    if r.second ≤ start then count rs start stop
    else if stop ≤ r.first then 0
    else min r.second stop - max r.first start + count rs start stop

def shift : List Range → Nat → Nat
  | [], index => index
  | r :: rs, index => if index < r.first then index else shift rs (index + (r.second - r.first))

/-- `find` and `do_add`: the index may extend a range, or join two. -/
def add : List Range → Nat → List Range
  | [], index => [⟨index, index + 1⟩]
  | r :: rs, index =>
    if index < r.first then
      if index + 1 = r.first then ⟨index, r.second⟩ :: rs else ⟨index, index + 1⟩ :: r :: rs
    else if index < r.second then r :: rs
    else if index = r.second then
      match rs with
      | [] => [⟨r.first, index + 1⟩]
      | s :: rs' =>
        if index + 1 = s.first then ⟨r.first, s.second⟩ :: rs'
        else ⟨r.first, index + 1⟩ :: s :: rs'
    else r :: add rs index

/-- `shift(n)` of every range. -/
def shiftBy (n : Nat) (rs : List Range) : List Range :=
  rs.map fun r => ⟨r.first + n, r.second + n⟩

/-- `shift(-1)` of every range. -/
def shiftBack (rs : List Range) : List Range := rs.map fun r => ⟨r.first - 1, r.second - 1⟩

/-- The first part of `insert_at`: the range with the index grows, and those behind it move. -/
def grow : List Range → Nat → Nat → List Range
  | [], _, _ => []
  | r :: rs, index, n =>
    if index < r.second then
      if r.first ≤ index then ⟨r.first, r.second + n⟩ :: shiftBy n rs else shiftBy n (r :: rs)
    else r :: grow rs index n

def shiftForInsertAt : List Range → Nat → Nat → List Range
  | [], _, _ => []
  | r :: rs, index, n =>
    if index < r.second then
      if r.first < index then ⟨r.first, index⟩ :: ⟨index + n, r.second + n⟩ :: shiftBy n rs
      else shiftBy n (r :: rs)
    else r :: shiftForInsertAt rs index n

/-- `do_erase`: the range with the index shrinks, or is erased; two ranges with the index between
them become one. -/
def eraseAt : List Range → Nat → List Range
  | [], _ => []
  | r :: rs, index =>
    if index < r.first then shiftBack (r :: rs)
    else if index < r.second then
      if r.first + 1 = r.second then shiftBack rs
      else ⟨r.first, r.second - 1⟩ :: shiftBack rs
    else match rs with
      | [] => [r]
      | s :: rs' =>
        if index < s.first ∧ r.second + 1 = s.first then
          ⟨r.first, r.second + (s.second - s.first)⟩ :: shiftBack rs'
        else r :: eraseAt (s :: rs') index

/-- `do_remove` of the indices from `start` on and below `stop`. -/
def remove : List Range → Nat → Nat → List Range
  | [], _, _ => []
  | r :: rs, start, stop =>
    if r.second ≤ start then r :: remove rs start stop
    else if stop ≤ r.first then r :: rs
    else if r.first < start then
      if stop < r.second then ⟨r.first, start⟩ :: ⟨stop, r.second⟩ :: rs
      else ⟨r.first, start⟩ :: remove rs start stop
    else if r.second ≤ stop then remove rs start stop
    else ⟨stop, r.second⟩ :: rs

/-- `do_remove` of one range after another. -/
def removeAll (l values : List Range) : List Range :=
  values.foldl (fun l r => remove l r.first r.second) l

/-- The indices one after another. -/
def asIndexes (rs : List Range) : List Nat :=
  rs.flatMap fun r => List.range' r.first (r.second - r.first)

/-- The ranges that a builder has been given, the touching ones joined; `back` is the last one it
has so far. -/
def joined : Range → List Range → List Range
  | back, [] => [back]
  | back, r :: rs =>
    if r.first = back.second then joined ⟨back.first, r.second⟩ rs else back :: joined r rs

/-- A builder after `push_back` of each of the ranges. -/
def build : List Range → List Range
  | [] => []
  | r :: rs => joined r rs

/-- `push_back` of an index. -/
def single (index : Nat) : Range := ⟨index, index + 1⟩

end Ranges

open Ranges

/-! ## What the operations on ranges do -/

theorem Verified.mono {m n : Nat} {l : List Range} (h : Verified n l) (hm : m ≤ n) :
    Verified m l := by
  cases l with
  | nil => trivial
  | cons r rs => exact ⟨Nat.le_trans hm h.1, h.2⟩

theorem verified_le {n : Nat} {l : List Range} (h : Verified n l) {r : Range} (hr : r ∈ l) :
    n ≤ r.second := by
  induction l generalizing n with
  | nil => cases hr
  | cons s ss ih =>
    rcases List.mem_cons.mp hr with rfl | hr
    · exact Nat.le_trans h.1 (Nat.le_of_lt h.2.1)
    · exact Nat.le_trans (by have := h.1; have := h.2.1; omega) (ih h.2.2 hr)

theorem contains_of_lt {n : Nat} {l : List Range} (h : Verified n l) {index : Nat}
    (hlt : index < n) : contains l index = false := by
  cases l with
  | nil => rfl
  | cons r rs =>
    obtain ⟨hn, hr, -⟩ := h
    rw [contains, if_pos (by omega)]
    exact decide_eq_false (by omega)

theorem contains_of_head {n : Nat} {l : List Range} {front : Range} (h : Verified n l)
    (hfront : l.head? = some front) {index : Nat} (hlt : index < front.first) :
    contains l index = false := by
  cases l with
  | nil => cases hfront
  | cons r rs =>
    obtain rfl := Option.some.inj hfront
    have hall : Verified r.first (r :: rs) := ⟨Nat.le_refl r.first, h.2⟩
    exact contains_of_lt hall hlt

theorem contains_of_last {n : Nat} {l : List Range} {back : Range} (h : Verified n l)
    (hback : l.getLast? = some back) {index : Nat} (hle : back.second ≤ index) :
    contains l index = false := by
  induction l generalizing n with
  | nil => cases hback
  | cons r rs ih =>
    obtain ⟨hn, hr, hrs⟩ := h
    cases rs with
    | nil =>
      have hsame : r = back := Option.some.inj hback
      rw [contains, hsame, if_neg (Nat.not_lt.mpr hle), contains]
    | cons s ss =>
      have hlast := hback
      rw [List.getLast?_cons_cons] at hlast
      have hrest := ih hrs hlast
      rw [contains, hrest]
      split
      · rename_i hlt
        have hend : r.second ≤ back.second := by
          have hmem := List.mem_of_getLast? hlast
          have := verified_le hrs hmem
          omega
        omega
      · rfl

theorem contains_of_mem_last {n : Nat} {l : List Range} {back : Range} (h : Verified n l)
    (hback : l.getLast? = some back) : contains l (back.second - 1) = true := by
  induction l generalizing n with
  | nil => cases hback
  | cons r rs ih =>
    obtain ⟨hn, hr, hrs⟩ := h
    cases rs with
    | nil =>
      have hsame : r = back := Option.some.inj hback
      rw [contains, ← hsame, if_pos (by omega)]
      exact decide_eq_true (by omega)
    | cons s ss =>
      rw [List.getLast?_cons_cons] at hback
      have hin := ih hrs hback
      rw [contains, if_neg, hin]
      intro hlt
      rw [contains_of_lt hrs (by omega)] at hin
      cases hin

/-- There are no indices behind the last range. -/
theorem contains_bounded (l : List Range) : ∃ n, ∀ index, n ≤ index → contains l index = false := by
  induction l with
  | nil => exact ⟨0, fun _ _ => rfl⟩
  | cons r rs ih =>
    obtain ⟨n, hn⟩ := ih
    refine ⟨max n r.second, fun index hi => ?_⟩
    rw [contains, if_neg (by omega)]
    exact hn index (by omega)

/-- Two vectors of ranges with the same indices are the same. -/
theorem ranges_unique {m n : Nat} {l k : List Range} (hl : Verified m l) (hk : Verified n k)
    (h : ∀ index, contains l index = contains k index) : l = k := by
  induction l generalizing m n k with
  | nil =>
    cases k with
    | nil => rfl
    | cons s ss =>
      obtain ⟨-, hs, -⟩ := hk
      have := h s.first
      simp [contains, hs] at this
  | cons r rs ih =>
    cases k with
    | nil =>
      obtain ⟨-, hr, -⟩ := hl
      have := h r.first
      simp [contains, hr] at this
    | cons s ss =>
      obtain ⟨-, hr, hrs⟩ := hl
      obtain ⟨-, hs, hss⟩ := hk
      have hr' : ∀ i ≤ r.second, contains rs i = false := fun i hi =>
        contains_of_lt hrs (by omega)
      have hs' : ∀ i ≤ s.second, contains ss i = false := fun i hi =>
        contains_of_lt hss (by omega)
      -- the first range begins at the least index and ends at the first one that is missing
      have hfirst : r.first = s.first := by
        have h₁ := h r.first
        have h₂ := h s.first
        simp only [contains] at h₁ h₂
        grind
      have hsecond : r.second = s.second := by
        have h₁ := h r.second
        have h₂ := h s.second
        simp only [contains] at h₁ h₂
        grind
      have hrest : rs = ss := by
        refine ih hrs hss fun i => ?_
        have hi := h i
        simp only [contains] at hi
        grind
      rw [hrest, show r = s by cases r; cases s; simp_all]

theorem verified_add {n index : Nat} {l : List Range} (h : Verified n l) (hn : n ≤ index) :
    Verified n (add l index) := by
  fun_induction add generalizing n with
  | case1 index => exact ⟨hn, Nat.lt_succ_self _, trivial⟩
  | _ => grind [Verified, Verified.mono]

theorem contains_add {n index : Nat} {l : List Range} (h : Verified n l) (k : Nat) :
    contains (add l index) k = (decide (k = index) || contains l k) := by
  fun_induction add generalizing n with
  | _ => grind [Verified, contains, contains_of_lt]

theorem verified_shiftBy {n : Nat} (m : Nat) {l : List Range} (h : Verified n l) :
    Verified (n + m) (shiftBy m l) := by
  induction l generalizing n with
  | nil => trivial
  | cons r rs ih =>
    obtain ⟨hn, hr, hrs⟩ := h
    exact ⟨Nat.add_le_add_right hn m, Nat.add_lt_add_right hr m,
      (ih hrs).mono (by dsimp only; omega)⟩

theorem contains_shiftBy {n : Nat} (m : Nat) {l : List Range} (h : Verified n l) (k : Nat) :
    contains (shiftBy m l) k = (decide (m ≤ k) && contains l (k - m)) := by
  induction l generalizing n with
  | nil => exact (Bool.and_false _).symm
  | cons r rs ih =>
    obtain ⟨hn, hr, hrs⟩ := h
    have hrest : contains (rs.map fun r => ⟨r.first + m, r.second + m⟩) k = _ := ih hrs
    simp only [shiftBy, List.map_cons, contains, hrest]
    grind

theorem verified_shiftBack {n : Nat} {l : List Range} (h : Verified (n + 1) l) :
    Verified n (shiftBack l) := by
  induction l generalizing n with
  | nil => trivial
  | cons r rs ih =>
    obtain ⟨hn, hr, hrs⟩ := h
    refine ⟨by dsimp only; omega, by dsimp only; omega, (ih hrs).mono (by dsimp only; omega)⟩

theorem contains_shiftBack {n : Nat} {l : List Range} (h : Verified (n + 1) l) (k : Nat) :
    contains (shiftBack l) k = contains l (k + 1) := by
  induction l generalizing n with
  | nil => rfl
  | cons r rs ih =>
    obtain ⟨hn, hr, hrs⟩ := h
    have hrest : contains (rs.map fun r => ⟨r.first - 1, r.second - 1⟩) k = _ :=
      ih (hrs.mono (by omega) : Verified (n + 1) rs)
    have hfirst : r.first - 1 ≤ k ↔ r.first ≤ k + 1 := by omega
    have hsecond : k < r.second - 1 ↔ k + 1 < r.second := by omega
    simp only [shiftBack, List.map_cons, contains, hrest, hfirst, hsecond]

theorem verified_grow {n index : Nat} (m : Nat) {l : List Range} (h : Verified n l) :
    Verified n (grow l index m) := by
  induction l generalizing n with
  | nil => trivial
  | cons r rs ih =>
    have hall := verified_shiftBy m h
    obtain ⟨hn, hr, hrs⟩ := h
    have hrest := verified_shiftBy m hrs
    rw [grow]
    split
    · split
      · exact ⟨hn, by dsimp only; omega, hrest.mono (by dsimp only; omega)⟩
      · exact hall.mono (by omega)
    · exact ⟨hn, hr, ih hrs⟩

theorem contains_grow (index m : Nat) {n : Nat} {l : List Range} (h : Verified n l) (k : Nat) :
    contains (grow l index m) k =
      if k < index then contains l k
      else if k < index + m then contains l index else contains l (k - m) := by
  induction l generalizing n with
  | nil => simp [grow, contains]
  | cons r rs ih =>
    have hall := contains_shiftBy m h k
    obtain ⟨hn, hr, hrs⟩ := h
    have hrest := contains_shiftBy m hrs k
    have ih := ih hrs
    have hlow : ∀ i < r.second + 1, contains rs i = false := fun i hi => contains_of_lt hrs hi
    simp only [contains] at hall
    simp only [grow, contains]
    grind [contains]

theorem verified_shiftForInsertAt {n index m : Nat} (hm : 0 < m) {l : List Range}
    (h : Verified n l) : Verified n (shiftForInsertAt l index m) := by
  induction l generalizing n with
  | nil => trivial
  | cons r rs ih =>
    have hall := verified_shiftBy m h
    obtain ⟨hn, hr, hrs⟩ := h
    have hrest := verified_shiftBy m hrs
    rw [shiftForInsertAt]
    split
    · split
      · exact ⟨hn, by assumption, by dsimp only; omega, by dsimp only; omega,
          hrest.mono (by dsimp only; omega)⟩
      · exact hall.mono (by omega)
    · exact ⟨hn, hr, ih hrs⟩

theorem contains_shiftForInsertAt (index m : Nat) {n : Nat} {l : List Range}
    (h : Verified n l) (k : Nat) : contains (shiftForInsertAt l index m) k =
      if k < index then contains l k else decide (index + m ≤ k) && contains l (k - m) := by
  induction l generalizing n with
  | nil => simp [shiftForInsertAt, contains]
  | cons r rs ih =>
    have hall := contains_shiftBy m h k
    obtain ⟨hn, hr, hrs⟩ := h
    have hrest := contains_shiftBy m hrs k
    have ih := ih hrs
    have hlow : ∀ i < r.second + 1, contains rs i = false := fun i hi => contains_of_lt hrs hi
    simp only [contains] at hall
    rw [Bool.eq_iff_iff]
    simp only [shiftForInsertAt, contains]
    grind [contains]

theorem verified_eraseAt {n index : Nat} {l : List Range} (h : Verified n l) (hn : n ≤ index) :
    Verified n (eraseAt l index) := by
  fun_induction eraseAt generalizing n with
  | case1 => trivial
  | case7 r index hfirst hsecond s rs' hgap ih =>
    obtain ⟨hr, hlt, hs, hslt, hrs⟩ := h
    refine ⟨hr, hlt, ?_⟩
    by_cases hnext : index < s.first
    · -- the gap behind the range is wider than the index
      have hwide : Verified (r.second + 1 + 1) (s :: rs') := ⟨by omega, hslt, hrs⟩
      rw [eraseAt.eq_def]
      simpa only [if_pos hnext] using verified_shiftBack hwide
    · exact ih ⟨hs, hslt, hrs⟩ (by omega)
  | _ => grind [Verified, Verified.mono, verified_shiftBack]

theorem contains_eraseAt {n index : Nat} {l : List Range} (h : Verified n l) (k : Nat) :
    contains (eraseAt l index) k = if k < index then contains l k else contains l (k + 1) := by
  fun_induction eraseAt generalizing n with
  | case1 => simp [contains]
  | case2 r rs index hlt =>
    have hlow : Verified (index + 1) (r :: rs) := ⟨hlt, h.2⟩
    rw [contains_shiftBack hlow]
    split
    · rw [contains_of_lt hlow (by omega), contains_of_lt hlow (by omega)]
    · rfl
  | _ => grind [Verified, contains, Verified.mono, contains_shiftBack, contains_of_lt]

theorem verified_remove {n start stop : Nat} {l : List Range} (h : Verified n l)
    (hlt : start < stop) : Verified n (remove l start stop) := by
  fun_induction remove generalizing n with
  | case1 => trivial
  | _ => grind [Verified, Verified.mono]

theorem contains_remove {n start stop : Nat} {l : List Range} (h : Verified n l)
    (hlt : start < stop) (k : Nat) : contains (remove l start stop) k =
      (contains l k && !(decide (start ≤ k) && decide (k < stop))) := by
  fun_induction remove generalizing n with
  | case1 => rfl
  | _ => grind [Verified, contains, Verified.mono, contains_of_lt]

theorem verified_removeAll {m n : Nat} {l values : List Range} (h : Verified n l)
    (hv : Verified m values) : Verified n (removeAll l values) := by
  induction values generalizing m l with
  | nil => exact h
  | cons r rs ih => exact ih (verified_remove h hv.2.1) hv.2.2

theorem contains_removeAll {m n : Nat} {l values : List Range} (h : Verified n l)
    (hv : Verified m values) (k : Nat) :
    contains (removeAll l values) k = (contains l k && !contains values k) := by
  induction values generalizing m l with
  | nil => simp [removeAll, contains]
  | cons r rs ih =>
    obtain ⟨hm, hr, hrs⟩ := hv
    have hlow : ∀ i < r.second + 1, contains rs i = false := fun i hi => contains_of_lt hrs hi
    have ih := ih (verified_remove h hr) hrs
    rw [removeAll] at ih ⊢
    rw [List.foldl_cons, ih, contains_remove h hr, contains]
    grind

/-! ## Numbers of indices -/

theorem count_of_le {n : Nat} {l : List Range} (h : Verified n l) (start : Nat) {stop : Nat}
    (hle : stop ≤ n) : count l start stop = 0 := by
  induction l generalizing n with
  | nil => rfl
  | cons r rs ih =>
    obtain ⟨hn, hr, hrs⟩ := h
    rw [count, ih hrs (by omega)]
    split
    · rfl
    · rw [if_pos (by omega)]

theorem count_succ {n : Nat} {l : List Range} (h : Verified n l) (start stop : Nat) :
    count l start (stop + 1) =
      count l start stop + if start ≤ stop ∧ contains l stop = true then 1 else 0 := by
  induction l generalizing n with
  | nil => simp [count, contains]
  | cons r rs ih =>
    obtain ⟨hn, hr, hrs⟩ := h
    have ih := ih hrs
    have hlow : ∀ i < r.second + 1, contains rs i = false := fun i hi => contains_of_lt hrs hi
    have hnone : ∀ i < r.second + 1, count rs start i = 0 := fun i hi =>
      count_of_le hrs start (by omega)
    simp only [count, contains]
    grind

theorem count_add_count {n : Nat} {l : List Range} (h : Verified n l) {start stop : Nat}
    (hle : start ≤ stop) : count l start stop + Nat.count (fun i => contains l i = true) start =
      Nat.count (fun i => contains l i = true) stop := by
  induction stop, hle using Nat.le_induction with
  | base =>
    have hzero : ∀ k, k ≤ start → count l start k = 0 := by
      intro k
      induction k with
      | zero =>
        intro
        exact count_of_le h start (Nat.zero_le _)
      | succ k ih =>
        intro hk
        rw [count_succ h, ih (by omega), if_neg (by omega)]
    rw [hzero start (Nat.le_refl _), Nat.zero_add]
  | succ stop hle ih =>
    rw [count_succ h, Nat.count_succ, ← ih]
    simp only [hle, true_and]
    omega

theorem sub_count {n : Nat} {l : List Range} (h : Verified n l) (index : Nat) :
    index - count l 0 index = ListEdits.unshift (contains l) index := by
  have hcount := count_add_count h (Nat.zero_le index)
  have hall := ListEdits.unshift_add_count (contains l) index
  rw [Nat.count_zero] at hcount
  omega

theorem shift_spec {n : Nat} {l : List Range} (h : Verified n l) (index : Nat) :
    contains l (shift l index) = false ∧ shift l index = index + count l 0 (shift l index) := by
  induction l generalizing n index with
  | nil => simp [shift, count, contains]
  | cons r rs ih =>
    obtain ⟨hn, hr, hrs⟩ := h
    have ih := ih hrs (index + (r.second - r.first))
    simp only [shift, contains, count]
    grind

theorem shift_eq {n : Nat} {l : List Range} (h : Verified n l) (index : Nat) :
    shift l index = ListEdits.shift (contains l) index := by
  obtain ⟨hnot, hcount⟩ := shift_spec h index
  refine ((ListEdits.shift_eq_iff (contains_bounded l)).mpr ⟨hnot, ?_⟩).symm
  rw [← sub_count h]
  omega

/-! ## Building a vector -/

theorem mem_asIndexes {n : Nat} {l : List Range} (h : Verified n l) {index : Nat} :
    index ∈ asIndexes l ↔ contains l index = true := by
  induction l generalizing n with
  | nil => simp [asIndexes, contains]
  | cons r rs ih =>
    obtain ⟨hn, hr, hrs⟩ := h
    have hlow : ∀ i < r.second + 1, contains rs i = false := fun i hi => contains_of_lt hrs hi
    have ih := ih hrs
    rw [asIndexes] at ih ⊢
    rw [List.flatMap_cons, List.mem_append, ih, List.mem_range'_1, contains]
    grind

theorem sorted_asIndexes {n : Nat} {l : List Range} (h : Verified n l) :
    (asIndexes l).Pairwise (· < ·) := by
  induction l generalizing n with
  | nil => exact List.Pairwise.nil
  | cons r rs ih =>
    obtain ⟨hn, hr, hrs⟩ := h
    have ih := ih hrs
    rw [asIndexes, List.flatMap_cons]
    refine List.pairwise_append.mpr ⟨List.pairwise_lt_range', ih, fun i hi j hj => ?_⟩
    have hj := (mem_asIndexes hrs).mp hj
    have hi := List.mem_range'_1.mp hi
    by_contra hge
    rw [contains_of_lt hrs (by omega)] at hj
    cases hj

/-- Ranges in order, which may touch. -/
def Pushed : Nat → List Range → Prop
  | _, [] => True
  | n, r :: rs => n ≤ r.first ∧ r.first < r.second ∧ Pushed r.second rs

def pushes : List Range → Nat → Bool
  | [], _ => false
  | r :: rs, index => (decide (r.first ≤ index) && decide (index < r.second)) || pushes rs index

theorem verified_joined {n : Nat} {back : Range} {l : List Range} (hn : n ≤ back.first)
    (hb : back.first < back.second) (h : Pushed back.second l) : Verified n (joined back l) := by
  fun_induction joined generalizing n with
  | case1 back => exact ⟨hn, hb, trivial⟩
  | _ => grind [Pushed, Verified]

theorem contains_joined {back : Range} {l : List Range}
    (hb : back.first < back.second) (h : Pushed back.second l) (index : Nat) :
    contains (joined back l) index = pushes (back :: l) index := by
  fun_induction joined with
  | case1 back => grind [contains, pushes]
  | case2 => grind [Pushed, Verified, contains, pushes]
  | case3 back r rs hne ih =>
    obtain ⟨hn, hr, hrs⟩ := h
    have hrest := verified_joined (Nat.le_refl _) hr hrs
    have hlow := fun hi : index < r.first => contains_of_lt hrest hi
    grind [Pushed, Verified, contains, pushes]

theorem verified_build {l : List Range} (h : Pushed 0 l) : Verified 0 (build l) := by
  cases l with
  | nil => trivial
  | cons r rs => exact verified_joined h.1 h.2.1 h.2.2

theorem contains_build {l : List Range} (h : Pushed 0 l) : contains (build l) = pushes l := by
  funext index
  cases l with
  | nil => rfl
  | cons r rs => exact contains_joined h.2.1 h.2.2 index

theorem pushed_single {n : Nat} {l : List Nat} (h : l.Pairwise (· < ·)) (hn : ∀ i ∈ l, n ≤ i) :
    Pushed n (l.map single) := by
  induction l generalizing n with
  | nil => trivial
  | cons i is ih =>
    rw [List.pairwise_cons] at h
    exact ⟨hn i List.mem_cons_self, Nat.lt_succ_self i, ih h.2 h.1⟩

theorem pushes_single (l : List Nat) (index : Nat) :
    pushes (l.map single) index = decide (index ∈ l) := by
  induction l with
  | nil => simp [pushes]
  | cons i is ih =>
    simp only [List.map_cons, pushes, ih, single, List.mem_cons]
    grind

theorem pushes_append (l k : List Range) (index : Nat) :
    pushes (l ++ k) index = (pushes l index || pushes k index) := by
  induction l with
  | nil => rfl
  | cons r rs ih => rw [List.cons_append, pushes, ih, pushes, Bool.or_assoc]

theorem pushes_eq_contains {m : Nat} {l : List Range} (h : Verified m l) (index : Nat) :
    pushes l index = contains l index := by
  induction l generalizing m with
  | nil => rfl
  | cons r rs ih =>
    obtain ⟨hn, hr, hrs⟩ := h
    have hlow : ∀ i < r.second + 1, contains rs i = false := fun i hi => contains_of_lt hrs hi
    rw [pushes, ih hrs, contains]
    grind

theorem pushed_of_verified {m : Nat} {l : List Range} (h : Verified m l) : Pushed m l := by
  induction l generalizing m with
  | nil => trivial
  | cons r rs ih => exact ⟨h.1, h.2.1, ih (h.2.2.mono (Nat.le_succ _))⟩

/-- Between any two ranges there is an index that is in neither. -/
theorem length_le_of_contains {n m : Nat} {l : List Range} (h : Verified n l)
    (hm : ∀ index, contains l index = true → index < m) : 2 * l.length ≤ m + 1 - n := by
  induction l generalizing n with
  | nil => exact Nat.zero_le _
  | cons r rs ih =>
    obtain ⟨hn, hr, hrs⟩ := h
    have hlast := hm (r.second - 1) (by rw [contains, if_pos (by omega)]; simp; omega)
    have ih := ih hrs fun index hindex => by
      apply hm
      have hge : r.second + 1 ≤ index := by
        by_contra hlt
        rw [contains_of_lt hrs (by omega)] at hindex
        cases hindex
      rw [contains, if_neg (by omega), hindex]
    rw [List.length_cons]
    omega

theorem le_shift (l : List Range) (index : Nat) : index ≤ shift l index := by
  induction l generalizing index with
  | nil => exact Nat.le_refl _
  | cons r rs ih =>
    rw [shift]
    split
    · exact Nat.le_refl _
    · exact Nat.le_trans (Nat.le_add_right _ _) (ih _)

end RangeVectors
