import RandomUserClient.RangeChunks

/-!
# Index sets

A set of indices carries the proof that its ranges are in order. Its operations
renumber indices as items come and go: `insert_at` makes room for items,
`erase_at` closes the gaps that they leave, and `add_shifted_by` does both in one
pass. What they do to the set is what `ListEdits` has for sets of positions.
-/

namespace IndexSets

open RangeVectors RangeVectors.Ranges

/-! ## Two sets side by side -/

/-- The loop of `insert_at` with a set of positions, and that of `shift_for_insert_at`, which does
not keep the positions. -/
def insertLoop (keep : Bool) : Nat → List Nat → List Nat → List Nat
  | shift, index :: indexes, position :: positions =>
    if index + shift < position then
      (index + shift) :: insertLoop keep shift indexes (position :: positions)
    else if keep then position :: insertLoop keep (shift + 1) (index :: indexes) positions
    else insertLoop keep (shift + 1) (index :: indexes) positions
  | shift, indexes, [] => indexes.map fun index => index + shift
  | _, [], positions => if keep then positions else []
termination_by _ indexes positions => indexes.length + positions.length

/-- The loop of `erase_at` with a set of positions. -/
def eraseLoop : Nat → List Nat → List Nat → List Nat
  | shift, index :: indexes, position :: positions =>
    if index < position then (index - shift) :: eraseLoop shift indexes (position :: positions)
    else if index = position then eraseLoop (shift + 1) indexes positions
    else eraseLoop (shift + 1) (index :: indexes) positions
  | shift, indexes, [] => indexes.map fun index => index - shift
  | _, [], _ => []
termination_by _ indexes positions => indexes.length + positions.length

theorem countP_lt_le {l : List Nat} (h : l.Pairwise (· < ·)) {m : Nat} (hm : ∀ i ∈ l, m ≤ i)
    (k : Nat) : l.countP (fun i => i < k) ≤ k - m := by
  induction l generalizing m with
  | nil => exact Nat.zero_le _
  | cons i is ih =>
    rw [List.pairwise_cons] at h
    have ih := ih h.2 h.1
    have hi := hm i List.mem_cons_self
    rw [List.countP_cons]
    split <;> rename_i hk <;> simp only [decide_eq_true_eq] at hk <;> omega

theorem countP_lt_eq_zero {l : List Nat} {m k : Nat} (hm : ∀ i ∈ l, m ≤ i) (hk : k ≤ m) :
    l.countP (fun i => i < k) = 0 := by
  refine List.countP_eq_zero.mpr fun i hi => ?_
  have := hm i hi
  simp only [decide_eq_true_eq]
  omega

theorem le_of_sorted_cons {x : Nat} {l : List Nat} (h : (x :: l).Pairwise (· < ·)) {i : Nat}
    (hi : i ∈ x :: l) : x ≤ i := by
  rcases List.mem_cons.mp hi with rfl | hi
  · exact Nat.le_refl _
  · exact Nat.le_of_lt ((List.pairwise_cons.mp h).1 i hi)

/-- A position that no index comes before moves all of them. -/
theorem moved_iff {shift index position : Nat} {indexes positions : List Nat}
    (hi : (index :: indexes).Pairwise (· < ·)) (hle : position ≤ index + shift) (k : Nat) :
    (k ∉ positions ∧ ∃ i ∈ index :: indexes,
      i + (shift + 1) + positions.countP (fun p => p < k) = k) ↔
    (k ∉ position :: positions ∧ ∃ i ∈ index :: indexes,
      i + shift + (position :: positions).countP (fun p => p < k) = k) := by
  rw [List.countP_cons, List.mem_cons]
  constructor
  · rintro ⟨hnot, i, hmem, heq⟩
    have hge := le_of_sorted_cons hi hmem
    have hlt : position < k := by omega
    refine ⟨by simp [hnot]; omega, i, hmem, ?_⟩
    rw [if_pos (by simpa using hlt)]
    omega
  · rintro ⟨hnot, i, hmem, heq⟩
    have hge := le_of_sorted_cons hi hmem
    have hlt : position < k := by
      by_contra hle'
      have hne : k ≠ position := fun h => hnot (Or.inl h)
      rw [if_neg (by simpa using hle')] at heq
      omega
    rw [if_pos (by simpa using hlt)] at heq
    exact ⟨fun h => hnot (Or.inr h), i, hmem, by omega⟩

theorem mem_insertLoop {keep : Bool} {shift : Nat} {indexes positions : List Nat}
    (hi : indexes.Pairwise (· < ·)) (hp : positions.Pairwise (· < ·)) (k : Nat) :
    k ∈ insertLoop keep shift indexes positions ↔ (keep = true ∧ k ∈ positions) ∨
      (k ∉ positions ∧
        ∃ index ∈ indexes, index + shift + positions.countP (fun i => i < k) = k) := by
  fun_induction insertLoop with
  | case1 shift index indexes position positions hlt ih =>
    have hb := countP_lt_le hp (fun p hp' => le_of_sorted_cons hp hp') k
    have hk : k < position → k ∉ position :: positions := fun h hmem => by
      have := le_of_sorted_cons hp hmem
      omega
    rw [List.mem_cons, ih hi.of_cons hp, List.exists_mem_cons_iff]
    constructor
    · rintro (rfl | hkeep | ⟨hnot, hrest⟩)
      · exact Or.inr ⟨hk hlt, Or.inl (by omega)⟩
      · exact Or.inl hkeep
      · exact Or.inr ⟨hnot, Or.inr hrest⟩
    · rintro (hkeep | ⟨hnot, hhead | hrest⟩)
      · exact Or.inr (Or.inl hkeep)
      · exact Or.inl (by omega)
      · exact Or.inr (Or.inr ⟨hnot, hrest⟩)
  | case2 shift index indexes position positions hlt hkeep ih =>
    rw [List.mem_cons, ih hi hp.of_cons, moved_iff hi (Nat.le_of_not_lt hlt),
      List.mem_cons (l := positions)]
    simp only [hkeep, true_and, or_assoc]
  | case3 shift index indexes position positions hlt hkeep ih =>
    rw [ih hi hp.of_cons, moved_iff hi (Nat.le_of_not_lt hlt)]
    simp only [hkeep, false_and, Bool.false_eq_true]
  | case4 => simp [eq_comm]
  | case5 => simp [*]
  | case6 => simp [*]

theorem sorted_insertLoop {keep : Bool} {shift : Nat} {indexes positions : List Nat}
    (hi : indexes.Pairwise (· < ·)) (hp : positions.Pairwise (· < ·)) :
    (insertLoop keep shift indexes positions).Pairwise (· < ·) := by
  fun_induction insertLoop with
  | case1 shift index indexes position positions hlt ih =>
    refine List.pairwise_cons.mpr ⟨fun k hk => ?_, ih hi.of_cons hp⟩
    rcases (mem_insertLoop hi.of_cons hp k).mp hk with ⟨-, hk⟩ | ⟨-, i, hmem, heq⟩
    · have := le_of_sorted_cons hp hk
      omega
    · have := (List.pairwise_cons.mp hi).1 i hmem
      omega
  | case2 shift index indexes position positions hlt hkeep ih =>
    refine List.pairwise_cons.mpr ⟨fun k hk => ?_, ih hi hp.of_cons⟩
    rcases (mem_insertLoop hi hp.of_cons k).mp hk with ⟨-, hk⟩ | ⟨-, i, hmem, heq⟩
    · exact (List.pairwise_cons.mp hp).1 k hk
    · have := le_of_sorted_cons hi hmem
      omega
  | case3 shift index indexes position positions hlt hkeep ih => exact ih hi hp.of_cons
  | case4 shift indexes =>
    exact List.pairwise_map.mpr (hi.imp fun h => Nat.add_lt_add_right h shift)
  | case5 => exact hp
  | case6 => exact List.Pairwise.nil

theorem mem_eraseLoop {shift : Nat} {indexes positions : List Nat}
    (hi : indexes.Pairwise (· < ·)) (hp : positions.Pairwise (· < ·)) (k : Nat) :
    k ∈ eraseLoop shift indexes positions ↔
      ∃ index ∈ indexes, index ∉ positions ∧
        k = index - (shift + positions.countP (fun i => i < index)) := by
  fun_induction eraseLoop with
  | case1 shift index indexes position positions hlt ih =>
    have hnot : index ∉ position :: positions := fun h => by
      have := le_of_sorted_cons hp h
      omega
    have hnone : (position :: positions).countP (fun i => i < index) = 0 :=
      countP_lt_eq_zero (fun p hp' => le_of_sorted_cons hp hp') (Nat.le_of_lt hlt)
    rw [List.mem_cons, ih hi.of_cons hp, List.exists_mem_cons_iff, hnone]
    simp only [hnot, not_false_eq_true, true_and, Nat.add_zero]
  | case2 shift indexes position positions hlt ih =>
    rw [ih hi.of_cons hp.of_cons, List.exists_mem_cons_iff]
    simp only [List.mem_cons, true_or, not_true_eq_false, false_and, false_or]
    refine exists_congr fun i => and_congr_right fun hmem => ?_
    have hlt := (List.pairwise_cons.mp hi).1 i hmem
    rw [List.countP_cons, if_pos (by simpa using hlt)]
    simp only [Nat.ne_of_gt hlt, false_or]
    rw [Nat.add_right_comm, ← Nat.add_assoc]
  | case3 shift index indexes position positions hlt hne ih =>
    rw [ih hi hp.of_cons]
    refine exists_congr fun i => and_congr_right fun hmem => ?_
    have hge := le_of_sorted_cons hi hmem
    have hlt : position < i := by omega
    rw [List.countP_cons, if_pos (by simpa using hlt), List.mem_cons]
    simp only [Nat.ne_of_gt hlt, false_or]
    rw [Nat.add_right_comm, ← Nat.add_assoc]
  | case4 => simp [eq_comm]
  | case5 => simp

theorem sorted_eraseLoop {shift : Nat} {indexes positions : List Nat}
    (hi : indexes.Pairwise (· < ·)) (hp : positions.Pairwise (· < ·))
    (hsi : ∀ i ∈ indexes, shift ≤ i) (hsp : ∀ p ∈ positions, shift ≤ p) :
    (eraseLoop shift indexes positions).Pairwise (· < ·) := by
  fun_induction eraseLoop with
  | case1 shift index indexes position positions hlt ih =>
    refine List.pairwise_cons.mpr
      ⟨fun k hk => ?_, ih hi.of_cons hp (fun i h => hsi i (List.mem_cons_of_mem _ h)) hsp⟩
    obtain ⟨i, hmem, hnot, rfl⟩ := (mem_eraseLoop hi.of_cons hp k).mp hk
    have hle := hsi index List.mem_cons_self
    have hgt := (List.pairwise_cons.mp hi).1 i hmem
    have hb := countP_lt_le hp (fun p hp' => le_of_sorted_cons hp hp') i
    omega
  | case2 shift indexes position positions hlt ih =>
    have hle := hsi position List.mem_cons_self
    refine ih hi.of_cons hp.of_cons (fun i h => ?_) fun p h => ?_
    · have := (List.pairwise_cons.mp hi).1 i h
      omega
    · have := (List.pairwise_cons.mp hp).1 p h
      omega
  | case3 shift index indexes position positions hlt hne ih =>
    have hle := hsp position List.mem_cons_self
    refine ih hi hp.of_cons (fun i h => ?_) fun p h => ?_
    · have := le_of_sorted_cons hi h
      omega
    · have := (List.pairwise_cons.mp hp).1 p h
      omega
  | case4 shift indexes =>
    refine List.pairwise_map.mpr (hi.imp_of_mem fun {i j} hmi hmj h => ?_)
    have := hsi i hmi
    omega
  | case5 => exact List.Pairwise.nil

/-! ## Adding what another set has shifted -/

/-- The ranges of `shifted_by` that begin at the index or before it are passed; what is left, how
many indices were passed, and the end of the last one. -/
def passed (index : Nat) : List Range → Nat → Nat → List Range × Nat × Nat
  | [], newShift, skipUntil => ([], newShift, skipUntil)
  | s :: shifts, newShift, skipUntil =>
    if s.first ≤ index then passed index shifts (newShift + (s.second - s.first)) s.second
    else (s :: shifts, newShift, skipUntil)

/-- The old ranges in front of an index, which move it, and what is left. -/
def copied (index : Nat) : List Range → Nat → List Range × List Range × Nat
  | [], oldShift => ([], [], oldShift)
  | o :: olds, oldShift =>
    if o.first ≤ index + oldShift then
      let (front, rest, oldShift) := copied index olds (oldShift + (o.second - o.first))
      (o :: front, rest, oldShift)
    else ([], o :: olds, oldShift)

/-- The loop of `add_shifted_by`: what it pushes back. -/
def shiftedByLoop : List Range → List Range → Nat → Nat → Nat → List Nat → List Range
  | olds, _, _, _, _, [] => olds
  | olds, shifts, skipUntil, oldShift, newShift, index :: values =>
    let (shifts, newShift, skipUntil) := passed index shifts newShift skipUntil
    if index < skipUntil then shiftedByLoop olds shifts skipUntil oldShift newShift values
    else
      let (front, olds, oldShift) := copied (index - newShift) olds oldShift
      front ++ single (index - newShift + oldShift) ::
        shiftedByLoop olds shifts skipUntil oldShift newShift values

/-- passing for an earlier index first makes no difference -/
theorem passed_passed {i j : Nat} (h : i ≤ j) (shifts : List Range) (n s : Nat) :
    passed j (passed i shifts n s).1 (passed i shifts n s).2.1 (passed i shifts n s).2.2 =
      passed j shifts n s := by
  induction shifts generalizing n s with
  | nil => rfl
  | cons r rs ih =>
    rw [passed]
    split
    · rw [ih, passed, if_pos (by omega)]
    · rfl

theorem passed_spec (index n : Nat) {m s : Nat} {shifts : List Range} (h : Verified m shifts)
    (hs : s ≤ m) :
    (index < (passed index shifts n s).2.2 ↔ index < s ∨ contains shifts index = true) ∧
    (s ≤ index → contains shifts index = false →
      (passed index shifts n s).2.1 = n + count shifts 0 index) := by
  induction shifts generalizing m n s with
  | nil => simp [passed, contains, count]
  | cons r rs ih =>
    obtain ⟨hn, hr, hrs⟩ := h
    have ih := ih (n + (r.second - r.first)) hrs (Nat.le_succ r.second)
    have hlow : ∀ i < r.second + 1, contains rs i = false := fun i hi => contains_of_lt hrs hi
    have hnone : ∀ i < r.second + 1, count rs 0 i = 0 := fun i hi => count_of_le hrs 0 (by omega)
    simp only [passed, contains, count]
    grind

theorem le_passed (index n : Nat) {m s : Nat} {shifts : List Range} (h : Verified m shifts)
    (hs : s ≤ m) : s ≤ (passed index shifts n s).2.2 := by
  induction shifts generalizing m n s with
  | nil => exact Nat.le_refl _
  | cons r rs ih =>
    obtain ⟨hn, hr, hrs⟩ := h
    rw [passed]
    split
    · exact Nat.le_trans (by omega) (ih _ hrs (Nat.le_succ r.second))
    · exact Nat.le_refl _

theorem verified_passed (index n s : Nat) {m : Nat} {shifts : List Range}
    (h : Verified m shifts) :
    Verified (index + 1) (passed index shifts n s).1 := by
  induction shifts generalizing m n s with
  | nil => trivial
  | cons r rs ih =>
    obtain ⟨hn, hr, hrs⟩ := h
    rw [passed]
    split
    · exact ih _ _ hrs
    · exact ⟨by omega, hr, hrs⟩

theorem verified_passed' (index n : Nat) {m s : Nat} {shifts : List Range}
    (h : Verified m shifts) (hs : s ≤ m) :
    Verified (passed index shifts n s).2.2 (passed index shifts n s).1 := by
  induction shifts generalizing m n s with
  | nil => trivial
  | cons r rs ih =>
    obtain ⟨hn, hr, hrs⟩ := h
    rw [passed]
    split
    · exact ih _ hrs (Nat.le_succ r.second)
    · exact ⟨by dsimp only; omega, hr, hrs⟩

theorem passed_count_le (index : Nat) {m n s : Nat} {shifts : List Range}
    (h : Verified m shifts) (hs : s ≤ m) (hn : n ≤ s) :
    (passed index shifts n s).2.1 ≤ (passed index shifts n s).2.2 := by
  induction shifts generalizing m n s with
  | nil => exact hn
  | cons r rs ih =>
    obtain ⟨hm, hr, hrs⟩ := h
    rw [passed]
    split
    · exact ih hrs (Nat.le_succ r.second) (by omega)
    · exact hn

theorem passed_le {index n m s : Nat} {shifts : List Range} (h : Verified m shifts)
    (hm : m ≤ index) (hs : (passed index shifts n s).2.2 ≤ index) :
    (passed index shifts n s).2.1 + m ≤ n + index := by
  induction shifts generalizing m n s with
  | nil => simpa [passed] using hm
  | cons r rs ih =>
    obtain ⟨hn, hr, hrs⟩ := h
    rw [passed] at hs ⊢
    split at hs
    · rename_i hfirst
      rw [if_pos hfirst]
      have hle := le_passed index (n + (r.second - r.first)) hrs (Nat.le_succ r.second)
      have ih := ih (m := r.second) (hrs.mono (by omega)) (by omega) hs
      omega
    · rename_i hfirst
      rw [if_neg hfirst]
      dsimp only
      omega

/-- The ranges in front of an index are in front of a later one. -/
theorem shift_copied {i j : Nat} (h : i ≤ j) (olds : List Range) (n : Nat) :
    shift (copied i olds n).2.1 (j + (copied i olds n).2.2) = shift olds (j + n) := by
  induction olds generalizing n with
  | nil => rfl
  | cons r rs ih =>
    rw [copied, shift]
    split
    · rename_i hfirst
      rw [if_neg (by omega), Nat.add_assoc j, ← ih]
    · rw [shift]

theorem copied_append (index : Nat) (olds : List Range) (n : Nat) :
    (copied index olds n).1 ++ (copied index olds n).2.1 = olds := by
  induction olds generalizing n with
  | nil => rfl
  | cons r rs ih =>
    rw [copied]
    split
    · simp [ih]
    · simp

theorem copied_shift (index : Nat) (olds : List Range) (n : Nat) :
    index + (copied index olds n).2.2 = shift olds (index + n) := by
  induction olds generalizing n with
  | nil => rfl
  | cons r rs ih =>
    rw [copied, shift]
    split
    · rename_i h
      rw [if_neg (by omega), Nat.add_assoc index, ← ih]
    · rename_i h
      rw [if_pos (by omega)]

theorem verified_copied (index n : Nat) {m : Nat} {olds : List Range} (h : Verified m olds) :
    Verified (index + (copied index olds n).2.2 + 1) (copied index olds n).2.1 := by
  induction olds generalizing m n with
  | nil => trivial
  | cons r rs ih =>
    obtain ⟨hn, hr, hrs⟩ := h
    rw [copied]
    split
    · exact ih _ hrs
    · exact ⟨by dsimp only; omega, hr, hrs⟩

theorem pushed_copied {m n index : Nat} {olds rest : List Range} (h : Verified m olds)
    (hm : m ≤ index + (copied index olds n).2.2)
    (hrest : Pushed (index + (copied index olds n).2.2) rest) :
    Pushed m ((copied index olds n).1 ++ rest) := by
  induction olds generalizing m n with
  | nil =>
    simp only [copied] at *
    cases rest with
    | nil => trivial
    | cons => exact ⟨Nat.le_trans hm hrest.1, hrest.2⟩
  | cons r rs ih =>
    obtain ⟨hn, hr, hrs⟩ := h
    rw [copied] at hm hrest ⊢
    split at hm
    · rename_i hfirst
      rw [if_pos hfirst] at hrest ⊢
      refine ⟨hn, hr, ih (hrs.mono (by omega)) ?_ hrest⟩
      have := copied_shift index rs (n + (r.second - r.first))
      have := le_shift rs (index + (n + (r.second - r.first)))
      omega
    · rename_i hfirst
      rw [if_neg hfirst] at hrest ⊢
      simp only [List.nil_append] at *
      cases rest with
      | nil => trivial
      | cons => exact ⟨Nat.le_trans hm hrest.1, hrest.2⟩

/-- Where a value goes from a state of the loop. -/
def target (olds shifts : List Range) (skipUntil oldShift newShift value : Nat) : Nat :=
  shift olds (value - (passed value shifts newShift skipUntil).2.1 + oldShift)

/-- Behind an index that has been pushed, a value goes where it would have gone from in front of
it, and that is behind the index. -/
theorem target_step (olds : List Range) (oldShift : Nat) {n : Nat} {shifts : List Range}
    {skipUntil newShift index value : Nat} (hs : Verified n shifts) (hn : skipUntil ≤ n)
    (hle : newShift ≤ skipUntil) (hlt : index < value)
    (hi : (passed index shifts newShift skipUntil).2.2 ≤ index)
    (hv : (passed value shifts newShift skipUntil).2.2 ≤ value) :
    let p := passed index shifts newShift skipUntil
    let c := copied (index - p.2.1) olds oldShift
    let t := target olds shifts skipUntil oldShift newShift value
    target c.2.1 p.1 p.2.2 c.2.2 p.2.1 value = t ∧ index - p.2.1 + c.2.2 < t := by
  intro p c t
  have hpass : passed value p.1 p.2.1 p.2.2 = passed value shifts newShift skipUntil :=
    passed_passed (Nat.le_of_lt hlt) _ _ _
  have hcount : p.2.1 ≤ p.2.2 := passed_count_le index hs hn hle
  have hbehind : Verified (index + 1) p.1 := verified_passed index newShift skipUntil hs
  have hfar := passed_le (n := p.2.1) (s := p.2.2) hbehind hlt (by rw [hpass]; exact hv)
  rw [hpass] at hfar
  have hi : p.2.2 ≤ index := hi
  have hmove : target c.2.1 p.1 p.2.2 c.2.2 p.2.1 value = t := by
    dsimp only [t]
    rw [target, hpass, target]
    exact shift_copied (by omega) olds oldShift
  refine ⟨hmove, ?_⟩
  rw [← hmove, target, hpass]
  have := le_shift c.2.1 (value - (passed value shifts newShift skipUntil).2.1 + c.2.2)
  omega

theorem pushes_shiftedByLoop {m n : Nat} {olds shifts : List Range}
    {skipUntil oldShift newShift : Nat} {values : List Nat} (ho : Verified m olds)
    (hs : Verified n shifts) (hn : skipUntil ≤ n) (hle : newShift ≤ skipUntil)
    (hv : values.Pairwise (· < ·)) (k : Nat) :
    pushes (shiftedByLoop olds shifts skipUntil oldShift newShift values) k = true ↔
      contains olds k = true ∨ ∃ v ∈ values, (passed v shifts newShift skipUntil).2.2 ≤ v ∧
        k = target olds shifts skipUntil oldShift newShift v := by
  induction values generalizing m n olds shifts skipUntil oldShift newShift with
  | nil => simp [shiftedByLoop, pushes_eq_contains ho]
  | cons index values ih =>
    obtain ⟨hlt, hv⟩ := List.pairwise_cons.mp hv
    have hpass : ∀ v ∈ values, _ := fun v hmem =>
      passed_passed (Nat.le_of_lt (hlt v hmem)) shifts newShift skipUntil
    have hcount := passed_count_le index hs hn hle
    have hbehind := verified_passed index newShift skipUntil hs
    have hbehind' := verified_passed' index newShift hs hn
    have hlater := fun v hmem hi hv =>
      target_step olds oldShift hs hn hle (hlt v hmem) hi hv
    have hhere : target olds shifts skipUntil oldShift newShift index = _ :=
      (copied_shift (index - (passed index shifts newShift skipUntil).2.1) olds oldShift).symm
    rw [shiftedByLoop, List.exists_mem_cons_iff]
    generalize passed index shifts newShift skipUntil = p at *
    obtain ⟨shifts', newShift', skipUntil'⟩ := p
    dsimp only at *
    by_cases hskip : index < skipUntil'
    · rw [if_pos hskip, ih ho hbehind' (Nat.le_refl _) hcount hv]
      refine or_congr_right ?_
      rw [or_iff_right fun h => absurd h.1 (Nat.not_le_of_lt hskip)]
      refine exists_congr fun v => and_congr_right fun hmem => ?_
      rw [target, hpass v hmem, target]
    · have hrest := verified_copied (index - newShift') oldShift ho
      have hsplit := copied_append (index - newShift') olds oldShift
      generalize copied (index - newShift') olds oldShift = c at *
      obtain ⟨front, olds', oldShift'⟩ := c
      dsimp only at *
      subst hsplit
      rw [if_neg hskip, pushes_append, Bool.or_eq_true, pushes, Bool.or_eq_true,
        ih hrest hbehind (by omega) hcount hv, ← pushes_eq_contains ho k, pushes_append,
        Bool.or_eq_true, pushes_eq_contains hrest, hhere, or_assoc]
      refine or_congr_right ?_
      rw [← or_assoc, or_comm (a := _ = true) (b := contains olds' k = true), or_assoc]
      refine or_congr_right (or_congr ?_ (exists_congr fun v => and_congr_right fun hmem => ?_))
      · rw [Bool.and_eq_true, decide_eq_true_eq, decide_eq_true_eq]
        dsimp only [single]
        omega
      · rw [hpass v hmem]
        refine and_congr_right fun hvalid => ?_
        rw [(hlater v hmem (by omega) hvalid).1]

theorem pushed_shiftedByLoop {m n : Nat} {olds shifts : List Range}
    {skipUntil oldShift newShift : Nat} {values : List Nat} (ho : Verified m olds)
    (hs : Verified n shifts) (hn : skipUntil ≤ n) (hle : newShift ≤ skipUntil)
    (hv : values.Pairwise (· < ·))
    (hm : ∀ v ∈ values, (passed v shifts newShift skipUntil).2.2 ≤ v →
      m ≤ target olds shifts skipUntil oldShift newShift v) :
    Pushed m (shiftedByLoop olds shifts skipUntil oldShift newShift values) := by
  induction values generalizing m n olds shifts skipUntil oldShift newShift with
  | nil => exact pushed_of_verified ho
  | cons index values ih =>
    obtain ⟨hlt, hv⟩ := List.pairwise_cons.mp hv
    have hpass : ∀ v ∈ values, _ := fun v hmem =>
      passed_passed (Nat.le_of_lt (hlt v hmem)) shifts newShift skipUntil
    have hcount := passed_count_le index hs hn hle
    have hbehind := verified_passed index newShift skipUntil hs
    have hbehind' := verified_passed' index newShift hs hn
    have hlater := fun v hmem hi hv =>
      target_step olds oldShift hs hn hle (hlt v hmem) hi hv
    have hhere : target olds shifts skipUntil oldShift newShift index = _ :=
      (copied_shift (index - (passed index shifts newShift skipUntil).2.1) olds oldShift).symm
    have hmhere := hm index List.mem_cons_self
    have hmrest := fun v hmem => hm v (List.mem_cons_of_mem _ hmem)
    rw [shiftedByLoop]
    generalize passed index shifts newShift skipUntil = p at *
    obtain ⟨shifts', newShift', skipUntil'⟩ := p
    dsimp only at *
    by_cases hskip : index < skipUntil'
    · rw [if_pos hskip]
      refine ih ho hbehind' (Nat.le_refl _) hcount hv fun v hmem hvalid => ?_
      rw [hpass v hmem] at hvalid
      rw [target, hpass v hmem, ← target]
      exact hmrest v hmem hvalid
    · have hrest := verified_copied (index - newShift') oldShift ho
      have hmhere := hmhere (by omega)
      rw [hhere] at hmhere
      rw [if_neg hskip]
      refine pushed_copied ho hmhere ⟨Nat.le_refl _, Nat.lt_succ_self _, ?_⟩
      refine ih hrest hbehind (by omega) hcount hv fun v hmem hvalid => ?_
      rw [hpass v hmem] at hvalid
      obtain ⟨heq, hgt⟩ := hlater v hmem (by omega) hvalid
      rw [heq]
      exact hgt

/-! ## The sets -/

@[ext] structure IndexSet where
  ranges : List Range
  verified : Verified 0 ranges
  deriving DecidableEq

namespace IndexSet

def empty : IndexSet := ⟨[], trivial⟩

def isEmpty (s : IndexSet) : Bool := s.ranges.isEmpty

def contains (s : IndexSet) (index : Nat) : Bool := Ranges.contains s.ranges index

/-- `!s.empty() && prev(s.end())->second == index` -/
def endsAt (s : IndexSet) (index : Nat) : Bool :=
  match s.ranges.getLast? with
  | some back => decide (back.second = index)
  | none => false

/-- The sum of the lengths of the ranges. -/
def size (s : IndexSet) : Nat := (s.ranges.map fun r => r.second - r.first).sum

def asIndexes (s : IndexSet) : List Nat := Ranges.asIndexes s.ranges

def count (s : IndexSet) (start stop : Nat) : Nat := Ranges.count s.ranges start stop

def shift (s : IndexSet) (index : Nat) : Nat := Ranges.shift s.ranges index

def unshift (s : IndexSet) (index : Nat) : Nat := index - s.count 0 index

def add (s : IndexSet) (index : Nat) : IndexSet :=
  ⟨Ranges.add s.ranges index, verified_add s.verified (Nat.zero_le _)⟩

/-- `add` of all indices of another set. -/
def addSet (s other : IndexSet) : IndexSet := other.asIndexes.foldl add s

/-- The index is moved behind those in front of it and added; it is returned as well. -/
def addShifted (s : IndexSet) (index : Nat) : Nat × IndexSet :=
  (s.shift index, s.add (s.shift index))

def set (len : Nat) : IndexSet :=
  if h : len = 0 then empty else ⟨[⟨0, len⟩], Nat.zero_le _, Nat.pos_of_ne_zero h, trivial⟩

/-- An index that is in the set takes the new ones in; otherwise they are added. -/
def insertAt (s : IndexSet) (index n : Nat) : IndexSet :=
  let grown : IndexSet := ⟨grow s.ranges index n, verified_grow n s.verified⟩
  if s.contains index then grown
  else (List.range n).foldl (fun t i => t.add (index + i)) grown

def shiftForInsertAt (s : IndexSet) (index n : Nat) (h : 0 < n) : IndexSet :=
  ⟨Ranges.shiftForInsertAt s.ranges index n, verified_shiftForInsertAt h s.verified⟩

def eraseAt (s : IndexSet) (index : Nat) : IndexSet :=
  ⟨Ranges.eraseAt s.ranges index, verified_eraseAt s.verified (Nat.zero_le _)⟩

/-- An index that is in the set is erased, and there is none to return; otherwise the indices
behind it move, and its number is returned. -/
def eraseOrUnshift (s : IndexSet) (index : Nat) : Option Nat × IndexSet :=
  (if s.contains index then none else some (s.unshift index), s.eraseAt index)

def remove (s : IndexSet) (index n : Nat) (h : 0 < n) : IndexSet :=
  ⟨Ranges.remove s.ranges index (index + n), verified_remove s.verified (by omega)⟩

/-- A set that is built from indices in order. -/
def ofIndexes (l : List Nat) (h : l.Pairwise (· < ·)) : IndexSet :=
  ⟨build (l.map single), verified_build (pushed_single h fun _ _ => Nat.zero_le _)⟩

theorem sorted_asIndexes (s : IndexSet) : s.asIndexes.Pairwise (· < ·) :=
  RangeVectors.sorted_asIndexes s.verified

/-- `remove` of all ranges of another set. -/
def removeSet (s values : IndexSet) : IndexSet :=
  ⟨removeAll s.ranges values.ranges, verified_removeAll s.verified values.verified⟩

def insertAtSet (s positions : IndexSet) : IndexSet :=
  if positions.isEmpty then s
  else if s.isEmpty then positions
  else ofIndexes (insertLoop true 0 s.asIndexes positions.asIndexes)
    (sorted_insertLoop s.sorted_asIndexes positions.sorted_asIndexes)

/-- The early exits: there is nothing to move, or everything that is put in lies behind. -/
def shiftForInsertAtSet (s values : IndexSet) : IndexSet :=
  match s.ranges.getLast?, values.ranges.head? with
  | some back, some front =>
    if back.second ≤ front.first then s
    else ofIndexes (insertLoop false 0 s.asIndexes values.asIndexes)
      (sorted_insertLoop s.sorted_asIndexes values.sorted_asIndexes)
  | _, _ => s

def eraseAtSet (s positions : IndexSet) : IndexSet :=
  if s.isEmpty || positions.isEmpty then s
  else ofIndexes (eraseLoop 0 s.asIndexes positions.asIndexes)
    (sorted_eraseLoop s.sorted_asIndexes positions.sorted_asIndexes
      (fun _ _ => Nat.zero_le _) fun _ _ => Nat.zero_le _)

theorem pushed_addShiftedBy (s shiftedBy values : IndexSet) :
    Pushed 0 (shiftedByLoop s.ranges shiftedBy.ranges 0 0 0 values.asIndexes) :=
  pushed_shiftedByLoop s.verified shiftedBy.verified (Nat.le_refl 0) (Nat.le_refl 0)
    values.sorted_asIndexes fun _ _ _ => Nat.zero_le _

def addShiftedBy (s shiftedBy values : IndexSet) : IndexSet :=
  if values.isEmpty then s
  else ⟨build (shiftedByLoop s.ranges shiftedBy.ranges 0 0 0 values.asIndexes),
    verified_build (pushed_addShiftedBy s shiftedBy values)⟩

/-! ## What the operations do -/

/-- A set has one form only. -/
theorem ext_contains {s t : IndexSet} (h : s.contains = t.contains) : s = t :=
  IndexSet.ext (ranges_unique s.verified t.verified (congrFun h))

theorem finite (s : IndexSet) : ListEdits.Finite s.contains := contains_bounded s.ranges

@[simp] theorem contains_empty : empty.contains = fun _ => false := rfl

theorem eq_empty {s : IndexSet} (h : s.isEmpty = true) : s = empty :=
  IndexSet.ext (List.isEmpty_iff.mp h)

theorem isEmpty_iff {s : IndexSet} : s.isEmpty = true ↔ ∀ k, s.contains k = false := by
  constructor
  · intro h k
    rw [eq_empty h]
    rfl
  · intro h
    have hs : s = empty := ext_contains (funext h)
    rw [hs]
    rfl

@[simp] theorem mem_asIndexes {s : IndexSet} {k : Nat} : k ∈ s.asIndexes ↔ s.contains k = true :=
  RangeVectors.mem_asIndexes s.verified

theorem endsAt_eq {s : IndexSet} {index : Nat} (h : ∀ k, s.contains k = true → k ≤ index) :
    s.endsAt (index + 1) = s.contains index := by
  rw [endsAt, Bool.eq_iff_iff]
  split
  · rename_i back hback
    have hin := h _ (contains_of_mem_last s.verified hback)
    rw [decide_eq_true_iff]
    constructor
    · intro hend
      have hlast := contains_of_mem_last s.verified hback
      rwa [hend, Nat.add_sub_cancel] at hlast
    · intro hindex
      by_contra hne
      have hout : s.contains index = false := contains_of_last s.verified hback (by omega)
      rw [hindex] at hout
      cases hout
  · rename_i hnone
    rw [eq_empty (List.isEmpty_iff.mpr (List.getLast?_eq_none_iff.mp hnone))]
    simp

theorem contains_add (s : IndexSet) (index k : Nat) :
    (s.add index).contains k = (decide (k = index) || s.contains k) :=
  RangeVectors.contains_add s.verified k

theorem contains_foldl_add (s : IndexSet) (l : List Nat) (k : Nat) :
    (l.foldl add s).contains k = (s.contains k || decide (k ∈ l)) := by
  induction l generalizing s with
  | nil => simp
  | cons i is ih =>
    rw [List.foldl_cons, ih, contains_add]
    simp only [List.mem_cons]
    grind

theorem contains_addSet (s other : IndexSet) :
    (s.addSet other).contains = ListEdits.union s.contains other.contains := by
  funext k
  rw [addSet, contains_foldl_add, ListEdits.union]
  simp

theorem count_zero (s : IndexSet) (stop : Nat) :
    s.count 0 stop = Nat.count (fun i => s.contains i = true) stop :=
  RangeVectors.count_add_count s.verified (Nat.zero_le stop)

theorem unshift_eq (s : IndexSet) (index : Nat) :
    s.unshift index = ListEdits.unshift s.contains index :=
  sub_count s.verified index

theorem shift_eq (s : IndexSet) (index : Nat) :
    s.shift index = ListEdits.shift s.contains index :=
  RangeVectors.shift_eq s.verified index

theorem contains_shift (s : IndexSet) (index : Nat) : s.contains (s.shift index) = false := by
  rw [shift_eq]
  exact ListEdits.shift_not_mem s.finite index

theorem contains_set (len k : Nat) : (set len).contains k = decide (k < len) := by
  rw [set]
  split
  · rename_i h
    simp [h]
  · simp [contains, Ranges.contains]

theorem contains_insertAt (s : IndexSet) (index n : Nat) :
    (s.insertAt index n).contains = ListEdits.insertAt (ListEdits.block index n) s.contains := by
  funext k
  have hgrow := RangeVectors.contains_grow index n s.verified k
  have hfold := contains_foldl_add ⟨grow s.ranges index n, verified_grow n s.verified⟩
    ((List.range n).map fun i => index + i) k
  have hblock : k ∈ (List.range n).map (fun i => index + i) ↔ index ≤ k ∧ k < index + n := by
    simp only [List.mem_map, List.mem_range]
    exact ⟨by rintro ⟨i, hi, rfl⟩; omega, fun h => ⟨k - index, by omega, by omega⟩⟩
  rw [List.foldl_map] at hfold
  rw [ListEdits.insertAt, ListEdits.unshift_block, ListEdits.block, insertAt]
  simp only [contains, hblock] at *
  grind

theorem contains_shiftForInsertAt (s : IndexSet) (index n : Nat) (h : 0 < n) :
    (s.shiftForInsertAt index n h).contains =
      ListEdits.shiftForInsertAt (ListEdits.block index n) s.contains := by
  funext k
  have hshift := RangeVectors.contains_shiftForInsertAt index n s.verified k
  rw [ListEdits.shiftForInsertAt, ListEdits.unshift_block, ListEdits.block]
  simp only [contains, shiftForInsertAt] at *
  rw [hshift]
  grind

theorem contains_eraseAt (s : IndexSet) (index k : Nat) :
    (s.eraseAt index).contains k = if k < index then s.contains k else s.contains (k + 1) :=
  RangeVectors.contains_eraseAt s.verified k

theorem contains_remove (s : IndexSet) (index k : Nat) :
    (s.remove index 1 Nat.one_pos).contains k = (s.contains k && !decide (k = index)) := by
  have hremove := RangeVectors.contains_remove s.verified (Nat.lt_succ_self index) k
  rw [contains, remove, hremove, contains]
  grind

theorem contains_removeSet (s values : IndexSet) (k : Nat) :
    (s.removeSet values).contains k = (s.contains k && !values.contains k) :=
  contains_removeAll s.verified values.verified k

theorem contains_ofIndexes {l : List Nat} (h : l.Pairwise (· < ·)) (k : Nat) :
    (ofIndexes l h).contains k = decide (k ∈ l) := by
  rw [contains, ofIndexes, contains_build (pushed_single h fun _ _ => Nat.zero_le _),
    pushes_single]

theorem countP_asIndexes (s : IndexSet) (k : Nat) :
    ListEdits.unshift s.contains k + s.asIndexes.countP (fun i => i < k) = k := by
  have hstep : ∀ (l : List Nat) (k : Nat),
      l.countP (fun i => i < k + 1) = l.countP (fun i => i < k) + l.count k := by
    intro l k
    induction l with
    | nil => rfl
    | cons i is ih =>
      rw [List.countP_cons, List.countP_cons, List.count_cons, ih]
      grind
  induction k with
  | zero => simp
  | succ k ih =>
    have hone : s.asIndexes.count k = if s.contains k then 1 else 0 := by
      rw [List.Nodup.count (s.sorted_asIndexes.imp Nat.ne_of_lt)]
      simp only [mem_asIndexes]
    rw [hstep, ListEdits.unshift_succ, hone]
    split <;> omega

theorem contains_insertLoop (s positions : IndexSet) (keep : Bool) (k : Nat) :
    k ∈ insertLoop keep 0 s.asIndexes positions.asIndexes ↔
      (keep = true ∧ positions.contains k = true) ∨ (positions.contains k = false ∧
        s.contains (ListEdits.unshift positions.contains k) = true) := by
  have hcount := positions.countP_asIndexes k
  rw [mem_insertLoop s.sorted_asIndexes positions.sorted_asIndexes]
  simp only [mem_asIndexes, Bool.not_eq_true, Nat.add_zero]
  refine or_congr_right (and_congr_right fun _ => ?_)
  constructor
  · rintro ⟨i, hi, heq⟩
    rwa [show ListEdits.unshift positions.contains k = i by omega]
  · exact fun h => ⟨_, h, hcount⟩

theorem contains_insertAtSet (s positions : IndexSet) :
    (s.insertAtSet positions).contains =
      ListEdits.insertAt positions.contains s.contains := by
  rw [insertAtSet]
  split
  · rename_i h
    rw [eq_empty h, contains_empty, ListEdits.insertAt_none]
  · split
    · rename_i h
      rw [eq_empty h, contains_empty]
      funext k
      rw [ListEdits.insertAt, Bool.or_false]
    · funext k
      rw [contains_ofIndexes, ListEdits.insertAt, Bool.eq_iff_iff, decide_eq_true_iff,
        contains_insertLoop]
      cases positions.contains k <;> simp

/-- The early exits make no difference. -/
theorem contains_shiftForInsertAtSet (s values : IndexSet) :
    (s.shiftForInsertAtSet values).contains =
      ListEdits.shiftForInsertAt values.contains s.contains := by
  rw [shiftForInsertAtSet]
  split
  · rename_i back front hback hfront
    split
    · rename_i hle
      refine (ListEdits.shiftForInsertAt_of_le (m := back.second) (fun k hk => ?_)
        fun k hk => ?_).symm
      · exact contains_of_last s.verified hback hk
      · exact contains_of_head values.verified hfront (Nat.lt_of_lt_of_le hk hle)
    · funext k
      rw [contains_ofIndexes, ListEdits.shiftForInsertAt, Bool.eq_iff_iff, decide_eq_true_iff,
        contains_insertLoop]
      cases values.contains k <;> simp
  · rename_i hnone
    rcases hs : s.ranges.getLast? with _ | back
    · rw [eq_empty (List.isEmpty_iff.mpr (List.getLast?_eq_none_iff.mp hs)), contains_empty]
      funext k
      exact (Bool.and_false _).symm
    · rcases hv : values.ranges.head? with _ | front
      · rw [eq_empty (List.isEmpty_iff.mpr (List.head?_eq_none_iff.mp hv)), contains_empty]
        funext k
        rw [ListEdits.shiftForInsertAt, ListEdits.unshift_none, Bool.not_false, Bool.true_and]
      · exact absurd hv (hnone back front hs)

theorem contains_eraseAtSet (s positions : IndexSet) :
    (s.eraseAtSet positions).contains = ListEdits.eraseAt positions.contains s.contains := by
  rw [eraseAtSet]
  split
  · rename_i h
    rcases Bool.or_eq_true_iff.mp h with h | h
    · rw [eq_empty h]
      rfl
    · rw [eq_empty h, contains_empty, ListEdits.eraseAt_none]
  · funext k
    rw [contains_ofIndexes, ListEdits.eraseAt, Bool.eq_iff_iff, decide_eq_true_iff,
      mem_eraseLoop s.sorted_asIndexes positions.sorted_asIndexes]
    have hnum : ∀ i, i - (0 + positions.asIndexes.countP (fun p => p < i)) =
        ListEdits.unshift positions.contains i := fun i => by
      have := positions.countP_asIndexes i
      omega
    simp only [mem_asIndexes, Bool.not_eq_true, hnum]
    constructor
    · rintro ⟨i, hi, hnot, rfl⟩
      rwa [ListEdits.shift_unshift hnot]
    · intro h
      exact ⟨_, h, ListEdits.shift_not_mem positions.finite k,
        (ListEdits.unshift_shift positions.finite k).symm⟩

/-- `add_shifted_by` in one pass: the values come out of the list that `shifted_by` has been put
into, and then go into the list that the set has been taken out of. -/
theorem contains_addShiftedBy (s shiftedBy values : IndexSet) :
    (s.addShiftedBy shiftedBy values).contains = ListEdits.insertAt s.contains
      (ListEdits.eraseAt shiftedBy.contains values.contains) := by
  funext k
  rw [addShiftedBy]
  split
  · rename_i h
    rw [eq_empty h, contains_empty, ListEdits.insertAt, ListEdits.eraseAt, Bool.or_false]
  · rw [contains, contains_build (pushed_addShiftedBy s shiftedBy values), Bool.eq_iff_iff,
      pushes_shiftedByLoop s.verified shiftedBy.verified (Nat.le_refl 0) (Nat.le_refl 0)
        values.sorted_asIndexes, ListEdits.insertAt, Bool.or_eq_true]
    have hpass := fun v => passed_spec v 0 shiftedBy.verified (Nat.le_refl 0)
    have hvalid : ∀ v, (passed v shiftedBy.ranges 0 0).2.2 ≤ v ↔
        shiftedBy.contains v = false := fun v => by
      rw [← Nat.not_lt, (hpass v).1, ← Bool.not_eq_true]
      simp [contains]
    have htarget : ∀ v, shiftedBy.contains v = false → target s.ranges shiftedBy.ranges 0 0 0 v =
        ListEdits.shift s.contains (ListEdits.unshift shiftedBy.contains v) := fun v hv => by
      rw [target, (hpass v).2 (Nat.zero_le v) hv, ← shift_eq, ← unshift_eq, shift, unshift,
        count, Nat.zero_add, Nat.add_zero]
    refine or_congr_right' fun hk => ?_
    replace hk : s.contains k = false := Bool.eq_false_of_not_eq_true hk
    simp only [mem_asIndexes, hvalid, ListEdits.eraseAt]
    constructor
    · rintro ⟨v, hv, hnot, rfl⟩
      rwa [htarget v hnot, ListEdits.unshift_shift s.finite, ListEdits.shift_unshift hnot]
    · intro hv
      have hnot := ListEdits.shift_not_mem shiftedBy.finite (ListEdits.unshift s.contains k)
      refine ⟨_, hv, hnot, ?_⟩
      rw [htarget _ hnot, ListEdits.unshift_shift shiftedBy.finite, ListEdits.shift_unshift hk]

/-! ## One chunk -/

/-- The indices of the set take no more than one chunk. -/
def Short (s : IndexSet) : Prop := ∀ i, s.contains i = true → i < 2 * RangeChunks.maxSize

theorem Short.length_le {s : IndexSet} (h : s.Short) :
    s.ranges.length ≤ RangeChunks.maxSize := by
  have hlength := length_le_of_contains s.verified h
  omega

/-- A short set is counted in the chunk that a builder has made as it is counted here. -/
theorem Short.count_eq {s : IndexSet} (h : s.Short) {l : List Range} (hl : Pushed 0 l)
    (hs : s.ranges = build l) (expected start stop : Nat) :
    RangeChunks.count (l.foldl RangeChunks.ChunkedRangeVectorBuilder.pushBack
      (.ofExpected expected)).finalize start stop = s.count start stop := by
  have hlength := h.length_le
  rw [hs] at hlength
  rw [RangeChunks.count_finalize hl hlength, count, hs]

end IndexSet

end IndexSets
