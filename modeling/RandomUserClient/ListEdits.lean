import Mathlib.Data.Nat.Nth

/-!
# Edits of lists by position

An edit takes out the items at some positions of a list and puts others in at
some positions of the result, and leaves the order of the rest alone. So it is
given by two sets of positions, those taken out of the old list and those put
into the new one, and two edits in a row are one edit again. The positions of a
set are numbers in one list; a position outside the set has another number in
the list without them.
-/

namespace ListEdits

variable {α : Type}

/-- A set of positions. -/
abbrev Positions := Nat → Bool

/-- The number that a position has when those in `S` are taken out. -/
def unshift (S : Positions) (n : Nat) : Nat := Nat.count (fun i => S i = false) n

/-- The position that gets the number `n` when those in `S` are taken out. -/
noncomputable def shift (S : Positions) (n : Nat) : Nat := Nat.nth (fun i => S i = false) n

/-- There are no positions from some number on. -/
def Finite (S : Positions) : Prop := ∃ n, ∀ i, n ≤ i → S i = false

def union (S T : Positions) : Positions := fun i => S i || T i

/-- Put the positions `P` into a list that `S` is about: both sets, in the new numbers. -/
def insertAt (P S : Positions) : Positions := fun i => P i || S (unshift P i)

/-- The same without the positions that have been put in. -/
def shiftForInsertAt (P S : Positions) : Positions := fun i => !P i && S (unshift P i)

/-- Take the positions `P` out of a list that `S` is about: the rest of `S`, in the new numbers. -/
noncomputable def eraseAt (P S : Positions) : Positions := fun n => S (shift P n)

/-- `n` positions from `index` on. -/
def block (index n : Nat) : Positions := fun i => decide (index ≤ i ∧ i < index + n)

/-- A set without one of its positions. -/
def without (S : Positions) (p : Nat) : Positions := fun i => S i && !decide (i = p)

/-- The last item goes where another one was. -/
def moveLastOver (l : List α) (i : Nat) : List α :=
  match l.getLast? with
  | some back => (l.set i back).dropLast
  | none => []

/-- The items that are not at the positions. -/
def removeAt : Positions → List α → List α
  | _, [] => []
  | S, x :: xs =>
    if S 0 then removeAt (fun i => S (i + 1)) xs else x :: removeAt (fun i => S (i + 1)) xs

/-! ## Numbers -/

@[simp] theorem unshift_zero (S : Positions) : unshift S 0 = 0 := Nat.count_zero _

theorem unshift_succ (S : Positions) (n : Nat) :
    unshift S (n + 1) = unshift S n + if S n then 0 else 1 := by
  rw [unshift, Nat.count_succ, unshift]
  cases S n <;> rfl

/-- Counting from the other end. -/
theorem unshift_succ' (S : Positions) (n : Nat) :
    unshift S (n + 1) = unshift (fun i => S (i + 1)) n + if S 0 then 0 else 1 := by
  rw [unshift, Nat.count_succ', unshift]
  cases S 0 <;> rfl

theorem unshift_mono (S : Positions) {m n : Nat} (h : m ≤ n) : unshift S m ≤ unshift S n :=
  Nat.count_monotone _ h

theorem unshift_lt {S : Positions} {m n : Nat} (hm : S m = false) (h : m < n) :
    unshift S m < unshift S n :=
  Nat.count_strict_mono hm h

theorem unshift_inj {S : Positions} {m n : Nat} (hm : S m = false) (hn : S n = false)
    (h : unshift S m = unshift S n) : m = n :=
  Nat.count_injective hm hn h

/-- Only the positions below a number matter to it. -/
theorem unshift_congr {S T : Positions} {n : Nat} (h : ∀ i < n, S i = T i) :
    unshift S n = unshift T n := by
  induction n with
  | zero => rw [unshift_zero, unshift_zero]
  | succ n ih =>
    rw [unshift_succ, unshift_succ, ih fun i hi => h i (by omega), h n (Nat.lt_succ_self n)]

/-- A number and the positions of the set below it. -/
theorem unshift_add_count (S : Positions) (n : Nat) :
    unshift S n + Nat.count (fun i => S i = true) n = n := by
  induction n with
  | zero => rw [unshift_zero, Nat.count_zero]
  | succ n ih =>
    rw [unshift_succ, Nat.count_succ]
    cases S n <;> simp only [if_true, if_false, reduceCtorEq] <;> omega

theorem shift_unshift {S : Positions} {n : Nat} (h : S n = false) : shift S (unshift S n) = n :=
  Nat.nth_count h

theorem unshift_none (n : Nat) : unshift (fun _ => false) n = n := by
  simpa using unshift_add_count (fun _ => false) n

theorem unshift_block (index n k : Nat) : unshift (block index n) k =
    if k < index then k else if k < index + n then index else k - n := by
  induction k with
  | zero => rw [unshift_zero]; grind
  | succ k ih =>
    rw [unshift_succ, ih, block]
    grind

theorem unshift_without {S : Positions} {p : Nat} (h : S p = true) (n : Nat) :
    unshift (without S p) n = unshift S n + if p < n then 1 else 0 := by
  induction n with
  | zero => simp
  | succ n ih =>
    rw [unshift_succ, ih, unshift_succ, without]
    grind

theorem Finite.infinite_rest {S : Positions} (h : Finite S) :
    (Set.ofPred fun i => S i = false).Infinite := by
  obtain ⟨n, hn⟩ := h
  refine Set.infinite_of_forall_exists_gt fun m => ⟨max (m + 1) n, hn _ (Nat.le_max_right _ _), ?_⟩
  exact Nat.lt_of_lt_of_le (Nat.lt_succ_self m) (Nat.le_max_left _ _)

theorem unshift_shift {S : Positions} (h : Finite S) (n : Nat) : unshift S (shift S n) = n :=
  Nat.count_nth_of_infinite h.infinite_rest n

theorem shift_not_mem {S : Positions} (h : Finite S) (n : Nat) : S (shift S n) = false :=
  Nat.nth_mem_of_infinite h.infinite_rest n

/-- What a position must be to have a number. -/
theorem shift_eq_iff {S : Positions} (h : Finite S) {m n : Nat} :
    shift S n = m ↔ S m = false ∧ unshift S m = n := by
  constructor
  · rintro rfl
    exact ⟨shift_not_mem h n, unshift_shift h n⟩
  · rintro ⟨hm, rfl⟩
    exact shift_unshift hm

theorem eraseAt_unshift {P : Positions} (S : Positions) {n : Nat} (h : P n = false) :
    eraseAt P S (unshift P n) = S n := by
  rw [eraseAt, shift_unshift h]

theorem eraseAt_none (S : Positions) : eraseAt (fun _ => false) S = S := by
  funext n
  have h := eraseAt_unshift S (P := fun _ => false) (n := n) rfl
  rwa [unshift_none] at h

theorem insertAt_none (S : Positions) : insertAt (fun _ => false) S = S := by
  funext n
  rw [insertAt, unshift_none, Bool.false_or]

theorem insertAt_of_not_mem {P : Positions} (S : Positions) {n : Nat} (h : P n = false) :
    insertAt P S n = S (unshift P n) := by
  rw [insertAt, h, Bool.false_or]

/-- What is put in behind a set does not move it. -/
theorem shiftForInsertAt_of_le {P S : Positions} {m : Nat} (hS : ∀ i, m ≤ i → S i = false)
    (hP : ∀ i < m, P i = false) : shiftForInsertAt P S = S := by
  have hbelow : ∀ n ≤ m, unshift P n = n := fun n hn => by
    rw [unshift_congr fun i hi => hP i (Nat.lt_of_lt_of_le hi hn), unshift_none]
  funext n
  rw [shiftForInsertAt]
  by_cases hn : n < m
  · rw [hP n hn, hbelow n (Nat.le_of_lt hn), Bool.not_false, Bool.true_and]
  · have hmono := unshift_mono P (Nat.le_of_not_lt hn)
    rw [hbelow m (Nat.le_refl m)] at hmono
    rw [hS n (Nat.le_of_not_lt hn), hS _ hmono, Bool.and_false]

/-- Taking two sets out, one after the other. -/
theorem unshift_insertAt (P S : Positions) (n : Nat) :
    unshift (insertAt P S) n = unshift S (unshift P n) := by
  induction n with
  | zero => simp
  | succ n ih =>
    rw [unshift_succ, ih, unshift_succ P]
    cases hP : P n with
    | true => simp [insertAt, hP]
    | false => rw [insertAt_of_not_mem S hP, if_neg Bool.false_ne_true, unshift_succ S]

theorem insertAt_eraseAt (P S : Positions) : insertAt P (eraseAt P S) = union P S := by
  funext n
  cases h : P n with
  | true => simp [insertAt, union, h]
  | false => rw [insertAt_of_not_mem _ h, eraseAt_unshift S h, union, h, Bool.false_or]

theorem union_comm (S T : Positions) : union S T = union T S := by
  funext n
  exact Bool.or_comm _ _

/-- A number in a list that more has been taken out of. -/
theorem unshift_union {S T : Positions} (h : ∀ i, T i = true → S i = false) (n : Nat) :
    unshift S n = unshift (union S T) n + Nat.count (fun i => T i = true) n := by
  induction n with
  | zero => simp
  | succ n ih =>
    have := h n
    rw [unshift_succ, unshift_succ, Nat.count_succ, ih, union]
    cases hT : T n <;> cases hS : S n <;> simp_all <;> omega

theorem Finite.union {S T : Positions} (hS : Finite S) (hT : Finite T) : Finite (union S T) := by
  obtain ⟨m, hm⟩ := hS
  obtain ⟨n, hn⟩ := hT
  refine ⟨max m n, fun i hi => ?_⟩
  rw [ListEdits.union, hm i (by omega), hn i (by omega), Bool.or_false]

/-! ## Lists without some items -/

@[simp] theorem removeAt_nil (S : Positions) : removeAt S ([] : List α) = [] := rfl

theorem removeAt_cons (S : Positions) (x : α) (xs : List α) : removeAt S (x :: xs) =
    if S 0 then removeAt (fun i => S (i + 1)) xs else x :: removeAt (fun i => S (i + 1)) xs := rfl

theorem length_removeAt (S : Positions) (l : List α) :
    (removeAt S l).length = unshift S l.length := by
  induction l generalizing S with
  | nil => simp
  | cons x xs ih =>
    rw [removeAt_cons, List.length_cons, unshift_succ']
    split
    · exact ih _
    · rw [List.length_cons, ih]

/-- Where an item is that has not been taken out. -/
theorem getElem?_removeAt {S : Positions} {i : Nat} (h : S i = false) (l : List α) :
    (removeAt S l)[unshift S i]? = l[i]? := by
  induction l generalizing S i with
  | nil => simp
  | cons x xs ih =>
    cases i with
    | zero => simp [removeAt_cons, h]
    | succ i =>
      have ih := ih (S := fun i => S (i + 1)) (i := i) h
      rw [removeAt_cons, unshift_succ', List.getElem?_cons_succ, ← ih]
      split
      · rfl
      · rw [List.getElem?_cons_succ]

theorem removeAt_removeAt (S T : Positions) (l : List α) :
    removeAt T (removeAt S l) = removeAt (insertAt S T) l := by
  induction l generalizing S T with
  | nil => rfl
  | cons x xs ih =>
    have htail : (fun i => insertAt S T (i + 1)) = insertAt (fun i => S (i + 1))
        (fun i => T (i + if S 0 then 0 else 1)) := by
      funext i
      rw [insertAt, unshift_succ', insertAt]
    rw [removeAt_cons, removeAt_cons, htail]
    cases hS : S 0 with
    | true => simp [insertAt, hS, ih]
    | false =>
      simp only [insertAt, hS, Bool.false_or, unshift_zero, if_false, removeAt_cons, ih,
        Bool.false_eq_true]

/-- Two lists of positions in order with the same members are the same. -/
theorem sorted_ext {l k : List Nat} (hl : l.Pairwise (· < ·)) (hk : k.Pairwise (· < ·))
    (h : ∀ i, i ∈ l ↔ i ∈ k) : l = k :=
  ((List.perm_ext_iff_of_nodup (hl.imp Nat.ne_of_lt) (hk.imp Nat.ne_of_lt)).mpr h).eq_of_pairwise
    (fun _ _ _ _ h h' => absurd h (Nat.lt_asymm h')) hl hk

theorem removeAt_eq_range (S : Positions) (l : List α) : removeAt S l =
    ((List.range l.length).filter fun i => !S i).filterMap fun i => l[i]? := by
  induction l generalizing S with
  | nil => rfl
  | cons x xs ih =>
    rw [removeAt_cons, ih, List.length_cons, List.range_succ_eq_map, List.filter_cons,
      List.filter_map]
    cases hS : S 0 <;> simp [List.filterMap_map, Function.comp_def]

/-- The items at the positions that are left, in order. -/
theorem removeAt_eq_filterMap {S : Positions} {l : List α} {ps : List Nat}
    (hps : ps.Pairwise (· < ·)) (hmem : ∀ p, p ∈ ps ↔ p < l.length ∧ S p = false) :
    removeAt S l = ps.filterMap fun p => l[p]? := by
  rw [removeAt_eq_range]
  congr 1
  refine sorted_ext (List.pairwise_lt_range.filter _) hps fun p => ?_
  rw [hmem, List.mem_filter, List.mem_range, Bool.not_eq_true']

theorem length_le_count {P : Nat → Prop} [DecidablePred P] {l : List Nat} {n : Nat}
    (hl : l.Nodup) (h : ∀ i ∈ l, i < n ∧ P i) : l.length ≤ Nat.count P n := by
  rw [Nat.count_eq_card_filter_range, ← List.toFinset_card_of_nodup hl]
  refine Finset.card_le_card fun i hi => ?_
  simpa using h i (List.mem_toFinset.mp hi)

theorem count_le_length {P : Nat → Prop} [DecidablePred P] {l : List Nat} {n : Nat}
    (h : ∀ i < n, P i → i ∈ l) : Nat.count P n ≤ l.length := by
  rw [Nat.count_eq_card_filter_range]
  refine (Finset.card_le_card fun i hi => ?_).trans (List.toFinset_card_le l)
  rw [Finset.mem_filter, Finset.mem_range] at hi
  exact List.mem_toFinset.mpr (h i hi.1 hi.2)

/-! ## The last item in another place -/

theorem length_moveLastOver (l : List α) (i : Nat) : (moveLastOver l i).length = l.length - 1 := by
  rcases List.eq_nil_or_concat l with rfl | ⟨front, back, rfl⟩
  · rfl
  · rw [List.concat_eq_append, moveLastOver, List.getLast?_concat]
    simp

theorem getElem?_moveLastOver {l : List α} {i : Nat} (h : i < l.length) (j : Nat) :
    (moveLastOver l i)[j]? =
      if j < l.length - 1 then (if j = i then l[l.length - 1]? else l[j]?) else none := by
  rcases List.eq_nil_or_concat l with rfl | ⟨front, back, rfl⟩
  · cases h
  · rw [List.concat_eq_append] at *
    rw [moveLastOver, List.getLast?_concat]
    simp only [List.getElem?_dropLast, List.length_set, List.getElem?_set]
    grind

theorem moveLastOver_perm {l : List α} {i : Nat} (h : i < l.length) :
    (moveLastOver l i).Perm (l.eraseIdx i) := by
  rcases List.eq_nil_or_concat l with rfl | ⟨front, back, rfl⟩
  · exact absurd h (Nat.not_lt_zero i)
  · rw [List.concat_eq_append] at *
    rw [moveLastOver, List.getLast?_concat]
    dsimp only
    by_cases hi : i < front.length
    · rw [List.set_append_left _ _ hi, List.dropLast_concat, List.eraseIdx_append_of_lt_length hi]
      exact (List.set_perm_cons_eraseIdx hi back).trans (List.perm_append_singleton back _).symm
    · have hlast : i = front.length := by
        rw [List.length_append, List.length_singleton] at h
        omega
      subst hlast
      rw [List.set_append_right _ _ (Nat.le_refl _), Nat.sub_self, List.set_cons_zero,
        List.dropLast_concat, List.eraseIdx_append_of_length_le (Nat.le_refl _), Nat.sub_self]
      simp

/-! ## Edits -/

/-- The old list without what the edit takes out is the new list without what it puts in. -/
def Edits (D I : Positions) (old new : List α) : Prop := removeAt D old = removeAt I new

/-- The item at `i` of the old list is the one at `j` of the new list: the edit leaves it alone. -/
def Tracks (D I : Positions) (i j : Nat) : Prop :=
  D i = false ∧ I j = false ∧ unshift D i = unshift I j

theorem Edits.refl (l : List α) : Edits (fun _ => false) (fun _ => false) l l := rfl

theorem Edits.getElem? {D I : Positions} {old new : List α} (h : Edits D I old new) {i j : Nat}
    (ht : Tracks D I i j) : new[j]? = old[i]? := by
  obtain ⟨hi, hj, hrank⟩ := ht
  rw [← getElem?_removeAt hi old, ← getElem?_removeAt hj new, hrank, h]

/-- The positions behind the lists are left alone by an edit that has none of them. -/
theorem Edits.behind {D I : Positions} {old new : List α} (h : Edits D I old new)
    (hD : ∀ i, old.length ≤ i → D i = false) (hI : ∀ j, new.length ≤ j → I j = false) (k : Nat) :
    Tracks D I (old.length + k) (new.length + k) := by
  refine ⟨hD _ (Nat.le_add_right _ k), hI _ (Nat.le_add_right _ k), ?_⟩
  induction k with
  | zero =>
    have hlen := congrArg List.length (show removeAt D old = removeAt I new from h)
    simpa only [length_removeAt, Nat.add_zero] using hlen
  | succ k ih =>
    rw [← Nat.add_assoc, ← Nat.add_assoc, unshift_succ, unshift_succ,
      hD _ (Nat.le_add_right _ k), hI _ (Nat.le_add_right _ k), ih]

/-- An edit is right when each item that it leaves alone is where it says. -/
theorem edits_iff {D I : Positions} (hD : Finite D) (hI : Finite I) {old new : List α} :
    Edits D I old new ↔ ∀ i j, Tracks D I i j → new[j]? = old[i]? := by
  refine ⟨fun h i j ht => h.getElem? ht, fun h => List.ext_getElem? fun n => ?_⟩
  have hi := shift_not_mem hD n
  have hj := shift_not_mem hI n
  have hold := getElem?_removeAt hi old
  have hnew := getElem?_removeAt hj new
  rw [unshift_shift hD] at hold
  rw [unshift_shift hI] at hnew
  rw [hold, hnew]
  exact (h _ _ ⟨hi, hj, (unshift_shift hD n).trans (unshift_shift hI n).symm⟩).symm

/-- The edit that `D₁`, `I₁` and then `D₂`, `I₂` make up. -/
theorem Edits.trans {D₁ I₁ D₂ I₂ : Positions} {a b c : List α} (h₁ : Edits D₁ I₁ a b)
    (h₂ : Edits D₂ I₂ b c) :
    Edits (insertAt D₁ (eraseAt I₁ D₂)) (insertAt I₂ (eraseAt D₂ I₁)) a c :=
  calc removeAt (insertAt D₁ (eraseAt I₁ D₂)) a
      = removeAt (eraseAt I₁ D₂) (removeAt D₁ a) := (removeAt_removeAt _ _ _).symm
    _ = removeAt (union I₁ D₂) b := by rw [h₁, removeAt_removeAt, insertAt_eraseAt]
    _ = removeAt (eraseAt D₂ I₁) (removeAt D₂ b) := by
        rw [removeAt_removeAt, insertAt_eraseAt, union_comm]
    _ = removeAt (insertAt I₂ (eraseAt D₂ I₁)) c := by rw [h₂, removeAt_removeAt]

/-- What both edits leave alone, and nothing else, is left alone by the two together. -/
theorem tracks_trans_iff {D₁ I₁ D₂ I₂ : Positions} (hI₁ : Finite I₁) (hD₂ : Finite D₂)
    {i j : Nat} :
    Tracks (insertAt D₁ (eraseAt I₁ D₂)) (insertAt I₂ (eraseAt D₂ I₁)) i j ↔
      ∃ k, Tracks D₁ I₁ i k ∧ Tracks D₂ I₂ k j := by
  have hrank : ∀ {P S : Positions} {k : Nat}, unshift (eraseAt P S) (unshift P k) =
      unshift (union P S) k := by
    intro P S k
    rw [← insertAt_eraseAt, unshift_insertAt]
  constructor
  · rintro ⟨hi, hj, heq⟩
    rw [unshift_insertAt, unshift_insertAt] at heq
    simp only [insertAt, Bool.or_eq_false_iff] at hi hj
    -- the position in the middle, once from the left and once from the right
    obtain ⟨hk, hki⟩ := (shift_eq_iff hI₁).mp (rfl : shift I₁ (unshift D₁ i) = _)
    obtain ⟨hk', hkj⟩ := (shift_eq_iff hD₂).mp (rfl : shift D₂ (unshift I₂ j) = _)
    have hsame : shift I₁ (unshift D₁ i) = shift D₂ (unshift I₂ j) := by
      rw [← hki, ← hkj, hrank, hrank, union_comm D₂] at heq
      refine unshift_inj ?_ ?_ heq
      · rw [union, hk, Bool.false_or]
        exact hi.2
      · rw [union, hk', Bool.or_false]
        exact hj.2
    refine ⟨_, ⟨hi.1, hk, hki.symm⟩, hi.2, hj.1, ?_⟩
    rw [hsame, hkj]
  · rintro ⟨k, ⟨hi, hk, hki⟩, hk', hj, hkj⟩
    refine ⟨?_, ?_, ?_⟩
    · rw [insertAt_of_not_mem _ hi, hki, eraseAt_unshift _ hk, hk']
    · rw [insertAt_of_not_mem _ hj, ← hkj, eraseAt_unshift _ hk', hk]
    · rw [unshift_insertAt, unshift_insertAt, hki, ← hkj, hrank, hrank, union_comm]

/-- Pairs of positions that are in order on both sides, with the same items, make an edit that
leaves them alone and nothing else. -/
theorem edits_of_pairs {D I : Positions} {old new : List α} (ps : List (Nat × Nat))
    (hps : ps.Pairwise fun x y => x.1 < y.1 ∧ x.2 < y.2)
    (hold : ∀ p, p ∈ ps.map Prod.fst ↔ p < old.length ∧ D p = false)
    (hnew : ∀ p, p ∈ ps.map Prod.snd ↔ p < new.length ∧ I p = false)
    (hsame : ∀ x ∈ ps, old[x.1]? = new[x.2]?) : Edits D I old new := by
  have hfst : (ps.map Prod.fst).Pairwise (· < ·) := List.pairwise_map.mpr (hps.imp And.left)
  have hsnd : (ps.map Prod.snd).Pairwise (· < ·) := List.pairwise_map.mpr (hps.imp And.right)
  rw [Edits, removeAt_eq_filterMap hfst hold, removeAt_eq_filterMap hsnd hnew, List.filterMap_map,
    List.filterMap_map]
  exact List.filterMap_congr hsame

/-- A position that is taken out and put back in its place is left alone. -/
theorem tracks_without_iff {D I : Positions} {p q : Nat} (hp : D p = true) (hq : I q = true)
    (hrank : unshift D p = unshift I q) {i j : Nat} :
    Tracks (without D p) (without I q) i j ↔ Tracks D I i j ∨ (i = p ∧ j = q) := by
  have hbelow : ∀ {S : Positions} {m n : Nat}, S m = false → m < n →
      unshift S m < unshift S n := unshift_lt
  have habove : ∀ {S : Positions} {m n : Nat}, m < n → unshift S m ≤ unshift S n := fun h =>
    unshift_mono _ (Nat.le_of_lt h)
  have hmem : ∀ {S : Positions} {m n : Nat}, without S m n = false ↔ S n = false ∨ n = m := by
    intro S m n
    rw [without]
    grind
  rw [Tracks, Tracks, unshift_without hp, unshift_without hq, hmem, hmem]
  constructor
  · rintro ⟨hi, hj, heq⟩
    rcases Nat.lt_trichotomy i p with hip | rfl | hip <;>
      rcases Nat.lt_trichotomy j q with hjq | rfl | hjq <;>
      grind
  · rintro (⟨hi, hj, heq⟩ | ⟨rfl, rfl⟩)
    · refine ⟨Or.inl hi, Or.inl hj, ?_⟩
      rcases Nat.lt_trichotomy i p with hip | rfl | hip <;>
        rcases Nat.lt_trichotomy j q with hjq | rfl | hjq <;>
        grind
    · exact ⟨Or.inr rfl, Or.inr rfl, by simp [hrank]⟩
end ListEdits
