import RandomUserClient.IndexSets

/-!
# The longest matches of two sequences of rows

Two sequences of rows are aligned at their longest common block, and the parts
in front of it and behind it in the same way. The length of a block that ends at
a pair of rows comes from the pair before it, and of blocks of one length the
one with fewer modified rows is taken. Whichever blocks are taken, they are in
order and their rows are the same.
-/

namespace LongestMatches

open IndexSets

/-- A pair of an index in the table and an index in the table view. -/
structure Row where
  rowIndex : Nat
  tvIndex : Nat
  deriving DecidableEq, Repr

/-- A block of `size` rows that begins at `i` in `a` and at `j` in `b`; how many of them were
modified is not known at first. -/
structure Match where
  i : Nat
  j : Nat
  size : Nat
  modified : Option Nat
  deriving DecidableEq, Repr

/-- The length of the matching block that ends at `j`. -/
structure Length where
  j : Nat
  len : Nat
  deriving DecidableEq, Repr

/-- One more than that of the block that ends at the row before, in the row checked before. -/
def length (prev : List Length) (j : Nat) : Nat :=
  match prev.find? fun pair => pair.j + 1 = j with
  | some pair => pair.len + 1
  | none => 1

/-- Each `j` which has the row index `ai` and falls within the range, from the first row of `b` on
that is not below `ai`; `b` is sorted. -/
def bMatchesFrom (ai begin2 end2 : Nat) : List Row → List Nat
  | [] => []
  | it :: b =>
    if it.rowIndex = ai then
      if it.tvIndex < begin2 then bMatchesFrom ai begin2 end2 b
      else if end2 ≤ it.tvIndex then []
      else it.tvIndex :: bMatchesFrom ai begin2 end2 b
    else []

def bMatches (b : List Row) (ai begin2 end2 : Nat) : List Nat :=
  bMatchesFrom ai begin2 end2 (b.dropWhile fun lft => lft.rowIndex < ai)

/-- The modified rows among the `size` ones up to `j`. Where there are not so many, the subtraction
wraps around and nothing is behind its result. -/
def modifiedUpTo (modified : IndexSet) (j size : Nat) : Nat :=
  if size ≤ j + 1 then modified.count (j + 1 - size) (j + 1) else 0

/-- The block that ends at `i` and `j` is taken if it is longer, or as long with fewer modified
rows. -/
def choose (modified : IndexSet) (i j size : Nat) (best : Match) : Match :=
  if best.size < size then ⟨i + 1 - size, j + 1 - size, size, none⟩
  else if size = best.size then
    let bestModified := best.modified.getD (modifiedUpTo modified best.j size)
    let count := modifiedUpTo modified j size
    if count < bestModified then ⟨i + 1 - size, j + 1 - size, size, some count⟩
    else { best with modified := some bestModified }
  else best

/-- The pairs of one row of `a`: the lengths of their blocks, and the best block. -/
def scanRow (modified : IndexSet) (prev : List Length) (i : Nat) :
    List Nat → List Length → Match → List Length × Match
  | [], cur, best => (cur, best)
  | j :: js, cur, best =>
    let size := length prev j
    scanRow modified prev i js (cur ++ [⟨j, size⟩]) (choose modified i j size best)

/-- The rows of `a` from `i` on. -/
def scanRows (modified : IndexSet) (a b : List Row) (begin2 end2 : Nat) :
    Nat → Nat → List Length → Match → Match
  | 0, _, _, best => best
  | n + 1, i, prev, best =>
    let js := match a[i]? with
      | some row => bMatches b row.rowIndex begin2 end2
      | none => []
    let (cur, best) := scanRow modified prev i js [] best
    scanRows modified a b begin2 end2 n (i + 1) cur best

def findLongestMatch (modified : IndexSet) (a b : List Row) (begin1 end1 begin2 end2 : Nat) :
    Match :=
  scanRows modified a b begin2 end2 (end1 - begin1) begin1 [] ⟨begin1, begin2, 0, some 0⟩

/-! ## Blocks -/

/-- The rows of a block that ends at `i` and `j`. -/
structure Ending (same : Nat → Nat → Prop) (begin1 begin2 end2 i j len : Nat) : Prop where
  pos : 0 < len
  left : begin1 + len ≤ i + 1
  right : begin2 + len ≤ j + 1
  below : j < end2
  rows : ∀ k < len, same (i - k) (j - k)

/-- A block of rows within a range, which may be empty. -/
structure Block (same : Nat → Nat → Prop) (begin1 end1 begin2 end2 : Nat) (m : Match) : Prop where
  left : begin1 ≤ m.i ∧ m.i + m.size ≤ end1
  right : begin2 ≤ m.j ∧ m.j + m.size ≤ end2
  rows : ∀ k < m.size, same (m.i + k) (m.j + k)

variable {same : Nat → Nat → Prop} {begin1 end1 begin2 end2 : Nat}

theorem Ending.block {i j size : Nat} (h : Ending same begin1 begin2 end2 i j size)
    (hi : i < end1) (modified : Option Nat) :
    Block same begin1 end1 begin2 end2 ⟨i + 1 - size, j + 1 - size, size, modified⟩ := by
  obtain ⟨hpos, hleft, hright, hbelow, hrows⟩ := h
  refine ⟨⟨by dsimp only; omega, by dsimp only; omega⟩,
    ⟨by dsimp only; omega, by dsimp only; omega⟩, fun k hk => ?_⟩
  dsimp only at hk ⊢
  have hrow := hrows (size - 1 - k) (by omega)
  rwa [show i - (size - 1 - k) = i + 1 - size + k by omega,
    show j - (size - 1 - k) = j + 1 - size + k by omega] at hrow

theorem Block.choose {i j size : Nat} {best : Match} (h : Block same begin1 end1 begin2 end2 best)
    (he : Ending same begin1 begin2 end2 i j size) (hi : i < end1) (modified : IndexSet) :
    Block same begin1 end1 begin2 end2 (choose modified i j size best) := by
  rw [LongestMatches.choose]
  split
  · exact he.block hi none
  · split
    · dsimp only
      split
      · exact he.block hi _
      · exact ⟨h.left, h.right, h.rows⟩
    · exact h

/-- A block that ends at a pair makes one of the pair behind it. -/
theorem ending_length {i j : Nat} {prev : List Length}
    (hprev : ∀ p ∈ prev, Ending same begin1 begin2 end2 (i - 1) p.j p.len ∧ 0 < i)
    (hi : begin1 ≤ i) (hj : begin2 ≤ j) (hj' : j < end2) (hsame : same i j) :
    Ending same begin1 begin2 end2 i j (length prev j) := by
  rw [length]
  split
  · rename_i pair hfind
    have hnext : pair.j + 1 = j := by simpa using List.find?_some hfind
    obtain ⟨⟨hpos, hleft, hright, -, hrows⟩, hpos'⟩ := hprev pair (List.mem_of_find?_eq_some hfind)
    refine ⟨Nat.succ_pos _, by omega, by omega, hj', fun k hk => ?_⟩
    cases k with
    | zero => exact hsame
    | succ k =>
      have hrow := hrows k (by omega)
      rwa [show i - (k + 1) = i - 1 - k by omega, show j - (k + 1) = pair.j - k by omega]
  · refine ⟨Nat.one_pos, by omega, by omega, hj', fun k hk => ?_⟩
    obtain rfl : k = 0 := by omega
    exact hsame

theorem scanRow_spec (modified : IndexSet) {prev : List Length} {i : Nat} {js : List Nat}
    {cur : List Length} {best : Match}
    (hjs : ∀ j ∈ js, Ending same begin1 begin2 end2 i j (length prev j)) (hi : i < end1)
    (hcur : ∀ p ∈ cur, Ending same begin1 begin2 end2 i p.j p.len)
    (hbest : Block same begin1 end1 begin2 end2 best) :
    (∀ p ∈ (scanRow modified prev i js cur best).1,
      Ending same begin1 begin2 end2 i p.j p.len) ∧
      Block same begin1 end1 begin2 end2 (scanRow modified prev i js cur best).2 := by
  induction js generalizing cur best with
  | nil => exact ⟨hcur, hbest⟩
  | cons j js ih =>
    rw [List.forall_mem_cons] at hjs
    refine ih hjs.2 (fun p hp => ?_) (hbest.choose hjs.1 hi modified)
    rcases List.mem_append.mp hp with hp | hp
    · exact hcur p hp
    · rw [List.mem_singleton.mp hp]
      exact hjs.1

theorem mem_bMatchesFrom {ai : Nat} {b : List Row} {j : Nat}
    (h : j ∈ bMatchesFrom ai begin2 end2 b) : begin2 ≤ j ∧ j < end2 ∧ ⟨ai, j⟩ ∈ b := by
  induction b with
  | nil => cases h
  | cons it b ih =>
    rw [bMatchesFrom] at h
    split at h
    · rename_i hai
      split at h
      · have ih := ih h
        exact ⟨ih.1, ih.2.1, List.mem_cons_of_mem it ih.2.2⟩
      · split at h
        · cases h
        · rcases List.mem_cons.mp h with rfl | h
          · subst hai
            exact ⟨by omega, by omega, List.mem_cons_self⟩
          · have ih := ih h
            exact ⟨ih.1, ih.2.1, List.mem_cons_of_mem it ih.2.2⟩
    · cases h

theorem mem_bMatches {ai : Nat} {b : List Row} {j : Nat} (h : j ∈ bMatches b ai begin2 end2) :
    begin2 ≤ j ∧ j < end2 ∧ ⟨ai, j⟩ ∈ b := by
  obtain ⟨hj, hj', hmem⟩ := mem_bMatchesFrom h
  exact ⟨hj, hj', (List.dropWhile_sublist _).subset hmem⟩

theorem scanRows_block {modified : IndexSet} {a b : List Row}
    (hsame : ∀ i row j, a[i]? = some row → ⟨row.rowIndex, j⟩ ∈ b → same i j)
    {n i : Nat} {prev : List Length} {best : Match} (hn : i + n ≤ end1) (hi : begin1 ≤ i)
    (hprev : ∀ p ∈ prev, Ending same begin1 begin2 end2 (i - 1) p.j p.len ∧ 0 < i)
    (hbest : Block same begin1 end1 begin2 end2 best) :
    Block same begin1 end1 begin2 end2 (scanRows modified a b begin2 end2 n i prev best) := by
  induction n generalizing i prev best with
  | zero => exact hbest
  | succ n ih =>
    rw [scanRows]
    have hjs : ∀ j ∈ (match a[i]? with
        | some row => bMatches b row.rowIndex begin2 end2
        | none => []), Ending same begin1 begin2 end2 i j (length prev j) := by
      intro j hj
      split at hj
      · rename_i row hrow
        obtain ⟨hj, hj', hmem⟩ := mem_bMatches hj
        exact ending_length hprev hi hj hj' (hsame i row j hrow hmem)
      · cases hj
    have hrow := scanRow_spec modified hjs (by omega : i < end1)
      (fun p hp => absurd hp List.not_mem_nil)
      hbest
    obtain ⟨hcur, hbest⟩ := hrow
    exact ih (by omega) (by omega) (fun p hp => ⟨hcur p hp, Nat.succ_pos i⟩) hbest

theorem findLongestMatch_block (modified : IndexSet) {a b : List Row}
    (hsame : ∀ i row j, a[i]? = some row → ⟨row.rowIndex, j⟩ ∈ b → same i j)
    (h1 : begin1 ≤ end1) (h2 : begin2 ≤ end2) :
    Block same begin1 end1 begin2 end2
      (findLongestMatch modified a b begin1 end1 begin2 end2) := by
  refine scanRows_block hsame (by omega) (Nat.le_refl begin1)
    (fun p hp => absurd hp List.not_mem_nil) ?_
  exact ⟨⟨Nat.le_refl _, h1⟩, ⟨Nat.le_refl _, h2⟩, fun k hk => absurd hk (Nat.not_lt_zero k)⟩

/-- Without rows in a range there is no match. -/
theorem size_of_le {modified : IndexSet} {a b : List Row} (h : end1 ≤ begin1 ∨ end2 ≤ begin2) :
    (findLongestMatch modified a b begin1 end1 begin2 end2).size = 0 := by
  have hnone : ∀ n i prev best, end2 ≤ begin2 →
      scanRows modified a b begin2 end2 n i prev best = best := by
    intro n i prev best hle
    induction n generalizing i prev with
    | zero => rfl
    | succ n ih =>
      have hjs : ∀ ai, bMatches b ai begin2 end2 = [] := fun ai =>
        List.eq_nil_iff_forall_not_mem.mpr fun j hj => by
          have := mem_bMatches hj
          omega
      rw [scanRows]
      cases a[i]? with
      | none => exact ih _ _
      | some row =>
        dsimp only
        rw [hjs]
        exact ih _ _
  rw [findLongestMatch]
  rcases h with h | h
  · rw [Nat.sub_eq_zero_of_le h, scanRows]
  · rw [hnone _ _ _ _ h]

/-- A match is within its range, whatever the rows are. -/
theorem findLongestMatch_bounds {modified : IndexSet} {a b : List Row}
    (h : (findLongestMatch modified a b begin1 end1 begin2 end2).size ≠ 0) :
    Block (fun _ _ => True) begin1 end1 begin2 end2
      (findLongestMatch modified a b begin1 end1 begin2 end2) := by
  have h1 : begin1 ≤ end1 := by
    by_contra hlt
    exact h (size_of_le (Or.inl (by omega)))
  have h2 : begin2 ≤ end2 := by
    by_contra hlt
    exact h (size_of_le (Or.inr (by omega)))
  exact findLongestMatch_block modified (fun _ _ _ _ _ => trivial) h1 h2

/-! ## All matches -/

/-- The longest match, with the matches in front of it and those behind it. -/
def findLongestMatches (modified : IndexSet) (a b : List Row) (begin1 end1 begin2 end2 : Nat) :
    List Match :=
  let m := findLongestMatch modified a b begin1 end1 begin2 end2
  if m.size = 0 then []
  else
    (if begin1 < m.i ∧ begin2 < m.j
      then findLongestMatches modified a b begin1 m.i begin2 m.j else []) ++ m ::
    (if m.i + m.size < end2 ∧ m.j + m.size < end2
      then findLongestMatches modified a b (m.i + m.size) end1 (m.j + m.size) end2 else [])
termination_by end1 - begin1
decreasing_by
  all_goals
    have := (findLongestMatch_bounds ‹¬ m.size = 0›).left
    dsimp only [m] at *
    omega

/-- Matches one behind the other, between two pairs of rows. -/
def Chain (same : Nat → Nat → Prop) : Nat → Nat → List Match → Nat → Nat → Prop
  | i, j, [], end1, end2 => i ≤ end1 ∧ j ≤ end2
  | i, j, m :: ms, end1, end2 => i ≤ m.i ∧ j ≤ m.j ∧ (∀ k < m.size, same (m.i + k) (m.j + k)) ∧
    Chain same (m.i + m.size) (m.j + m.size) ms end1 end2

theorem Chain.append {i j end1 end2 end1' end2' : Nat} {ms ms' : List Match}
    (h : Chain same i j ms end1 end2) (h' : Chain same end1 end2 ms' end1' end2') :
    Chain same i j (ms ++ ms') end1' end2' := by
  induction ms generalizing i j with
  | nil =>
    obtain ⟨hi, hj⟩ := h
    cases ms' with
    | nil => exact ⟨Nat.le_trans hi h'.1, Nat.le_trans hj h'.2⟩
    | cons m ms' => exact ⟨Nat.le_trans hi h'.1, Nat.le_trans hj h'.2.1, h'.2.2⟩
  | cons m ms ih => exact ⟨h.1, h.2.1, h.2.2.1, ih h.2.2.2⟩

/-- The matches are in order and within the range, and their rows are the same; the one test that
compares an index of `a` with the end of `b` makes no difference to that. -/
theorem findLongestMatches_chain (modified : IndexSet) {a b : List Row}
    (hsame : ∀ i row j, a[i]? = some row → ⟨row.rowIndex, j⟩ ∈ b → same i j)
    (h1 : begin1 ≤ end1) (h2 : begin2 ≤ end2) :
    Chain same begin1 begin2 (findLongestMatches modified a b begin1 end1 begin2 end2)
      end1 end2 := by
  fun_induction findLongestMatches with
  | case1 => exact ⟨h1, h2⟩
  | case2 begin1 end1 begin2 end2 m h ih₁ ih₂ =>
    obtain ⟨hleft, hright, hrows⟩ := findLongestMatch_block modified hsame h1 h2
    have hfront : Chain same begin1 begin2 (if begin1 < m.i ∧ begin2 < m.j
        then findLongestMatches modified a b begin1 m.i begin2 m.j else []) m.i m.j := by
      split
      · rename_i hfirst
        exact ih₁ hfirst hleft.1 hright.1
      · exact ⟨hleft.1, hright.1⟩
    have hback : Chain same (m.i + m.size) (m.j + m.size)
        (if m.i + m.size < end2 ∧ m.j + m.size < end2
          then findLongestMatches modified a b (m.i + m.size) end1 (m.j + m.size) end2 else [])
        end1 end2 := by
      split
      · exact ih₂ hleft.2 hright.2
      · exact ⟨hleft.2, hright.2⟩
    exact hfront.append ⟨Nat.le_refl m.i, Nat.le_refl m.j, hrows, hback⟩

end LongestMatches
