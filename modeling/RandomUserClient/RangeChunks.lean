import Mathlib.Data.List.TakeWhile
import RandomUserClient.RangeVectors

/-!
# Ranges in chunks

A vector keeps its ranges in chunks of at most `maxSize`, and of each chunk the
begin, the end and the number of its indices. The range with which a builder has
to add a chunk is counted as a single index, and a count that begins within a
chunk leaves out the first range of the next one if it ends there. A vector with
one chunk has neither fault: its counts are those of its ranges.
-/

namespace RangeChunks

open RangeVectors RangeVectors.Ranges

/-- `4096 / sizeof(std::pair<size_t, size_t>)` -/
def maxSize : Nat := 256

/-- `first` is the begin and `last` the end of the chunk. -/
structure Chunk where
  data : List Range
  first : Nat
  last : Nat
  count : Nat
  deriving DecidableEq, Repr

/-! ## Counting -/

/-- Where `find` gets to: a chunk, its ranges from the one that is found on, and the chunks behind
it. -/
structure Iterator where
  outer : Chunk
  inner : List Range
  behind : List Chunk

/-- The range with the index, or the first one after it. -/
def find (chunks : List Chunk) (index : Nat) : Option Iterator :=
  match chunks.dropWhile fun lft => lft.last ≤ index with
  | [] => none
  | it :: behind =>
    if index < it.first then some ⟨it, it.data, behind⟩
    else some ⟨it, it.data.dropWhile fun lft => lft.second ≤ index, behind⟩

/-- The ranges that end below `stop`, and those from the next one on. -/
def countBelow (stop : Nat) : List Range → Nat × List Range
  | [] => (0, [])
  | r :: rs =>
    if r.second < stop then
      let (n, rest) := countBelow stop rs
      (r.second - r.first + n, rest)
    else (0, r :: rs)

/-- The part of a range that is below `stop`. -/
def partBelow (stop : Nat) : List Range → Nat
  | [] => 0
  | r :: _ => if r.first < stop then stop - r.first else 0

/-- All complete ranges, and the partial last one. -/
def countRanges (stop : Nat) : List Range → Nat
  | [] => 0
  | r :: rs =>
    if r.second ≤ stop then r.second - r.first + countRanges stop rs
    else partBelow stop (r :: rs)

/-- All complete chunks, and then the ranges of the last one. -/
def countChunks (stop : Nat) : List Chunk → Nat
  | [] => 0
  | c :: cs =>
    if c.last ≤ stop then c.count + countChunks stop cs
    else countRanges stop ((c :: cs).flatMap Chunk.data)

def count (chunks : List Chunk) (start stop : Nat) : Nat :=
  match find chunks start with
  | none => 0
  | some ⟨_, [], _⟩ => 0
  | some ⟨outer, it :: inner, behind⟩ =>
    if stop ≤ it.first then 0
    else if stop ≤ it.second then min it.second stop - max it.first start
    -- the start is in the middle of a chunk, so the rest of that chunk is counted first
    else if it.first < start ∨ inner.length + 1 ≠ outer.data.length then
      let (n, rest) := countBelow stop inner
      let ret := it.second - max it.first start + n
      match rest, behind.flatMap Chunk.data with
      | r :: _, _ => ret + partBelow stop [r]
      | [], [] => ret
      -- now at the first range of the next chunk
      | [], r :: _ => if stop ≤ r.second then ret else ret + countChunks stop behind
    else countChunks stop (outer :: behind)

/-! ## Building -/

/-- The chunks that are full, the one that is being filled, and the number of empty ones behind it;
`end` is set once a chunk is full. -/
structure ChunkedRangeVectorBuilder where
  full : List Chunk
  chunk : Chunk
  empties : Nat

namespace ChunkedRangeVectorBuilder

/-- A builder for about as many ranges as there are in the expected vector. -/
def ofExpected (size : Nat) : ChunkedRangeVectorBuilder := ⟨[], ⟨[], 0, 0, 0⟩, size / maxSize⟩

def pushBack (b : ChunkedRangeVectorBuilder) (range : Range) : ChunkedRangeVectorBuilder :=
  let length := range.second - range.first
  match b.chunk.data.getLast? with
  | none => { b with chunk := { b.chunk with
      data := [range]
      count := length
      first := range.first } }
  | some back =>
    if range.first = back.second then
      { b with chunk := { b.chunk with
        data := b.chunk.data.dropLast ++ [⟨back.first, range.second⟩]
        count := b.chunk.count + length } }
    else if b.chunk.data.length < maxSize then
      { b with chunk := { b.chunk with
        data := b.chunk.data ++ [range]
        count := b.chunk.count + length } }
    else
      let full := b.full ++ [{ b.chunk with last := back.second }]
      match b.empties with
      -- `m_data.push_back({{range}, range.first, 0, 1})`
      | 0 => ⟨full, ⟨[range], range.first, 0, 1⟩, 0⟩
      | empties + 1 => ⟨full, ⟨[range], range.first, 0, length⟩, empties⟩

def finalize (b : ChunkedRangeVectorBuilder) : List Chunk :=
  match b.chunk.data.getLast? with
  | none => b.full
  | some back => b.full ++ [{ b.chunk with last := back.second }]

end ChunkedRangeVectorBuilder

/-! ## One chunk -/

/-- The number of indices in some ranges. -/
def size (l : List Range) : Nat := (l.map fun r => r.second - r.first).sum

/-- The ranges in one chunk, if there are any. -/
def oneChunk (l : List Range) : List Chunk :=
  match l.head?, l.getLast? with
  | some front, some back => [⟨l, front.first, back.second, size l⟩]
  | _, _ => []

theorem oneChunk_cons (r : Range) (rs : List Range) : ∃ back, (r :: rs).getLast? = some back ∧
    oneChunk (r :: rs) = [⟨r :: rs, r.first, back.second, size (r :: rs)⟩] := by
  have hne : (r :: rs).getLast? = some ((r :: rs).getLast (List.cons_ne_nil r rs)) :=
    List.getLast?_eq_some_getLast _
  exact ⟨_, hne, by rw [oneChunk, List.head?_cons, hne]⟩

/-- The ranges in front of the first one that is counted do not count. -/
theorem count_dropWhile (l : List Range) (start stop : Nat) :
    Ranges.count (l.dropWhile fun r => r.second ≤ start) start stop =
      Ranges.count l start stop := by
  induction l with
  | nil => rfl
  | cons r rs ih =>
    rw [List.dropWhile_cons]
    by_cases hr : r.second ≤ start
    · rw [if_pos (decide_eq_true hr), ih, Ranges.count, if_pos hr]
    · rw [if_neg (by simpa using hr)]

theorem count_eq_countRanges {n : Nat} {l : List Range} (h : Verified n l) {start : Nat}
    (hs : start ≤ n) (stop : Nat) : Ranges.count l start stop = countRanges stop l := by
  induction l generalizing n with
  | nil => rfl
  | cons r rs ih =>
    obtain ⟨hn, hr, hrs⟩ := h
    have ih := ih hrs (by omega)
    have hnone : stop ≤ r.second + 1 → Ranges.count rs start stop = 0 := count_of_le hrs start
    rw [Ranges.count, countRanges, partBelow, if_neg (by omega)]
    grind

/-- The two ways to stop in front of a range give one sum. -/
theorem countRanges_eq_countBelow {n : Nat} {l : List Range} (h : Verified n l) (stop : Nat) :
    countRanges stop l = (countBelow stop l).1 + partBelow stop (countBelow stop l).2 := by
  induction l generalizing n with
  | nil => rfl
  | cons r rs ih =>
    obtain ⟨hn, hr, hrs⟩ := h
    have ih := ih hrs
    rw [countRanges, countBelow]
    rcases Nat.lt_trichotomy r.second stop with hlt | heq | hgt
    · rw [if_pos (Nat.le_of_lt hlt), if_pos hlt, ih, Nat.add_assoc]
    · -- the range ends at `stop`, and nothing behind it counts
      have hrest := count_of_le hrs r.second (Nat.le_trans (Nat.le_of_eq heq.symm) (Nat.le_succ _))
      rw [count_eq_countRanges hrs (Nat.le_succ _)] at hrest
      rw [if_pos (Nat.le_of_eq heq), if_neg (by omega), hrest, partBelow, if_pos (by omega)]
      omega
    · rw [if_neg (by omega), if_neg (by omega), Nat.zero_add]

theorem countRanges_eq_size {n : Nat} {l : List Range} (h : Verified n l) {stop : Nat}
    (hl : ∀ r ∈ l, r.second ≤ stop) : countRanges stop l = size l := by
  induction l generalizing n with
  | nil => rfl
  | cons r rs ih =>
    obtain ⟨hn, hr, hrs⟩ := h
    rw [List.forall_mem_cons] at hl
    rw [countRanges, if_pos hl.1, ih hrs hl.2, size, size, List.map_cons, List.sum_cons]

/-- No range ends behind the last one. -/
theorem second_le_last {n : Nat} {l : List Range} (h : Verified n l) {back : Range}
    (hback : l.getLast? = some back) : ∀ r ∈ l, r.second ≤ back.second := by
  induction l generalizing n with
  | nil => cases hback
  | cons r rs ih =>
    obtain ⟨hn, hr, hrs⟩ := h
    cases rs with
    | nil =>
      obtain rfl := Option.some.inj hback
      exact List.forall_mem_singleton.mpr (Nat.le_refl _)
    | cons s rs =>
      rw [List.getLast?_cons_cons] at hback
      have hall := ih hrs hback
      refine List.forall_mem_cons.mpr ⟨?_, hall⟩
      have hfirst := hall s List.mem_cons_self
      obtain ⟨hs, hss, -⟩ := hrs
      omega

theorem verified_dropWhile {n : Nat} {l : List Range} (h : Verified n l) (p : Range → Bool) :
    Verified n (l.dropWhile p) := by
  induction l generalizing n with
  | nil => trivial
  | cons r rs ih =>
    obtain ⟨hn, hr, hrs⟩ := h
    rw [List.dropWhile_cons]
    split
    · exact (ih hrs).mono (by omega)
    · exact ⟨hn, hr, hrs⟩

theorem find_oneChunk {n : Nat} {front back : Range} {rs : List Range} {start : Nat}
    (h : Verified n (front :: rs)) (hback : start < back.second) (c : Nat) :
    find [⟨front :: rs, front.first, back.second, c⟩] start =
      some ⟨⟨front :: rs, front.first, back.second, c⟩,
        (front :: rs).dropWhile fun r => r.second ≤ start, []⟩ := by
  obtain ⟨hn, hfront, hrs⟩ := h
  rw [find, List.dropWhile_cons_of_neg (by simpa using hback)]
  dsimp only
  split
  · rename_i hlt
    have hfirst : ¬ front.second ≤ start := by omega
    rw [List.dropWhile_cons_of_neg (by simpa using hfirst)]
  · rfl

/-- The count from a range on, in the only chunk. -/
theorem count_inner {n start stop : Nat} {front back it : Range} {rs inner : List Range}
    (h : Verified n (front :: rs)) (hback : (front :: rs).getLast? = some back)
    (hinner : (front :: rs).dropWhile (fun r => r.second ≤ start) = it :: inner) :
    count [⟨front :: rs, front.first, back.second, size (front :: rs)⟩] start stop =
      Ranges.count (it :: inner) start stop := by
  have hall := second_le_last h hback
  have hsuffix := List.dropWhile_suffix (l := front :: rs) fun r => decide (r.second ≤ start)
  rw [hinner] at hsuffix
  have hit : start < it.second := by
    have hfirst := List.head?_dropWhile_not (fun r => decide (r.second ≤ start)) (front :: rs)
    rw [hinner] at hfirst
    simpa using hfirst
  have hlast : start < back.second :=
    Nat.lt_of_lt_of_le hit (hall it (hsuffix.subset List.mem_cons_self))
  obtain ⟨hn, hr, hrest⟩ := hinner ▸ verified_dropWhile h fun r => decide (r.second ≤ start)
  have hflat := count_eq_countRanges hrest (Nat.le_succ_of_le (Nat.le_of_lt hit)) stop
  rw [count, find_oneChunk h hlast, hinner, Ranges.count, if_neg (Nat.not_le.mpr hit)]
  dsimp only
  split
  · rfl
  rename_i hfirst
  split
  · rename_i hsecond
    rw [count_of_le hrest start (Nat.le_succ_of_le hsecond), Nat.add_zero]
  rename_i hsecond
  split
  · rw [hflat, countRanges_eq_countBelow hrest, Nat.min_eq_left (by omega)]
    cases hbelow : (countBelow stop inner).2 with
    | nil => rfl
    | cons r rest =>
      dsimp only [List.flatMap_nil]
      rw [Nat.add_assoc]
      rfl
  · -- the count begins at the first range, so that the whole chunk may be counted
    rename_i hmiddle
    rw [not_or, not_not] at hmiddle
    obtain ⟨hstart, hlength⟩ := hmiddle
    have hsame : it :: inner = front :: rs := hsuffix.eq_of_length hlength
    have hranges : countRanges stop (it :: inner) =
        it.second - it.first + countRanges stop inner := by
      rw [countRanges, if_pos (by omega)]
    rw [hflat, Nat.min_eq_left (by omega), Nat.max_eq_left (by omega), ← hranges, hsame,
      countChunks]
    split
    · rename_i hchunk
      have hsize := countRanges_eq_size h fun r hr => Nat.le_trans (hall r hr) hchunk
      rw [hsize, countChunks, Nat.add_zero]
    · rw [List.flatMap_cons, List.flatMap_nil, List.append_nil]

/-- A vector with one chunk counts as its ranges do. -/
theorem count_oneChunk {n : Nat} {l : List Range} (h : Verified n l) (start stop : Nat) :
    count (oneChunk l) start stop = Ranges.count l start stop := by
  cases l with
  | nil => rfl
  | cons front rs =>
    obtain ⟨back, hback, hchunk⟩ := oneChunk_cons front rs
    rw [hchunk, ← count_dropWhile]
    cases hinner : (front :: rs).dropWhile fun r => decide (r.second ≤ start) with
    | cons it inner => exact count_inner h hback hinner
    | nil =>
      -- all ranges end in front of the start
      have hlast : back.second ≤ start := by
        have hnone := List.dropWhile_eq_nil_iff.mp hinner back (List.mem_of_getLast? hback)
        simpa using hnone
      rw [count, find, List.dropWhile_cons_of_pos (by simpa using hlast)]
      rfl

/-! ## A builder of one chunk -/

namespace ChunkedRangeVectorBuilder

/-- A builder that has not gone on to another chunk, with the ranges it has. -/
structure Filling (b : ChunkedRangeVectorBuilder) (front : List Range) (back : Range) : Prop where
  full : b.full = []
  data : b.chunk.data = front ++ [back]
  first : (front ++ [back]).head?.map Range.first = some b.chunk.first
  count : b.chunk.count = size (front ++ [back])

variable {b : ChunkedRangeVectorBuilder} {front : List Range} {back r : Range}

theorem Filling.last (h : Filling b front back) : b.chunk.data.getLast? = some back := by
  rw [h.data, List.getLast?_concat]

theorem size_concat (l : List Range) (r : Range) :
    size (l ++ [r]) = size l + (r.second - r.first) := by
  simp [size]

/-- A range that begins where the last one ends makes that one longer. -/
theorem Filling.touching (h : Filling b front back) (htouch : r.first = back.second)
    (hback : back.first < back.second) (hr : r.first < r.second) :
    Filling (b.pushBack r) front ⟨back.first, r.second⟩ := by
  have hlast := h.last
  obtain ⟨hfull, hdata, hfirst, hcount⟩ := h
  rw [pushBack, hlast]
  dsimp only
  rw [if_pos htouch]
  refine ⟨hfull, by rw [hdata, List.dropLast_concat], ?_, ?_⟩
  · cases front <;> exact hfirst
  · rw [size_concat] at hcount ⊢
    dsimp only
    omega

/-- Any other range is put behind it, if there is room. -/
theorem Filling.room (h : Filling b front back) (htouch : r.first ≠ back.second)
    (hroom : b.chunk.data.length < maxSize) : Filling (b.pushBack r) (front ++ [back]) r := by
  have hlast := h.last
  obtain ⟨hfull, hdata, hfirst, hcount⟩ := h
  rw [pushBack, hlast]
  dsimp only
  rw [if_neg htouch, if_pos hroom]
  refine ⟨hfull, by rw [hdata], ?_, by rw [size_concat, ← hcount]⟩
  cases front <;> exact hfirst

theorem Filling.finalize (h : Filling b front back) :
    b.finalize = oneChunk (front ++ [back]) := by
  have hlast := h.last
  obtain ⟨hfull, hdata, hfirst, hcount⟩ := h
  obtain ⟨head, hhead, heq⟩ := Option.map_eq_some_iff.mp hfirst
  rw [ChunkedRangeVectorBuilder.finalize, hlast, hfull, oneChunk, hhead, List.getLast?_concat]
  dsimp only
  rw [List.nil_append, heq, ← hcount, ← hdata]

theorem joined_ne_nil (back : Range) (l : List Range) : joined back l ≠ [] := by
  fun_induction joined with
  | case1 => exact List.cons_ne_nil _ _
  | case2 back r rs htouch ih => exact ih
  | case3 => exact List.cons_ne_nil _ _

theorem Filling.foldl (h : Filling b front back) (hback : back.first < back.second)
    {rest : List Range} (hrest : Pushed back.second rest)
    (hlength : (front ++ joined back rest).length ≤ maxSize) :
    (rest.foldl pushBack b).finalize = oneChunk (front ++ joined back rest) := by
  induction rest generalizing front back b with
  | nil => exact h.finalize
  | cons r rest ih =>
    obtain ⟨hn, hr, hrest⟩ := hrest
    rw [List.foldl_cons]
    by_cases htouch : r.first = back.second
    · rw [joined, if_pos htouch] at hlength ⊢
      have hlonger : back.first < r.second := by omega
      exact ih (h.touching htouch hback hr) hlonger hrest hlength
    · have happ : front ++ back :: joined r rest = front ++ [back] ++ joined r rest := by simp
      rw [joined, if_neg htouch, happ] at hlength ⊢
      have hpos := List.length_pos_iff.mpr (joined_ne_nil r rest)
      have hroom : b.chunk.data.length < maxSize := by
        rw [List.length_append] at hlength
        rw [h.data]
        omega
      exact ih (h.room htouch hroom) hr hrest hlength

/-- A builder whose ranges fit into one chunk makes one, and what it caches is right. -/
theorem finalize_foldl_pushBack {l : List Range} (h : Pushed 0 l)
    (hlength : (build l).length ≤ maxSize) (expected : Nat) :
    (l.foldl pushBack (ofExpected expected)).finalize = oneChunk (build l) := by
  cases l with
  | nil => rfl
  | cons r rest =>
    obtain ⟨-, hr, hrest⟩ := h
    have hfirst : Filling ((ofExpected expected).pushBack r) [] r :=
      ⟨rfl, rfl, rfl, by simp [size, pushBack, ofExpected]⟩
    exact hfirst.foldl hr hrest hlength

end ChunkedRangeVectorBuilder

/-- So its counts are those of the ranges. -/
theorem count_finalize {l : List Range} (h : Pushed 0 l) (hlength : (build l).length ≤ maxSize)
    (expected start stop : Nat) :
    count (l.foldl ChunkedRangeVectorBuilder.pushBack (.ofExpected expected)).finalize start stop =
      Ranges.count (build l) start stop := by
  rw [ChunkedRangeVectorBuilder.finalize_foldl_pushBack h hlength]
  exact count_oneChunk (verified_build h) start stop

/-- With a second chunk, a count that begins in the first one and ends within the first range of the
second leaves that range out. -/
example :
    let chunks : List Chunk := [⟨[⟨0, 2⟩], 0, 2, 2⟩, ⟨[⟨4, 8⟩], 4, 8, 4⟩]
    count chunks 1 6 = 1 ∧ Ranges.count (chunks.flatMap Chunk.data) 1 6 = 3 := by
  decide

end RangeChunks
