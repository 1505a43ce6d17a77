import Mathlib.Algebra.Ring.Int.Defs
import Mathlib.Data.List.Basic

/-!
# JSON values and keyed decoding

A decoder reads a JSON value and either returns what it read or fails, as the
throwing initializers of a keyed decoder do. An optional field is nil when its
key is absent or its value is null, and fails on any other value of the wrong
type; a failure is that of the whole object. The objects are dictionaries, of
which `entry` reads the first entry with a key.
-/

namespace JsonDecoding

variable {α : Type}

/-- The number `mantissa / 10 ^ exponent`. -/
structure JsonNumber where
  mantissa : Int
  exponent : Nat
  deriving DecidableEq, Repr

inductive Json where
  | null : Json
  | bool : Bool → Json
  | num : JsonNumber → Json
  | str : String → Json
  | arr : List Json → Json
  | obj : List (String × Json) → Json

abbrev Entries := List (String × Json)

def entry (k : String) : Entries → Option Json
  | [] => none
  | (j, v) :: rest => if j = k then some v else entry k rest

/-- Apply `f` to the value that `entry` reads, if there is one. -/
def setEntry (k : String) (f : Json → Json) : Entries → Entries
  | [] => []
  | (j, v) :: rest => if j = k then (j, f v) :: rest else (j, v) :: setEntry k f rest

@[simp] theorem entry_setEntry_same (k : String) (f : Json → Json) (c : Entries) :
    entry k (setEntry k f c) = (entry k c).map f := by
  induction c with
  | nil => rfl
  | cons e rest ih =>
    by_cases h : e.1 = k <;> simp [setEntry, entry, h, ih]

@[simp] theorem entry_setEntry_other {j k : String} (h : j ≠ k) (f : Json → Json) (c : Entries) :
    entry j (setEntry k f c) = entry j c := by
  induction c with
  | nil => rfl
  | cons e rest ih =>
    by_cases hk : e.1 = k
    · simp [setEntry, entry, hk, Ne.symm h]
    · by_cases hj : e.1 = j <;> simp [setEntry, entry, hk, hj, h, ih]

/-- One step from a value into a value it contains. -/
inductive Step where
  | key : String → Step
  | index : Nat → Step
  deriving DecidableEq, Repr

def get? : List Step → Json → Option Json
  | [], j => some j
  | .key k :: path, .obj c => (entry k c).bind (get? path)
  | .index i :: path, .arr items => items[i]?.bind (get? path)
  | _ :: _, _ => none

/-- Put `v` where the path leads, if it leads anywhere. -/
def replace : List Step → Json → Json → Json
  | [], v, _ => v
  | .key k :: path, v, .obj c => .obj (setEntry k (replace path v) c)
  | .index i :: path, v, .arr items => .arr (items.modify i (replace path v))
  | _ :: _, _, j => j

/-! ## Decoders -/

/-- The keyed container of an object. -/
def container : Json → Option Entries
  | .obj c => some c
  | _ => none

def decodeString : Json → Option String
  | .str s => some s
  | _ => none

/-- The integer a number is, when it is one and fits in 64 bits. -/
def JsonNumber.int? (n : JsonNumber) : Option Int :=
  if n.mantissa % 10 ^ n.exponent = 0 ∧ -2 ^ 63 ≤ n.mantissa / 10 ^ n.exponent ∧
      n.mantissa / 10 ^ n.exponent < 2 ^ 63 then
    some (n.mantissa / 10 ^ n.exponent)
  else none

def decodeInt : Json → Option Int
  | .num n => n.int?
  | _ => none

/-- The items of an array; one bad item fails the array. -/
def decodeItems (dec : Json → Option α) : List Json → Option (List α)
  | [] => some []
  | j :: js => do
    let x ← dec j
    let xs ← decodeItems dec js
    some (x :: xs)

def decodeArray (dec : Json → Option α) : Json → Option (List α)
  | .arr items => decodeItems dec items
  | _ => none

/-- A required field: its key must be there. -/
def decode (dec : Json → Option α) (k : String) (c : Entries) : Option α :=
  (entry k c).bind dec

/-- The value of an optional field whose key is there. -/
def decodeOptional (dec : Json → Option α) : Json → Option (Option α)
  | .null => some none
  | j => (dec j).map some

/-- An optional field. -/
def decodeIfPresent (dec : Json → Option α) (k : String) (c : Entries) : Option (Option α) :=
  match entry k c with
  | none => some none
  | some j => decodeOptional dec j

@[simp] theorem decodeOptional_null (dec : Json → Option α) :
    decodeOptional dec .null = some none := rfl

@[simp] theorem decodeOptional_obj (dec : Json → Option α) (c : Entries) :
    decodeOptional dec (.obj c) = (dec (.obj c)).map some := rfl

@[simp] theorem decodeOptional_arr (dec : Json → Option α) (items : List Json) :
    decodeOptional dec (.arr items) = (dec (.arr items)).map some := rfl

theorem decodeIfPresent_some {dec : Json → Option α} {k : String} {c : Entries} {j : Json}
    (h : entry k c = some j) : decodeIfPresent dec k c = decodeOptional dec j := by
  simp [decodeIfPresent, h]

/-- A field reads nothing but the entry under its own key. -/
@[simp] theorem decodeIfPresent_setEntry_other (dec : Json → Option α) {j k : String}
    (h : j ≠ k) (f : Json → Json) (c : Entries) :
    decodeIfPresent dec j (setEntry k f c) = decodeIfPresent dec j c := by
  simp [decodeIfPresent, h]

@[simp] theorem decode_setEntry_other (dec : Json → Option α) {j k : String}
    (h : j ≠ k) (f : Json → Json) (c : Entries) :
    decode dec j (setEntry k f c) = decode dec j c := by
  simp [decode, h]

/-- Changing one item that still decodes changes one item of the array. -/
theorem decodeItems_modify {dec : Json → Option α} {f : Json → Json} {items : List Json}
    {xs : List α} {i : Nat} {j : Json} {y : α} (hxs : decodeItems dec items = some xs)
    (hj : items[i]? = some j) (hy : dec (f j) = some y) :
    decodeItems dec (items.modify i f) = some (xs.set i y) := by
  induction items generalizing xs i with
  | nil => simp at hj
  | cons a items ih =>
    simp only [decodeItems, Option.bind_eq_bind, Option.bind_eq_some_iff] at hxs
    obtain ⟨x, hx, ys, hys, hxs⟩ := hxs
    obtain rfl : x :: ys = xs := Option.some.inj hxs
    cases i with
    | zero =>
      obtain rfl : a = j := by simpa using hj
      simp [decodeItems, hy, hys]
    | succ i =>
      have h := ih hys (by simpa using hj)
      simp [decodeItems, hx, h]

/-- The item an array decoder read at a position. -/
theorem decodeItems_getElem? {dec : Json → Option α} {items : List Json} {xs : List α} {i : Nat}
    {j : Json} (hxs : decodeItems dec items = some xs) (hj : items[i]? = some j) :
    dec j = xs[i]? := by
  induction items generalizing xs i with
  | nil => simp at hj
  | cons a items ih =>
    simp only [decodeItems, Option.bind_eq_bind, Option.bind_eq_some_iff] at hxs
    obtain ⟨x, hx, ys, hys, hxs⟩ := hxs
    obtain rfl : x :: ys = xs := Option.some.inj hxs
    cases i with
    | zero =>
      obtain rfl : a = j := by simpa using hj
      simp [hx]
    | succ i => simpa using ih hys (by simpa using hj)

theorem mem_decodeItems {dec : Json → Option α} {items : List Json} {xs : List α} {x : α}
    (hxs : decodeItems dec items = some xs) (hx : x ∈ xs) : ∃ j ∈ items, dec j = some x := by
  induction items generalizing xs with
  | nil =>
    obtain rfl := Option.some.inj hxs
    cases hx
  | cons a items ih =>
    simp only [decodeItems, Option.bind_eq_bind, Option.bind_eq_some_iff] at hxs
    obtain ⟨y, hy, ys, hys, hxs⟩ := hxs
    obtain rfl : y :: ys = xs := Option.some.inj hxs
    rcases List.mem_cons.mp hx with rfl | hx
    · exact ⟨a, List.mem_cons_self, hy⟩
    · obtain ⟨j, hj, hjx⟩ := ih hys hx
      exact ⟨j, List.mem_cons_of_mem a hj, hjx⟩

/-- What an array decoder reads around one item. -/
theorem decodeItems_append_cons {dec : Json → Option α} {before after : List Json} {j : Json}
    {xs : List α} (hxs : decodeItems dec (before ++ j :: after) = some xs) :
    ∃ ys x zs, xs = ys ++ x :: zs ∧ decodeItems dec before = some ys ∧ dec j = some x ∧
      decodeItems dec after = some zs := by
  induction before generalizing xs with
  | nil =>
    simp only [List.nil_append, decodeItems, Option.bind_eq_bind, Option.bind_eq_some_iff] at hxs
    obtain ⟨x, hx, zs, hzs, hxs⟩ := hxs
    exact ⟨[], x, zs, (Option.some.inj hxs).symm, rfl, hx, hzs⟩
  | cons a before ih =>
    simp only [List.cons_append, decodeItems, Option.bind_eq_bind,
      Option.bind_eq_some_iff] at hxs
    obtain ⟨y, hy, rest, hrest, hxs⟩ := hxs
    obtain ⟨ys, x, zs, rfl, hys, hx, hzs⟩ := ih hrest
    refine ⟨y :: ys, x, zs, (Option.some.inj hxs).symm, ?_, hx, hzs⟩
    rw [decodeItems, hy, hys]
    rfl

end JsonDecoding
