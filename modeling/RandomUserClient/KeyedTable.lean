import Mathlib.Data.List.InsertIdx
import Mathlib.Data.List.Nodup
import Mathlib.Data.List.Perm.Basic
import RandomUserClient.KeyedMerge

/-!
# Tables with a primary key

A table is a list of rows in which no two rows have the same primary key. New
rows come at the end, and a deleted row leaves its place to the last one. The
uniqueness is a field of the type, so every operation carries the proof that it
keeps it.
-/

namespace KeyedTable

universe u v

class PrimaryKey (ρ : Type u) (κ : outParam (Type v)) where
  primaryKey : ρ → κ

export PrimaryKey (primaryKey)

@[ext] structure Table (ρ : Type u) {κ : Type v} [PrimaryKey ρ κ] where
  rows : List ρ
  nodup : (rows.map primaryKey).Nodup

variable {ρ : Type u} {κ : Type v} [PrimaryKey ρ κ]

namespace Table

instance [DecidableEq ρ] : DecidableEq (Table ρ) := fun s t =>
  decidable_of_iff (s.rows = t.rows) ⟨fun h => Table.ext h, fun h => h ▸ rfl⟩

def keys (t : Table ρ) : List κ := t.rows.map primaryKey

def empty : Table ρ := ⟨[], List.nodup_nil⟩

@[simp] theorem rows_empty : (empty : Table ρ).rows = [] := rfl
@[simp] theorem keys_empty : (empty : Table ρ).keys = [] := rfl

theorem nodup_keys (t : Table ρ) : t.keys.Nodup := t.nodup

@[simp] theorem length_keys (t : Table ρ) : t.keys.length = t.rows.length := by
  simp [keys]

theorem mem_keys {t : Table ρ} {k : κ} : k ∈ t.keys ↔ ∃ r ∈ t.rows, primaryKey r = k := by
  simp [keys]

/-- Rows of one table with one key are one row. -/
theorem row_unique {t : Table ρ} {r s : ρ} (hr : r ∈ t.rows) (hs : s ∈ t.rows)
    (h : primaryKey r = primaryKey s) : r = s :=
  List.inj_on_of_nodup_map t.nodup hr hs h

variable [DecidableEq κ]

/-- The row with the given primary key. -/
def find (t : Table ρ) (k : κ) : Option ρ := t.rows.find? fun r => primaryKey r = k

@[simp] theorem find_empty (k : κ) : (empty : Table ρ).find k = none := rfl

theorem find_eq_some {t : Table ρ} {k : κ} {r : ρ} :
    t.find k = some r ↔ r ∈ t.rows ∧ primaryKey r = k := by
  constructor
  · intro h
    exact ⟨List.mem_of_find?_eq_some h, by simpa using List.find?_some h⟩
  · rintro ⟨hr, rfl⟩
    cases h : t.find (primaryKey r) with
    | none => exact absurd (by simp) (List.find?_eq_none.mp h r hr)
    | some s =>
      have hs : primaryKey s = primaryKey r := by simpa using List.find?_some h
      rw [row_unique (List.mem_of_find?_eq_some h) hr hs]

theorem find_eq_none {t : Table ρ} {k : κ} : t.find k = none ↔ k ∉ t.keys := by
  simp [find, List.find?_eq_none, mem_keys]

theorem mem_keys_of_find {t : Table ρ} {k : κ} {r : ρ} (h : t.find k = some r) : k ∈ t.keys :=
  mem_keys.mpr ⟨r, find_eq_some.mp h⟩

theorem mem_keys_congr {t s : Table ρ} {k : κ} (h : t.find k = s.find k) :
    k ∈ t.keys ↔ k ∈ s.keys := by
  rw [← not_iff_not, ← find_eq_none, ← find_eq_none, h]

/-- Append a row whose key the table does not hold. -/
def insert (t : Table ρ) (r : ρ) (h : primaryKey r ∉ t.keys) : Table ρ where
  rows := t.rows ++ [r]
  nodup := by
    rw [List.map_append, List.map_cons, List.map_nil]
    exact List.nodup_append'.mpr
      ⟨t.nodup, List.nodup_singleton _, List.disjoint_singleton.mpr h⟩

/-- Apply `f`, which leaves keys alone, to the row with key `k`. -/
def modify (t : Table ρ) (k : κ) (f : ρ → ρ) (hf : ∀ r, primaryKey (f r) = primaryKey r) :
    Table ρ where
  rows := t.rows.map fun x => if primaryKey x = k then f x else x
  nodup := by
    have h : (t.rows.map fun x => if primaryKey x = k then f x else x).map primaryKey =
        t.rows.map primaryKey := by
      rw [List.map_map]
      refine List.map_congr_left fun x _ => ?_
      simp only [Function.comp]
      split <;> simp [hf]
    rw [h]
    exact t.nodup

/-- Put a row in the place of the row with the same key. -/
def overwrite (t : Table ρ) (r : ρ) : Table ρ where
  rows := t.rows.map fun x => if primaryKey x = primaryKey r then r else x
  nodup := by
    have h : (t.rows.map fun x => if primaryKey x = primaryKey r then r else x).map primaryKey =
        t.rows.map primaryKey := by
      rw [List.map_map]
      refine List.map_congr_left fun x _ => ?_
      simp only [Function.comp]
      split <;> simp_all
    rw [h]
    exact t.nodup

/-- Add a row. An existing key is refused, or overwritten when `update` allows it. -/
def add (update : Bool) (r : ρ) (t : Table ρ) : Option (Table ρ) :=
  if h : primaryKey r ∈ t.keys then
    if update then some (t.overwrite r) else none
  else some (t.insert r h)

/-- Overwrite or insert: the total form of `add`. -/
def upsert (t : Table ρ) (r : ρ) : Table ρ :=
  if h : primaryKey r ∈ t.keys then t.overwrite r else t.insert r h

@[simp] theorem add_true (r : ρ) (t : Table ρ) : t.add true r = some (t.upsert r) := by
  unfold add upsert
  split <;> simp

theorem add_new {update : Bool} {r : ρ} {t : Table ρ} (h : primaryKey r ∉ t.keys) :
    t.add update r = some (t.upsert r) := by
  simp [add, upsert, h]

theorem add_false_existing {r : ρ} {t : Table ρ} (h : primaryKey r ∈ t.keys) :
    t.add false r = none := by
  simp [add, h]

theorem add_eq_some {update : Bool} {r : ρ} {t s : Table ρ} (h : t.add update r = some s) :
    s = t.upsert r := by
  by_cases hk : primaryKey r ∈ t.keys
  · cases update with
    | false => simp [add_false_existing hk] at h
    | true => simpa using h.symm
  · simpa [add_new hk] using h.symm

/-- Only what `f` does to the row with key `k` matters. -/
theorem modify_congr {t : Table ρ} {k : κ} {f g : ρ → ρ}
    {hf : ∀ r, primaryKey (f r) = primaryKey r} {hg : ∀ r, primaryKey (g r) = primaryKey r}
    (h : ∀ r ∈ t.rows, primaryKey r = k → f r = g r) : t.modify k f hf = t.modify k g hg := by
  apply Table.ext
  refine List.map_congr_left fun x hx => ?_
  by_cases hk : primaryKey x = k
  · rw [if_pos hk, if_pos hk, h x hx hk]
  · rw [if_neg hk, if_neg hk]

@[simp] theorem keys_modify (t : Table ρ) (k : κ) (f : ρ → ρ)
    (hf : ∀ r, primaryKey (f r) = primaryKey r) : (t.modify k f hf).keys = t.keys := by
  simp only [keys, modify, List.map_map]
  refine List.map_congr_left fun x _ => ?_
  simp only [Function.comp]
  split <;> simp [hf]

theorem keys_overwrite (t : Table ρ) (r : ρ) : (t.overwrite r).keys = t.keys := by
  simp only [keys, overwrite, List.map_map]
  refine List.map_congr_left fun x _ => ?_
  simp only [Function.comp]
  split <;> simp_all

theorem keys_upsert (t : Table ρ) (r : ρ) :
    (t.upsert r).keys = if primaryKey r ∈ t.keys then t.keys else t.keys ++ [primaryKey r] := by
  by_cases h : primaryKey r ∈ t.keys
  · rw [upsert, dif_pos h, if_pos h, keys_overwrite]
  · rw [upsert, dif_neg h, if_neg h]
    simp [insert, keys]

theorem keys_upsert_new {t : Table ρ} {r : ρ} (h : primaryKey r ∉ t.keys) :
    (t.upsert r).keys = t.keys ++ [primaryKey r] := by
  rw [keys_upsert, if_neg h]

@[simp] theorem mem_keys_upsert {t : Table ρ} {r : ρ} {k : κ} :
    k ∈ (t.upsert r).keys ↔ k = primaryKey r ∨ k ∈ t.keys := by
  rw [keys_upsert]
  split
  · constructor
    · exact Or.inr
    · rintro (rfl | h) <;> assumption
  · simp [or_comm]

/-- What a table holds under a key after an upsert. -/
theorem mem_rows_upsert {t : Table ρ} {r x : ρ} :
    x ∈ (t.upsert r).rows ↔ x = r ∨ (x ∈ t.rows ∧ primaryKey x ≠ primaryKey r) := by
  by_cases h : primaryKey r ∈ t.keys
  · simp only [upsert, dif_pos h, overwrite, List.mem_map]
    constructor
    · rintro ⟨y, hy, rfl⟩
      by_cases hk : primaryKey y = primaryKey r
      · simp [hk]
      · simp [hk, hy]
    · rintro (rfl | ⟨hx, hk⟩)
      · obtain ⟨y, hy, hyk⟩ := mem_keys.mp h
        exact ⟨y, hy, by simp [hyk]⟩
      · exact ⟨x, hx, by simp [hk]⟩
  · simp only [upsert, dif_neg h, insert, List.mem_append, List.mem_singleton]
    constructor
    · rintro (hx | rfl)
      · exact Or.inr ⟨hx, fun hk => h (mem_keys.mpr ⟨x, hx, hk⟩)⟩
      · exact Or.inl rfl
    · rintro (rfl | ⟨hx, _⟩)
      · exact Or.inr rfl
      · exact Or.inl hx

/-- An upsert of a table is an upsert of the list of its rows. -/
theorem rows_upsert (t : Table ρ) (r : ρ) :
    (t.upsert r).rows = KeyedMerge.upsert primaryKey t.rows r := by
  by_cases h : primaryKey r ∈ t.keys
  · have hrows : primaryKey r ∈ t.rows.map primaryKey := h
    rw [upsert, dif_pos h, KeyedMerge.upsert, if_pos hrows, overwrite]
  · have hrows : primaryKey r ∉ t.rows.map primaryKey := h
    rw [upsert, dif_neg h, KeyedMerge.upsert, if_neg hrows, insert]

@[simp] theorem find_upsert (t : Table ρ) (r : ρ) (k : κ) :
    (t.upsert r).find k = if primaryKey r = k then some r else t.find k := by
  split
  · rename_i h
    exact find_eq_some.mpr ⟨mem_rows_upsert.mpr (Or.inl rfl), h⟩
  · rename_i h
    cases hf : t.find k with
    | none =>
      rw [find_eq_none] at hf ⊢
      simpa [Ne.symm h] using hf
    | some x =>
      obtain ⟨hx, rfl⟩ := find_eq_some.mp hf
      exact find_eq_some.mpr ⟨mem_rows_upsert.mpr (Or.inr ⟨hx, Ne.symm h⟩), rfl⟩

@[simp] theorem find_modify (t : Table ρ) (k j : κ) (f : ρ → ρ)
    (hf : ∀ r, primaryKey (f r) = primaryKey r) :
    (t.modify k f hf).find j = if j = k then (t.find j).map f else t.find j := by
  have hmem : ∀ y, t.find j = some y →
      (t.modify k f hf).find j = some (if j = k then f y else y) := by
    intro y hy
    obtain ⟨hmem, rfl⟩ := find_eq_some.mp hy
    refine find_eq_some.mpr ⟨List.mem_map.mpr ⟨y, hmem, rfl⟩, ?_⟩
    split <;> simp [hf]
  cases h : t.find j with
  | none =>
    have hk : (t.modify k f hf).find j = none := by
      rw [find_eq_none] at h ⊢
      simpa using h
    simp [hk]
  | some y => rw [hmem y h]; split <;> simp

end Table

/-! ## Deleting a row -/

/-- Drop item `i`; the last item takes its place. -/
def moveLastOver {α : Type u} (l : List α) (i : Nat) : List α :=
  match l.getLast? with
  | none => l
  | some last => (l.set i last).dropLast

theorem moveLastOver_concat {α : Type u} (l : List α) (last : α) (i : Nat) :
    moveLastOver (l ++ [last]) i = ((l ++ [last]).set i last).dropLast := by
  rw [moveLastOver, List.getLast?_concat]

@[simp] theorem moveLastOver_length {α : Type u} (l : List α) (last : α) :
    moveLastOver (l ++ [last]) l.length = l := by
  rw [moveLastOver_concat, List.set_append_right _ _ (Nat.le_refl _), Nat.sub_self,
    List.set_cons_zero, List.dropLast_concat]

/-- But for their order, the items are those without item `i`. -/
theorem perm_moveLastOver {α : Type u} {l : List α} {i : Nat} (h : i < l.length) :
    (moveLastOver l i).Perm (l.eraseIdx i) := by
  rcases List.eq_nil_or_concat l with rfl | ⟨init, last, rfl⟩
  · cases h
  · rw [List.concat_eq_append] at h ⊢
    rw [List.length_append, List.length_singleton] at h
    by_cases hi : i < init.length
    · rw [moveLastOver_concat, List.set_append_left _ _ hi, List.dropLast_concat,
        List.eraseIdx_append_of_lt_length hi]
      exact (List.set_perm_cons_eraseIdx hi last).trans (List.perm_append_singleton _ _).symm
    · obtain rfl : i = init.length := by omega
      rw [moveLastOver_length, List.eraseIdx_append_of_length_le (Nat.le_refl _)]
      simp

namespace Table

variable [DecidableEq κ]

theorem perm_keys_moveLastOver (t : Table ρ) {k : κ} (h : k ∈ t.keys) :
    ((moveLastOver t.rows (t.keys.idxOf k)).map primaryKey).Perm (t.keys.erase k) := by
  have hlt : t.keys.idxOf k < t.rows.length := by
    rw [← length_keys]
    exact List.idxOf_lt_length_of_mem h
  have hperm := (perm_moveLastOver hlt).map primaryKey
  rwa [← List.eraseIdx_map, ← keys, List.eraseIdx_idxOf_eq_erase] at hperm

/-- Delete the row with key `k`. -/
def delete (t : Table ρ) (k : κ) : Table ρ :=
  if h : k ∈ t.keys then
    ⟨moveLastOver t.rows (t.keys.idxOf k),
      (t.perm_keys_moveLastOver h).nodup_iff.mpr (t.nodup_keys.erase k)⟩
  else t

@[simp] theorem mem_keys_delete {t : Table ρ} {j k : κ} :
    j ∈ (t.delete k).keys ↔ j ≠ k ∧ j ∈ t.keys := by
  by_cases h : k ∈ t.keys
  · rw [delete, dif_pos h, keys, (t.perm_keys_moveLastOver h).mem_iff, t.nodup_keys.mem_erase_iff]
  · rw [delete, dif_neg h]
    refine ⟨fun hj => ⟨?_, hj⟩, And.right⟩
    rintro rfl
    exact h hj

/-- Deleting a row that has just been inserted gives back the table. -/
theorem delete_upsert_new {t : Table ρ} {r : ρ} (h : primaryKey r ∉ t.keys) :
    (t.upsert r).delete (primaryKey r) = t := by
  have hmem : primaryKey r ∈ (t.upsert r).keys := mem_keys_upsert.mpr (Or.inl rfl)
  have hindex : (t.upsert r).keys.idxOf (primaryKey r) = t.rows.length := by
    rw [keys_upsert_new h, List.idxOf_append_of_notMem h, List.idxOf_cons_self, length_keys]
    rfl
  apply Table.ext
  rw [delete, dif_pos hmem]
  show moveLastOver _ _ = _
  rw [hindex, upsert, dif_neg h, insert, moveLastOver_length]

end Table

end KeyedTable
