import RandomUserClient.JsonDecoding

/-!
# How far a replaced value spreads

A schema says how a value is decoded: a scalar, or a struct whose fields are all
optional and of which one ill-typed field fails the whole. A path names a
position in the JSON value and in what is decoded from it. Two decoded values
that agree once the position is erased differ there at most.
-/

namespace DecodingSchemas

open JsonDecoding

inductive Schema where
  | string : Schema
  | int : Schema
  | struct : List String → (String → Schema) → Schema

/-- A decoded value, whatever its type; the fields of a struct and the items of an array may be
nil. -/
inductive Val where
  | str : String → Val
  | int : Int → Val
  | struct : List (String × Option Val) → Val
  | array : List (Option Val) → Val

/-- Read the fields one after another; one that fails fails them all. -/
def readFields (read : String → Option (Option Val)) :
    List String → Option (List (String × Option Val))
  | [] => some []
  | k :: keys => do
    let v ← read k
    let vs ← readFields read keys
    some ((k, v) :: vs)

def Schema.decode : Schema → Json → Option Val
  | .string, j => (decodeString j).map .str
  | .int, j => (decodeInt j).map .int
  | .struct keys field, j => (container j).bind fun c =>
      (readFields (fun k => decodeIfPresent (field k).decode k c) keys).map .struct

/-- A value that an optional field of this schema accepts. -/
def Schema.WellTyped (s : Schema) (j : Json) : Prop := (decodeOptional s.decode j).isSome

instance (s : Schema) (j : Json) : Decidable (s.WellTyped j) :=
  inferInstanceAs (Decidable ((decodeOptional s.decode j).isSome = true))

/-- The schema of the position a path leads to; `none` when the schema does not read it. -/
def Schema.at : List Step → Schema → Option Schema
  | [], s => some s
  | .key k :: path, .struct keys field => if k ∈ keys then (field k).at path else none
  | _ :: _, _ => none

/-- Forget what is at a position. -/
def eraseAt : List Step → Option Val → Option Val
  | [], _ => none
  | .key k :: path, some (.struct fields) => some (.struct (fields.map fun field =>
      (field.1, if field.1 = k then eraseAt path field.2 else field.2)))
  | .index i :: path, some (.array items) => some (.array (items.modify i (eraseAt path)))
  | _ :: _, v => v

theorem readFields_congr {read read' : String → Option (Option Val)} {keys : List String}
    (h : ∀ k ∈ keys, read k = read' k) : readFields read keys = readFields read' keys := by
  induction keys with
  | nil => rfl
  | cons k keys ih =>
    obtain ⟨hk, hkeys⟩ := List.forall_mem_cons.mp h
    simp only [readFields, hk, ih hkeys]

/-- Reads that agree on one field up to `f`, and on all others, agree up to `f` on that field. -/
theorem readFields_map_congr {read read' : String → Option (Option Val)} {k : String}
    {f : Option Val → Option Val} (hk : (read k).map f = (read' k).map f)
    (hother : ∀ j, j ≠ k → read j = read' j) (keys : List String) :
    (readFields read keys).map (List.map fun field =>
        (field.1, if field.1 = k then f field.2 else field.2)) =
      (readFields read' keys).map (List.map fun field =>
        (field.1, if field.1 = k then f field.2 else field.2)) := by
  induction keys with
  | nil => rfl
  | cons j keys ih =>
    by_cases hj : j = k
    · subst hj
      cases hr : read j with
      | none =>
        have hr' : read' j = none := by simpa [hr] using hk.symm
        simp [readFields, hr, hr']
      | some v =>
        obtain ⟨v', hr', hv⟩ : ∃ v', read' j = some v' ∧ f v' = f v := by simpa [hr] using hk.symm
        cases hs : readFields read keys <;> cases hs' : readFields read' keys <;>
          simp_all [readFields]
    · have hr := hother j hj
      cases hv : read' j with
      | none => simp [readFields, hr, hv]
      | some v =>
        cases hs : readFields read keys <;> cases hs' : readFields read' keys <;>
          simp_all [readFields]

theorem readFields_eq_none {read : String → Option (Option Val)} {k : String}
    {keys : List String} (hmem : k ∈ keys) (hk : read k = none) : readFields read keys = none := by
  induction keys with
  | nil => cases hmem
  | cons j keys ih =>
    by_cases hj : k = j
    · subst hj
      simp [readFields, hk]
    · have hrest := ih ((List.mem_cons.mp hmem).resolve_left hj)
      cases read j <;> simp [readFields, hrest]

/-! ## Positions of a value -/

theorem get?_key {k : String} {path : List Step} {j : Json}
    (h : (get? (.key k :: path) j).isSome) :
    ∃ c v, j = .obj c ∧ entry k c = some v ∧ (get? path v).isSome := by
  cases j with
  | obj c =>
    cases he : entry k c with
    | none => simp [get?, he] at h
    | some v => exact ⟨c, v, rfl, he, by simpa [get?, he] using h⟩
  | _ => simp [get?] at h

theorem get?_index {i : Nat} {path : List Step} {j : Json}
    (h : (get? (.index i :: path) j).isSome) :
    ∃ items v, j = .arr items ∧ items[i]? = some v ∧ (get? path v).isSome := by
  cases j with
  | arr items =>
    cases he : items[i]? with
    | none => simp [get?, he] at h
    | some v => exact ⟨items, v, rfl, he, by simpa [get?, he] using h⟩
  | _ => simp [get?] at h

theorem setEntry_self {k : String} {f : Json → Json} {c : Entries} {v : Json}
    (he : entry k c = some v) (hf : f v = v) : setEntry k f c = c := by
  induction c with
  | nil => rfl
  | cons e c ih =>
    obtain ⟨j, x⟩ := e
    by_cases hk : j = k
    · obtain rfl : x = v := by simpa [entry, hk] using he
      simp [setEntry, hk, hf]
    · have hc : entry k c = some v := by simpa [entry, hk] using he
      simp [setEntry, hk, ih hc]

theorem modify_self {items : List Json} {i : Nat} {f : Json → Json} {v : Json}
    (he : items[i]? = some v) (hf : f v = v) : items.modify i f = items := by
  apply List.ext_getElem?
  intro n
  rw [List.getElem?_modify]
  by_cases hn : i = n
  · subst hn
    simp [he, hf]
  · simp [hn]

/-- Replacing a value by itself changes nothing. -/
theorem replace_self {path : List Step} {j v : Json} (h : get? path j = some v) :
    replace path v j = j := by
  induction path generalizing j with
  | nil => exact (Option.some.inj h).symm
  | cons p path ih =>
    cases p with
    | key k =>
      obtain ⟨c, x, rfl, he, -⟩ := get?_key (by rw [h]; rfl)
      have hx : get? path x = some v := by simpa [get?, he] using h
      rw [replace, setEntry_self he (ih hx)]
    | index i =>
      obtain ⟨items, x, rfl, he, -⟩ := get?_index (by rw [h]; rfl)
      have hx : get? path x = some v := by simpa [get?, he] using h
      rw [replace, modify_self he (ih hx)]

/-- A value with something in it is an object or an array, and so it is after a replacement. -/
theorem decodeOptional_replace {path : List Step} {j : Json} (hne : path ≠ [])
    (hj : (get? path j).isSome) {α : Type} (dec : Json → Option α) (w : Json) :
    decodeOptional dec (replace path w j) = (dec (replace path w j)).map some := by
  cases path with
  | nil => exact absurd rfl hne
  | cons p path =>
    cases p with
    | key k =>
      obtain ⟨c, v, rfl, -, -⟩ := get?_key hj
      rfl
    | index i =>
      obtain ⟨items, v, rfl, -, -⟩ := get?_index hj
      rfl

/-! ## Replacing a value -/

theorem decode_struct (keys : List String) (field : String → Schema) (j : Json) :
    (Schema.struct keys field).decode j = (container j).bind fun c =>
      (readFields (fun k => decodeIfPresent (field k).decode k c) keys).map .struct := rfl

theorem decode_obj (keys : List String) (field : String → Schema) (c : Entries) :
    (Schema.struct keys field).decode (.obj c) =
      (readFields (fun k => decodeIfPresent (field k).decode k c) keys).map .struct := rfl

/-- Up to its position, a replaced value that is well-typed decodes as null does there, and an
ill-typed one fails everything around it. -/
theorem decode_replace {path : List Step} {s d : Schema} {j : Json} (hat : s.at path = some d)
    (hj : (get? path j).isSome) (w : Json) :
    (decodeOptional s.decode (replace path w j)).map (eraseAt path) =
      if d.WellTyped w then (decodeOptional s.decode (replace path .null j)).map (eraseAt path)
      else none := by
  induction path generalizing s j with
  | nil =>
    obtain rfl : s = d := Option.some.inj hat
    cases h : decodeOptional s.decode w <;> simp [Schema.WellTyped, replace, eraseAt, h]
  | cons p path ih =>
    cases s with
    | string => cases p <;> cases hat
    | int => cases p <;> cases hat
    | struct keys field =>
      cases p with
      | index i => cases hat
      | key k =>
        simp only [Schema.at, Option.ite_none_right_eq_some] at hat
        obtain ⟨hk, hat⟩ := hat
        obtain ⟨c, v, rfl, he, hv⟩ := get?_key hj
        have ih := ih hat hv
        let read (w : Json) (k' : String) :=
          decodeIfPresent (field k').decode k' (setEntry k (replace path w) c)
        have hread : ∀ w, read w k = decodeOptional (field k).decode (replace path w v) := fun w =>
          decodeIfPresent_some (by rw [entry_setEntry_same, he]; rfl)
        have hother : ∀ w w' k', k' ≠ k → read w k' = read w' k' := fun w w' k' hne => by
          simp only [read, decodeIfPresent_setEntry_other _ hne]
        have hdecode : ∀ w, (decodeOptional (Schema.struct keys field).decode
            (replace (.key k :: path) w (.obj c))).map (eraseAt (.key k :: path)) =
            ((readFields (read w) keys).map (List.map fun field =>
              (field.1, if field.1 = k then eraseAt path field.2 else field.2))).map
              (fun fields => some (.struct fields)) := fun w => by
          simp only [replace, decodeOptional_obj, decode_obj, Option.map_map]
          rfl
        rw [hdecode, hdecode]
        by_cases hw : d.WellTyped w
        · rw [if_pos hw] at ih ⊢
          rw [readFields_map_congr (by rw [hread, hread]; exact ih) (hother w .null)]
        · rw [if_neg hw] at ih ⊢
          have hnone : read w k = none := by
            rw [hread]
            exact Option.map_eq_none_iff.mp ih
          rw [readFields_eq_none hk hnone]
          rfl

/-- What the schema does not read changes nothing. -/
theorem decode_replace_off {path : List Step} {s : Schema} {j : Json} (hat : s.at path = none)
    (hj : (get? path j).isSome) (w : Json) : s.decode (replace path w j) = s.decode j := by
  induction path generalizing s j with
  | nil => cases hat
  | cons p path ih =>
    cases p with
    | index i =>
      obtain ⟨items, v, rfl, -, -⟩ := get?_index hj
      cases s <;> rfl
    | key k =>
      obtain ⟨c, v, rfl, he, hv⟩ := get?_key hj
      cases s with
      | string => rfl
      | int => rfl
      | struct keys field =>
        rw [replace, decode_obj, decode_obj]
        congr 1
        refine readFields_congr fun k' hk' => ?_
        by_cases hne : k' = k
        · subst hne
          have hat : (field k').at path = none := by simpa [Schema.at, hk'] using hat
          have hpath : path ≠ [] := by
            rintro rfl
            cases hat
          have hself := decodeOptional_replace hpath hv (field k').decode
          obtain ⟨x, hx⟩ := Option.isSome_iff_exists.mp hv
          rw [decodeIfPresent_some (j := replace path w v) (by rw [entry_setEntry_same, he]; rfl),
            decodeIfPresent_some he, hself, ih hat hv, ← replace_self hx, hself,
            replace_self hx]
        · exact decodeIfPresent_setEntry_other _ hne _ c

/-- In a value that decodes, a replaced value leaves the rest as it is exactly when it is
well-typed. -/
theorem decode_replace_iff {path : List Step} {s d : Schema} {j : Json} (hat : s.at path = some d)
    (hj : (get? path j).isSome) (hdec : (decodeOptional s.decode j).isSome) (w : Json) :
    (decodeOptional s.decode (replace path w j)).map (eraseAt path) =
      (decodeOptional s.decode j).map (eraseAt path) ↔ d.WellTyped w := by
  obtain ⟨old, hold⟩ := Option.isSome_iff_exists.mp hj
  obtain ⟨v, hv⟩ := Option.isSome_iff_exists.mp hdec
  have hself := decode_replace hat hj old
  rw [replace_self hold, hv] at hself
  rw [decode_replace hat hj w, hv]
  by_cases hw : d.WellTyped w
  · rw [if_pos hw]
    by_cases ho : d.WellTyped old
    · rw [if_pos ho] at hself
      exact iff_of_true hself.symm hw
    · rw [if_neg ho] at hself
      cases hself
  · rw [if_neg hw]
    exact iff_of_false (by simp) hw

theorem decodeOptional_replace_off {path : List Step} {s : Schema} {j : Json}
    (hat : s.at path = none) (hj : (get? path j).isSome) (w : Json) :
    decodeOptional s.decode (replace path w j) = decodeOptional s.decode j := by
  have hne : path ≠ [] := by
    rintro rfl
    cases hat
  obtain ⟨old, hold⟩ := Option.isSome_iff_exists.mp hj
  have hself := decodeOptional_replace hne hj s.decode
  have hj' := hself old
  rw [replace_self hold] at hj'
  rw [hself, hj', decode_replace_off hat hj]

/-! ## A value whose failure is turned into nil -/

theorem eraseAt_eq_none {path : List Step} (hne : path ≠ []) (v : Option Val) :
    eraseAt path v = none ↔ v = none := by
  cases path with
  | nil => exact absurd rfl hne
  | cons p path =>
    cases v with
    | none => cases p <;> simp [eraseAt]
    | some v => cases p <;> cases v <;> simp [eraseAt]

theorem erase_decode_replace {path : List Step} {s d : Schema} {j : Json}
    (hat : s.at path = some d) (hne : path ≠ []) (hj : (get? path j).isSome) (w : Json) :
    eraseAt path (s.decode (replace path w j)) =
      if d.WellTyped w then eraseAt path (s.decode (replace path .null j)) else none := by
  have h := decode_replace hat hj w
  rw [decodeOptional_replace hne hj, decodeOptional_replace hne hj] at h
  have hnil : eraseAt path none = none := (eraseAt_eq_none hne none).mpr rfl
  by_cases hw : d.WellTyped w
  · rw [if_pos hw] at h ⊢
    cases hs : s.decode (replace path w j) <;> cases hn : s.decode (replace path .null j) <;>
      simp_all
  · rw [if_neg hw] at h ⊢
    cases hs : s.decode (replace path w j) with
    | none => exact hnil
    | some v => simp [hs] at h

/-- Two values of one position leave the same around it exactly when the rest fails anyway, or
both are well-typed, or neither is. -/
theorem erase_decode_iff {path : List Step} {s d : Schema} {j : Json}
    (hat : s.at path = some d) (hne : path ≠ []) (hj : (get? path j).isSome) (w w' : Json) :
    eraseAt path (s.decode (replace path w j)) = eraseAt path (s.decode (replace path w' j)) ↔
      s.decode (replace path .null j) = none ∨ (d.WellTyped w' ↔ d.WellTyped w) := by
  rw [erase_decode_replace hat hne hj w, erase_decode_replace hat hne hj w',
    ← eraseAt_eq_none hne (s.decode (replace path .null j))]
  by_cases hw : d.WellTyped w <;> by_cases hw' : d.WellTyped w' <;> simp [hw, hw', eq_comm]

end DecodingSchemas
