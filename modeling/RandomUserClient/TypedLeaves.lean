import RandomUserClient.DecodingSchemas

/-!
# Leaves of a well-typed value

A JSON value is of the type a schema says when every field that the schema reads
is absent, null or of its own type. Such a value decodes, and whatever a path
leads to in what was decoded is what the same path leads to in the JSON value.
-/

namespace TypedLeaves

open JsonDecoding DecodingSchemas

/-- Absent fields and null are fine everywhere; what no field reads may be anything. -/
def Typed : Schema → Json → Prop
  | .string, j => ∃ s, j = .str s
  | .int, j => ∃ n, decodeInt j = some n
  | .struct keys field, j => ∃ c, j = .obj c ∧
      ∀ k ∈ keys, ∀ v, entry k c = some v → v = .null ∨ Typed (field k) v

/-- The field of a decoded struct. -/
def fieldVal (k : String) : List (String × Option Val) → Option Val
  | [] => none
  | (j, v) :: fields => if j = k then v else fieldVal k fields

/-- What a path of keys leads to in a decoded value. -/
def valAt : List String → Option Val → Option Val
  | [], v => v
  | k :: path, some (.struct fields) => valAt path (fieldVal k fields)
  | _ :: _, _ => none

inductive LeafKind where
  | string : LeafKind
  | int : LeafKind
  deriving DecidableEq, Repr

def LeafKind.decode : LeafKind → Json → Option Val
  | .string => Schema.string.decode
  | .int => Schema.int.decode

/-- The paths to the leaves of one kind below a schema. -/
def leafPaths (kind : LeafKind) : Schema → List (List String)
  | .string => if kind = .string then [[]] else []
  | .int => if kind = .int then [[]] else []
  | .struct keys field => keys.flatMap fun k => (leafPaths kind (field k)).map (k :: ·)

/-- The leaf of a JSON value that a path of keys leads to. -/
def leafAt (kind : LeafKind) (path : List String) (j : Json) : Option Val :=
  (get? (path.map .key) j).bind kind.decode

theorem fieldVal_map {k : String} {keys : List String} (hk : k ∈ keys)
    (f : String → Option Val) : fieldVal k (keys.map fun k => (k, f k)) = f k := by
  induction keys with
  | nil => cases hk
  | cons j keys ih =>
    by_cases hj : j = k
    · rw [List.map_cons, fieldVal, if_pos hj, hj]
    · rw [List.map_cons, fieldVal, if_neg hj]
      exact ih ((List.mem_cons.mp hk).resolve_left (Ne.symm hj))

@[simp] theorem valAt_none (path : List String) : valAt path none = none := by
  cases path <;> rfl

theorem decode_null (s : Schema) : s.decode .null = none := by
  cases s <;> rfl

@[simp] theorem leafAt_null (kind : LeafKind) (path : List String) :
    leafAt kind path .null = none := by
  cases path with
  | nil => cases kind <;> rfl
  | cons k path => rfl

theorem leafAt_cons (kind : LeafKind) (k : String) (path : List String) (c : Entries) :
    leafAt kind (k :: path) (.obj c) = (entry k c).bind (leafAt kind path) := by
  rw [leafAt, List.map_cons, get?, Option.bind_assoc]
  rfl

theorem readFields_some {read : String → Option (Option Val)} {f : String → Option Val}
    {keys : List String} (h : ∀ k ∈ keys, read k = some (f k)) :
    readFields read keys = some (keys.map fun k => (k, f k)) := by
  induction keys with
  | nil => rfl
  | cons k keys ih =>
    obtain ⟨hk, hkeys⟩ := List.forall_mem_cons.mp h
    rw [readFields, hk, ih hkeys]
    rfl

/-- A field whose value decodes where it has one is read as that value. -/
theorem decodeIfPresent_typed {s : Schema} {k : String} {c : Entries}
    (h : ∀ v, entry k c = some v → v = .null ∨ (s.decode v).isSome) :
    decodeIfPresent s.decode k c = some ((entry k c).bind s.decode) := by
  cases he : entry k c with
  | none => rw [decodeIfPresent, he]; rfl
  | some v =>
    rw [decodeIfPresent_some he, Option.bind_some]
    rcases h v he with rfl | hv
    · rw [decodeOptional_null, decode_null]
    · obtain ⟨x, hx⟩ := Option.isSome_iff_exists.mp hv
      have hne : v ≠ .null := by
        rintro rfl
        rw [decode_null] at hx
        cases hx
      cases v <;> first | exact absurd rfl hne | simp [decodeOptional, hx]

/-- A value of the right type decodes. -/
theorem decode_typed {s : Schema} {j : Json} (h : Typed s j) : (s.decode j).isSome := by
  induction s generalizing j with
  | string =>
    obtain ⟨s, rfl⟩ := h
    rfl
  | int =>
    obtain ⟨n, hn⟩ := h
    rw [Schema.decode, hn]
    rfl
  | struct keys field ih =>
    obtain ⟨c, rfl, hc⟩ := h
    have hread : ∀ k ∈ keys, decodeIfPresent (field k).decode k c =
        some ((entry k c).bind (field k).decode) := fun k hk =>
      decodeIfPresent_typed fun v hv => (hc k hk v hv).imp_right fun h => ih k h
    rw [decode_obj, readFields_some hread]
    rfl

/-- And only a value of the right type does. -/
theorem typed_of_decode {s : Schema} {j : Json} (h : (s.decode j).isSome) : Typed s j := by
  induction s generalizing j with
  | string =>
    cases j with
    | str s => exact ⟨s, rfl⟩
    | _ => cases h
  | int =>
    rw [Schema.decode, Option.isSome_map] at h
    exact Option.isSome_iff_exists.mp h
  | struct keys field ih =>
    cases j with
    | obj c =>
      refine ⟨c, rfl, fun k hk v hv => ?_⟩
      rw [decode_obj, Option.isSome_map] at h
      have hread : decodeIfPresent (field k).decode k c ≠ none := by
        intro hnone
        rw [readFields_eq_none hk hnone] at h
        cases h
      rw [decodeIfPresent_some hv] at hread
      by_cases hnull : v = .null
      · exact Or.inl hnull
      · apply Or.inr
        apply ih k
        rw [Option.isSome_iff_ne_none]
        intro hnone
        apply hread
        cases v <;> first | exact absurd rfl hnull | simp [decodeOptional, hnone]
    | _ => cases h

/-- It decodes field by field, whatever the fields have in common. -/
theorem decode_struct_typed {keys : List String} {field : String → Schema} {c : Entries}
    (h : Typed (.struct keys field) (.obj c)) : (Schema.struct keys field).decode (.obj c) =
      some (.struct (keys.map fun k => (k, (entry k c).bind (field k).decode))) := by
  obtain ⟨_, hobj, hc⟩ := h
  obtain rfl := Json.obj.inj hobj
  have hread : ∀ k ∈ keys, decodeIfPresent (field k).decode k c =
      some ((entry k c).bind (field k).decode) := fun k hk =>
    decodeIfPresent_typed fun v hv => (hc k hk v hv).imp_right decode_typed
  rw [decode_obj, readFields_some hread]
  rfl

/-- A leaf of a struct that was decoded field by field is a leaf of one of its fields. -/
theorem valAt_struct {kind : LeafKind} {keys : List String} {field : String → Schema}
    (hfield : ∀ k ∈ keys, ∀ path ∈ leafPaths kind (field k), ∀ j, Typed (field k) j →
      valAt path ((field k).decode j) = leafAt kind path j)
    {c : Entries} (h : Typed (.struct keys field) (.obj c)) {path : List String}
    (hpath : path ∈ leafPaths kind (.struct keys field)) :
    valAt path (some (.struct (keys.map fun k => (k, (entry k c).bind (field k).decode)))) =
      leafAt kind path (.obj c) := by
  obtain ⟨_, hobj, hc⟩ := h
  obtain rfl := Json.obj.inj hobj
  obtain ⟨k, hk, hpath⟩ := List.mem_flatMap.mp hpath
  obtain ⟨rest, hrest, rfl⟩ := List.mem_map.mp hpath
  rw [valAt, fieldVal_map hk fun k => (entry k c).bind (field k).decode, leafAt_cons]
  cases he : entry k c with
  | none => exact valAt_none rest
  | some v =>
    rw [Option.bind_some, Option.bind_some]
    rcases hc k hk v he with rfl | hv
    · rw [decode_null, valAt_none, leafAt_null]
    · exact hfield k hk rest hrest v hv

/-- The leaves of what was decoded are those of the JSON value. -/
theorem valAt_decode {kind : LeafKind} {s : Schema} {path : List String}
    (hpath : path ∈ leafPaths kind s) {j : Json} (h : Typed s j) :
    valAt path (s.decode j) = leafAt kind path j := by
  induction s generalizing path j with
  | string =>
    rw [leafPaths, List.mem_ite_nil_right, List.mem_singleton] at hpath
    obtain ⟨rfl, rfl⟩ := hpath
    rfl
  | int =>
    rw [leafPaths, List.mem_ite_nil_right, List.mem_singleton] at hpath
    obtain ⟨rfl, rfl⟩ := hpath
    rfl
  | struct keys field ih =>
    obtain ⟨c, rfl, -⟩ := id h
    rw [decode_struct_typed h]
    exact valAt_struct (fun k _ path hpath j hj => ih k hpath hj) h hpath

end TypedLeaves
