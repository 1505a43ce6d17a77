import RandomUserClient.StoredLeaves

/-!
# What was sent of a user

A leaf was sent when its path leads to a value that is not null; a string and an
integer have a text. What is kept of a leaf depends on the values beside it: a
field of the user that decodes keeps all of its leaves, and one that does not
keeps none. A number that is not kept is stored as 0.
-/

namespace SentLeaves

open JsonDecoding DecodingSchemas TypedLeaves LeafIsolation StoredLeaves
open UsersViewModel UsersViewStructs

/-- The text of a string, or of a number that is an integer. -/
def scalarText : Json → Option String
  | .str s => some s
  | .num n => n.int?.map toString
  | _ => none

/-- What a path of keys leads to has this text; for `none`, nothing was sent there, or null. -/
def SentAs (path : List String) (item : Json) : Option String → Prop
  | none => get? (path.map .key) item = none ∨ get? (path.map .key) item = some .null
  | some s => ∃ j, get? (path.map .key) item = some j ∧ scalarText j = some s

/-- A field of a user object is there and of its type. -/
def Decodes (k : String) (item : Json) : Prop :=
  ∃ j, get? [.key k] item = some j ∧ Typed (userField k) j

theorem sentAs_unique {path : List String} {item : Json} {d d' : Option String}
    (h : SentAs path item d) (h' : SentAs path item d') : d = d' := by
  have hsent : ∀ {s : String}, SentAs path item none → ¬ SentAs path item (some s) := by
    rintro s hno ⟨j, hj, htext⟩
    rcases hno with hno | hno
    · rw [hno] at hj
      cases hj
    · obtain rfl := Option.some.inj (hno.symm.trans hj)
      cases htext
  cases d with
  | none =>
    cases d' with
    | none => rfl
    | some s => exact absurd h' (hsent h)
  | some s =>
    cases d' with
    | none => exact absurd h (hsent h')
    | some s' =>
      obtain ⟨j, hj, htext⟩ := h
      obtain ⟨j', hj', htext'⟩ := h'
      obtain rfl := Option.some.inj (hj.symm.trans hj')
      rw [← htext, ← htext']

/-! ## Leaves of a well-typed value -/

/-- The text of a leaf of one kind. -/
def leafText (kind : LeafKind) (path : List String) (j : Json) : Option String :=
  match kind with
  | .string => stringAt path j
  | .int => (intAt path j).map toString

theorem get?_cons (k : String) (path : List String) (c : Entries) :
    get? ((k :: path).map .key) (.obj c) = (entry k c).bind (get? (path.map .key)) := rfl

theorem leafText_cons (kind : LeafKind) (k : String) (path : List String) (c : Entries) :
    leafText kind (k :: path) (.obj c) = (entry k c).bind (leafText kind path) := by
  cases he : entry k c <;> cases kind <;> simp [leafText, stringAt, intAt, get?, he]

/-- Below a field that is there, a leaf was sent as it was in the field. -/
theorem sentAs_cons {k : String} {path : List String} {c : Entries} {v : Json}
    (he : entry k c = some v) (d : Option String) :
    SentAs (k :: path) (.obj c) d ↔ SentAs path v d := by
  cases d <;> simp only [SentAs, get?_cons, he, Option.bind_some]

theorem sentAs_null (path : List String) : SentAs path .null none := by
  cases path with
  | nil => exact Or.inr rfl
  | cons k path => exact Or.inl rfl

theorem leafText_null (kind : LeafKind) (path : List String) : leafText kind path .null = none := by
  cases path <;> cases kind <;> rfl

/-- A leaf of a well-typed value was sent as its text, or not at all. -/
theorem sentAs_typed {kind : LeafKind} {s : Schema} {path : List String}
    (hpath : path ∈ leafPaths kind s) {j : Json} (h : Typed s j) :
    SentAs path j (leafText kind path j) := by
  induction s generalizing path j with
  | string =>
    rw [leafPaths, List.mem_ite_nil_right, List.mem_singleton] at hpath
    obtain ⟨rfl, rfl⟩ := hpath
    obtain ⟨s, rfl⟩ := h
    exact ⟨.str s, rfl, rfl⟩
  | int =>
    rw [leafPaths, List.mem_ite_nil_right, List.mem_singleton] at hpath
    obtain ⟨rfl, rfl⟩ := hpath
    obtain ⟨n, hn⟩ := h
    have htext : leafText .int [] j = some (toString n) := by
      simp [leafText, intAt, get?, hn]
    rw [htext]
    refine ⟨j, rfl, ?_⟩
    cases j with
    | num m => exact congrArg (Option.map toString) hn
    | _ => cases hn
  | struct keys field ih =>
    obtain ⟨c, rfl, hc⟩ := h
    obtain ⟨k, hk, hpath⟩ := List.mem_flatMap.mp hpath
    obtain ⟨rest, hrest, rfl⟩ := List.mem_map.mp hpath
    rw [leafText_cons]
    cases he : entry k c with
    | none =>
      apply Or.inl
      rw [get?_cons, he]
      rfl
    | some v =>
      rw [sentAs_cons he, Option.bind_some]
      rcases hc k hk v he with rfl | hv
      · rw [leafText_null]
        exact sentAs_null rest
      · exact ih k hrest hv

/-! ## What is kept of a leaf -/

/-- The object that is stored of a user, whatever its favourite flag is. -/
abbrev storedObject (value : RandomUserData) (flag : String) : RandomUserDataModel :=
  { RandomUserDataModel.ofValue value with isInFavorites := flag }

theorem mem_leafPaths_userSchema {kind : LeafKind} {k : String} {rest : List String} :
    k :: rest ∈ leafPaths kind userSchema ↔ k ∈ userKeys ∧ rest ∈ leafPaths kind (userField k) := by
  simp only [userSchema, leafPaths, List.mem_flatMap, List.mem_map, List.cons.injEq]
  constructor
  · rintro ⟨j, hj, path, hpath, rfl, rfl⟩
    exact ⟨hj, hpath⟩
  · rintro ⟨hk, hrest⟩
    exact ⟨k, hk, rest, hrest, rfl, rfl⟩

/-- Whatever else is in a user object, a field that decodes has its leaves in the decoded user, and
one that does not has none there. -/
theorem valAt_decoded {item : Json} {value : RandomUserData} (hdec : decodeUser item = some value)
    {kind : LeafKind} {k : String} {rest : List String}
    (hpath : k :: rest ∈ leafPaths kind userSchema) :
    (Decodes k item → valAt (k :: rest) (some (userVal value)) = leafAt kind (k :: rest) item) ∧
      (¬ Decodes k item → valAt (k :: rest) (some (userVal value)) = none) := by
  obtain ⟨hk, hrest⟩ := mem_leafPaths_userSchema.mp hpath
  obtain ⟨c, hobj, -⟩ := Option.bind_eq_some_iff.mp hdec
  obtain rfl : item = .obj c := by
    cases item with
    | obj c' => exact congrArg Json.obj (Option.some.inj hobj)
    | _ => cases hobj
  obtain ⟨value', hdec', hval⟩ := decode_user c
  obtain rfl : value = value' := Option.some.inj (hdec.symm.trans hdec')
  have hfield : valAt (k :: rest) (some (userVal value)) =
      valAt rest ((entry k c).bind (userField k).decode) := by
    rw [hval, valAt, fieldVal_map hk fun k => decode (userField k).decode k c]
    rfl
  have hget : get? [.key k] (.obj c) = entry k c := by
    cases he : entry k c <;> simp [get?, he]
  rw [hfield, leafAt_cons, Decodes, hget]
  constructor
  · rintro ⟨j, hj, htyped⟩
    rw [hj, Option.bind_some, Option.bind_some]
    exact valAt_decode hrest htyped
  · intro hno
    have hnone : (entry k c).bind (userField k).decode = none := by
      rw [Option.bind_eq_none_iff]
      intro j hj
      by_contra hsome
      exact hno ⟨j, hj, typed_of_decode (Option.isSome_iff_ne_none.mpr hsome)⟩
    rw [hnone, valAt_none]

/-- So in a field that decodes every leaf was sent as its text. -/
theorem sentAs_decodes {item : Json} {kind : LeafKind} {k : String} {rest : List String}
    (hpath : k :: rest ∈ leafPaths kind userSchema) (h : Decodes k item) :
    SentAs (k :: rest) item (leafText kind (k :: rest) item) := by
  obtain ⟨j, hj, htyped⟩ := h
  have hsent : (get? (.key k :: []) item).isSome := by
    rw [hj]
    rfl
  obtain ⟨c, v, rfl, he, -⟩ := get?_key hsent
  obtain rfl : v = j := by simpa [get?, he] using hj
  rw [leafText_cons, he, Option.bind_some, sentAs_cons he]
  exact sentAs_typed (mem_leafPaths_userSchema.mp hpath).2 htyped

/-- A string that is kept was sent, in a field that decodes. -/
theorem kept_string {item : Json} {value : RandomUserData} (hdec : decodeUser item = some value)
    (flag : String) {k : String} {rest : List String} {kept : RandomUserDataModel → Option String}
    (hleaf : ⟨k :: rest, kept⟩ ∈ stringLeaves) :
    (Decodes k item → SentAs (k :: rest) item (kept (storedObject value flag))) ∧
      (¬ Decodes k item → kept (storedObject value flag) = none) := by
  have hpath : k :: rest ∈ leafPaths .string userSchema :=
    stringLeaves_paths ▸ List.mem_map_of_mem hleaf
  have hkept := valAt_stringLeaf value flag _ hleaf
  obtain ⟨hyes, hno⟩ := valAt_decoded hdec hpath
  constructor
  · intro hd
    have hval := hkept.symm.trans (hyes hd)
    rw [leafAt_string] at hval
    have htext : kept (storedObject value flag) = stringAt (k :: rest) item := map_str_inj.mp hval
    rw [htext]
    exact sentAs_decodes hpath hd
  · intro hd
    have hval := hkept.symm.trans (hno hd)
    exact Option.map_eq_none_iff.mp hval

/-- A number that is kept was sent, in a field that decodes, or is 0. -/
theorem kept_int {item : Json} {value : RandomUserData} (hdec : decodeUser item = some value)
    (flag : String) {k : String} {rest : List String} {kept : RandomUserDataModel → Option Int}
    (hleaf : ⟨k :: rest, kept⟩ ∈ intLeaves) (h : Decodes k item) :
    ∃ n : Option Int, SentAs (k :: rest) item (n.map toString) ∧
      kept (storedObject value flag) = some (n.getD 0) := by
  have hpath : k :: rest ∈ leafPaths .int userSchema :=
    intLeaves_paths ▸ List.mem_map_of_mem hleaf
  obtain ⟨n, hn, hkept⟩ := valAt_intLeaf value flag _ hleaf
  have hval := hn.symm.trans ((valAt_decoded hdec hpath).1 h)
  rw [leafAt_int] at hval
  refine ⟨n, ?_, hkept⟩
  rw [map_int_inj.mp hval]
  exact sentAs_decodes hpath h

end SentLeaves
