import RandomUserClient.DecodingSchemas
import RandomUserClient.UsersViewStructs

/-!
# Bad values in a response

Only `RandomUserData` decodes its fields one by one. In the structs below it and
in `Info` one ill-typed value fails the struct, and a failed `Info` fails the
response. How far a replaced value spreads is computed here for every position
of a response and every value that is put there.
-/

namespace LeafIsolation

open JsonDecoding DecodingSchemas UsersViewStructs

/-! ## The structs as schemas -/

def nameSchema : Schema := .struct ["title", "first", "last"] fun _ => .string

def coordinatesSchema : Schema := .struct ["latitude", "longitude"] fun _ => .string

def timezoneSchema : Schema := .struct ["offset", "description"] fun _ => .string

def locationSchema : Schema :=
  .struct ["street", "city", "state", "postcode", "coordinates", "timezone"] fun k =>
    if k = "postcode" then .int
    else if k = "coordinates" then coordinatesSchema
    else if k = "timezone" then timezoneSchema
    else .string

def loginSchema : Schema :=
  .struct ["uuid", "username", "password", "salt", "md5", "sha1", "sha256"] fun _ => .string

def dateSchema : Schema := .struct ["date", "age"] fun k => if k = "age" then .int else .string

def dobSchema : Schema := dateSchema

def registeredSchema : Schema := dateSchema

def idSchema : Schema := .struct ["name", "value"] fun _ => .string

def pictureSchema : Schema := .struct ["large", "medium", "thumbnail"] fun _ => .string

def infoSchema : Schema := .struct ["seed", "results", "page", "version"] fun k =>
  if k = "results" then .int else if k = "page" then .int else .string

def userKeys : List String :=
  ["gender", "name", "location", "email", "login", "dob", "registered", "phone", "cell", "id",
    "picture", "nat"]

def userField (k : String) : Schema :=
  if k = "name" then nameSchema
  else if k = "location" then locationSchema
  else if k = "login" then loginSchema
  else if k = "dob" then dobSchema
  else if k = "registered" then registeredSchema
  else if k = "id" then idSchema
  else if k = "picture" then pictureSchema
  else .string

/-! ## The decoded structs as values -/

def nameVal (o : RandomUserDataName) : Val :=
  .struct [("title", o.title.map .str), ("first", o.first.map .str), ("last", o.last.map .str)]

def coordinatesVal (o : RandomUserDataLocationCoordinates) : Val :=
  .struct [("latitude", o.latitude.map .str), ("longitude", o.longitude.map .str)]

def timezoneVal (o : RandomUserDataLocationTimezone) : Val :=
  .struct [("offset", o.offset.map .str), ("description", o.description.map .str)]

def locationVal (o : RandomUserDataLocation) : Val :=
  .struct [("street", o.street.map .str), ("city", o.city.map .str), ("state", o.state.map .str),
    ("postcode", o.postcode.map .int), ("coordinates", o.coordinates.map coordinatesVal),
    ("timezone", o.timezone.map timezoneVal)]

def loginVal (o : RandomUserDataLogin) : Val :=
  .struct [("uuid", o.uuid.map .str), ("username", o.username.map .str),
    ("password", o.password.map .str), ("salt", o.salt.map .str), ("md5", o.md5.map .str),
    ("sha1", o.sha1.map .str), ("sha256", o.sha256.map .str)]

def dobVal (o : RandomUserDataDOB) : Val :=
  .struct [("date", o.date.map .str), ("age", o.age.map .int)]

def registeredVal (o : RandomUserDataRegistered) : Val :=
  .struct [("date", o.date.map .str), ("age", o.age.map .int)]

def idVal (o : RandomUserDataID) : Val :=
  .struct [("name", o.name.map .str), ("value", o.value.map .str)]

def pictureVal (o : RandomUserDataPicture) : Val :=
  .struct [("large", o.large.map .str), ("medium", o.medium.map .str),
    ("thumbnail", o.thumbnail.map .str)]

def userVal (o : RandomUserData) : Val :=
  .struct [("gender", o.gender.map .str), ("name", o.name.map nameVal),
    ("location", o.location.map locationVal), ("email", o.email.map .str),
    ("login", o.login.map loginVal), ("dob", o.dob.map dobVal),
    ("registered", o.registered.map registeredVal), ("phone", o.phone.map .str),
    ("cell", o.cell.map .str), ("id", o.id.map idVal), ("picture", o.picture.map pictureVal),
    ("nat", o.nat.map .str)]

def infoVal (o : Info) : Val :=
  .struct [("seed", o.seed.map .str), ("results", o.results.map .int), ("page", o.page.map .int),
    ("version", o.version.map .str)]

def rootVal (o : RandomUsersDataRoot) : Val :=
  .struct [("results", o.results.map fun users => .array (users.map fun user =>
    some (userVal user))), ("info", o.info.map infoVal)]

/-! A value determines the struct it was made of. -/

@[simp] theorem map_str_inj {x y : Option String} : x.map Val.str = y.map Val.str ↔ x = y :=
  (Option.map_injective fun _ _ h => Val.str.inj h).eq_iff

@[simp] theorem map_int_inj {x y : Option Int} : x.map Val.int = y.map Val.int ↔ x = y :=
  (Option.map_injective fun _ _ h => Val.int.inj h).eq_iff

theorem nameVal_injective : Function.Injective nameVal := by
  intro a b h
  cases a
  cases b
  simpa [nameVal] using h

theorem coordinatesVal_injective : Function.Injective coordinatesVal := by
  intro a b h
  cases a
  cases b
  simpa [coordinatesVal] using h

theorem timezoneVal_injective : Function.Injective timezoneVal := by
  intro a b h
  cases a
  cases b
  simpa [timezoneVal] using h

theorem locationVal_injective : Function.Injective locationVal := by
  intro a b h
  cases a
  cases b
  simpa [locationVal, (Option.map_injective coordinatesVal_injective).eq_iff,
    (Option.map_injective timezoneVal_injective).eq_iff] using h

theorem loginVal_injective : Function.Injective loginVal := by
  intro a b h
  cases a
  cases b
  simpa [loginVal] using h

theorem dobVal_injective : Function.Injective dobVal := by
  intro a b h
  cases a
  cases b
  simpa [dobVal] using h

theorem registeredVal_injective : Function.Injective registeredVal := by
  intro a b h
  cases a
  cases b
  simpa [registeredVal] using h

theorem idVal_injective : Function.Injective idVal := by
  intro a b h
  cases a
  cases b
  simpa [idVal] using h

theorem pictureVal_injective : Function.Injective pictureVal := by
  intro a b h
  cases a
  cases b
  simpa [pictureVal] using h

theorem userVal_injective : Function.Injective userVal := by
  intro a b h
  cases a
  cases b
  simpa [userVal, (Option.map_injective nameVal_injective).eq_iff,
    (Option.map_injective locationVal_injective).eq_iff,
    (Option.map_injective loginVal_injective).eq_iff,
    (Option.map_injective dobVal_injective).eq_iff,
    (Option.map_injective registeredVal_injective).eq_iff,
    (Option.map_injective idVal_injective).eq_iff,
    (Option.map_injective pictureVal_injective).eq_iff] using h

theorem infoVal_injective : Function.Injective infoVal := by
  intro a b h
  cases a
  cases b
  simpa [infoVal] using h

theorem rootVal_injective : Function.Injective rootVal := by
  have husers : Function.Injective fun users : List RandomUserData =>
      Val.array (users.map fun user => some (userVal user)) := by
    intro a b h
    exact List.map_injective_iff.mpr (fun _ _ h => userVal_injective (Option.some.inj h))
      (Val.array.inj h)
  intro a b h
  cases a
  cases b
  simpa [rootVal, (Option.map_injective husers).eq_iff,
    (Option.map_injective infoVal_injective).eq_iff] using h

/-! ## The decoders follow the schemas -/

theorem decodeOptional_map {α : Type} {s : Schema} {dec : Json → Option α} {val : α → Val}
    (h : ∀ j, s.decode j = (dec j).map val) (j : Json) :
    decodeOptional s.decode j = (decodeOptional dec j).map (Option.map val) := by
  cases j <;> simp [decodeOptional, h, Option.map_map, Function.comp_def]

theorem field_map {α : Type} {s : Schema} {dec : Json → Option α} {val : α → Val}
    (h : ∀ j, s.decode j = (dec j).map val) (k : String) (c : Entries) :
    decodeIfPresent s.decode k c = (decodeIfPresent dec k c).map (Option.map val) := by
  unfold decodeIfPresent
  cases entry k c with
  | none => rfl
  | some j => exact decodeOptional_map h j

@[simp] theorem string_field (k : String) (c : Entries) : decodeIfPresent Schema.string.decode k c =
    (decodeIfPresent decodeString k c).map (Option.map .str) :=
  field_map (fun _ => rfl) k c

@[simp] theorem int_field (k : String) (c : Entries) : decodeIfPresent Schema.int.decode k c =
    (decodeIfPresent decodeInt k c).map (Option.map .int) :=
  field_map (fun _ => rfl) k c

theorem decode_name (j : Json) : nameSchema.decode j = (decodeName j).map nameVal := by
  simp [nameSchema, decode_struct, readFields, decodeName, nameVal, Option.map_bind,
    Option.bind_assoc, Option.bind_map, Function.comp_def]

theorem decode_coordinates (j : Json) :
    coordinatesSchema.decode j = (decodeCoordinates j).map coordinatesVal := by
  simp [coordinatesSchema, decode_struct, readFields, decodeCoordinates, coordinatesVal,
    Option.map_bind, Option.bind_assoc, Option.bind_map, Function.comp_def]

theorem decode_timezone (j : Json) :
    timezoneSchema.decode j = (decodeTimezone j).map timezoneVal := by
  simp [timezoneSchema, decode_struct, readFields, decodeTimezone, timezoneVal,
    Option.map_bind, Option.bind_assoc, Option.bind_map, Function.comp_def]

theorem decode_location (j : Json) :
    locationSchema.decode j = (decodeLocation j).map locationVal := by
  simp [locationSchema, decode_struct, readFields, decodeLocation, locationVal,
    field_map decode_coordinates, field_map decode_timezone, Option.map_bind, Option.bind_assoc,
    Option.bind_map, Function.comp_def]

theorem decode_login (j : Json) : loginSchema.decode j = (decodeLogin j).map loginVal := by
  simp [loginSchema, decode_struct, readFields, decodeLogin, loginVal, Option.map_bind,
    Option.bind_assoc, Option.bind_map, Function.comp_def]

theorem decode_dob (j : Json) : dobSchema.decode j = (decodeDOB j).map dobVal := by
  simp [dobSchema, dateSchema, decode_struct, readFields, decodeDOB, dobVal, Option.map_bind,
    Option.bind_assoc, Option.bind_map, Function.comp_def]

theorem decode_registered (j : Json) :
    registeredSchema.decode j = (decodeRegistered j).map registeredVal := by
  simp [registeredSchema, dateSchema, decode_struct, readFields, decodeRegistered, registeredVal,
    Option.map_bind, Option.bind_assoc, Option.bind_map, Function.comp_def]

theorem decode_id (j : Json) : idSchema.decode j = (decodeID j).map idVal := by
  simp [idSchema, decode_struct, readFields, decodeID, idVal, Option.map_bind,
    Option.bind_assoc, Option.bind_map, Function.comp_def]

theorem decode_picture (j : Json) : pictureSchema.decode j = (decodePicture j).map pictureVal := by
  simp [pictureSchema, decode_struct, readFields, decodePicture, pictureVal, Option.map_bind,
    Option.bind_assoc, Option.bind_map, Function.comp_def]

theorem decode_info (j : Json) : infoSchema.decode j = (decodeInfo j).map infoVal := by
  simp [infoSchema, decode_struct, readFields, decodeInfo, infoVal, Option.map_bind,
    Option.bind_assoc, Option.bind_map, Function.comp_def]

/-- A required field whose failure is turned into nil. -/
theorem required_map {α : Type} {s : Schema} {dec : Json → Option α} {val : α → Val}
    (h : ∀ j, s.decode j = (dec j).map val) (k : String) (c : Entries) :
    decode s.decode k c = (decode dec k c).map val := by
  unfold decode
  cases entry k c with
  | none => rfl
  | some j => exact h j

theorem required_string (k : String) (c : Entries) :
    decode Schema.string.decode k c = (decode decodeString k c).map .str :=
  required_map (fun _ => rfl) k c

/-- A user is decoded field by field. -/
theorem decode_user (c : Entries) : ∃ user, decodeUser (.obj c) = some user ∧
    userVal user = .struct (userKeys.map fun k => (k, decode (userField k).decode k c)) := by
  refine ⟨_, rfl, ?_⟩
  simp [userVal, userKeys, userField, required_string, required_map decode_name,
    required_map decode_location, required_map decode_login, required_map decode_dob,
    required_map decode_registered, required_map decode_id, required_map decode_picture]

/-! ## Replacing a value of a response -/

/-- A position in user `i` or in `info`. -/
inductive Leaf where
  | user : Nat → String → List Step → Leaf
  | info : List Step → Leaf
  deriving DecidableEq, Repr

def Leaf.path : Leaf → List Step
  | .user i k path => .key "results" :: .index i :: .key k :: path
  | .info path => .key "info" :: path

/-- The response with `w` at the leaf decodes to as many users, and to the same but for what is at
the leaf. -/
def Isolated (body : Json) (leaf : Leaf) (w : Json) : Prop :=
  ∃ root root', decodeRoot body = some root ∧ decodeRoot (replace leaf.path w body) = some root' ∧
    root'.results.map List.length = root.results.map List.length ∧
    eraseAt leaf.path (some (rootVal root')) = eraseAt leaf.path (some (rootVal root))

/-- Where a replaced value does no harm around it. In `info` it has to be well-typed. A direct
field of a user is safe. Below a field of a user, the field fails anyway, or the old value and
the new one are both well-typed, or neither is. What is not read is safe. -/
def Harmless (body : Json) (leaf : Leaf) (w : Json) : Prop :=
  match leaf with
  | .info path => ∀ d, infoSchema.at path = some d → d.WellTyped w
  | .user i k path => path = [] ∨ k ∉ userKeys ∨ ∀ d v old,
      (userField k).at path = some d →
      get? [.key "results", .index i, .key k] body = some v → get? path v = some old →
      (userField k).decode (replace path .null v) = none ∨ (d.WellTyped old ↔ d.WellTyped w)

theorem decodeRoot_eq_some {c : Entries} {root : RandomUsersDataRoot} :
    decodeRoot (.obj c) = some root ↔
      decodeIfPresent (decodeArray decodeUser) "results" c = some root.results ∧
        decodeIfPresent decodeInfo "info" c = some root.info := by
  obtain ⟨results, info⟩ := root
  simp only [decodeRoot, container, Option.bind_eq_bind, Option.bind_some,
    Option.bind_eq_some_iff, Option.some.injEq, RandomUsersDataRoot.mk.injEq]
  constructor
  · rintro ⟨_, hr, _, hi, rfl, rfl⟩
    exact ⟨hr, hi⟩
  · rintro ⟨hr, hi⟩
    exact ⟨results, hr, info, hi, rfl, rfl⟩

/-! ## Replacing a value in `info` -/

theorem isolated_info {c : Entries} {root : RandomUsersDataRoot} {v : Json}
    (h : decodeRoot (.obj c) = some root) (he : entry "info" c = some v) (path : List Step)
    (w : Json) : Isolated (.obj c) (.info path) w ↔
      (decodeOptional infoSchema.decode (replace path w v)).map (eraseAt path) =
        (decodeOptional infoSchema.decode v).map (eraseAt path) := by
  obtain ⟨hr, hi⟩ := decodeRoot_eq_some.mp h
  rw [decodeIfPresent_some he] at hi
  have hnew : ∀ root', decodeRoot (replace (Leaf.info path).path w (.obj c)) = some root' ↔
      root'.results = root.results ∧
        decodeOptional decodeInfo (replace path w v) = some root'.info := fun root' => by
    rw [Leaf.path, replace, decodeRoot_eq_some, decodeIfPresent_setEntry_other _ (by decide), hr,
      decodeIfPresent_some (by rw [entry_setEntry_same, he]; rfl), Option.some.injEq]
    exact and_congr_left fun _ => eq_comm
  have herase : ∀ o : RandomUsersDataRoot, eraseAt (Leaf.info path).path (some (rootVal o)) =
      some (.struct [("results", o.results.map fun users => .array (users.map fun user =>
        some (userVal user))), ("info", eraseAt path (o.info.map infoVal))]) := fun o => by
    simp [Leaf.path, eraseAt, rootVal]
  rw [decodeOptional_map decode_info, decodeOptional_map decode_info, hi, Option.map_some,
    Option.map_some]
  simp only [Isolated, h, Option.some.injEq, hnew, herase]
  constructor
  · rintro ⟨_, root', rfl, ⟨hres, hinfo⟩, -, heq⟩
    simpa [hinfo, hres] using heq
  · intro heq
    obtain ⟨_, hval, heq⟩ := Option.map_eq_some_iff.mp heq
    obtain ⟨info, hinfo, rfl⟩ := Option.map_eq_some_iff.mp hval
    exact ⟨root, ⟨root.results, info⟩, rfl, ⟨rfl, hinfo⟩, rfl, by simp [heq]⟩

theorem isolated_info_iff {body : Json} {root : RandomUsersDataRoot} {path : List Step}
    (h : decodeRoot body = some root) (hleaf : (get? (Leaf.info path).path body).isSome)
    (w : Json) : Isolated body (.info path) w ↔ Harmless body (.info path) w := by
  obtain ⟨c, v, rfl, he, hv⟩ := get?_key hleaf
  rw [isolated_info h he]
  obtain ⟨-, hi⟩ := decodeRoot_eq_some.mp h
  rw [decodeIfPresent_some he] at hi
  cases hat : infoSchema.at path with
  | none =>
    rw [decodeOptional_replace_off hat hv]
    exact iff_of_true rfl fun d hd => by rw [hat] at hd; cases hd
  | some d =>
    have hdec : (decodeOptional infoSchema.decode v).isSome := by
      rw [decodeOptional_map decode_info, hi]
      rfl
    rw [decode_replace_iff hat hv hdec]
    simp only [Harmless, hat, Option.some.injEq, forall_eq']

/-! ## Replacing a value in a user -/

theorem modify_set_iff {α β : Type} {l : List α} {i : Nat} {a b : α} (hb : l[i]? = some b)
    (f : α → β) (g : β → β) :
    ((l.set i a).map f).modify i g = (l.map f).modify i g ↔ g (f a) = g (f b) := by
  obtain ⟨hi, rfl⟩ := List.getElem?_eq_some_iff.mp hb
  constructor
  · intro h
    have hcong := congrArg (fun l : List β => l[i]?) h
    simpa [hi] using hcong
  · intro h
    apply List.ext_getElem?
    intro n
    by_cases hn : i = n
    · subst hn
      simp [hi, h]
    · simp [hn]

/-- The replaced user is decoded anew, and everything around it stays. -/
theorem isolated_user {c cu : Entries} {root : RandomUsersDataRoot} {items : List Json}
    {i : Nat} {k : String} {v : Json} (h : decodeRoot (.obj c) = some root)
    (he : entry "results" c = some (.arr items)) (hitem : items[i]? = some (.obj cu))
    (hk : entry k cu = some v) (path : List Step) (w : Json) :
    Isolated (.obj c) (.user i k path) w ↔ (k ∈ userKeys →
      eraseAt path ((userField k).decode (replace path w v)) =
        eraseAt path ((userField k).decode v)) := by
  obtain ⟨hr, hi⟩ := decodeRoot_eq_some.mp h
  rw [decodeIfPresent_some he, decodeOptional_arr, Option.map_eq_some_iff] at hr
  obtain ⟨users, husers, hresults⟩ := hr
  obtain ⟨user, hu, hval⟩ := decode_user cu
  obtain ⟨user', hu', hval'⟩ := decode_user (setEntry k (replace path w) cu)
  have hat : users[i]? = some user := by
    rw [← decodeItems_getElem? husers hitem, hu]
  have hitems := decodeItems_modify (f := replace (.key k :: path) w) husers hitem hu'
  have hnew : decodeRoot (replace (Leaf.user i k path).path w (.obj c)) =
      some ⟨some (users.set i user'), root.info⟩ := by
    rw [Leaf.path, replace, decodeRoot_eq_some,
      decodeIfPresent_setEntry_other decodeInfo (by decide), hi,
      decodeIfPresent_some (by rw [entry_setEntry_same, he]; rfl)]
    refine ⟨?_, rfl⟩
    have harr : decodeArray decodeUser (.arr (items.modify i (replace (.key k :: path) w))) =
        some (users.set i user') := hitems
    rw [replace, decodeOptional_arr, harr, Option.map_some]
  have hsame : eraseAt (Leaf.user i k path).path
        (some (rootVal ⟨some (users.set i user'), root.info⟩)) =
      eraseAt (Leaf.user i k path).path (some (rootVal root)) ↔
      eraseAt (.key k :: path) (some (userVal user')) =
        eraseAt (.key k :: path) (some (userVal user)) := by
    rw [← modify_set_iff hat (fun user => some (userVal user)) (eraseAt (.key k :: path))]
    simp [Leaf.path, eraseAt, rootVal, ← hresults]
  have hfields : eraseAt (.key k :: path) (some (userVal user')) =
      eraseAt (.key k :: path) (some (userVal user)) ↔ (k ∈ userKeys →
        eraseAt path ((userField k).decode (replace path w v)) =
          eraseAt path ((userField k).decode v)) := by
    rw [hval, hval']
    simp only [eraseAt, Option.some.injEq, Val.struct.injEq, List.map_map, List.map_inj_left,
      Function.comp_apply, Prod.mk.injEq, true_and]
    constructor
    · intro hall hmem
      simpa [decode, hk] using hall k hmem
    · intro heq k' hmem
      by_cases hne : k' = k
      · subst hne
        simpa [decode, hk] using heq hmem
      · rw [if_neg hne, if_neg hne, decode_setEntry_other _ hne]
  rw [← hfields, ← hsame, Isolated, h, hnew]
  constructor
  · rintro ⟨_, _, hroot, hroot', -, heq⟩
    obtain rfl := Option.some.inj hroot
    obtain rfl := Option.some.inj hroot'
    exact heq
  · intro heq
    exact ⟨root, _, rfl, rfl, by simp [← hresults], heq⟩

theorem isolated_user_iff {body : Json} {root : RandomUsersDataRoot} {i : Nat} {k : String}
    {path : List Step} (h : decodeRoot body = some root)
    (hleaf : (get? (Leaf.user i k path).path body).isSome) (w : Json) :
    Isolated body (.user i k path) w ↔ Harmless body (.user i k path) w := by
  obtain ⟨c, results, rfl, he, hres⟩ := get?_key hleaf
  obtain ⟨items, item, rfl, hitem, hrest⟩ := get?_index hres
  obtain ⟨cu, v, rfl, hk, hv⟩ := get?_key hrest
  obtain ⟨old, hold⟩ := Option.isSome_iff_exists.mp hv
  have hfield : get? [.key "results", .index i, .key k] (.obj c) = some v := by
    simp [get?, he, hitem, hk]
  rw [isolated_user h he hitem hk]
  by_cases hpath : path = []
  · subst hpath
    exact iff_of_true (fun _ => rfl) (Or.inl rfl)
  by_cases hmem : k ∈ userKeys
  · simp only [Harmless, hpath, hmem, not_true, false_or, forall_const, hfield,
      Option.some.injEq]
    cases hat : (userField k).at path with
    | none =>
      rw [decode_replace_off hat hv]
      exact iff_of_true rfl fun d v old hd => by cases hd
    | some d =>
      have hiff := erase_decode_iff hat hpath hv w old
      rw [replace_self hold] at hiff
      rw [hiff]
      constructor
      · intro hc d' v' old' hd hv' ho
        obtain rfl := Option.some.inj hd
        subst hv'
        obtain rfl := Option.some.inj (hold.symm.trans ho)
        exact hc
      · intro hc
        exact hc d v old rfl rfl hold
  · exact iff_of_true (fun hk => absurd hk hmem) (Or.inr (Or.inl hmem))

/-- In a response that decodes, a value that is put in the place of another changes nothing but
what is decoded there exactly when it is harmless. -/
theorem leaf_isolated_iff (body : Json) (root : RandomUsersDataRoot) (leaf : Leaf) (w : Json)
    (h : decodeRoot body = some root) (hleaf : (get? leaf.path body).isSome) :
    Isolated body leaf w ↔ Harmless body leaf w := by
  cases leaf with
  | user i k path => exact isolated_user_iff h hleaf w
  | info path => exact isolated_info_iff h hleaf w

/-- A response with one user and its address. -/
def addressBody : Json :=
  .obj [("results", .arr [.obj [("location", .obj [("city", .str "Toronto"),
    ("postcode", .num ⟨12345, 0⟩)])]])]

def addressRoot : RandomUsersDataRoot :=
  ⟨some [{ location := some { city := some "Toronto", postcode := some 12345 } }], none⟩

def postcodeLeaf : Leaf := .user 0 "location" [.key "postcode"]

/-- A postcode with letters. -/
def letterPostcode : Json := .str "M5V 2T6"

theorem decode_addressBody : decodeRoot addressBody = some addressRoot := by decide

theorem leaf_isolated_postcode : Isolated addressBody postcodeLeaf letterPostcode ↔
    Harmless addressBody postcodeLeaf letterPostcode :=
  leaf_isolated_iff addressBody addressRoot postcodeLeaf letterPostcode decode_addressBody
    (by decide)

/-- The postcode becomes a string, and the city is gone with it. -/
theorem postcode_takes_city : ¬ Isolated addressBody postcodeLeaf letterPostcode := by
  rintro ⟨root, root', h, h', -, heq⟩
  have hnew : decodeRoot (replace postcodeLeaf.path letterPostcode addressBody) =
      some ⟨some [{}], none⟩ := by decide
  obtain rfl := Option.some.inj (decode_addressBody.symm.trans h)
  obtain rfl := Option.some.inj (hnew.symm.trans h')
  simp [postcodeLeaf, Leaf.path, addressRoot, rootVal, eraseAt, userVal, locationVal] at heq

end LeafIsolation
