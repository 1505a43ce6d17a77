import RandomUserClient.LeafIsolation
import RandomUserClient.LoadMoreHandler
import RandomUserClient.RefreshMerge
import RandomUserClient.TypedLeaves

/-!
# From a leaf of the response to a leaf of the store

Every leaf of a user object is decoded into a struct, copied into one of ten
objects, stored in one of ten tables and read back through links. For a user
that a handler takes, what is read at the end is what the JSON object has at the
corresponding path, and later load-mores do not change it. The info part of the
response has no leaf of a user, but where it does not decode nothing is stored.
-/

namespace StoredLeaves

open JsonDecoding DecodingSchemas TypedLeaves LeafIsolation
open KeyedTable KeyedMerge UsersViewModel UsersViewStructs RealmService RefreshHandler
open RealmObjectGraph RUCUsersListViewController RUCUsersListInfoController StoredUsers
open LoadMoreHandler RefreshMerge

def userSchema : Schema := .struct userKeys userField

/-- A string of a user object, and where it is kept. -/
structure StringLeaf where
  path : List String
  kept : RandomUserDataModel → Option String

/-- An integer of a user object, and where it is kept. -/
structure IntLeaf where
  path : List String
  kept : RandomUserDataModel → Option Int

def stringLeaves : List StringLeaf := [
  ⟨["gender"], fun o => o.gender⟩,
  ⟨["name", "title"], fun o => o.name.bind (·.title)⟩,
  ⟨["name", "first"], fun o => o.name.bind (·.first)⟩,
  ⟨["name", "last"], fun o => o.name.bind (·.last)⟩,
  ⟨["location", "street"], fun o => o.location.bind (·.street)⟩,
  ⟨["location", "city"], fun o => o.location.bind (·.city)⟩,
  ⟨["location", "state"], fun o => o.location.bind (·.state)⟩,
  ⟨["location", "coordinates", "latitude"],
    fun o => o.location.bind fun l => l.coordinates.bind (·.latitude)⟩,
  ⟨["location", "coordinates", "longitude"],
    fun o => o.location.bind fun l => l.coordinates.bind (·.longitude)⟩,
  ⟨["location", "timezone", "offset"],
    fun o => o.location.bind fun l => l.timezone.bind (·.offset)⟩,
  ⟨["location", "timezone", "description"],
    fun o => o.location.bind fun l => l.timezone.bind (·.zoneDescription)⟩,
  ⟨["email"], fun o => o.email⟩,
  ⟨["login", "uuid"], fun o => o.login.bind (·.uuid)⟩,
  ⟨["login", "username"], fun o => o.login.bind (·.username)⟩,
  ⟨["login", "password"], fun o => o.login.bind (·.password)⟩,
  ⟨["login", "salt"], fun o => o.login.bind (·.salt)⟩,
  ⟨["login", "md5"], fun o => o.login.bind (·.md5)⟩,
  ⟨["login", "sha1"], fun o => o.login.bind (·.sha1)⟩,
  ⟨["login", "sha256"], fun o => o.login.bind (·.sha256)⟩,
  ⟨["dob", "date"], fun o => o.dob.bind (·.date)⟩,
  ⟨["registered", "date"], fun o => o.registered.bind (·.date)⟩,
  ⟨["phone"], fun o => o.phone⟩,
  ⟨["cell"], fun o => o.cell⟩,
  ⟨["id", "name"], fun o => o.dataId.bind (·.name)⟩,
  ⟨["id", "value"], fun o => o.dataId.bind (·.value)⟩,
  ⟨["picture", "large"], fun o => o.picture.bind (·.large)⟩,
  ⟨["picture", "medium"], fun o => o.picture.bind (·.medium)⟩,
  ⟨["picture", "thumbnail"], fun o => o.picture.bind (·.thumbnail)⟩,
  ⟨["nat"], fun o => o.nat⟩]

def intLeaves : List IntLeaf := [
  ⟨["location", "postcode"], fun o => o.location.map (·.postcode)⟩,
  ⟨["dob", "age"], fun o => o.dob.map (·.age)⟩,
  ⟨["registered", "age"], fun o => o.registered.map (·.age)⟩]

/-- No leaf that is read is left out. -/
theorem stringLeaves_paths : stringLeaves.map (·.path) = leafPaths .string userSchema := by
  decide +kernel

theorem intLeaves_paths : intLeaves.map (·.path) = leafPaths .int userSchema := by
  decide +kernel

/-! ## Leaves of a decoded user -/

/-- A leaf below a struct that may be nil. -/
theorem valAt_map {α β : Type} {val : α → Val} {f : α → Option β} {leaf : β → Val} {k : String}
    {path : List String} (h : ∀ o, valAt (k :: path) (some (val o)) = (f o).map leaf)
    (o : Option α) : valAt (k :: path) (o.map val) = (o.bind f).map leaf := by
  cases o with
  | none => rfl
  | some o => exact h o

theorem valAt_stringLeaf (user : RandomUserData) (flag : String) : ∀ leaf ∈ stringLeaves,
    valAt leaf.path (some (userVal user)) =
      (leaf.kept { RandomUserDataModel.ofValue user with isInFavorites := flag }).map .str := by
  simp only [stringLeaves, List.forall_mem_cons]
  refine ⟨rfl, ?_, ?_, ?_, ?_, ?_, ?_, ?_, ?_, ?_, ?_, rfl, ?_, ?_, ?_, ?_, ?_, ?_, ?_, ?_, ?_, rfl,
    rfl, ?_, ?_, ?_, ?_, ?_, rfl, by simp⟩
  · exact valAt_map (fun _ => rfl) user.name
  · exact valAt_map (fun _ => rfl) user.name
  · exact valAt_map (fun _ => rfl) user.name
  · exact valAt_map (fun _ => rfl) user.location
  · exact valAt_map (fun _ => rfl) user.location
  · exact valAt_map (fun _ => rfl) user.location
  · exact valAt_map (fun l => valAt_map (fun _ => rfl) l.coordinates) user.location
  · exact valAt_map (fun l => valAt_map (fun _ => rfl) l.coordinates) user.location
  · exact valAt_map (fun l => valAt_map (fun _ => rfl) l.timezone) user.location
  · exact valAt_map (fun l => valAt_map (fun _ => rfl) l.timezone) user.location
  · exact valAt_map (fun _ => rfl) user.login
  · exact valAt_map (fun _ => rfl) user.login
  · exact valAt_map (fun _ => rfl) user.login
  · exact valAt_map (fun _ => rfl) user.login
  · exact valAt_map (fun _ => rfl) user.login
  · exact valAt_map (fun _ => rfl) user.login
  · exact valAt_map (fun _ => rfl) user.login
  · exact valAt_map (fun _ => rfl) user.dob
  · exact valAt_map (fun _ => rfl) user.registered
  · exact valAt_map (fun _ => rfl) user.id
  · exact valAt_map (fun _ => rfl) user.id
  · exact valAt_map (fun _ => rfl) user.picture
  · exact valAt_map (fun _ => rfl) user.picture
  · exact valAt_map (fun _ => rfl) user.picture

/-- An integer is kept as it was sent, or as 0. -/
theorem valAt_intLeaf (user : RandomUserData) (flag : String) : ∀ leaf ∈ intLeaves,
    ∃ n : Option Int, valAt leaf.path (some (userVal user)) = n.map .int ∧
      leaf.kept { RandomUserDataModel.ofValue user with isInFavorites := flag } =
        some (n.getD 0) := by
  simp only [intLeaves, List.forall_mem_cons]
  refine ⟨?_, ?_, ?_, by simp⟩
  · exact ⟨_, valAt_map (fun _ => rfl) user.location, rfl⟩
  · exact ⟨_, valAt_map (fun _ => rfl) user.dob, rfl⟩
  · exact ⟨_, valAt_map (fun _ => rfl) user.registered, rfl⟩

/-! ## Leaves of the response -/

/-- The string a path of keys leads to; `none` where there is none. -/
def stringAt (path : List String) (j : Json) : Option String :=
  (get? (path.map .key) j).bind decodeString

/-- The integer a path of keys leads to. -/
def intAt (path : List String) (j : Json) : Option Int := (get? (path.map .key) j).bind decodeInt

theorem leafAt_string (path : List String) (j : Json) :
    leafAt .string path j = (stringAt path j).map .str := by
  rw [stringAt, Option.map_bind]
  rfl

theorem leafAt_int (path : List String) (j : Json) :
    leafAt .int path j = (intAt path j).map .int := by
  rw [intAt, Option.map_bind]
  rfl

/-- A well-typed user object decodes to a user with its leaves. -/
theorem decodeUser_typed {item : Json} (h : Typed userSchema item) :
    ∃ user, decodeUser item = some user ∧ ∀ kind, ∀ path ∈ leafPaths kind userSchema,
      valAt path (some (userVal user)) = leafAt kind path item := by
  obtain ⟨c, rfl, -⟩ := id h
  obtain ⟨user, hdec, hval⟩ := decode_user c
  refine ⟨user, hdec, fun kind path hpath => ?_⟩
  rw [hval]
  exact valAt_struct (fun _ _ path hpath j hj => valAt_decode hpath hj) h hpath

theorem valAt_stringAt {item : Json} (h : Typed userSchema item) {user : RandomUserData}
    (hdec : decodeUser item = some user) {leaf : StringLeaf} (hleaf : leaf ∈ stringLeaves) :
    valAt leaf.path (some (userVal user)) = (stringAt leaf.path item).map .str := by
  obtain ⟨user', hdec', hleaves⟩ := decodeUser_typed h
  obtain rfl : user = user' := Option.some.inj (hdec.symm.trans hdec')
  have hpath : leaf.path ∈ leafPaths .string userSchema :=
    stringLeaves_paths ▸ List.mem_map_of_mem hleaf
  rw [hleaves .string leaf.path hpath, leafAt_string]

theorem valAt_intAt {item : Json} (h : Typed userSchema item) {user : RandomUserData}
    (hdec : decodeUser item = some user) {leaf : IntLeaf} (hleaf : leaf ∈ intLeaves) :
    valAt leaf.path (some (userVal user)) = (intAt leaf.path item).map .int := by
  obtain ⟨user', hdec', hleaves⟩ := decodeUser_typed h
  obtain rfl : user = user' := Option.some.inj (hdec.symm.trans hdec')
  have hpath : leaf.path ∈ leafPaths .int userSchema :=
    intLeaves_paths ▸ List.mem_map_of_mem hleaf
  rw [hleaves .int leaf.path hpath, leafAt_int]

/-- The identity of a user object. -/
def uuidAt (item : Json) : Option String := stringAt ["login", "uuid"] item

theorem uuid_of_typed {item : Json} (h : Typed userSchema item) {user : RandomUserData}
    (hdec : decodeUser item = some user) : user.uuid = uuidAt item := by
  have hleaf : (⟨["login", "uuid"], fun o => o.login.bind (·.uuid)⟩ : StringLeaf) ∈ stringLeaves :=
    by simp [stringLeaves]
  have hkept := valAt_stringLeaf user "false" _ hleaf
  rw [valAt_stringAt h hdec hleaf] at hkept
  exact (map_str_inj.mp hkept).symm

/-! ## The leaves of a record -/

/-- What is read of a record is what the user has at the leaf. -/
theorem leaves_of_record {r : Realm} {value : RandomUserData} {flag : String}
    (h : record r value.uuid = flagged value flag) :
    ∃ row, r.users.find value.uuid = some row ∧
      (∀ leaf ∈ stringLeaves,
        (leaf.kept (readUser r row)).map .str = valAt leaf.path (some (userVal value))) ∧
      ∀ leaf ∈ intLeaves, ∃ n : Option Int,
        valAt leaf.path (some (userVal value)) = n.map .int ∧
          leaf.kept (readUser r row) = some (n.getD 0) := by
  obtain ⟨row, hrow, hread⟩ := readUser_flagged h
  refine ⟨row, hrow, fun leaf hleaf => ?_, fun leaf hleaf => ?_⟩
  · rw [hread]
    exact (valAt_stringLeaf value flag leaf hleaf).symm
  · rw [hread]
    exact valAt_intLeaf value flag leaf hleaf

/-- What a refresh leaves of the last user of an id are the leaves of that user. -/
theorem refresh_leaves [Unicode] {reply : Reply} {users : List RandomUserData}
    (hu : reply.users = some users) (r : Realm) {user : RandomUserData}
    (hlast : last (·.uuid) user.uuid users = some user) :
    ∃ s row, runActions (fun _ => false) (handle true reply) r = some s ∧
      s.users.find user.uuid = some row ∧
      (∀ leaf ∈ stringLeaves,
        (leaf.kept (readUser s row)).map .str = valAt leaf.path (some (userVal user))) ∧
      ∀ leaf ∈ intLeaves, ∃ n : Option Int, valAt leaf.path (some (userVal user)) = n.map .int ∧
        leaf.kept (readUser s row) = some (n.getD 0) := by
  have hrec : record (users.foldl Realm.put .empty) user.uuid = flagged user "false" := by
    rw [record_foldl_put_empty, hlast]
    rfl
  obtain ⟨row, hrow, hleaves⟩ := leaves_of_record hrec
  exact ⟨_, row, runActions_refresh_all hu r, hrow, hleaves⟩

/-! ## The user that is taken -/

/-- A response with status 200 and an object for its body. -/
def answer (c : Entries) : Reply := ⟨some (.json (.obj c)), some 200⟩

theorem decodeItems_typed {items : List Json} (h : ∀ j ∈ items, Typed userSchema j) :
    ∃ users, decodeItems decodeUser items = some users := by
  induction items with
  | nil => exact ⟨[], rfl⟩
  | cons item items ih =>
    obtain ⟨hitem, hitems⟩ := List.forall_mem_cons.mp h
    obtain ⟨user, hdec, -⟩ := decodeUser_typed hitem
    obtain ⟨users, hdecs⟩ := ih hitems
    refine ⟨user :: users, ?_⟩
    rw [decodeItems, hdec, hdecs]
    rfl

/-- An info part that is absent, null or well-typed decodes. -/
theorem decodeInfo_typed {c : Entries}
    (h : ∀ j, entry "info" c = some j → j = .null ∨ Typed infoSchema j) :
    ∃ info, decodeIfPresent decodeInfo "info" c = some info := by
  cases he : entry "info" c with
  | none => exact ⟨none, by rw [decodeIfPresent, he]⟩
  | some j =>
    rw [decodeIfPresent_some he]
    rcases h j he with rfl | hj
    · exact ⟨none, rfl⟩
    · have hdec := decode_typed hj
      rw [decode_info, Option.isSome_map] at hdec
      obtain ⟨info, hinfo⟩ := Option.isSome_iff_exists.mp hdec
      obtain ⟨entries, rfl, -⟩ := id hj
      exact ⟨some info, by rw [decodeOptional_obj, hinfo, Option.map_some]⟩

/-- So a response of well-typed users with such an info part reaches the handler with its users. -/
theorem users_of_typed {c : Entries} {items : List Json}
    (hitems : entry "results" c = some (.arr items))
    (hinfo : ∀ j, entry "info" c = some j → j = .null ∨ Typed infoSchema j)
    (htyped : ∀ j ∈ items, Typed userSchema j) :
    ∃ users, decodeItems decodeUser items = some users ∧ (answer c).users = some users := by
  obtain ⟨users, hdecs⟩ := decodeItems_typed htyped
  obtain ⟨info, hdec⟩ := decodeInfo_typed hinfo
  have hroot : decodeRoot (.obj c) = some ⟨some users, info⟩ := by
    refine decodeRoot_eq_some.mpr ⟨?_, hdec⟩
    rw [decodeIfPresent_some hitems, decodeOptional_arr, decodeArray, hdecs, Option.map_some]
  refine ⟨users, hdecs, ?_⟩
  have husers : (answer c).users = (decodeRoot (.obj c)).bind (·.results) := rfl
  rw [husers, hroot, Option.bind_some]

section Runs

variable [Unicode]

/-- Of the items with one uuid, the one between `before` and `after` counts: it is the first of
them, and not stored yet, for a load-more, and the last of them for a refresh. A load-more
compares ids as strings, a refresh by the key they are stored under. -/
def Taken (update : Bool) (r : Realm) (before after : List Json) (uuid : String) : Prop :=
  if update then ∀ item ∈ after, uuidAt item ≠ some uuid
  else canonical (some uuid) ∉ canonicalIds r ∧
    ∀ item ∈ before, canonical (uuidAt item) ≠ canonical (some uuid)

/-- The handler stores what it decoded from the item that counts. -/
theorem stored_of_taken {update : Bool} {r : Realm} (hg : ObjectGraph r) {reply : Reply}
    {before after : List Json} {item : Json} {users : List RandomUserData} {uuid : String}
    (hdecs : decodeItems decodeUser (before ++ item :: after) = some users)
    (hu : reply.users = some users)
    (htyped : ∀ j ∈ before ++ item :: after, Typed userSchema j)
    (huuid : uuidAt item = some uuid) (htaken : Taken update r before after uuid) :
    ∃ user s, decodeUser item = some user ∧ user.uuid = some uuid ∧
      runActions (fun _ => false) (handle update reply) r = some s ∧
      ObjectGraph s ∧ record s user.uuid = recordOf user := by
  obtain ⟨first, user, rest, rfl, hfirst, hdec, hrest⟩ := decodeItems_append_cons hdecs
  have hkey : user.uuid = some uuid := by
    rw [uuid_of_typed (htyped item (by simp)) hdec, huuid]
  have hsame : ∀ {items users}, decodeItems decodeUser items = some users →
      (∀ j ∈ items, Typed userSchema j) →
      ∀ v ∈ users, ∃ j ∈ items, v.uuid = uuidAt j := by
    intro items users hdecs htyped v hv
    obtain ⟨j, hj, hjv⟩ := mem_decodeItems hdecs hv
    exact ⟨j, hj, uuid_of_typed (htyped j hj) hjv⟩
  cases update with
  | true =>
    have hafter : ∀ j ∈ after, uuidAt j ≠ some uuid := htaken
    have hother : ∀ v ∈ rest, v.uuid ≠ user.uuid := by
      intro v hv
      obtain ⟨j, hj, hid⟩ := hsame hrest (fun j hj => htyped j (by simp [hj])) v hv
      rw [hid, hkey]
      exact hafter j hj
    have hlast : last (·.uuid) user.uuid (first ++ user :: rest) = some user :=
      last_append_cons rfl hother
    refine ⟨user, _, hdec, hkey, runActions_refresh_all hu r,
      objectGraph_foldl_put _ objectGraph_empty, ?_⟩
    rw [record_foldl_put_empty, hlast]
    rfl
  | false =>
    obtain ⟨hnew, hbefore⟩ : canonical (some uuid) ∉ canonicalIds r ∧
        ∀ j ∈ before, canonical (uuidAt j) ≠ canonical (some uuid) := htaken
    have hother : ∀ v ∈ first, canonical v.uuid ≠ canonical user.uuid := by
      intro v hv
      obtain ⟨j, hj, hid⟩ := hsame hfirst (fun j hj => htyped j (by simp [hj])) v hv
      rw [hid, hkey]
      exact hbefore j hj
    have hfind : (first ++ user :: rest).find?
        (fun v => canonical v.uuid = canonical user.uuid) = some user :=
      find?_append_cons rfl hother
    refine ⟨user, _, hdec, hkey, runActions_loadMore reply hg,
      objectGraph_foldl_put _ hg, ?_⟩
    rw [hu, Option.getD_some, record_newUsers, if_neg (hkey ▸ hnew), hfind,
      Option.filter_some, if_pos (by simp)]
    rfl

/-- Load-mores leave a stored user alone. -/
theorem record_handleReplies (replies : List Reply) {r : Realm} (hg : ObjectGraph r) {k : Key}
    (hk : k ∈ r.users.keys) :
    ∃ s, handleReplies replies r = some s ∧ record s k = record r k :=
  ⟨_, handleReplies_eq replies hg, record_newUsers_old _ hk⟩

/-- After the handler of a reply, and of later load-mores, what is read of the user is what the
JSON object has at each leaf, an absent string being nil and an absent number 0. -/
def Faithful (update : Bool) (reply : Reply) (later : List Reply) (r : Realm) (item : Json)
    (uuid : String) : Prop :=
  ∃ s row, (runActions (fun _ => false) (handle update reply) r).bind
      (handleReplies later) = some s ∧
    getSpecificObject s uuid = some row ∧
    (∀ leaf ∈ stringLeaves, leaf.kept (readUser s row) = stringAt leaf.path item) ∧
    ∀ leaf ∈ intLeaves, leaf.kept (readUser s row) = some ((intAt leaf.path item).getD 0)

/-- Where the users are well-typed and the info part is absent, null or well-typed, every user that
a handler takes is read as it was sent, whatever load-mores come later. -/
theorem leaf_fidelity (update : Bool) (r : Realm) (hg : ObjectGraph r) (c : Entries)
    (before : List Json) (item : Json) (after : List Json) (uuid : String)
    (hitems : entry "results" c = some (.arr (before ++ item :: after)))
    (hinfo : ∀ j, entry "info" c = some j → j = .null ∨ Typed infoSchema j)
    (htyped : ∀ j ∈ before ++ item :: after, Typed userSchema j)
    (huuid : uuidAt item = some uuid) (htaken : Taken update r before after uuid)
    (later : List Reply) : Faithful update (answer c) later r item uuid := by
  obtain ⟨users, hdecs, hu⟩ := users_of_typed hitems hinfo htyped
  obtain ⟨user, s, hdec, hkey, hrun, hgraph, hrec⟩ :=
    stored_of_taken hg hdecs hu htyped huuid htaken
  have hfind : s.users.find user.uuid = some (userRowOf user) := congrArg Record.user hrec
  obtain ⟨t, hlater, hkeep⟩ := record_handleReplies later hgraph
    (Table.mem_keys_of_find hfind)
  have hflagged : record t user.uuid = flagged user "false" := hkeep.trans hrec
  obtain ⟨row, hrow, hstrings, hints⟩ := leaves_of_record hflagged
  rw [hkey] at hrow
  have hitem : Typed userSchema item := htyped item (by simp)
  refine ⟨t, row, by rw [hrun, Option.bind_some, hlater], hrow, ?_, ?_⟩
  · intro leaf hleaf
    have hkept := hstrings leaf hleaf
    rw [valAt_stringAt hitem hdec hleaf] at hkept
    exact map_str_inj.mp hkept
  · intro leaf hleaf
    obtain ⟨n, hn, hkept⟩ := hints leaf hleaf
    rw [valAt_intAt hitem hdec hleaf] at hn
    rw [hkept, map_int_inj.mp hn]

end Runs

/-! ## Two responses -/

def sampleItem : Json := .obj [
  ("login", .obj [("uuid", .str "a"), ("md5", .null)]),
  ("name", .obj [("first", .str "ada")]),
  ("location", .obj [("postcode", .num ⟨12345, 0⟩), ("timezone", .obj [("offset", .str "0:00")])])]

theorem typed_sampleItem : Typed userSchema sampleItem := by
  simp [sampleItem, userSchema, userKeys, userField, loginSchema, nameSchema, locationSchema,
    timezoneSchema, Typed, entry, decodeInt, JsonNumber.int?]

def infoPart (page : Json) : Json := .obj [("seed", .str "qwerty"), ("page", page)]

theorem typed_infoPart : Typed infoSchema (infoPart (.num ⟨1, 0⟩)) := by
  simp [infoPart, infoSchema, Typed, entry, decodeInt, JsonNumber.int?]

section Names

attribute [local instance] ascii

theorem leaf_fidelity_sampleItem :
    Faithful false (answer [("results", .arr [sampleItem]), ("info", infoPart (.num ⟨1, 0⟩))])
      [.ofIds ["b", "a"]] .empty sampleItem "a" := by
  apply leaf_fidelity false .empty objectGraph_empty _ [] sampleItem [] "a" rfl
  · intro j hj
    exact Or.inr (Option.some.inj hj ▸ typed_infoPart)
  · exact List.forall_mem_singleton.mpr typed_sampleItem
  · rfl
  · exact ⟨by decide, fun _ h => absurd h List.not_mem_nil⟩

/-- The same user beside a page number that is a string: the response does not decode, and nothing
of the user is stored. -/
theorem string_page_loses_user :
    (∀ j ∈ [sampleItem], Typed userSchema j) ∧ uuidAt sampleItem = some "a" ∧
      Taken false .empty [] [] "a" ∧
      ¬ Faithful false (answer [("results", .arr [sampleItem]), ("info", infoPart (.str "1"))])
        [] .empty sampleItem "a" := by
  refine ⟨List.forall_mem_singleton.mpr typed_sampleItem, rfl,
    ⟨by decide, fun _ h => absurd h List.not_mem_nil⟩, ?_⟩
  rintro ⟨s, row, hrun, hfind, -⟩
  have hnone : runActions (fun _ => false) (handle false (answer
      [("results", .arr [sampleItem]), ("info", infoPart (.str "1"))])) .empty = some .empty := rfl
  rw [hnone, Option.bind_some] at hrun
  obtain rfl := Option.some.inj hrun
  cases hfind

end Names

end StoredLeaves
