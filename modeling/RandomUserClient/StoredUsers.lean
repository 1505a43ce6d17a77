import Mathlib.Data.Set.Basic
import RandomUserClient.KeyedMerge
import RandomUserClient.RealmObjectGraph
import RandomUserClient.RefreshHandler

/-!
# What is stored of a user

A user is stored as ten rows under one key. Reading the user row through its
links gives back the objects that `init(value:)` made, with the favourite flag
as it is now. Storing several users one after another is a merge by key, in each
of the ten tables alike.
-/

namespace StoredUsers

open KeyedTable KeyedMerge UsersViewModel UsersViewStructs RealmService RefreshHandler
open RealmObjectGraph RUCUsersListViewController RUCUsersListInfoController

/-! ## One user -/

/-- The ten rows of a user, with a favourite flag. -/
def flagged (value : RandomUserData) (flag : String) : Record :=
  { recordOf value with user := some { userRowOf value with isInFavorites := flag } }

/-- The store has what `init(value:)` made of a user, whatever its favourite flag is now. -/
def Stored (r : Realm) (value : RandomUserData) : Prop :=
  ∃ flag, record r value.uuid = flagged value flag

theorem stored_of_recordOf {r : Realm} {value : RandomUserData}
    (h : record r value.uuid = recordOf value) : Stored r value :=
  ⟨"false", h⟩

/-- A stored user is read as it was made. -/
theorem readUser_flagged {r : Realm} {value : RandomUserData} {flag : String}
    (h : record r value.uuid = flagged value flag) :
    ∃ row, r.users.find value.uuid = some row ∧
      readUser r row = { RandomUserDataModel.ofValue value with isInFavorites := flag } := by
  have hname : r.names.find value.uuid = some (objName value) := congrArg Record.name h
  have hlocation : r.locations.find value.uuid = some (locationRowOf value) :=
    congrArg Record.location h
  have hcoordinates : r.coordinates.find value.uuid = some (objLocationCoordinates value) :=
    congrArg Record.coordinates h
  have htimezone : r.timezones.find value.uuid = some (objLocationTimezone value) :=
    congrArg Record.timezone h
  have hlogin : r.logins.find value.uuid = some (objLogin value) := congrArg Record.login h
  have hdob : r.dobs.find value.uuid = some (objDOB value) := congrArg Record.dob h
  have hregistered : r.registereds.find value.uuid = some (objRegistred value) :=
    congrArg Record.registered h
  have hdataId : r.dataIds.find value.uuid = some (objDataId value) := congrArg Record.dataId h
  have hpicture : r.pictures.find value.uuid = some (objPicture value) := congrArg Record.picture h
  have hreadLocation : readLocation r (locationRowOf value) = objLocation value := by
    have hc : (locationRowOf value).coordinates = some value.uuid := rfl
    have ht : (locationRowOf value).timezone = some value.uuid := rfl
    simp only [readLocation, hc, ht, Option.bind_some, hcoordinates, htimezone]
    rfl
  refine ⟨_, congrArg Record.user h, ?_⟩
  simp only [readUser, userRowOf, userRow, RandomUserDataModel.ofValue, Option.map_some]
  have hids : (objName value).id = value.uuid ∧ (objLocation value).id = value.uuid ∧
      (objLogin value).uuid = value.uuid ∧ (objDOB value).id = value.uuid ∧
      (objRegistred value).id = value.uuid ∧ (objDataId value).id = value.uuid ∧
      (objPicture value).id = value.uuid := ⟨rfl, rfl, rfl, rfl, rfl, rfl, rfl⟩
  obtain ⟨hn, hl, hg, hd, hr, hi, hp⟩ := hids
  simp only [hn, hl, hg, hd, hr, hi, hp, Option.bind_some, hname, hlocation, hlogin, hdob,
    hregistered, hdataId, hpicture, Option.map_some, hreadLocation]

/-! ## Storing several users -/

/-- `s` has the rows of `r` as they were, and behind them those of the added users, in each of
the ten tables. -/
structure Appended (r : Realm) (added : List RandomUserData) (s : Realm) : Prop where
  users : s.users.rows = r.users.rows ++ added.map userRowOf
  names : s.names.rows = r.names.rows ++ added.map objName
  locations : s.locations.rows = r.locations.rows ++ added.map locationRowOf
  coordinates : s.coordinates.rows = r.coordinates.rows ++ added.map objLocationCoordinates
  timezones : s.timezones.rows = r.timezones.rows ++ added.map objLocationTimezone
  logins : s.logins.rows = r.logins.rows ++ added.map objLogin
  dobs : s.dobs.rows = r.dobs.rows ++ added.map objDOB
  registereds : s.registereds.rows = r.registereds.rows ++ added.map objRegistred
  dataIds : s.dataIds.rows = r.dataIds.rows ++ added.map objDataId
  pictures : s.pictures.rows = r.pictures.rows ++ added.map objPicture

/-- Putting users one after another is a fold of upserts in each table. -/
theorem foldl_put (users : List RandomUserData) (r : Realm) : users.foldl Realm.put r = {
    users := (users.map userRowOf).foldl Table.upsert r.users
    names := (users.map objName).foldl Table.upsert r.names
    locations := (users.map locationRowOf).foldl Table.upsert r.locations
    coordinates := (users.map objLocationCoordinates).foldl Table.upsert r.coordinates
    timezones := (users.map objLocationTimezone).foldl Table.upsert r.timezones
    logins := (users.map objLogin).foldl Table.upsert r.logins
    dobs := (users.map objDOB).foldl Table.upsert r.dobs
    registereds := (users.map objRegistred).foldl Table.upsert r.registereds
    dataIds := (users.map objDataId).foldl Table.upsert r.dataIds
    pictures := (users.map objPicture).foldl Table.upsert r.pictures } := by
  induction users generalizing r with
  | nil => rfl
  | cons user users ih =>
    rw [List.foldl_cons, ih]
    rfl

section Rows

variable {ρ : Type} [PrimaryKey ρ Key] {f : RandomUserData → ρ}

theorem rows_foldl_upsert (l : List ρ) (t : Table ρ) :
    (l.foldl Table.upsert t).rows = l.foldl (upsert primaryKey) t.rows := by
  induction l generalizing t with
  | nil => rfl
  | cons a l ih => rw [List.foldl_cons, ih, Table.rows_upsert, List.foldl_cons]

/-- Users with new and different keys are appended. -/
theorem rows_foldl_new (hf : ∀ u, primaryKey (f u) = u.uuid) {users : List RandomUserData}
    {t : Table ρ} (hnodup : (users.map (·.uuid)).Nodup) (hnew : ∀ u ∈ users, u.uuid ∉ t.keys) :
    ((users.map f).foldl Table.upsert t).rows = t.rows ++ users.map f := by
  rw [rows_foldl_upsert]
  refine foldl_upsert_new ?_ ?_
  · simpa only [List.map_map, Function.comp_def, hf] using hnodup
  · intro a ha
    obtain ⟨u, hu, rfl⟩ := List.mem_map.mp ha
    rw [hf]
    exact hnew u hu

/-- In an empty table the last user of each key is left, at the place of the first. -/
theorem rows_foldl_empty (hf : ∀ u, primaryKey (f u) = u.uuid) (users : List RandomUserData) :
    ((users.map f).foldl Table.upsert .empty).rows =
      (Table.empty : Table ρ).rows ++ (latest (·.uuid) users).map f := by
  rw [rows_foldl_upsert, Table.rows_empty, foldl_upsert, latest_map hf, List.nil_append]

end Rows

theorem appended_new {users : List RandomUserData} {r : Realm}
    (hnodup : (users.map (·.uuid)).Nodup) (hnew : ∀ u ∈ users, r.Lacks u.uuid) :
    Appended r users (users.foldl Realm.put r) := by
  rw [foldl_put]
  exact {
    users := rows_foldl_new (fun _ => rfl) hnodup fun u hu => (hnew u hu).users
    names := rows_foldl_new (fun _ => rfl) hnodup fun u hu => (hnew u hu).names
    locations := rows_foldl_new (fun _ => rfl) hnodup fun u hu => (hnew u hu).locations
    coordinates := rows_foldl_new (fun _ => rfl) hnodup fun u hu => (hnew u hu).coordinates
    timezones := rows_foldl_new (fun _ => rfl) hnodup fun u hu => (hnew u hu).timezones
    logins := rows_foldl_new (fun _ => rfl) hnodup fun u hu => (hnew u hu).logins
    dobs := rows_foldl_new (fun _ => rfl) hnodup fun u hu => (hnew u hu).dobs
    registereds := rows_foldl_new (fun _ => rfl) hnodup fun u hu => (hnew u hu).registereds
    dataIds := rows_foldl_new (fun _ => rfl) hnodup fun u hu => (hnew u hu).dataIds
    pictures := rows_foldl_new (fun _ => rfl) hnodup fun u hu => (hnew u hu).pictures }

theorem appended_latest (users : List RandomUserData) :
    Appended .empty (latest (·.uuid) users) (users.foldl Realm.put .empty) := by
  rw [foldl_put]
  exact {
    users := rows_foldl_empty (fun _ => rfl) users
    names := rows_foldl_empty (fun _ => rfl) users
    locations := rows_foldl_empty (fun _ => rfl) users
    coordinates := rows_foldl_empty (fun _ => rfl) users
    timezones := rows_foldl_empty (fun _ => rfl) users
    logins := rows_foldl_empty (fun _ => rfl) users
    dobs := rows_foldl_empty (fun _ => rfl) users
    registereds := rows_foldl_empty (fun _ => rfl) users
    dataIds := rows_foldl_empty (fun _ => rfl) users
    pictures := rows_foldl_empty (fun _ => rfl) users }

/-! ## The records they leave -/

theorem lastRecord_eq (users : List RandomUserData) (k : Key) :
    lastRecord users k = (last (·.uuid) k users).map recordOf := by
  induction users with
  | nil => rfl
  | cons user users ih =>
    rw [lastRecord, ih, last_cons]
    cases last (·.uuid) k users with
    | some u => rfl
    | none => by_cases h : user.uuid = k <;> simp [h]

/-- The first user of each id that the check of a load-more finds new. -/
def newUsers [Unicode] (r : Realm) (users : List RandomUserData) : List RandomUserData :=
  firsts (fun u => canonical u.uuid) (canonicalIds r) users

section Check

variable [Unicode]

theorem mem_newUsers {r : Realm} {users : List RandomUserData} {u : RandomUserData}
    (h : u ∈ newUsers r users) : u ∈ users ∧ canonical u.uuid ∉ canonicalIds r := by
  have hkey : canonical u.uuid ∈ (newUsers r users).map fun u => canonical u.uuid :=
    List.mem_map.mpr ⟨u, h, rfl⟩
  exact ⟨mem_of_mem_firsts h, (mem_keys_firsts.mp hkey).2⟩

theorem not_mem_keys_newUsers {r : Realm} {users : List RandomUserData} {u : RandomUserData}
    (h : u ∈ newUsers r users) : u.uuid ∉ r.users.keys := fun hk =>
  (mem_newUsers h).2 (mem_canonicalIds hk)

theorem nodup_canonical_newUsers (r : Realm) (users : List RandomUserData) :
    ((newUsers r users).map fun u => canonical u.uuid).Nodup :=
  nodup_firsts _ users

theorem nodup_newUsers (r : Realm) (users : List RandomUserData) :
    ((newUsers r users).map (·.uuid)).Nodup := by
  apply List.Nodup.of_map canonical
  rw [List.map_map]
  exact nodup_canonical_newUsers r users

/-- The users with new ids have their own records, and all others keep theirs. -/
theorem record_newUsers (users : List RandomUserData) (r : Realm) (k : Key) :
    record ((newUsers r users).foldl Realm.put r) k =
      if canonical k ∈ canonicalIds r then record r k
      else (((users.find? fun u => canonical u.uuid = canonical k).filter
        fun u => u.uuid = k).map recordOf).getD (record r k) := by
  rw [record_foldl_put, lastRecord_eq, last_of_nodup (nodup_newUsers r users),
    find?_of_class (nodup_canonical_newUsers r users)]
  by_cases hk : canonical k ∈ canonicalIds r
  · have hnone : (newUsers r users).find? (fun u => canonical u.uuid = canonical k) = none := by
      rw [List.find?_eq_none]
      intro u hu hkey
      have hkey : canonical u.uuid = canonical k := by simpa using hkey
      exact (mem_newUsers hu).2 (hkey ▸ hk)
    rw [if_pos hk, hnone]
    rfl
  · rw [if_neg hk, newUsers, find?_firsts hk]

/-- A stored user keeps the record. -/
theorem record_newUsers_old (users : List RandomUserData) {r : Realm} {k : Key}
    (hk : k ∈ r.users.keys) : record ((newUsers r users).foldl Realm.put r) k = record r k := by
  rw [record_newUsers, if_pos (mem_canonicalIds hk)]

end Check

theorem mem_keys_foldl_put {users : List RandomUserData} {r : Realm} {k : Key} :
    k ∈ (users.foldl Realm.put r).users.keys ↔ k ∈ users.map (·.uuid) ∨ k ∈ r.users.keys := by
  induction users generalizing r with
  | nil => simp
  | cons user users ih =>
    have hput : k ∈ (r.put user).users.keys ↔ k = user.uuid ∨ k ∈ r.users.keys :=
      Table.mem_keys_upsert
    rw [List.foldl_cons, ih, hput, List.map_cons, List.mem_cons]
    tauto

theorem objectGraph_foldl_put (users : List RandomUserData) {r : Realm} (h : ObjectGraph r) :
    ObjectGraph (users.foldl Realm.put r) := by
  induction users generalizing r with
  | nil => exact h
  | cons user users ih => exact ih (h.put user)

/-- The users of a store, each with its whole object graph. -/
def userRecords (r : Realm) : Set RandomUserDataModel :=
  {o | ∃ row ∈ r.users.rows, readUser r row = o}

/-- Stores with the same contents have the same users. -/
theorem userRecords_congr {r s : Realm} (h : SameContents r s) : userRecords r = userRecords s := by
  have hfind : r.names.find = s.names.find ∧ r.locations.find = s.locations.find ∧
      r.coordinates.find = s.coordinates.find ∧ r.timezones.find = s.timezones.find ∧
      r.logins.find = s.logins.find ∧ r.dobs.find = s.dobs.find ∧
      r.registereds.find = s.registereds.find ∧ r.dataIds.find = s.dataIds.find ∧
      r.pictures.find = s.pictures.find :=
    ⟨funext fun k => congrArg Record.name (h k), funext fun k => congrArg Record.location (h k),
      funext fun k => congrArg Record.coordinates (h k),
      funext fun k => congrArg Record.timezone (h k), funext fun k => congrArg Record.login (h k),
      funext fun k => congrArg Record.dob (h k), funext fun k => congrArg Record.registered (h k),
      funext fun k => congrArg Record.dataId (h k), funext fun k => congrArg Record.picture (h k)⟩
  obtain ⟨hn, hl, hc, ht, hg, hd, hr, hi, hp⟩ := hfind
  have hreadLocation : readLocation r = readLocation s := by
    funext row
    simp only [readLocation, hc, ht]
  have hread : readUser r = readUser s := by
    funext row
    simp only [readUser, hreadLocation, hn, hl, hg, hd, hr, hi, hp]
  have hrows : ∀ row, row ∈ r.users.rows ↔ row ∈ s.users.rows := fun row => by
    have hrow : r.users.find row.id = s.users.find row.id := congrArg Record.user (h row.id)
    constructor
    · intro hmem
      exact (Table.find_eq_some.mp (hrow ▸ Table.find_eq_some.mpr ⟨hmem, rfl⟩)).1
    · intro hmem
      exact (Table.find_eq_some.mp (hrow ▸ Table.find_eq_some.mpr ⟨hmem, rfl⟩)).1
  ext o
  simp only [userRecords, Set.mem_ofPred_eq, hread, hrows]

end StoredUsers
