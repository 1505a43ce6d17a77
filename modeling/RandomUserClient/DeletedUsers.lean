import RandomUserClient.RealmObjectGraph

/-!
# Deleted users

`create` writes ten rows and `delete` takes back the one it is given. The nine
rows that are left belong to no user and no screen shows them, but their keys are
taken: the check of a load-more, which looks at the users only, lets the user
pass, and the create behind it raises.
-/

namespace DeletedUsers

open KeyedTable UsersViewModel UsersViewStructs RealmService RUCUsersListViewController
open RealmObjectGraph

/-- Each of the ten tables has the same rows, in whatever order. -/
structure SameRows (r s : Realm) : Prop where
  users : r.users.rows.Perm s.users.rows
  names : r.names.rows.Perm s.names.rows
  locations : r.locations.rows.Perm s.locations.rows
  coordinates : r.coordinates.rows.Perm s.coordinates.rows
  timezones : r.timezones.rows.Perm s.timezones.rows
  logins : r.logins.rows.Perm s.logins.rows
  dobs : r.dobs.rows.Perm s.dobs.rows
  registereds : r.registereds.rows.Perm s.registereds.rows
  dataIds : r.dataIds.rows.Perm s.dataIds.rows
  pictures : r.pictures.rows.Perm s.pictures.rows

/-- A user is created, and then deleted. -/
def createDelete (value : RandomUserData) (r : Realm) : Option Realm :=
  (create false (.ofValue value) false r).bind (delete false value.uuid)

/-! ## What a deletion leaves -/

/-- A deletion reaches no sub-table. -/
theorem subtable_keys_deleteUser {t : Subtable} (ht : t ∈ subtables) (id : Key) (r : Realm) :
    t.keys (r.deleteUser id) = t.keys r := by
  rcases mem_subtables ht with rfl | rfl | rfl | rfl | rfl | rfl | rfl | rfl | rfl <;> rfl

/-- A deleted user cannot be created again without an update. -/
theorem create_deleted {r : Realm} (h : KeysAgree r) {value : RandomUserData}
    (hid : value.uuid ∈ r.users.keys) :
    create false (.ofValue value) false (r.deleteUser value.uuid) = none := by
  have hnames : value.uuid ∈ r.names.keys := (h names (by simp [subtables]) _).mpr hid
  have husers : value.uuid ∉ (r.deleteUser value.uuid).users.keys := by
    simp [Realm.deleteUser]
  rw [create, write_false, addUser_ofValue, Table.add_new husers, Option.bind_some,
    Table.add_false_existing hnames, Option.bind_none]

/-- A load-more that brings the user again raises, although it has checked the id. -/
theorem storeUser_deleted [Unicode] {r : Realm} (h : KeysAgree r) {value : RandomUserData}
    (hid : value.uuid ∈ r.users.keys)
    (hnew : canonical value.uuid ∉ canonicalIds (r.deleteUser value.uuid)) :
    storeUser false false value (r.deleteUser value.uuid) = none := by
  have hraise := create_deleted h hid
  rw [create, write_false] at hraise
  rw [storeUser_new hnew, hraise]

/-! ## Deletion behind a creation -/

theorem createDelete_eq {r : Realm} (h : KeysAgree r) {value : RandomUserData}
    (hnew : value.uuid ∉ r.users.keys) :
    createDelete value r = some ((r.put value).deleteUser value.uuid) := by
  rw [createDelete, create, write_false, addUser_new (h.lacks hnew), Option.bind_some, delete,
    write_false]

theorem users_createDelete {r : Realm} {value : RandomUserData}
    (hnew : value.uuid ∉ r.users.keys) :
    ((r.put value).deleteUser value.uuid).users = r.users :=
  Table.delete_upsert_new (r := userRowOf value) hnew

/-- One row is left in each sub-table. -/
theorem subtable_keys_createDelete {r : Realm} (h : KeysAgree r) {value : RandomUserData}
    (hnew : value.uuid ∉ r.users.keys) {t : Subtable} (ht : t ∈ subtables) :
    t.keys ((r.put value).deleteUser value.uuid) = t.keys r ++ [value.uuid] := by
  have hkey : value.uuid ∉ t.keys r := fun hk => hnew ((h t ht _).mp hk)
  rw [subtable_keys_deleteUser ht]
  rcases mem_subtables ht with rfl | rfl | rfl | rfl | rfl | rfl | rfl | rfl | rfl <;>
    exact Table.keys_upsert_new hkey

/-- Whatever the store and the new user, deleting it again gives back the user table and leaves its
key in each of the sub-tables. It cannot be created another time, and a load-more that brings it
raises, unless the check finds another user with an equal id. -/
theorem delete_never_undoes_create [Unicode] (r : Realm) (h : KeysAgree r) (value : RandomUserData)
    (hnew : value.uuid ∉ r.users.keys) :
    ∃ s, createDelete value r = some s ∧ s.users = r.users ∧
      (∀ t ∈ subtables, t.keys s = t.keys r ++ [value.uuid]) ∧
      ¬ SameRows s r ∧ create false (.ofValue value) false s = none ∧
      (canonical value.uuid ∉ canonicalIds r → storeUser false false value s = none) := by
  have hleft := fun t ht => subtable_keys_createDelete h hnew (t := t) ht
  have hid : value.uuid ∈ (r.put value).users.keys :=
    Table.mem_keys_upsert.mpr (Or.inl rfl)
  refine ⟨_, createDelete_eq h hnew, users_createDelete hnew, hleft, fun hsame => ?_,
    create_deleted (h.put value) hid, fun hcheck => storeUser_deleted (h.put value) hid ?_⟩
  · have hnames := congrArg List.length (hleft names (by simp [subtables]))
    have hlength := hsame.names.length_eq
    simp only [names, Table.length_keys, List.length_append, List.length_singleton] at hnames
    omega
  · rwa [canonicalIds, users_createDelete hnew]

section Names

attribute [local instance] ascii

theorem delete_never_undoes_create_ofId :
    ∃ s, createDelete (.ofId "a") .empty = some s ∧ s.users = Realm.empty.users ∧
      (∀ t ∈ subtables, t.keys s = t.keys .empty ++ [(RandomUserData.ofId "a").uuid]) ∧
      ¬ SameRows s .empty ∧ create false (.ofValue (.ofId "a")) false s = none ∧
      (canonical (RandomUserData.ofId "a").uuid ∉ canonicalIds .empty →
        storeUser false false (.ofId "a") s = none) :=
  delete_never_undoes_create .empty objectGraph_empty.keys (.ofId "a") (by simp [Realm.empty])

end Names

/-- Created, deleted and created again in an empty store. -/
theorem created_again_raises :
    ¬ ∃ s, createDelete (.ofId "a") .empty = some s ∧ SameRows s .empty ∧
      ∃ u, create false (.ofValue (.ofId "a")) false s = some u := by
  rintro ⟨s, hs, hsame, -⟩
  have hlength : (createDelete (.ofId "a") .empty).map (·.names.rows.length) = some 1 := by
    decide +kernel
  rw [hs, Option.map_some] at hlength
  have hnone := hsame.names.length_eq
  rw [Option.some.inj hlength] at hnone
  cases hnone

end DeletedUsers
