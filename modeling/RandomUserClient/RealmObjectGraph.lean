import RandomUserClient.EventRuns
import RandomUserClient.RUCUsersListViewController

/-!
# The object graph of the store

The guard of a load-more looks at the user table only, while the create behind it
inserts into ten tables. What makes it safe is the object graph invariant: the
nine sub-tables have exactly the keys of the user table, and every link of a user
leads to the row with the user's own key. Every write transaction keeps it, so it
holds in every store the app can reach, wherever the app stops.
-/

namespace RealmObjectGraph

open KeyedTable UsersViewModel UsersViewStructs RealmService RUCUsersListViewController EventRuns

/-- A table of sub-objects and the link that leads there from a user row. -/
structure Subtable where
  keys : Realm → List Key
  link : Realm → RandomUserDataRow → Option Key

def names : Subtable := ⟨fun r => r.names.keys, fun _ u => u.name⟩
def locations : Subtable := ⟨fun r => r.locations.keys, fun _ u => u.location⟩
def coordinates : Subtable := ⟨fun r => r.coordinates.keys, fun r u =>
  u.location.bind fun k => (r.locations.find k).bind (·.coordinates)⟩
def timezones : Subtable := ⟨fun r => r.timezones.keys, fun r u =>
  u.location.bind fun k => (r.locations.find k).bind (·.timezone)⟩
def logins : Subtable := ⟨fun r => r.logins.keys, fun _ u => u.login⟩
def dobs : Subtable := ⟨fun r => r.dobs.keys, fun _ u => u.dob⟩
def registereds : Subtable := ⟨fun r => r.registereds.keys, fun _ u => u.registered⟩
def dataIds : Subtable := ⟨fun r => r.dataIds.keys, fun _ u => u.dataId⟩
def pictures : Subtable := ⟨fun r => r.pictures.keys, fun _ u => u.picture⟩

/-- The nine sub-tables. The coordinates and the timezone hang on the location. -/
def subtables : List Subtable :=
  [names, locations, coordinates, timezones, logins, dobs, registereds, dataIds, pictures]

theorem mem_subtables {t : Subtable} (ht : t ∈ subtables) :
    t = names ∨ t = locations ∨ t = coordinates ∨ t = timezones ∨ t = logins ∨ t = dobs ∨
      t = registereds ∨ t = dataIds ∨ t = pictures := by
  simpa only [subtables, List.mem_cons, List.not_mem_nil, or_false] using ht

/-- The invariant that ties the ten tables together. -/
structure ObjectGraph (r : Realm) : Prop where
  keys : ∀ t ∈ subtables, ∀ k, k ∈ t.keys r ↔ k ∈ r.users.keys
  links : ∀ t ∈ subtables, ∀ u ∈ r.users.rows, t.link r u = some u.id

/-- Primary keys are unique in each of the ten tables. -/
def UniqueKeys (r : Realm) : Prop :=
  r.users.keys.Nodup ∧ ∀ t ∈ subtables, (t.keys r).Nodup

/-- No two users share a sub-object. -/
def NoSharing (r : Realm) : Prop :=
  ∀ t ∈ subtables, ∀ u ∈ r.users.rows, ∀ v ∈ r.users.rows, u ≠ v → t.link r u ≠ t.link r v

/-- Every sub-object is linked from a user. -/
def NoOrphans (r : Realm) : Prop :=
  ∀ t ∈ subtables, ∀ k ∈ t.keys r, ∃ u ∈ r.users.rows, t.link r u = some k

theorem uniqueKeys (r : Realm) : UniqueKeys r := by
  refine ⟨r.users.nodup_keys, fun t ht => ?_⟩
  rcases mem_subtables ht with rfl | rfl | rfl | rfl | rfl | rfl | rfl | rfl | rfl <;>
    exact Table.nodup_keys _

theorem ObjectGraph.noSharing {r : Realm} (h : ObjectGraph r) : NoSharing r := by
  intro t ht u hu v hv hne
  rw [h.links t ht u hu, h.links t ht v hv]
  exact fun he => hne (Table.row_unique hu hv (Option.some.inj he))

theorem ObjectGraph.noOrphans {r : Realm} (h : ObjectGraph r) : NoOrphans r := by
  intro t ht k hk
  obtain ⟨u, hu, hid⟩ := Table.mem_keys.mp ((h.keys t ht k).mp hk)
  have hl := h.links t ht u hu
  exact ⟨u, hu, by rw [hl]; exact congrArg some hid⟩

theorem lacks_of_subtables {r : Realm} {k : Key} (hu : k ∉ r.users.keys)
    (ht : ∀ t ∈ subtables, k ∉ t.keys r) : r.Lacks k := by
  simp only [subtables, List.forall_mem_cons] at ht
  obtain ⟨hn, hl, hc, hz, hg, hd, hr, hi, hp, -⟩ := ht
  exact ⟨hu, hn, hl, hc, hz, hg, hd, hr, hi, hp⟩

/-- The sub-tables have the keys of the user table. -/
def KeysAgree (r : Realm) : Prop := ∀ t ∈ subtables, ∀ k, k ∈ t.keys r ↔ k ∈ r.users.keys

/-- An id that passed the check on the users is a key of no table. -/
theorem KeysAgree.lacks {r : Realm} (h : KeysAgree r) {k : Key} (hk : k ∉ r.users.keys) :
    r.Lacks k :=
  lacks_of_subtables hk fun t ht hkt => hk ((h t ht k).mp hkt)

theorem ObjectGraph.lacks {r : Realm} (h : ObjectGraph r) {k : Key} (hk : k ∉ r.users.keys) :
    r.Lacks k :=
  KeysAgree.lacks h.keys hk

theorem objectGraph_empty : ObjectGraph .empty where
  keys := by
    intro t ht k
    rcases mem_subtables ht with rfl | rfl | rfl | rfl | rfl | rfl | rfl | rfl | rfl <;>
      exact Iff.rfl
  links := by simp [Realm.empty]

/-- Putting a user adds its key to every sub-table and takes none away. -/
theorem subtable_keys_put {t : Subtable} (ht : t ∈ subtables) (r : Realm) (value : RandomUserData)
    (k : Key) : k ∈ t.keys (r.put value) ↔ k = value.uuid ∨ k ∈ t.keys r := by
  rcases mem_subtables ht with rfl | rfl | rfl | rfl | rfl | rfl | rfl | rfl | rfl <;>
    exact Table.mem_keys_upsert

theorem KeysAgree.put {r : Realm} (h : KeysAgree r) (value : RandomUserData) :
    KeysAgree (r.put value) := by
  intro t ht k
  rw [subtable_keys_put ht, h t ht k]
  exact (Table.mem_keys_upsert (t := r.users) (r := userRowOf value)).symm

/-- The links of a user that has just been put. -/
theorem subtable_link_self {t : Subtable} (ht : t ∈ subtables) (r : Realm)
    (value : RandomUserData) : t.link (r.put value) (userRowOf value) = some value.uuid := by
  have hl : (r.put value).locations.find value.uuid = some (locationRowOf value) := by
    rw [Realm.put, Table.find_upsert, primaryKey_locationRowOf, if_pos rfl]
  have hu : (userRowOf value).location = some value.uuid := rfl
  rcases mem_subtables ht with rfl | rfl | rfl | rfl | rfl | rfl | rfl | rfl | rfl
  case inr.inr.inl => simp only [coordinates, hu, Option.bind_some, hl]; rfl
  case inr.inr.inr.inl => simp only [timezones, hu, Option.bind_some, hl]; rfl
  all_goals rfl

/-- Putting a user leaves the links of every other user where they were. -/
theorem subtable_link_other {t : Subtable} (ht : t ∈ subtables) (r : Realm)
    (value : RandomUserData) {u : RandomUserDataRow} (hloc : u.location = some u.id)
    (hne : u.id ≠ value.uuid) : t.link (r.put value) u = t.link r u := by
  have hl : (r.put value).locations.find u.id = r.locations.find u.id := by
    rw [Realm.put, Table.find_upsert, primaryKey_locationRowOf, if_neg (Ne.symm hne)]
  rcases mem_subtables ht with rfl | rfl | rfl | rfl | rfl | rfl | rfl | rfl | rfl
  case inr.inr.inl => simp only [coordinates, hloc, Option.bind_some, hl]
  case inr.inr.inr.inl => simp only [timezones, hloc, Option.bind_some, hl]
  all_goals rfl

theorem ObjectGraph.location {r : Realm} (h : ObjectGraph r) {u : RandomUserDataRow}
    (hu : u ∈ r.users.rows) : u.location = some u.id :=
  h.links locations (by simp [subtables]) u hu

theorem ObjectGraph.put {r : Realm} (h : ObjectGraph r) (value : RandomUserData) :
    ObjectGraph (r.put value) where
  keys := KeysAgree.put h.keys value
  links := by
    intro t ht u hu
    rcases Table.mem_rows_upsert.mp hu with rfl | ⟨hu, hne⟩
    · exact subtable_link_self ht r value
    · rw [subtable_link_other ht r value (h.location hu) hne]
      exact h.links t ht u hu

/-- A change of the favourite flag touches no key and no link. -/
theorem ObjectGraph.setIsInFavorites {r : Realm} (h : ObjectGraph r) (id : Key) (flag : String) :
    ObjectGraph (r.setIsInFavorites id flag) where
  keys := by
    intro t ht k
    have hk := h.keys t ht k
    rw [keys_setIsInFavorites]
    rcases mem_subtables ht with
      rfl | rfl | rfl | rfl | rfl | rfl | rfl | rfl | rfl <;> exact hk
  links := by
    intro t ht u hu
    obtain ⟨v, hv, rfl⟩ := List.mem_map.mp hu
    have hl := h.links t ht v hv
    rcases mem_subtables ht with rfl | rfl | rfl | rfl | rfl | rfl | rfl | rfl | rfl <;>
      (dsimp only; split <;> exact hl)

/-! ## Every reachable store -/

/-- The write transactions of the app: the loop body of a response handler in its two modes, the
wipe of a refresh, and the favourite toggle. -/
inductive Transaction where
  | store : Bool → RandomUserData → Transaction
  | deleteAll : Transaction
  | update : Key → String → Transaction
  deriving DecidableEq, Repr

variable [Unicode]

/-- Perform a transaction; the first component says whether Realm fails it. -/
def perform (r : Realm) : Bool × Transaction → Option Realm
  | (fails, .store update user) => storeUser fails update user r
  | (fails, .deleteAll) => RealmService.deleteAll fails r
  | (fails, .update id flag) => RealmService.update fails id flag r

/-- In a well-formed store the loop body never raises. -/
theorem ObjectGraph.storeUser_defined {r : Realm} (h : ObjectGraph r) (fails update : Bool)
    (user : RandomUserData) : ∃ s, storeUser fails update user r = some s := by
  have hdone : ∃ s, RUCUsersListViewController.storeUser false update user r = some s := by
    cases update with
    | true => exact ⟨_, storeUser_update user r⟩
    | false =>
      by_cases hk : canonical user.uuid ∈ canonicalIds r
      · exact ⟨r, storeUser_known hk⟩
      · have hlacks : r.Lacks user.uuid := h.lacks fun hkey => hk (mem_canonicalIds hkey)
        exact ⟨_, by rw [storeUser_new hk, addUser_new hlacks]⟩
  cases fails with
  | false => exact hdone
  | true =>
    obtain ⟨s, hs⟩ := hdone
    exact ⟨r, by rw [storeUser_fails, hs, Option.map_some]⟩

theorem ObjectGraph.storeUser {r s : Realm} (h : ObjectGraph r) {fails update : Bool}
    {user : RandomUserData} (hs : storeUser fails update user r = some s) : ObjectGraph s := by
  rcases storeUser_eq_some hs with rfl | rfl
  · exact h
  · exact h.put user

theorem ObjectGraph.perform_defined {r : Realm} (h : ObjectGraph r) (tx : Bool × Transaction) :
    ∃ s, perform r tx = some s := by
  obtain ⟨fails, tx⟩ := tx
  cases tx with
  | store update user => exact h.storeUser_defined fails update user
  | deleteAll => cases fails <;> exact ⟨_, rfl⟩
  | update id flag => cases fails <;> exact ⟨_, rfl⟩

theorem ObjectGraph.perform {r s : Realm} (h : ObjectGraph r) (tx : Bool × Transaction)
    (hs : perform r tx = some s) : ObjectGraph s := by
  obtain ⟨fails, tx⟩ := tx
  cases tx with
  | store update user => exact h.storeUser hs
  | deleteAll =>
    cases fails with
    | true => exact Option.some.inj hs ▸ h
    | false => exact Option.some.inj hs ▸ objectGraph_empty
  | update id flag =>
    cases fails with
    | true => exact Option.some.inj hs ▸ h
    | false => exact Option.some.inj hs ▸ h.setIsInFavorites id flag

/-- No sequence of transactions raises, and each ends in a well-formed store. -/
theorem exec_objectGraph (txs : List (Bool × Transaction)) {r : Realm} (h : ObjectGraph r) :
    ∃ s, exec RealmObjectGraph.perform txs r = some s ∧ ObjectGraph s := by
  induction txs generalizing r with
  | nil => exact ⟨r, rfl, h⟩
  | cons tx txs ih =>
    obtain ⟨s, hs⟩ := h.perform_defined tx
    obtain ⟨u, hu, hg⟩ := ih (h.perform tx hs)
    exact ⟨u, exec_cons_some.mpr ⟨s, hs, hu⟩, hg⟩

/-- Every store reachable from the empty one is well formed: unique keys, sub-tables with the keys
of the users, links to the user's own key, nothing shared, nothing orphaned, and a create without
update behind the check meets no existing key. -/
theorem reachable_store_graph (txs : List (Bool × Transaction)) :
    ∃ r, exec RealmObjectGraph.perform txs .empty = some r ∧
      UniqueKeys r ∧ ObjectGraph r ∧ NoSharing r ∧ NoOrphans r ∧
      ∀ user : RandomUserData, user.uuid ∉ r.users.keys →
        r.Lacks user.uuid ∧ create false (.ofValue user) false r = some (r.put user) := by
  obtain ⟨r, hr, hg⟩ := exec_objectGraph txs objectGraph_empty
  refine ⟨r, hr, uniqueKeys r, hg, hg.noSharing, hg.noOrphans, fun user hk => ?_⟩
  exact ⟨hg.lacks hk, by rw [create, write_false, addUser_new (hg.lacks hk)]⟩

end RealmObjectGraph
