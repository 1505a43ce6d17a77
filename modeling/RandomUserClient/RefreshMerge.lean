import RandomUserClient.StoredUsers

/-!
# What a refresh leaves

A refresh wipes the store and then puts every user it received, an existing key
being overwritten. What it leaves is a merge in which the last user of a key
takes the place of the first, in every table. Nothing of the store before it
matters, and the same reply handled again finds everything as it leaves it.
-/

namespace RefreshMerge

open KeyedTable KeyedMerge UsersViewModel UsersViewStructs RealmService RefreshHandler
open RUCUsersListViewController RUCUsersListInfoController StoredUsers

/-- Where no create fails, every user is stored. -/
theorem stored_all (users : List RandomUserData) : stored (fun _ => false) users = users := by
  induction users with
  | nil => rfl
  | cons user users ih => rw [stored, if_neg (by decide), ih]

/-- The store a refresh ends with, whatever the one before. -/
theorem runActions_refresh_all [Unicode] {reply : Reply} {users : List RandomUserData}
    (hu : reply.users = some users) (r : Realm) :
    runActions (fun _ => false) (handle true reply) r = some (users.foldl Realm.put .empty) := by
  obtain ⟨data, hc, hr⟩ : ∃ data, reply.completed = some (some data) ∧ data.results = some users :=
    by simpa [Reply.users, Option.bind_eq_some_iff] using hu
  have hwiped : wiped false r = .empty := rfl
  simp only [runActions_refresh, refreshed, hc, hr, stored_all, hwiped]

/-- From an empty store, a key has the record of its last user. -/
theorem record_foldl_put_empty (users : List RandomUserData) (k : Key) :
    record (users.foldl Realm.put .empty) k =
      ((last (·.uuid) k users).map recordOf).getD absent := by
  rw [record_foldl_put, lastRecord_eq, record_empty]

/-- The user rows have the keys of the users. -/
theorem keys_of_appended {users : List RandomUserData} {s : Realm}
    (h : Appended .empty users s) : s.users.keys = users.map (·.uuid) := by
  have hrows : s.users.rows = users.map userRowOf := by simpa [Realm.empty] using h.users
  rw [Table.keys, hrows, List.map_map]
  rfl

/-- A refresh ends in the same store from any two: one row per id in the order in which the ids
come up, all of it made from the last user with that id, and no favourite. Handled again, the same
reply changes nothing. -/
theorem refresh_forgets [Unicode] (reply : Reply) (users : List RandomUserData)
    (hu : reply.users = some users) (r r' : Realm) :
    ∃ s, runActions (fun _ => false) (handle true reply) r = some s ∧
      runActions (fun _ => false) (handle true reply) r' = some s ∧
      Appended .empty (latest (·.uuid) users) s ∧
      s.users.keys = (firsts (·.uuid) [] users).map (·.uuid) ∧
      (∀ k, record s k = ((last (·.uuid) k users).map recordOf).getD absent) ∧
      (∀ row ∈ s.users.rows, row.isInFavorites = "false") ∧
      runActions (fun _ => false) (handle true reply) s = some s := by
  have happ := appended_latest users
  refine ⟨_, runActions_refresh_all hu r, runActions_refresh_all hu r', happ, ?_,
    record_foldl_put_empty users, ?_, runActions_refresh_all hu _⟩
  · rw [keys_of_appended happ, keys_latest]
  · intro row hrow
    rw [happ.users] at hrow
    obtain ⟨u, -, rfl⟩ : ∃ u ∈ latest (·.uuid) users, userRowOf u = row := by
      simpa [Realm.empty] using hrow
    rfl

section Names

attribute [local instance] ascii

/-- A reply with one user twice, handled on the empty store and on a store with a favourite. -/
theorem refresh_forgets_ofIds :
    ∃ s, runActions (fun _ => false) (handle true (.ofIds ["a", "b", "a"])) .empty = some s ∧
      runActions (fun _ => false) (handle true (.ofIds ["a", "b", "a"]))
        ((Realm.empty.put (.ofId "c")).setIsInFavorites (some "c") "true") = some s ∧
      Appended .empty (latest (·.uuid) (["a", "b", "a"].map .ofId)) s ∧
      s.users.keys = (firsts (·.uuid) [] (["a", "b", "a"].map RandomUserData.ofId)).map (·.uuid) ∧
      (∀ k, record s k = ((last (·.uuid) k (["a", "b", "a"].map .ofId)).map recordOf).getD absent) ∧
      (∀ row ∈ s.users.rows, row.isInFavorites = "false") ∧
      runActions (fun _ => false) (handle true (.ofIds ["a", "b", "a"])) s = some s :=
  refresh_forgets (.ofIds ["a", "b", "a"]) _ (users_ofIds _) .empty _

end Names

end RefreshMerge
