import RandomUserClient.StoredUsers

/-!
# The load-more handler

The handler of a load-more checks every user against live results, which each
create of its own extends. What it leaves is a merge in which the first user of
a key stays: the old rows, and behind them the first user of each new key. So
the contents of the store depend neither on the order in which the replies come
nor on how often one of them is handled.
-/

namespace LoadMoreHandler

open KeyedTable KeyedMerge UsersViewModel UsersViewStructs RealmService RefreshHandler
open RealmObjectGraph RUCUsersListViewController RUCUsersListInfoController StoredUsers

section Runs

variable [Unicode]

/-- A user that has been put is known to the check from then on. -/
theorem newUsers_cons {r : Realm} {user : RandomUserData} (users : List RandomUserData)
    (h : canonical user.uuid ∉ canonicalIds r) :
    newUsers r (user :: users) = user :: newUsers (r.put user) users := by
  have hput : ∀ k, k ∈ canonicalIds (r.put user) ↔ k ∈ canonical user.uuid :: canonicalIds r := by
    intro k
    have hkeys : ∀ i, i ∈ (r.put user).users.keys ↔ i = user.uuid ∨ i ∈ r.users.keys :=
      fun i => Table.mem_keys_upsert
    simp only [canonicalIds, List.mem_map, hkeys, List.mem_cons, or_and_right, exists_or,
      exists_eq_left, eq_comm]
  rw [newUsers, firsts, if_neg h, newUsers, firsts_congr hput]

/-- The loop of the handler stores the first user of each new id. -/
theorem runActions_store_new (users : List RandomUserData) {r : Realm} (hg : ObjectGraph r) :
    runActions (fun _ => false) (users.map (.store false) ++ [.endFetching]) r =
      some ((newUsers r users).foldl Realm.put r) := by
  induction users generalizing r with
  | nil => rfl
  | cons user users ih =>
    rw [List.map_cons, List.cons_append, runActions, Action.perform]
    by_cases hk : canonical user.uuid ∈ canonicalIds r
    · rw [storeUser_known hk, Option.bind_some, ih hg, newUsers, newUsers, firsts, if_pos hk]
    · have hlacks : r.Lacks user.uuid := hg.lacks fun hkey => hk (mem_canonicalIds hkey)
      rw [storeUser_new hk, addUser_new hlacks, Option.bind_some, ih (hg.put user),
        newUsers_cons users hk, List.foldl_cons]

/-- The store a load-more ends with. -/
theorem runActions_loadMore (reply : Reply) {r : Realm} (hg : ObjectGraph r) :
    runActions (fun _ => false) (handle false reply) r =
      some ((newUsers r (reply.users.getD [])).foldl Realm.put r) := by
  rcases handle_cases false reply with ⟨hu, hd | ⟨hf, -⟩⟩ | ⟨users, hu, hd⟩
  · rw [hd, hu]
    rfl
  · cases hf
  · rw [hd, hu]
    exact runActions_store_new users hg

/-- A load-more raises nothing, leaves the old rows as they are and in their order, and puts the
first user of each new id behind them; of the reply nothing else matters. -/
theorem load_more_merge (r : Realm) (hg : ObjectGraph r) (reply : Reply)
    (users : List RandomUserData) (hu : reply.users = some users) :
    ∃ s, runActions (fun _ => false) (handle false reply) r = some s ∧
      Appended r (newUsers r users) s ∧
      ∀ reply' users', reply'.users = some users' → newUsers r users' = newUsers r users →
        runActions (fun _ => false) (handle false reply') r = some s := by
  refine ⟨_, runActions_loadMore reply hg, ?_, fun reply' users' hu' hsame => ?_⟩
  · rw [hu, Option.getD_some]
    exact appended_new (nodup_newUsers r users) fun u hmem => hg.lacks (not_mem_keys_newUsers hmem)
  · rw [runActions_loadMore reply' hg, hu, hu', Option.getD_some, Option.getD_some, hsame]

end Runs

section Names

attribute [local instance] ascii

/-- A store with one user, and a reply with that user and twice a new one. -/
theorem load_more_merge_ofIds :
    ∃ s, runActions (fun _ => false) (handle false (.ofIds ["a", "b", "b"]))
        (Realm.empty.put (.ofId "a")) = some s ∧
      Appended (Realm.empty.put (.ofId "a"))
        (newUsers (Realm.empty.put (.ofId "a")) (["a", "b", "b"].map .ofId)) s ∧
      ∀ reply' users', reply'.users = some users' →
        newUsers (Realm.empty.put (.ofId "a")) users' =
          newUsers (Realm.empty.put (.ofId "a")) (["a", "b", "b"].map .ofId) →
        runActions (fun _ => false) (handle false reply') (Realm.empty.put (.ofId "a")) = some s :=
  load_more_merge _ (objectGraph_empty.put _) (.ofIds ["a", "b", "b"]) _ (users_ofIds _)

end Names

/-! ## Several replies -/

/-- The users of all replies. -/
def received (replies : List Reply) : List RandomUserData :=
  replies.flatMap fun reply => reply.users.getD []

section Runs

variable [Unicode]

/-- Handle load-more replies one after another. -/
def handleReplies : List Reply → Realm → Option Realm
  | [], r => some r
  | reply :: replies, r =>
    (runActions (fun _ => false) (handle false reply) r).bind (handleReplies replies)

/-- What is new behind some users that have been stored. -/
theorem newUsers_append (r : Realm) (users more : List RandomUserData) :
    newUsers r (users ++ more) =
      newUsers r users ++ newUsers ((newUsers r users).foldl Realm.put r) more := by
  have hkeys : ∀ k, k ∈ canonicalIds ((newUsers r users).foldl Realm.put r) ↔
      k ∈ (users.map fun u => canonical u.uuid) ++ canonicalIds r := by
    intro k
    have hfirsts : k ∈ (newUsers r users).map (fun u => canonical u.uuid) ↔
        k ∈ users.map (fun u => canonical u.uuid) ∧ k ∉ canonicalIds r := mem_keys_firsts
    have hput : k ∈ canonicalIds ((newUsers r users).foldl Realm.put r) ↔
        k ∈ (newUsers r users).map (fun u => canonical u.uuid) ∨ k ∈ canonicalIds r := by
      simp only [canonicalIds, List.mem_map, mem_keys_foldl_put, or_and_right, exists_or,
        exists_exists_and_eq_and]
    rw [hput, hfirsts, List.mem_append]
    tauto
  unfold newUsers at hkeys ⊢
  rw [firsts_append, firsts_congr hkeys]

/-- Several load-mores are one load-more of all their users. -/
theorem handleReplies_eq (replies : List Reply) {r : Realm} (hg : ObjectGraph r) :
    handleReplies replies r = some ((newUsers r (received replies)).foldl Realm.put r) := by
  induction replies generalizing r with
  | nil => rfl
  | cons reply replies ih =>
    have hall : received (reply :: replies) = reply.users.getD [] ++ received replies :=
      List.flatMap_cons
    rw [handleReplies, runActions_loadMore reply hg, Option.bind_some,
      ih (objectGraph_foldl_put _ hg), hall, newUsers_append, List.foldl_append]

/-- The replies agree on what they say about a user. -/
def Agree (replies : List Reply) : Prop :=
  ∀ u ∈ received replies, ∀ v ∈ received replies, canonical u.uuid = canonical v.uuid → u = v

/-- Two runs that handle the same replies, in any order and any number of times, end with the same
users. -/
theorem arrival_order_irrelevant (r : Realm) (hg : ObjectGraph r) (σ τ : List Reply)
    (hsame : ∀ reply, reply ∈ σ ↔ reply ∈ τ) (hagree : Agree σ) :
    ∃ s t, handleReplies σ r = some s ∧ handleReplies τ r = some t ∧ SameContents s t ∧
      userRecords s = userRecords t := by
  have hreceived : ∀ u, u ∈ received σ ↔ u ∈ received τ := fun u => by
    simp only [received, List.mem_flatMap, hsame]
  have hcontents : SameContents ((newUsers r (received σ)).foldl Realm.put r)
      ((newUsers r (received τ)).foldl Realm.put r) := fun k => by
    rw [record_newUsers, record_newUsers, find?_of_agree hreceived hagree]
  exact ⟨_, _, handleReplies_eq σ hg, handleReplies_eq τ hg, hcontents,
    userRecords_congr hcontents⟩

end Runs

section Names

attribute [local instance] ascii

/-- Two replies that overlap, and the same two the other way round with one of them twice. -/
theorem arrival_order_irrelevant_overlap :
    ∃ s t, handleReplies [.ofIds ["a", "b"], .ofIds ["b", "c"]] .empty = some s ∧
      handleReplies [.ofIds ["b", "c"], .ofIds ["a", "b"], .ofIds ["b", "c"]] .empty = some t ∧
      SameContents s t ∧ userRecords s = userRecords t :=
  arrival_order_irrelevant .empty objectGraph_empty [.ofIds ["a", "b"], .ofIds ["b", "c"]]
    [.ofIds ["b", "c"], .ofIds ["a", "b"], .ofIds ["b", "c"]] (by simp [or_comm])
    (by unfold Agree; decide)

end Names

end LoadMoreHandler
