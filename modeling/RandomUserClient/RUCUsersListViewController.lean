import RandomUserClient.RUCUsersListInfoController
import RandomUserClient.RealmService

/-!
# The response handler of the users list

The completion closure of `addUsersData` runs straight through once its data is
known: what it does is a list of actions, each of them one Realm transaction or
the final write of `fetchingMore`. Between two actions other threads may run.
-/

namespace RUCUsersListViewController

open KeyedTable UsersViewModel UsersViewStructs RealmService RUCUsersListInfoController

/-- `getNextPageIndex(elemPerPage:)` on the row count of `results`, which is never nil. -/
def getNextPageIndex (info : RUCUsersListInfoControllerImpl) (resCount elemPerPage : Nat) : Nat :=
  if resCount = 0 then 1
  else if resCount ≤ info.lastPage then resCount / elemPerPage + 1
  else 0

inductive Action where
  | deleteAll : Action
  | store : Bool → RandomUserData → Action
  | endFetching : Action
  deriving DecidableEq, Repr

/-- The completion of `addUsersData(isNeedToUpdate: update)`. A response without a user list
still deletes everything when it answers a refresh. -/
def completion (update : Bool) : Option RandomUsersDataRoot → List Action
  | none => []
  | some usersData =>
    (if update then [.deleteAll] else []) ++
      match usersData.results with
      | none => []
      | some users => users.map (.store update) ++ [.endFetching]

/-- What the end of a request leaves the handler to do. -/
def handle (update : Bool) (reply : Reply) : List Action :=
  match reply.completed with
  | none => []
  | some data => completion update data

/-- What a reply leaves to do: nothing or just the wipe of a refresh when it carries no user list,
else everything. -/
theorem handle_cases (update : Bool) (reply : Reply) :
    (reply.users = none ∧
      (handle update reply = [] ∨ (update = true ∧ handle update reply = [.deleteAll]))) ∨
    ∃ users, reply.users = some users ∧ handle update reply =
      (if update then [.deleteAll] else []) ++ (users.map (.store update) ++ [.endFetching]) := by
  unfold handle Reply.users
  cases reply.completed with
  | none => exact Or.inl ⟨rfl, Or.inl rfl⟩
  | some data =>
    cases data with
    | none => exact Or.inl ⟨rfl, Or.inl rfl⟩
    | some data =>
      cases hr : data.results with
      | none =>
        refine Or.inl ⟨by simp [hr], ?_⟩
        cases update <;> simp [completion, hr]
      | some users => exact Or.inr ⟨users, by simp [hr], by simp [completion, hr]⟩

/-! ## The loop over the users -/

/-- The normal form in which Swift compares strings: `==` is canonical equivalence. The keys of a
Realm are compared by their bytes, so two of them can be equal strings for Swift. -/
class Unicode where
  nfc : String → String

/-- ASCII strings are their own normal forms. -/
abbrev ascii : Unicode := ⟨id⟩

variable [Unicode]

/-- What `==` on optional strings compares. -/
def canonical : Key → Key := Option.map Unicode.nfc

/-- The body of the loop over the users of a response. -/
def storeUser (fails update : Bool) (user : RandomUserData) (r : Realm) : Option Realm :=
  let obj := RandomUserDataModel.ofValue user
  if update then create fails obj update r
  else if ((getObjects r).filter fun row => canonical row.id = canonical obj.id).isEmpty then
    create fails obj false r
  else some r

/-- One action on the Realm; `fails` is whether its transaction, if it makes one, fails. -/
def Action.perform (fails : Bool) : Action → Realm → Option Realm
  | .deleteAll, r => RealmService.deleteAll fails r
  | .store update user, r => storeUser fails update user r
  | .endFetching, r => some r

/-- The ids that the check compares with. -/
def canonicalIds (r : Realm) : List Key := r.users.keys.map canonical

theorem mem_canonicalIds {k : Key} {r : Realm} (h : k ∈ r.users.keys) :
    canonical k ∈ canonicalIds r :=
  List.mem_map_of_mem h

/-- The check of the loop body looks for the id among the users only. -/
theorem check_iff (user : RandomUserData) (r : Realm) :
    ((getObjects r).filter fun row =>
      canonical row.id = canonical (RandomUserDataModel.ofValue user).id).isEmpty ↔
      canonical user.uuid ∉ canonicalIds r := by
  rw [List.isEmpty_iff, List.filter_eq_nil_iff, canonicalIds, Table.keys, List.map_map,
    List.mem_map, not_exists]
  refine forall_congr' fun row => ?_
  rw [decide_eq_true_eq, not_and]
  rfl

/-- A store whose commit fails has done what its block does, and nothing is left of it. -/
theorem storeUser_fails (update : Bool) (user : RandomUserData) (r : Realm) :
    storeUser true update user r = (storeUser false update user r).map fun _ => r := by
  cases update with
  | true => simp [storeUser, create]
  | false =>
    simp only [storeUser, create, write_true, write_false, Bool.false_eq_true, if_false]
    split <;> rfl

@[simp] theorem storeUser_update (user : RandomUserData) (r : Realm) :
    storeUser false true user r = some (r.put user) := by
  simp [storeUser, create, addUser_true]

theorem storeUser_known {user : RandomUserData} {r : Realm}
    (h : canonical user.uuid ∈ canonicalIds r) : storeUser false false user r = some r := by
  have hc := (check_iff user r).not.mpr (not_not.mpr h)
  simp only [storeUser, Bool.false_eq_true, if_false, if_neg hc]

theorem storeUser_new {user : RandomUserData} {r : Realm}
    (h : canonical user.uuid ∉ canonicalIds r) :
    storeUser false false user r = addUser false (.ofValue user) r := by
  have hc := (check_iff user r).mpr h
  simp only [storeUser, Bool.false_eq_true, if_false, if_pos hc, create, write_false]

/-- What a store that goes through has done: nothing, or put the ten rows of the user. -/
theorem storeUser_eq_some {fails update : Bool} {user : RandomUserData} {r s : Realm}
    (h : storeUser fails update user r = some s) : s = r ∨ s = r.put user := by
  cases fails with
  | true =>
    rw [storeUser_fails, Option.map_eq_some_iff] at h
    obtain ⟨_, -, rfl⟩ := h
    exact Or.inl rfl
  | false =>
    cases update with
    | true => exact Or.inr (by simpa using h.symm)
    | false =>
      by_cases hk : canonical user.uuid ∈ canonicalIds r
      · rw [storeUser_known hk] at h
        exact Or.inl (Option.some.inj h).symm
      · rw [storeUser_new hk] at h
        exact Or.inr (addUser_eq_some h)

end RUCUsersListViewController
