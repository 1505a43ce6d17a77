import RandomUserClient.RUCUsersListViewController

/-!
# The refresh handler under failing writes

A refresh deletes everything in one transaction and then stores the received
users one transaction each. A transaction that fails is posted and otherwise
ignored. The contents of the store are what its ten tables hold under each
key; the final contents are computed here for every reply and every choice of
failing transactions.
-/

namespace RefreshHandler

open KeyedTable JsonDecoding UsersViewModel UsersViewStructs RealmService
open RUCUsersListInfoController RUCUsersListViewController

/-- What the ten tables hold under one key. -/
@[ext] structure Record where
  user : Option RandomUserDataRow := none
  name : Option RandomUserDataNameModel := none
  location : Option RandomUserDataLocationRow := none
  coordinates : Option RandomUserDataLocationCoordinatesModel := none
  timezone : Option RandomUserDataLocationTimezoneModel := none
  login : Option RandomUserDataLoginModel := none
  dob : Option RandomUserDataDOBModel := none
  registered : Option RandomUserDataRegisteredModel := none
  dataId : Option RandomUserDataIDModel := none
  picture : Option RandomUserDataPictureModel := none
  deriving DecidableEq

def absent : Record := {}

def record (r : Realm) (k : Key) : Record where
  user := r.users.find k
  name := r.names.find k
  location := r.locations.find k
  coordinates := r.coordinates.find k
  timezone := r.timezones.find k
  login := r.logins.find k
  dob := r.dobs.find k
  registered := r.registereds.find k
  dataId := r.dataIds.find k
  picture := r.pictures.find k

/-- The record of a user as a refresh writes it. -/
def recordOf (value : RandomUserData) : Record where
  user := some (userRowOf value)
  name := some (objName value)
  location := some (locationRowOf value)
  coordinates := some (objLocationCoordinates value)
  timezone := some (objLocationTimezone value)
  login := some (objLogin value)
  dob := some (objDOB value)
  registered := some (objRegistred value)
  dataId := some (objDataId value)
  picture := some (objPicture value)

@[simp] theorem record_empty (k : Key) : record .empty k = absent := rfl

theorem recordOf_ne_absent (value : RandomUserData) : recordOf value ≠ absent := by
  intro h
  cases congrArg Record.user h

/-- Putting a user replaces the record under the user's key and no other. -/
theorem record_put (r : Realm) (value : RandomUserData) (k : Key) :
    record (r.put value) k = if value.uuid = k then recordOf value else record r k := by
  by_cases h : value.uuid = k
  · simp [record, Realm.put, recordOf, h]
  · simp [record, Realm.put, h]

/-- The record of the last user of the list with key `k`. -/
def lastRecord : List RandomUserData → Key → Option Record
  | [], _ => none
  | user :: users, k =>
    (lastRecord users k).or (if user.uuid = k then some (recordOf user) else none)

theorem lastRecord_ne_absent {users : List RandomUserData} {k : Key} {rec : Record}
    (h : lastRecord users k = some rec) : rec ≠ absent := by
  induction users with
  | nil => cases h
  | cons user users ih =>
    simp only [lastRecord, Option.or_eq_some_iff] at h
    rcases h with h | ⟨_, h⟩
    · exact ih h
    · split at h
      · exact Option.some.inj h ▸ recordOf_ne_absent user
      · cases h

/-- Putting users one after another leaves the last record of each key. -/
theorem record_foldl_put (users : List RandomUserData) (r : Realm) (k : Key) :
    record (users.foldl Realm.put r) k = (lastRecord users k).getD (record r k) := by
  induction users generalizing r with
  | nil => rfl
  | cons user users ih =>
    rw [List.foldl_cons, ih, record_put, lastRecord]
    cases lastRecord users k with
    | some rec => rfl
    | none => split <;> rfl

/-! ## Running the handler -/

/-- Run the actions of a handler with no other writer; `fails n` is whether the `n`-th of them
fails. -/
def runActions [Unicode] (fails : Nat → Bool) : List Action → Realm → Option Realm
  | [], r => some r
  | a :: actions, r => (a.perform (fails 0) r).bind (runActions (fun n => fails (n + 1)) actions)

/-- The users whose create succeeds. -/
def stored (fails : Nat → Bool) : List RandomUserData → List RandomUserData
  | [] => []
  | user :: users =>
    if fails 0 then stored (fun n => fails (n + 1)) users
    else user :: stored (fun n => fails (n + 1)) users

theorem runActions_store [Unicode] (users : List RandomUserData) (fails : Nat → Bool)
    (r : Realm) : runActions fails (users.map (.store true) ++ [.endFetching]) r =
      some ((stored fails users).foldl Realm.put r) := by
  induction users generalizing fails r with
  | nil => rfl
  | cons user users ih =>
    cases h : fails 0 with
    | true => simp [runActions, Action.perform, storeUser_fails, stored, h, ih]
    | false => simp [runActions, Action.perform, stored, h, ih]

/-- What the wipe of a refresh leaves. -/
def wiped (fails : Bool) (r : Realm) : Realm := if fails then r else .empty

theorem deleteAll_wiped (fails : Bool) (r : Realm) : deleteAll fails r = some (wiped fails r) := by
  cases fails <;> rfl

/-- The store a refresh ends with: it never raises. -/
def refreshed (fails : Nat → Bool) (reply : Reply) (r : Realm) : Realm :=
  match reply.completed with
  | some (some data) =>
    match data.results with
    | none => wiped (fails 0) r
    | some users => (stored (fun n => fails (n + 1)) users).foldl Realm.put (wiped (fails 0) r)
  | _ => r

theorem runActions_refresh [Unicode] (fails : Nat → Bool) (reply : Reply) (r : Realm) :
    runActions fails (handle true reply) r = some (refreshed fails reply r) := by
  unfold handle refreshed
  cases reply.completed with
  | none => rfl
  | some data =>
    cases data with
    | none => rfl
    | some data =>
      cases hr : data.results with
      | none =>
        simp only [completion, hr, if_true, List.append_nil]
        simp [runActions, Action.perform, deleteAll_wiped]
      | some users =>
        simp only [completion, hr, if_true, List.singleton_append]
        simp only [runActions, Action.perform, deleteAll_wiped, Option.bind_some]
        exact runActions_store users _ _

/-! ## All or nothing -/

def SameContents (r s : Realm) : Prop := ∀ k, record r k = record s k

/-- The store holds the users of the list, each id with its last occurrence, and nothing else. -/
def HoldsExactly (r : Realm) (users : List RandomUserData) : Prop :=
  ∀ k, record r k = (lastRecord users k).getD absent

/-- The refresh ends with the store as it was, or with exactly the received users. -/
def AllOrNothing [Unicode] (fails : Nat → Bool) (reply : Reply) (r : Realm) : Prop :=
  ∃ s, runActions fails (handle true reply) r = some s ∧
    (SameContents s r ∨ ∃ users, reply.users = some users ∧ HoldsExactly s users)

/-- For a list of users with the wipe done: the creates that succeed give every id of the list its
last record, or they happen to restore what was there. With the wipe failed: they repeat what is
there, or they and what is there make up the list. -/
def ListHarmless (fails : Nat → Bool) (users : List RandomUserData) (r : Realm) : Prop :=
  let kept := stored (fun n => fails (n + 1)) users
  if fails 0 then
    (∀ k, lastRecord kept k = none ∨ lastRecord kept k = some (record r k)) ∨
    (∀ k, (lastRecord kept k ≠ none ∧ lastRecord kept k = lastRecord users k) ∨
      (lastRecord kept k = none ∧ record r k = (lastRecord users k).getD absent))
  else
    (∀ k, lastRecord kept k = lastRecord users k) ∨
    (∀ k, record r k = (lastRecord kept k).getD absent)

/-- The inputs on which a refresh is all-or-nothing. -/
def Harmless (fails : Nat → Bool) (reply : Reply) (r : Realm) : Prop :=
  match reply.completed with
  | some (some data) =>
    match data.results with
    | none => fails 0 = true ∨ ∀ k, record r k = absent
    | some users => ListHarmless fails users r
  | _ => True

theorem getD_absent_inj {users kept : List RandomUserData} {k : Key} :
    (lastRecord kept k).getD absent = (lastRecord users k).getD absent ↔
      lastRecord kept k = lastRecord users k := by
  constructor
  · intro h
    cases hk : lastRecord kept k with
    | none =>
      cases hu : lastRecord users k with
      | none => rfl
      | some u => exact absurd (by simpa [hk, hu] using h.symm) (lastRecord_ne_absent hu)
    | some x =>
      cases hu : lastRecord users k with
      | none => exact absurd (by simpa [hk, hu] using h) (lastRecord_ne_absent hk)
      | some u => simpa [hk, hu] using h
  · intro h
    rw [h]

theorem sameContents_wiped {fails : Bool} {r : Realm} :
    SameContents (wiped fails r) r ↔ fails = true ∨ ∀ k, record r k = absent := by
  cases fails with
  | true => simp [wiped, SameContents]
  | false => simp [wiped, SameContents, eq_comm]

theorem list_harmless_iff (fails : Nat → Bool) (users : List RandomUserData) (r : Realm) :
    (SameContents ((stored (fun n => fails (n + 1)) users).foldl Realm.put (wiped (fails 0) r)) r ∨
      HoldsExactly ((stored (fun n => fails (n + 1)) users).foldl Realm.put (wiped (fails 0) r))
        users) ↔ ListHarmless fails users r := by
  simp only [SameContents, HoldsExactly, record_foldl_put, ListHarmless]
  generalize stored (fun n => fails (n + 1)) users = kept
  cases h : fails 0 with
  | true =>
    simp only [wiped, if_true]
    refine or_congr (forall_congr' fun k => ?_) (forall_congr' fun k => ?_)
    · cases lastRecord kept k <;> simp
    · cases hk : lastRecord kept k with
      | none => simp
      | some x =>
        simp only [Option.getD_some, ne_eq, reduceCtorEq, not_false_eq_true, true_and, false_and,
          or_false]
        cases hu : lastRecord users k with
        | none => simpa [hu] using lastRecord_ne_absent hk
        | some u => simp
  | false =>
    simp only [wiped, Bool.false_eq_true, if_false, record_empty, getD_absent_inj]
    rw [or_comm]
    exact or_congr Iff.rfl (forall_congr' fun k => eq_comm)

/-- A refresh leaves the store as it was or with exactly the received users precisely on the
harmless inputs. -/
theorem refresh_all_or_nothing_iff [Unicode] (fails : Nat → Bool) (reply : Reply) (r : Realm) :
    AllOrNothing fails reply r ↔ Harmless fails reply r := by
  have hrun : AllOrNothing fails reply r ↔ SameContents (refreshed fails reply r) r ∨
      ∃ users, reply.users = some users ∧ HoldsExactly (refreshed fails reply r) users := by
    simp only [AllOrNothing, runActions_refresh, Option.some.injEq, exists_eq_left']
  rw [hrun]
  unfold refreshed Harmless Reply.users
  cases reply.completed with
  | none => simp [SameContents]
  | some data =>
    cases data with
    | none => simp [SameContents]
    | some data =>
      cases hr : data.results with
      | none => simpa [hr] using sameContents_wiped
      | some users =>
        simp only [Option.bind_some, hr, Option.some.injEq, exists_eq_left']
        exact list_harmless_iff fails users r

section Names

attribute [local instance] ascii

/-- A reply with an empty object for its body, on a store with one user: the body decodes, it has
no results, and the user is gone. -/
theorem refresh_without_results_wipes :
    ¬ AllOrNothing (fun _ => false) ⟨some (.json (.obj [])), some 200⟩
      (Realm.empty.put { login := some { uuid := some "a" } }) := by
  rintro ⟨s, hs, h⟩
  obtain rfl : Realm.empty = s := Option.some.inj hs
  rcases h with h | ⟨users, hu, _⟩
  · exact absurd (h (some "a")) (by decide)
  · cases hu

end Names

end RefreshHandler
