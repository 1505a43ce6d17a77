import RandomUserClient.EventRuns
import RandomUserClient.RealmObjectGraph

/-!
# Sessions of the users list

A session interleaves the triggers of one users list controller with the replies
to its requests. Replies arrive in any order. The handler of a reply runs on the
session queue, one handler at a time and one action at a time, and the main
thread may act between two of its actions. The main thread reads the Realm at
the version it last advanced to.
-/

namespace UsersListSession

open KeyedTable UsersViewModel UsersViewStructs RealmService RUCUsersListInfoController
open RUCUsersListViewController RealmObjectGraph EventRuns

/-- A request that has been sent: for which call of `addUsersData`, and for which page. -/
structure Pending where
  update : Bool
  page : Nat
  deriving DecidableEq, Repr

def Pending.request (p : Pending) : Request := fetchUsersData p.page

/-- A handler that has started and still has something to do. -/
structure Running where
  pending : Pending
  todo : List Action
  deriving DecidableEq, Repr

structure Session where
  info : RUCUsersListInfoControllerImpl := {}
  realm : Realm := .empty
  main : Realm := .empty
  loaded : Bool := false
  inFlight : List Pending := []
  running : Option Running := none
  deriving DecidableEq

/-- Nothing is stored, requested or shown yet. -/
def start : Session := {}

inductive Event where
  | viewDidLoad : Event
  | scroll : Event
  | refresh : Event
  | advance : Event
  | reply : Nat → Reply → Event
  | work : Bool → Event

/-- `addUsersData(isNeedToUpdate: update)`: the page is fixed here, from the row count that the
main thread sees. -/
def addUsersData (update : Bool) (s : Session) : Session :=
  let page := if update then 1 else getNextPageIndex s.info s.main.users.rows.length 10
  { s with
    info := { s.info with fetchingMore := true }
    inFlight := s.inFlight ++ [⟨update, page⟩] }

/-- Calls with the same request are those for the same page. -/
theorem request_inj {p q : Pending} : p.request = q.request ↔ p.page = q.page :=
  fetchUsersData_injective.eq_iff

/-- Each call sends one request more: for the first page, or for the one that the row count makes
the next. -/
theorem requests_addUsersData (update : Bool) (s : Session) :
    (addUsersData update s).inFlight.map Pending.request = s.inFlight.map Pending.request ++
      [fetchUsersData (if update then 1
        else getNextPageIndex s.info s.main.users.rows.length 10)] := by
  simp only [addUsersData, List.map_append, List.map_cons, List.map_nil, Pending.request]

/-- `scrollViewDidScroll` past the threshold. -/
def scrollViewDidScroll (s : Session) : Session :=
  if s.info.fetchingMore then s else addUsersData false s

/-- The handler with the given actions left, if any are. -/
def continueWith (p : Pending) (todo : List Action) : Option Running :=
  if todo = [] then none else some ⟨p, todo⟩

/-- `fetchingMore` after an action. -/
def flagAfter (a : Action) (fetchingMore : Bool) : Bool :=
  if a = .endFetching then false else fetchingMore

variable [Unicode]

def step (s : Session) : Event → Option Session
  | .viewDidLoad => if s.loaded then none else some { addUsersData false s with loaded := true }
  | .scroll => if s.loaded then some (scrollViewDidScroll s) else none
  | .refresh => if s.loaded then some (addUsersData true s) else none
  | .advance => some { s with main := s.realm }
  | .reply i reply =>
    match s.running, s.inFlight[i]? with
    | none, some p => some { s with
        inFlight := s.inFlight.eraseIdx i
        running := continueWith p (handle p.update reply) }
    | _, _ => none
  | .work fails =>
    match s.running with
    | some ⟨p, a :: todo⟩ => (a.perform fails s.realm).map fun realm => { s with
        info := { s.info with fetchingMore := flagAfter a s.info.fetchingMore }
        realm := realm
        running := continueWith p todo }
    | _ => none

/-- Every issued request has ended. -/
def Quiet (s : Session) : Prop := s.inFlight = [] ∧ s.running = none

/-! ## What one step can do -/

theorem step_viewDidLoad {s t : Session} (h : step s .viewDidLoad = some t) :
    s.loaded = false ∧ t = { addUsersData false s with loaded := true } := by
  simp only [step, Option.ite_none_left_eq_some, Option.some.injEq] at h
  exact ⟨by simpa using h.1, h.2.symm⟩

theorem step_scroll {s t : Session} (h : step s .scroll = some t) :
    s.loaded = true ∧ t = scrollViewDidScroll s := by
  simp only [step, Option.ite_none_right_eq_some, Option.some.injEq] at h
  exact ⟨h.1, h.2.symm⟩

theorem step_refresh {s t : Session} (h : step s .refresh = some t) :
    s.loaded = true ∧ t = addUsersData true s := by
  simp only [step, Option.ite_none_right_eq_some, Option.some.injEq] at h
  exact ⟨h.1, h.2.symm⟩

theorem step_advance {s t : Session} (h : step s .advance = some t) :
    t = { s with main := s.realm } :=
  (Option.some.inj h).symm

/-- A reply has ended a request or started its handler. -/
theorem step_reply {s t : Session} {i : Nat} {reply : Reply}
    (h : step s (.reply i reply) = some t) :
    ∃ p, s.running = none ∧ s.inFlight[i]? = some p ∧
      t = { s with inFlight := s.inFlight.eraseIdx i
                   running := continueWith p (handle p.update reply) } := by
  simp only [step] at h
  split at h
  · rename_i p hr hp
    exact ⟨p, hr, hp, (Option.some.inj h).symm⟩
  · cases h

/-- The running handler has done its next action. -/
theorem step_work {s t : Session} {fails : Bool} (h : step s (.work fails) = some t) :
    ∃ p a todo realm, s.running = some ⟨p, a :: todo⟩ ∧ a.perform fails s.realm = some realm ∧
      t = { s with info := { s.info with fetchingMore := flagAfter a s.info.fetchingMore }
                   realm := realm
                   running := continueWith p todo } := by
  simp only [step] at h
  split at h
  · rename_i p a todo hr
    obtain ⟨realm, hp, ht⟩ := Option.map_eq_some_iff.mp h
    exact ⟨p, a, todo, realm, hr, hp, ht.symm⟩
  · cases h

/-! ## Sessions never raise -/

/-- A session keeps the object graph of its store. -/
theorem objectGraph_step {s t : Session} {e : Event} (hg : ObjectGraph s.realm)
    (h : step s e = some t) : ObjectGraph t.realm := by
  cases e with
  | viewDidLoad => rw [(step_viewDidLoad h).2]; exact hg
  | scroll =>
    rw [(step_scroll h).2, scrollViewDidScroll]
    split <;> exact hg
  | refresh => rw [(step_refresh h).2]; exact hg
  | advance => rw [step_advance h]; exact hg
  | reply i reply =>
    obtain ⟨p, -, -, rfl⟩ := step_reply h
    exact hg
  | work fails =>
    obtain ⟨p, a, todo, realm, -, hp, rfl⟩ := step_work h
    cases a with
    | deleteAll => exact hg.perform (fails, .deleteAll) hp
    | store update user => exact hg.storeUser hp
    | endFetching => exact Option.some.inj hp ▸ hg

/-- So a running handler always gets through its next action: no create of it raises. -/
theorem work_defined (es : List Event) {s : Session} (h : exec step es start = some s)
    {p : Pending} {a : Action} {todo : List Action} (hr : s.running = some ⟨p, a :: todo⟩)
    (fails : Bool) : ∃ t, step s (.work fails) = some t := by
  have hg : ObjectGraph s.realm :=
    exec_invariant (I := fun s => ObjectGraph s.realm) (fun _ _ _ => objectGraph_step) es
      objectGraph_empty h
  have hd : ∃ realm, a.perform fails s.realm = some realm := by
    cases a with
    | deleteAll => exact hg.perform_defined (fails, .deleteAll)
    | store update user => exact hg.storeUser_defined fails update user
    | endFetching => exact ⟨s.realm, rfl⟩
  obtain ⟨realm, hd⟩ := hd
  have hs : (step s (.work fails)).isSome = true := by simp [step, hr, hd]
  exact Option.isSome_iff_exists.mp hs

end UsersListSession
