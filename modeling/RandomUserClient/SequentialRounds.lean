import RandomUserClient.RefreshHandler
import RandomUserClient.UsersListSession

/-!
# Sequential sessions

In a sequential session nothing overlaps: a trigger sends a request, the reply
comes, its handler runs to the end, and the main thread sees what it has left
before the next trigger. Such a session is a list of rounds, and each round is a
run of events of the session.
-/

namespace SequentialRounds

open UsersViewStructs RealmService RUCUsersListInfoController RUCUsersListViewController
open RefreshHandler RealmObjectGraph UsersListSession EventRuns

inductive Trigger where
  | viewDidLoad : Trigger
  | scroll : Trigger
  | refresh : Trigger
  deriving DecidableEq, Repr

def Trigger.event : Trigger → Event
  | .viewDidLoad => .viewDidLoad
  | .scroll => .scroll
  | .refresh => .refresh

/-- How the trigger calls `addUsersData`. -/
def Trigger.update : Trigger → Bool
  | .refresh => true
  | _ => false

/-- A trigger, the reply to its request, and which writes of the handler fail. -/
structure Round where
  trigger : Trigger
  reply : Reply
  fails : Nat → Bool

/-- The steps of a handler, one for each action it has left. -/
def works (fails : Nat → Bool) : List Action → List Event
  | [] => []
  | _ :: todo => .work (fails 0) :: works (fun n => fails (n + 1)) todo

def Round.actions (x : Round) : List Action := handle x.trigger.update x.reply

def Round.events (x : Round) : List Event :=
  x.trigger.event :: .reply 0 x.reply :: (works x.fails x.actions ++ [.advance])

/-- A whole round, which cannot happen when its trigger sends no request. -/
def round [Unicode] (s : Session) (x : Round) : Option Session := exec step x.events s

/-- The page a load-more would ask for now. -/
def nextPage (s : Session) : Nat := getNextPageIndex s.info s.main.users.rows.length 10

/-- The page that a count within the limit names. -/
theorem getNextPageIndex_eq (info : RUCUsersListInfoControllerImpl) {count : Nat}
    (h : count ≤ info.lastPage) : getNextPageIndex info count 10 = count / 10 + 1 := by
  by_cases h0 : count = 0
  · rw [getNextPageIndex, if_pos h0, h0]
  · rw [getNextPageIndex, if_neg h0, if_pos h]

theorem inFlight_addUsersData (s : Session) :
    (addUsersData false s).inFlight = s.inFlight ++ [⟨false, nextPage s⟩] := rfl

/-- Nothing is out, and the main thread sees what is stored. -/
structure Settled (s : Session) : Prop where
  inFlight : s.inFlight = []
  running : s.running = none
  main : s.main = s.realm
  graph : ObjectGraph s.realm

/-- A session that opens on the store of an earlier one. -/
def opened (r : Realm) : Session := { realm := r, main := r }

theorem settled_opened {r : Realm} (hg : ObjectGraph r) : Settled (opened r) := ⟨rfl, rfl, rfl, hg⟩

section Runs

variable [Unicode]

/-- The steps of a handler do to the store what its actions do. -/
theorem exec_works (p : Pending) (todo : List Action) (fails : Nat → Bool) {s t : Session}
    (hr : s.running = continueWith p todo) (h : exec step (works fails todo) s = some t) :
    runActions fails todo s.realm = some t.realm ∧ t.running = none ∧ t.inFlight = s.inFlight ∧
      t.info.lastPage = s.info.lastPage := by
  induction todo generalizing fails s with
  | nil =>
    obtain rfl := Option.some.inj h
    exact ⟨rfl, hr, rfl, rfl⟩
  | cons a todo ih =>
    obtain ⟨u, hu, ht⟩ := exec_cons_some.mp h
    obtain ⟨q, b, rest, realm, hq, hp, rfl⟩ := step_work hu
    have hsame : (⟨p, a :: todo⟩ : Running) = ⟨q, b :: rest⟩ := Option.some.inj (hr.symm.trans hq)
    obtain ⟨rfl, hlist⟩ := Running.mk.inj hsame
    obtain ⟨rfl, rfl⟩ := List.cons.inj hlist
    obtain ⟨hrun, hidle, hflight, hlast⟩ := ih _ rfl ht
    refine ⟨?_, hidle, hflight, hlast⟩
    rw [runActions, hp, Option.bind_some]
    exact hrun

/-- A trigger that sends a request sends it for the page of its kind. -/
theorem step_trigger {s t : Session} (hs : Settled s) {x : Trigger}
    (h : step s x.event = some t) (hsent : t.inFlight ≠ []) :
    t.inFlight = [⟨x.update, if x.update then 1 else nextPage s⟩] ∧
      t.realm = s.realm ∧ t.info.lastPage = s.info.lastPage := by
  cases x with
  | viewDidLoad =>
    obtain ⟨-, rfl⟩ := step_viewDidLoad h
    simp [addUsersData, Trigger.update, nextPage, hs.inFlight]
  | scroll =>
    obtain ⟨-, rfl⟩ := step_scroll h
    by_cases hf : s.info.fetchingMore = true
    · rw [scrollViewDidScroll, if_pos hf, hs.inFlight] at hsent
      exact absurd rfl hsent
    · rw [scrollViewDidScroll, if_neg hf]
      simp [addUsersData, Trigger.update, nextPage, hs.inFlight]
  | refresh =>
    obtain ⟨-, rfl⟩ := step_refresh h
    simp [addUsersData, Trigger.update, hs.inFlight]

/-- What a round does: the handler's actions, on the store as it was. -/
theorem round_eq_some {s t : Session} (hs : Settled s) {x : Round} (h : round s x = some t) :
    runActions x.fails x.actions s.realm = some t.realm ∧ Settled t ∧
      t.info.lastPage = s.info.lastPage := by
  obtain ⟨s₁, hfirst, h⟩ := exec_cons_some.mp h
  obtain ⟨s₂, hsecond, h⟩ := exec_cons_some.mp h
  obtain ⟨s₃, hworks, h⟩ := exec_append_some.mp h
  obtain ⟨s₄, hlast, h⟩ := exec_cons_some.mp h
  obtain rfl : s₄ = t := Option.some.inj h
  obtain rfl := step_advance hlast
  obtain ⟨p, -, hp, rfl⟩ := step_reply hsecond
  have hsent : s₁.inFlight ≠ [] := fun hnil => by
    rw [hnil] at hp
    cases hp
  obtain ⟨hflight, hrealm, hpage⟩ := step_trigger hs hfirst hsent
  rw [hflight] at hp
  obtain rfl := Option.some.inj hp
  obtain ⟨hrun, hidle, hnone, hpages⟩ := exec_works _ x.actions x.fails rfl hworks
  have hgraph : ObjectGraph s₃.realm := by
    refine exec_invariant (I := fun s => ObjectGraph s.realm)
      (fun _ _ _ => objectGraph_step) _ ?_ hworks
    exact hrealm ▸ hs.graph
  refine ⟨hrealm ▸ hrun, ⟨?_, hidle, rfl, hgraph⟩, hpages.trans hpage⟩
  rw [hnone, hflight]
  rfl

/-- Sequential sessions are settled between their rounds. -/
theorem settled_round (s : Session) (x : Round) (t : Session) (hs : Settled s)
    (h : round s x = some t) : Settled t :=
  (round_eq_some hs h).2.1

end Runs

end SequentialRounds
