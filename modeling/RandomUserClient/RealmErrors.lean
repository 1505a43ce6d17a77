import RandomUserClient.NotificationCenter

/-!
# Error subscriptions

The Realm service posts its errors to the notification center. It registers a
completion as a block and drops the token; to stop, it removes the controller,
under which nothing is held. So what has been registered once is called for every
error from then on, and the subscriptions are right exactly as long as no error is
posted after a controller has stopped.
-/

namespace RealmErrors

open NotificationCenter

-- view controllers, completions and errors
variable {V C E : Type}

/-! ## The service methods -/

section Service

/-- A completion that has been called, and what with. -/
abbrev Invocation (C E : Type) := C × Option E

/-- The default center, with the blocks of the service. -/
abbrev ErrorCenter (V C E : Type) := Center V String E (Notification String E → Invocation C E)

variable [DecidableEq E]

def post (error : E) (center : ErrorCenter V C E) : List (Invocation C E) :=
  let notification : Notification String E := ⟨"RealmError", some error⟩
  (center.blocks notification).map fun block => block notification

/-- The token of the block is dropped, and the controller is not looked at. -/
def observeRealmErrors (_vc : V) (completion : C) (center : ErrorCenter V C E) :
    ErrorCenter V C E :=
  (center.addObserver "RealmError" none fun notification =>
    (completion, notification.object)).2

theorem post_observeRealmErrors (error : E) (vc : V) (completion : C)
    (center : ErrorCenter V C E) :
    post error (observeRealmErrors vc completion center) =
      post error center ++ [(completion, some error)] := by
  simp only [post, observeRealmErrors, blocks_addObserver, List.map_append, List.map_cons,
    List.map_nil]

variable [DecidableEq V]

def stopObservingErrors (vc : V) (center : ErrorCenter V C E) : ErrorCenter V C E :=
  center.removeObserver (.object vc) "RealmError" none

inductive Call (V C E : Type) where
  | observeRealmErrors : V → C → Call V C E
  | stopObservingErrors : V → Call V C E
  | post : E → Call V C E
  deriving DecidableEq, Repr

/-- What a call changes in the center. -/
def perform (center : ErrorCenter V C E) : Call V C E → ErrorCenter V C E
  | .observeRealmErrors vc completion => observeRealmErrors vc completion center
  | .stopObservingErrors vc => stopObservingErrors vc center
  | .post _ => center

/-- The center after some calls. -/
def after (calls : List (Call V C E)) : ErrorCenter V C E := calls.foldl perform {}

/-- All completions that have ever been registered. -/
def registered : List (Call V C E) → List C
  | [] => []
  | .observeRealmErrors _ completion :: calls => completion :: registered calls
  | .stopObservingErrors _ :: calls => registered calls
  | .post _ :: calls => registered calls

theorem onlyBlocks_perform {center : ErrorCenter V C E} (h : center.OnlyBlocks)
    (call : Call V C E) : (perform center call).OnlyBlocks := by
  cases call with
  | observeRealmErrors vc completion => exact onlyBlocks_addObserver h _ _ _
  | stopObservingErrors vc =>
    rw [perform, stopObservingErrors, removeObserver_object h]
    exact h
  | post error => exact h

/-- Each registration adds its completion to those that a post calls, and no call takes one away. -/
theorem post_foldl (error : E) (calls : List (Call V C E)) {center : ErrorCenter V C E}
    (h : center.OnlyBlocks) : post error (calls.foldl perform center) =
      post error center ++ (registered calls).map fun completion => (completion, some error) := by
  induction calls generalizing center with
  | nil => simp [registered]
  | cons call calls ih =>
    rw [List.foldl_cons, ih (onlyBlocks_perform h call)]
    cases call with
    | observeRealmErrors vc completion =>
      rw [perform, post_observeRealmErrors, registered, List.map_cons, List.append_assoc]
      rfl
    | stopObservingErrors vc =>
      rw [perform, stopObservingErrors, removeObserver_object h]
      rfl
    | post other => rfl

theorem post_after (error : E) (calls : List (Call V C E)) :
    post error (after calls) =
      (registered calls).map fun completion => (completion, some error) :=
  post_foldl error calls fun _ hentry => absurd hentry List.not_mem_nil

end Service

/-! ## Subscriptions -/

section Subscriptions

/-- A pattern that ends with a post is found in front of one of the posts. -/
theorem sublist_post_iff (pattern : List (Call V C E)) {calls : List (Call V C E)} {error : E} :
    (pattern ++ [Call.post error]).Sublist calls ↔
      ∃ before rest, calls = before ++ Call.post error :: rest ∧ pattern.Sublist before := by
  constructor
  · intro h
    obtain ⟨front, back, rfl, hfront, hback⟩ := List.append_sublist_iff.mp h
    obtain ⟨between, rest, rfl⟩ := List.append_of_mem (List.singleton_sublist.mp hback)
    exact ⟨front ++ between, rest, by rw [List.append_assoc],
      hfront.trans (List.sublist_append_left _ _)⟩
  · rintro ⟨before, rest, rfl, h⟩
    exact h.append (List.singleton_sublist.mpr List.mem_cons_self)

variable [DecidableEq V]

def Call.stops (vc : V) : Call V C E → Bool
  | .stopObservingErrors stopped => stopped = vc
  | _ => false

theorem any_stops_iff {vc : V} {calls : List (Call V C E)} :
    calls.any (·.stops vc) ↔ .stopObservingErrors vc ∈ calls := by
  rw [List.any_eq_true]
  constructor
  · rintro ⟨call, hcall, hstops⟩
    cases call with
    | stopObservingErrors stopped =>
      obtain rfl : stopped = vc := by simpa [Call.stops] using hstops
      exact hcall
    | observeRealmErrors vc completion => cases hstops
    | post error => cases hstops
  · intro hcall
    exact ⟨_, hcall, by simp [Call.stops]⟩

/-- The completions whose controllers have not stopped since they were registered. -/
def subscribed : List (Call V C E) → List C
  | [] => []
  | .observeRealmErrors vc completion :: calls =>
    if calls.any (·.stops vc) then subscribed calls else completion :: subscribed calls
  | .stopObservingErrors _ :: calls => subscribed calls
  | .post _ :: calls => subscribed calls

theorem subscribed_sublist (calls : List (Call V C E)) :
    (subscribed calls).Sublist (registered calls) := by
  induction calls with
  | nil => exact List.Sublist.refl _
  | cons call calls ih =>
    cases call with
    | observeRealmErrors vc completion =>
      rw [subscribed, registered]
      split
      · exact ih.cons _
      · exact ih.cons_cons _
    | stopObservingErrors vc => exact ih
    | post error => exact ih

/-- Everything registered is subscribed exactly when no controller has stopped after it
registered. -/
theorem subscribed_eq_iff (calls : List (Call V C E)) : subscribed calls = registered calls ↔
    ∀ vc completion, ¬ List.Sublist
      [.observeRealmErrors vc completion, .stopObservingErrors vc] calls := by
  induction calls with
  | nil => simp [subscribed, registered]
  | cons call calls ih =>
    cases call with
    | observeRealmErrors vc completion =>
      rw [subscribed, registered]
      by_cases hstop : .stopObservingErrors vc ∈ calls
      · rw [if_pos (any_stops_iff.mpr hstop)]
        refine iff_of_false (fun h => ?_) fun h => ?_
        · have hlength := (subscribed_sublist calls).length_le
          rw [h, List.length_cons] at hlength
          omega
        · exact h vc completion ((List.singleton_sublist.mpr hstop).cons_cons _)
      · rw [if_neg (mt any_stops_iff.mp hstop), List.cons.injEq, and_iff_right rfl, ih]
        refine forall_congr' fun v => forall_congr' fun c => not_congr ?_
        rw [List.sublist_cons_iff]
        refine (or_iff_left ?_).symm
        rintro ⟨rest, hrest, hsub⟩
        obtain ⟨hhead, rfl⟩ := List.cons.inj hrest
        obtain ⟨rfl, rfl⟩ := Call.observeRealmErrors.inj hhead
        exact hstop (List.singleton_sublist.mp hsub)
    | stopObservingErrors vc =>
      rw [subscribed, registered, ih]
      refine forall_congr' fun v => forall_congr' fun c => not_congr ?_
      simp [List.sublist_cons_iff]
    | post error =>
      rw [subscribed, registered, ih]
      refine forall_congr' fun v => forall_congr' fun c => not_congr ?_
      simp [List.sublist_cons_iff]

end Subscriptions

/-! ## Sequences of calls -/

section Calls

variable [DecidableEq V] [DecidableEq E]

/-- Each post calls the subscribed completions, once each and with its error, and no others. -/
def CallsSubscribed (calls : List (Call V C E)) : Prop :=
  ∀ before error rest, calls = before ++ .post error :: rest →
    (post error (after before)).Perm
      ((subscribed before).map fun completion => (completion, some error))

/-- No error is posted after a controller with a registered completion has stopped. -/
def NoneStopped (calls : List (Call V C E)) : Prop :=
  ∀ vc completion error, ¬ List.Sublist
    [.observeRealmErrors vc completion, .stopObservingErrors vc, .post error] calls

/-- A post calls what it should exactly when everything registered is subscribed. -/
theorem post_right_iff (error : E) (calls : List (Call V C E)) :
    (post error (after calls)).Perm
        ((subscribed calls).map fun completion => (completion, some error)) ↔
      subscribed calls = registered calls := by
  rw [post_after]
  constructor
  · intro h
    have hlength := h.length_eq
    rw [List.length_map, List.length_map] at hlength
    exact (subscribed_sublist calls).eq_of_length hlength.symm
  · intro h
    rw [h]

/-- In any sequence of calls, each post calls exactly the subscribed completions exactly when none
is made after a controller with a registered completion has stopped. -/
theorem error_subscriptions_iff (calls : List (Call V C E)) :
    CallsSubscribed calls ↔ NoneStopped calls := by
  constructor
  · intro h vc completion error hsub
    obtain ⟨before, rest, rfl, hpair⟩ := (sublist_post_iff
      [.observeRealmErrors vc completion, .stopObservingErrors vc]).mp hsub
    have hall := (post_right_iff error before).mp (h before error rest rfl)
    exact (subscribed_eq_iff before).mp hall vc completion hpair
  · intro h before error rest hcalls
    refine (post_right_iff error before).mpr ((subscribed_eq_iff before).mpr ?_)
    intro vc completion hpair
    exact h vc completion error ((sublist_post_iff _).mpr ⟨before, rest, hcalls, hpair⟩)

end Calls

/-- A controller registers, stops, and an error is posted. -/
def stoppedScreen : List (Call Nat String String) :=
  [.observeRealmErrors 0 "completion", .stopObservingErrors 0, .post "error"]

theorem stopped_screen_called : ¬ CallsSubscribed stoppedScreen := by
  intro h
  have hperm := h [.observeRealmErrors 0 "completion", .stopObservingErrors 0] "error" [] rfl
  exact absurd hperm.length_eq (by decide)

end RealmErrors
