import Mathlib.Data.List.Perm.Basic
import RandomUserClient.UsersListSession

/-!
# The fetching flag

One boolean stands for any number of outstanding requests. Every call of
`addUsersData` raises it; only the last action of a handler that received a user
list lowers it, whichever request that handler belongs to.
-/

namespace FetchingFlag

open RUCUsersListInfoController RUCUsersListViewController UsersListSession EventRuns JsonDecoding

/-- A reply whose body is `{"results": []}`. -/
def emptyList : Reply := ⟨some (.json (.obj [("results", .arr [])])), some 200⟩

/-! ## The end of a handler -/

/-- A handler comes to the end that lowers the flag exactly when its reply carried a user list. -/
theorem endFetching_mem_handle (update : Bool) (reply : Reply) :
    .endFetching ∈ handle update reply ↔ reply.users.isSome := by
  rcases handle_cases update reply with ⟨hu, hd | ⟨-, hd⟩⟩ | ⟨users, hu, hd⟩ <;> simp [hu, hd]

/-- The end of a handler is its last action. -/
def EndsLast (todo : List Action) : Prop := .endFetching ∉ todo.dropLast

theorem endsLast_handle (update : Bool) (reply : Reply) : EndsLast (handle update reply) := by
  rcases handle_cases update reply with ⟨-, hd | ⟨-, hd⟩⟩ | ⟨users, -, hd⟩
  · rw [hd]
    exact List.not_mem_nil
  · rw [hd]
    exact List.not_mem_nil
  · rw [hd, EndsLast, ← List.append_assoc, List.dropLast_concat]
    cases update <;> simp

/-- What is left of a handler before its last action does not lower the flag. -/
theorem ne_endFetching_of_suffix {update : Bool} {reply : Reply} {a : Action} {todo : List Action}
    (h : a :: todo <:+ handle update reply) (htodo : todo ≠ []) : a ≠ .endFetching := by
  rintro rfl
  obtain ⟨done, hd⟩ := h
  apply endsLast_handle update reply
  rw [← hd, List.dropLast_append_cons, List.dropLast_cons_of_ne_nil htodo]
  exact List.mem_append_right done List.mem_cons_self

/-- The last action of a handler lowers the flag exactly when its reply carried a user list. -/
theorem eq_endFetching_iff {update : Bool} {reply : Reply} {a : Action}
    (h : [a] <:+ handle update reply) : a = .endFetching ↔ reply.users.isSome := by
  obtain ⟨done, hd⟩ := h
  rw [← endFetching_mem_handle update reply, ← hd, List.mem_append, List.mem_singleton]
  have hdone : .endFetching ∉ done := by
    have hlast := endsLast_handle update reply
    rwa [← hd, EndsLast, List.dropLast_concat] at hlast
  constructor
  · rintro rfl
    exact Or.inr rfl
  · intro hmem
    exact (hmem.resolve_left hdone).symm

/-! ## Lowering the flag -/

/-- The step calls `addUsersData`. -/
def Issues (s : Session) : Event → Prop
  | .viewDidLoad => True
  | .scroll => s.info.fetchingMore = false
  | .refresh => True
  | _ => False

/-- The reply to which the latest handler belongs. -/
def handled (last : Option Reply) : Event → Option Reply
  | .reply _ reply => some reply
  | _ => last

/-- The handler of a reply with a user list is running, or such a reply is still to come. -/
def AwaitsList (s : Session) (last : Option Reply) (es : List Event) : Prop :=
  (s.running ≠ none ∧ ∃ reply, last = some reply ∧ reply.users.isSome) ∨
    ∃ i reply, .reply i reply ∈ es ∧ reply.users.isSome

/-- The running handler is what is left of the handler of the latest reply. -/
def Handling (s : Session) (last : Option Reply) : Prop :=
  ∀ h, s.running = some h → ∃ reply, last = some reply ∧ h.todo ≠ [] ∧
    h.todo <:+ handle h.pending.update reply

theorem awaitsList_cons {s : Session} {last : Option Reply} {e : Event} {es : List Event}
    (h : AwaitsList s last es) : AwaitsList s last (e :: es) := by
  rcases h with h | ⟨i, reply, hmem, hu⟩
  · exact Or.inl h
  · exact Or.inr ⟨i, reply, List.mem_cons_of_mem e hmem, hu⟩

/-- An event that is not a reply and leaves the handler alone leaves it open what is awaited. -/
theorem awaitsList_congr {s t : Session} {last : Option Reply} {e : Event} (es : List Event)
    (hrun : t.running = s.running) (he : ∀ i reply, e ≠ .reply i reply) :
    (AwaitsList s last (e :: es) ↔ AwaitsList t (handled last e) es) ∧
      (AwaitsList s last es ↔ AwaitsList t (handled last e) es) := by
  have hlast : handled last e = last := by
    cases e with
    | reply i reply => exact absurd rfl (he i reply)
    | _ => rfl
  have hmem : ∀ i reply, .reply i reply ∈ e :: es ↔ .reply i reply ∈ es := by
    intro i reply
    rw [List.mem_cons]
    exact or_iff_right (Ne.symm (he i reply))
  simp only [AwaitsList, hlast, hrun, hmem, and_self]

/-- A reply that starts its handler is awaited before, and its handler runs behind it. -/
theorem awaitsList_reply {s t : Session} {last : Option Reply} {reply : Reply} (i : Nat)
    (es : List Event) (hnone : s.running = none)
    (hstarts : reply.users.isSome → t.running ≠ none) :
    AwaitsList s last (.reply i reply :: es) ↔ AwaitsList t (some reply) es := by
  constructor
  · rintro (⟨hrun, -⟩ | ⟨j, reply', hmem, hu⟩)
    · exact absurd hnone hrun
    · rcases List.mem_cons.mp hmem with heq | hmem
      · obtain ⟨-, rfl⟩ := Event.reply.inj heq
        exact Or.inl ⟨hstarts hu, reply', rfl, hu⟩
      · exact Or.inr ⟨j, reply', hmem, hu⟩
  · rintro (⟨-, reply', heq, hu⟩ | ⟨j, reply', hmem, hu⟩)
    · obtain rfl := Option.some.inj heq
      exact Or.inr ⟨i, reply, List.mem_cons_self, hu⟩
    · exact Or.inr ⟨j, reply', List.mem_cons_of_mem _ hmem, hu⟩

/-- A handler with a user list that goes on is awaited as before, and one without is never. -/
theorem awaitsList_work {s t : Session} {last : Option Reply} {reply : Reply} (fails : Bool)
    (es : List Event) (hrunning : s.running ≠ none) (hlast : last = some reply)
    (hgoes : reply.users.isSome → t.running ≠ none) :
    AwaitsList s last (.work fails :: es) ↔ AwaitsList t last es := by
  subst hlast
  have hmem : ∀ i reply', .reply i reply' ∈ Event.work fails :: es ↔ .reply i reply' ∈ es := by
    intro i reply'
    simp
  simp only [AwaitsList, hmem]
  apply or_congr_left
  constructor
  · rintro ⟨-, reply', heq, hu⟩
    obtain rfl := Option.some.inj heq
    exact ⟨hgoes hu, reply, rfl, hu⟩
  · rintro ⟨-, hlist⟩
    exact ⟨hrunning, hlist⟩

theorem continueWith_ne_none {p : Pending} {todo : List Action} (h : todo ≠ []) :
    continueWith p todo ≠ none := by
  rw [continueWith, if_neg h]
  exact Option.some_ne_none _

theorem handling_congr {s t : Session} {last last' : Option Reply} (h : Handling s last)
    (hrun : t.running = s.running) (hlast : last' = last) : Handling t last' := by
  rw [Handling, hrun, hlast]
  exact h

section Runs

variable [Unicode]

/-- Every call of `addUsersData` is followed by a reply with a user list, or made while the handler
of such a reply is running. -/
def Answered (last : Option Reply) : List Event → Session → Prop
  | [], _ => True
  | e :: es, s => (Issues s e → AwaitsList s last es) ∧
      ∀ t, step s e = some t → Answered (handled last e) es t

theorem handling_step {s t : Session} {last : Option Reply} {e : Event} (hs : Handling s last)
    (h : step s e = some t) : Handling t (handled last e) := by
  cases e with
  | viewDidLoad =>
    rw [(step_viewDidLoad h).2]
    exact handling_congr hs rfl rfl
  | scroll =>
    rw [(step_scroll h).2, scrollViewDidScroll]
    split <;> exact handling_congr hs rfl rfl
  | refresh =>
    rw [(step_refresh h).2]
    exact handling_congr hs rfl rfl
  | advance =>
    rw [step_advance h]
    exact handling_congr hs rfl rfl
  | reply i reply =>
    obtain ⟨p, -, -, rfl⟩ := step_reply h
    intro r hr
    simp only [continueWith, Option.ite_none_left_eq_some, Option.some.injEq] at hr
    obtain ⟨hne, rfl⟩ := hr
    exact ⟨reply, rfl, hne, List.suffix_rfl⟩
  | work fails =>
    obtain ⟨p, a, todo, realm, hr, -, rfl⟩ := step_work h
    obtain ⟨reply, hlast, -, hsuffix⟩ := hs _ hr
    intro r hr'
    simp only [continueWith, Option.ite_none_left_eq_some, Option.some.injEq] at hr'
    obtain ⟨hne, rfl⟩ := hr'
    exact ⟨reply, hlast, hne, (List.suffix_cons a todo).trans hsuffix⟩

/-- What a step does to the flag: it calls `addUsersData` and raises it, or it ends the handler of a
reply with a user list and lowers it, or it leaves it, and what is awaited, as it is. -/
theorem flag_step {s t : Session} {last : Option Reply} {e : Event} (es : List Event)
    (hs : Handling s last) (h : step s e = some t) :
    (Issues s e ∧ t.info.fetchingMore = true ∧
      (AwaitsList s last es ↔ AwaitsList t (handled last e) es)) ∨
    (¬ Issues s e ∧ t.info.fetchingMore = false ∧ AwaitsList s last (e :: es)) ∨
    (¬ Issues s e ∧ t.info.fetchingMore = s.info.fetchingMore ∧
      (AwaitsList s last (e :: es) ↔ AwaitsList t (handled last e) es)) := by
  cases e with
  | viewDidLoad =>
    obtain rfl := (step_viewDidLoad h).2
    exact Or.inl ⟨trivial, rfl, (awaitsList_congr es rfl fun _ _ he => by cases he).2⟩
  | scroll =>
    obtain ⟨-, rfl⟩ := step_scroll h
    cases hf : s.info.fetchingMore with
    | true =>
      have hsame : scrollViewDidScroll s = s := by rw [scrollViewDidScroll, hf, if_pos rfl]
      rw [hsame]
      refine Or.inr (Or.inr ⟨fun hi => ?_, hf, ?_⟩)
      · exact absurd (hf.symm.trans hi) (by decide)
      · exact (awaitsList_congr es rfl fun _ _ he => by cases he).1
    | false =>
      have hadd : scrollViewDidScroll s = addUsersData false s := by
        rw [scrollViewDidScroll, hf]
        rfl
      rw [hadd]
      exact Or.inl ⟨hf, rfl, (awaitsList_congr es rfl fun _ _ he => by cases he).2⟩
  | refresh =>
    obtain rfl := (step_refresh h).2
    exact Or.inl ⟨trivial, rfl, (awaitsList_congr es rfl fun _ _ he => by cases he).2⟩
  | advance =>
    obtain rfl := step_advance h
    exact Or.inr (Or.inr ⟨id, rfl, (awaitsList_congr es rfl fun _ _ he => by cases he).1⟩)
  | reply i reply =>
    obtain ⟨p, hnone, -, rfl⟩ := step_reply h
    refine Or.inr (Or.inr ⟨id, rfl, ?_⟩)
    apply awaitsList_reply i es hnone
    -- a handler that has something to do runs from here on
    intro hu
    have hmem := (endFetching_mem_handle p.update reply).mpr hu
    exact continueWith_ne_none (List.ne_nil_of_mem hmem)
  | work fails =>
    obtain ⟨p, a, todo, realm, hr, -, rfl⟩ := step_work h
    obtain ⟨reply, hlast, -, hsuffix⟩ := hs _ hr
    have hrunning : s.running ≠ none := by rw [hr]; exact Option.some_ne_none _
    by_cases htodo : todo = []
    · subst htodo
      by_cases hu : reply.users.isSome
      · -- the end of a handler that received a user list
        obtain rfl := (eq_endFetching_iff hsuffix).mpr hu
        exact Or.inr (Or.inl ⟨id, rfl, Or.inl ⟨hrunning, reply, hlast, hu⟩⟩)
      · have ha : a ≠ .endFetching := fun ha => hu ((eq_endFetching_iff hsuffix).mp ha)
        refine Or.inr (Or.inr ⟨id, by simp [flagAfter, ha], ?_⟩)
        exact awaitsList_work fails es hrunning hlast fun hu' => absurd hu' hu
    · have ha := ne_endFetching_of_suffix hsuffix htodo
      refine Or.inr (Or.inr ⟨id, by simp [flagAfter, ha], ?_⟩)
      exact awaitsList_work fails es hrunning hlast fun _ => continueWith_ne_none htodo

/-- The flag after a run that leaves nothing out, from the flag before it and what is awaited. -/
theorem flag_after_run (es : List Event) {s u : Session} {last : Option Reply}
    (hs : Handling s last) (h : exec step es s = some u) (hq : Quiet u) :
    u.info.fetchingMore = false ↔ Answered last es s ∧
      (s.info.fetchingMore = true → AwaitsList s last es) := by
  induction es generalizing s last with
  | nil =>
    obtain rfl : s = u := Option.some.inj h
    have hnone : ¬ AwaitsList s last [] := by
      rintro (⟨hrun, -⟩ | ⟨_, _, hmem, -⟩)
      · exact hrun hq.2
      · exact List.not_mem_nil hmem
    simp [Answered, hnone]
  | cons e es ih =>
    obtain ⟨t, ht, hu⟩ := exec_cons_some.mp h
    have hanswered : Answered last (e :: es) s ↔ (Issues s e → AwaitsList s last es) ∧
        Answered (handled last e) es t := by
      simp only [Answered, ht, Option.some.injEq, forall_eq']
    rw [ih (handling_step hs ht) hu, hanswered]
    rcases flag_step es hs ht with ⟨hi, hf, ha⟩ | ⟨hi, hf, ha⟩ | ⟨hi, hf, ha⟩
    · -- what is awaited at the call is awaited before it
      have hweaken : AwaitsList s last es → AwaitsList s last (e :: es) := awaitsList_cons
      simp only [hf, hi, forall_const, ← ha]
      constructor
      · rintro ⟨hrest, hawaits⟩
        exact ⟨⟨hawaits, hrest⟩, fun _ => hweaken hawaits⟩
      · rintro ⟨⟨hawaits, hrest⟩, -⟩
        exact ⟨hrest, hawaits⟩
    · simp [hf, hi, ha]
    · simp only [hf, hi, ha, false_imp_iff, true_and]

/-- Paging is possible again: the flag is down, and a scroll past the threshold loads more. -/
def CanLoadMore (s : Session) : Prop :=
  s.info.fetchingMore = false ∧ (s.loaded = true → step s .scroll = some (addUsersData false s))

theorem canLoadMore_iff (s : Session) : CanLoadMore s ↔ s.info.fetchingMore = false := by
  refine ⟨fun h => h.1, fun h => ⟨h, fun hl => ?_⟩⟩
  simp [step, scrollViewDidScroll, h, hl]

/-- Once every issued request has ended, paging is possible exactly when every call of
`addUsersData` was followed by a reply with a user list, or made while the handler of such a reply
was running. -/
theorem quiet_flag_iff (es : List Event) (s : Session) (h : exec step es start = some s)
    (hq : Quiet s) : CanLoadMore s ↔ Answered none es start := by
  rw [canLoadMore_iff, flag_after_run es (fun _ hr => by cases hr) h hq]
  apply and_iff_left
  intro hf
  cases hf

end Runs

section Names

attribute [local instance] ascii

/-- A load-more that is answered with an empty list, run to its end: the flag is down again. -/
theorem quiet_flag_empty_list : CanLoadMore { start with loaded := true } ↔
    Answered none [.viewDidLoad, .reply 0 emptyList, .work false] start :=
  quiet_flag_iff [.viewDidLoad, .reply 0 emptyList, .work false] _ rfl ⟨rfl, rfl⟩

/-- The first load-more ends in a transport error: no request is left, and the flag stays up. -/
theorem transport_error_blocks_paging :
    ∃ s, exec step [.viewDidLoad, .reply 0 ⟨none, none⟩] start = some s ∧ Quiet s ∧
      s.info.fetchingMore = true :=
  ⟨_, rfl, ⟨rfl, rfl⟩, rfl⟩

end Names

/-! ## One load-more at a time -/

/-- Load-more requests that have been sent and have not ended. -/
def outstanding (s : Session) : Nat :=
  s.inFlight.countP (fun p => p.update = false) +
    match s.running with
    | none => 0
    | some h => if h.pending.update = false then 1 else 0

/-- At most one load-more is in flight, and none while the flag is down. -/
def OneAtATime (s : Session) : Prop :=
  outstanding s ≤ 1 ∧ (s.info.fetchingMore = false → outstanding s = 0)

/-- A refresh handler that received a list ends while no load-more is in flight. -/
def RefreshEndsAlone (s : Session) : Event → Prop
  | .work _ => ∀ p todo, s.running = some ⟨p, .endFetching :: todo⟩ → p.update = true →
      ∀ q ∈ s.inFlight, q.update = true
  | _ => True

/-- No request is out before the view is loaded, and the handlers have the shape of `handle`. -/
structure Shape (s : Session) : Prop where
  idle : s.loaded = false → s.inFlight = [] ∧ s.running = none
  ends : ∀ h, s.running = some h → EndsLast h.todo

theorem endsLast_tail {a : Action} {todo : List Action} (h : EndsLast (a :: todo)) :
    EndsLast todo := by
  cases todo with
  | nil => exact List.not_mem_nil
  | cons b todo =>
    rw [EndsLast, List.dropLast_cons_cons] at h
    exact fun hm => h (List.mem_cons_of_mem a hm)

theorem endsLast_endFetching {todo : List Action} (h : EndsLast (.endFetching :: todo)) :
    todo = [] := by
  cases todo with
  | nil => rfl
  | cons b todo =>
    rw [EndsLast, List.dropLast_cons_cons] at h
    exact absurd List.mem_cons_self h

theorem shape_continueWith {p : Pending} {todo : List Action} (h : EndsLast todo) :
    ∀ r, continueWith p todo = some r → EndsLast r.todo := by
  intro r hr
  simp only [continueWith, Option.ite_none_left_eq_some, Option.some.injEq] at hr
  exact hr.2 ▸ h

@[simp] theorem outstanding_addUsersData (update : Bool) (s : Session) (loaded : Bool) :
    outstanding { addUsersData update s with loaded := loaded } =
      outstanding s + if update = false then 1 else 0 := by
  simp only [outstanding, addUsersData, List.countP_append, List.countP_singleton,
    decide_eq_true_eq]
  omega

/-- Answering a request leaves no more load-mores than there were. -/
theorem outstanding_reply {s : Session} {i : Nat} {p : Pending} (todo : List Action)
    (hr : s.running = none) (hp : s.inFlight[i]? = some p) :
    outstanding { s with inFlight := s.inFlight.eraseIdx i, running := continueWith p todo } ≤
      outstanding s := by
  obtain ⟨hi, rfl⟩ := List.getElem?_eq_some_iff.mp hp
  have hperm := (List.getElem_cons_eraseIdx_perm hi).countP_eq (fun p : Pending => p.update = false)
  rw [List.countP_cons] at hperm
  simp only [outstanding, hr]
  rw [← hperm]
  unfold continueWith
  split <;> rename_i hc
  · omega
  · split at hc
    · cases hc
    · obtain rfl := Option.some.inj hc
      simp

theorem outstanding_work {s : Session} {p : Pending} {a : Action} {todo : List Action}
    (hr : s.running = some ⟨p, a :: todo⟩) (info : RUCUsersListInfoControllerImpl)
    (realm : RealmService.Realm) :
    outstanding { s with info := info, realm := realm, running := continueWith p todo } ≤
      outstanding s := by
  simp only [outstanding, hr, continueWith]
  by_cases ht : todo = [] <;> simp [ht]

theorem shape_start : Shape start := ⟨fun _ => ⟨rfl, rfl⟩, fun _ h => by cases h⟩

section Runs

variable [Unicode]

theorem shape_step (s : Session) (e : Event) (t : Session) (hs : Shape s) (h : step s e = some t) :
    Shape t := by
  cases e with
  | viewDidLoad =>
    rw [(step_viewDidLoad h).2]
    exact ⟨fun hl => Bool.noConfusion hl, hs.ends⟩
  | scroll =>
    obtain ⟨hl, rfl⟩ := step_scroll h
    unfold scrollViewDidScroll
    split
    · exact hs
    · exact ⟨fun hn => absurd (hl.symm.trans hn) (by decide), hs.ends⟩
  | refresh =>
    obtain ⟨hl, rfl⟩ := step_refresh h
    exact ⟨fun hn => absurd (hl.symm.trans hn) (by decide), hs.ends⟩
  | advance =>
    rw [step_advance h]
    exact ⟨hs.idle, hs.ends⟩
  | reply i reply =>
    obtain ⟨p, hr, hp, rfl⟩ := step_reply h
    refine ⟨fun hl => ?_, shape_continueWith (endsLast_handle p.update reply)⟩
    rw [(hs.idle hl).1] at hp
    cases hp
  | work fails =>
    obtain ⟨p, a, todo, realm, hr, -, rfl⟩ := step_work h
    refine ⟨fun hl => ?_, shape_continueWith (endsLast_tail (hs.ends _ hr))⟩
    rw [(hs.idle hl).2] at hr
    cases hr

/-- A step from a state with one load-more at a time ends in such a state exactly when it does not
end a refresh handler beside a load-more. -/
theorem oneAtATime_step (s : Session) (e : Event) (t : Session) (hs : Shape s)
    (hp : OneAtATime s) (h : step s e = some t) : OneAtATime t ↔ RefreshEndsAlone s e := by
  cases e with
  | viewDidLoad =>
    obtain ⟨hl, rfl⟩ := step_viewDidLoad h
    have h0 : outstanding s = 0 := by
      obtain ⟨hf, hr⟩ := hs.idle hl
      simp [outstanding, hf, hr]
    have ho := outstanding_addUsersData false s true
    rw [h0] at ho
    exact iff_of_true ⟨by simp [ho], fun hf => by cases hf⟩ trivial
  | scroll =>
    obtain ⟨hl, rfl⟩ := step_scroll h
    unfold scrollViewDidScroll
    split
    · exact iff_of_true hp trivial
    · rename_i hf
      have ho := outstanding_addUsersData false s s.loaded
      rw [hp.2 (by simpa using hf)] at ho
      exact iff_of_true ⟨Nat.le_of_eq ho, fun hf => by cases hf⟩ trivial
  | refresh =>
    obtain ⟨hl, rfl⟩ := step_refresh h
    have ho := outstanding_addUsersData true s s.loaded
    exact iff_of_true ⟨Nat.le_trans (Nat.le_of_eq ho) hp.1, fun hf => by cases hf⟩ trivial
  | advance =>
    rw [step_advance h]
    exact iff_of_true hp trivial
  | reply i reply =>
    obtain ⟨p, hr, hi, rfl⟩ := step_reply h
    have ho := outstanding_reply (handle p.update reply) hr hi
    exact iff_of_true ⟨Nat.le_trans ho hp.1, fun hf => Nat.le_zero.mp (hp.2 hf ▸ ho)⟩ trivial
  | work fails =>
    obtain ⟨p, a, todo, realm, hr, -, rfl⟩ := step_work h
    have ho := outstanding_work hr { s.info with fetchingMore := flagAfter a s.info.fetchingMore }
      realm
    by_cases ha : a = .endFetching
    · subst ha
      obtain rfl := endsLast_endFetching (hs.ends _ hr)
      -- the flag goes down here, so no load-more may be left in flight
      have hnone : s.inFlight.countP (fun q => q.update = false) = 0 ↔
          ∀ q ∈ s.inFlight, q.update = true := by
        simp only [List.countP_eq_zero, decide_eq_true_eq, Bool.not_eq_false]
      have hleft : OneAtATime { s with
          info := { s.info with fetchingMore := flagAfter .endFetching s.info.fetchingMore }
          realm := realm
          running := continueWith p [] } ↔ s.inFlight.countP (fun q => q.update = false) = 0 :=
        ⟨fun h => h.2 rfl, fun h => ⟨Nat.le_trans (Nat.le_of_eq h) (Nat.zero_le 1), fun _ => h⟩⟩
      rw [hleft]
      constructor
      · intro h0 p' todo' _ _
        exact hnone.mp h0
      · intro hc
        cases hu : p.update with
        | true => exact hnone.mpr (hc p [] hr hu)
        | false =>
          have h1 := hp.1
          simp only [outstanding, hr, hu, if_true] at h1
          omega
    · refine iff_of_true ⟨Nat.le_trans ho hp.1, fun hf => ?_⟩ fun p' todo' hr' => ?_
      · simp only [flagAfter, if_neg ha] at hf
        exact Nat.le_zero.mp (hp.2 hf ▸ ho)
      · rw [hr] at hr'
        injection hr' with hr'
        injection hr' with _ hr'
        injection hr' with hr'
        exact absurd hr' ha

/-- In every state of a session there is at most one load-more in flight, and none while the flag
is down, exactly when no refresh handler with a list ends beside a load-more. -/
theorem one_load_more_iff (es : List Event) :
    Always step OneAtATime es start ↔ Guarded step RefreshEndsAlone es start :=
  always_iff_guarded (fun s e t hs _ h => shape_step s e t hs h) oneAtATime_step es shape_start
    ⟨Nat.zero_le 1, fun _ => rfl⟩

end Runs

section Names

attribute [local instance] ascii

/-- A refresh is answered while the first load-more is still out: the flag goes down, and the next
scroll sends a second load-more. -/
theorem refresh_frees_second_load_more :
    ∃ s, exec step [.viewDidLoad, .refresh, .reply 1 emptyList, .work false, .work false, .scroll]
      start = some s ∧ outstanding s = 2 ∧ ¬ OneAtATime s :=
  ⟨_, rfl, rfl, fun h => absurd h.1 (by decide)⟩

end Names

end FetchingFlag
