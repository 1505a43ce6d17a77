import RandomUserClient.PagedCursor
import RandomUserClient.UsersListSession

/-!
# The store as a part of the feed

For the fixed seed the server answers a page with the same ten users every time.
The page of a request is fixed when it is sent, the store may be wiped before the
reply is handled, and the count that names the next page is the count of the
store. What a load-more stores leaves no hole exactly as long as its page is not
behind the one that the count names at that moment.
-/

namespace UsersListFeed

open KeyedTable UsersViewModel UsersViewStructs RealmService RUCUsersListInfoController
open RUCUsersListViewController UsersListSession EventRuns PagedCursor

/-- What the server answers for the fixed seed. -/
structure Feed where
  page : Nat → List RandomUserData
  ten : ∀ p, 1 ≤ p → (page p).length = 10
  present : ∀ p, 1 ≤ p → ∀ u ∈ page p, u.uuid ≠ none
  nodup : ∀ p, 1 ≤ p → ((page p).map (·.uuid)).Nodup
  apart : ∀ p q, 1 ≤ p → 1 ≤ q → p ≠ q → ∀ u ∈ page p, ∀ v ∈ page q, u.uuid ≠ v.uuid

def Feed.ids (feed : Feed) (p : Nat) : Finset Key := ((feed.page p).map (·.uuid)).toFinset

theorem Feed.mem_ids {feed : Feed} {p : Nat} {k : Key} :
    k ∈ feed.ids p ↔ ∃ u ∈ feed.page p, u.uuid = k := by
  simp [Feed.ids]

theorem Feed.paged (feed : Feed) : Paged 10 feed.ids where
  pos := by decide
  card := by
    intro p hp
    rw [Feed.ids, List.toFinset_card_of_nodup (feed.nodup p hp), List.length_map, feed.ten p hp]
  apart := by
    intro p q hp hq hne
    rw [Finset.disjoint_left]
    intro k hkp hkq
    obtain ⟨u, hu, rfl⟩ := Feed.mem_ids.mp hkp
    obtain ⟨v, hv, hvu⟩ := Feed.mem_ids.mp hkq
    exact feed.apart p q hp hq hne u hu v hv hvu.symm

/-- An id belongs to one user of the feed. -/
theorem Feed.user_unique (feed : Feed) {p q : Nat} (hp : 1 ≤ p) (hq : 1 ≤ q) {u v : RandomUserData}
    (hu : u ∈ feed.page p) (hv : v ∈ feed.page q) (h : u.uuid = v.uuid) : u = v := by
  by_cases hpq : p = q
  · subst hpq
    exact List.inj_on_of_nodup_map (feed.nodup p hp) hu hv h
  · exact absurd h (feed.apart p q hp hq hpq u hu v hv)

def storedIds (r : Realm) : Finset Key := r.users.keys.toFinset

theorem card_storedIds (r : Realm) : (storedIds r).card = r.users.rows.length := by
  rw [storedIds, List.toFinset_card_of_nodup r.users.nodup_keys, Table.length_keys]

/-- The stored ids are those of pages 1 to m and some of page m + 1. -/
def NoHole (feed : Feed) (s : Session) : Prop := PagedCursor.NoHole feed.ids (storedIds s.realm)

/-- A reply with a user list carries the users of the page it was asked for, and no write fails.
Nothing is known of page 0, which the app asks for once it shows more than 10000 users. -/
def Allowed (feed : Feed) (s : Session) : Event → Prop
  | .reply i reply =>
    ∀ p ∈ s.inFlight[i]?, ∀ users ∈ reply.users, p.page = 0 ∨ users = feed.page p.page
  | .work fails => fails = false
  | _ => True

/-- The ids of the feed are different strings for the check, too. -/
def Feed.Distinct [Unicode] (feed : Feed) : Prop :=
  ∀ p q, 1 ≤ p → 1 ≤ q → ∀ u ∈ feed.page p, ∀ v ∈ feed.page q,
    canonical u.uuid = canonical v.uuid → u.uuid = v.uuid

/-- The page that a load-more handler stores a user of is at most the one that the number of
stored users names. For page 0 it is the user who has to be on those pages, unless the check skips
the user. -/
def InStep [Unicode] (feed : Feed) (s : Session) : Event → Prop
  | .work _ => ∀ p u todo, s.running = some ⟨p, .store false u :: todo⟩ →
      if p.page = 0 then canonical u.uuid ∈ canonicalIds s.realm ∨
        u.uuid ∈ upTo feed.ids (s.realm.users.rows.length / 10 + 1)
      else p.page ≤ s.realm.users.rows.length / 10 + 1
  | _ => True

/-! ## What a handler stores -/

theorem mem_handle_store {update b : Bool} {reply : Reply} {u : RandomUserData}
    (h : .store b u ∈ handle update reply) :
    b = update ∧ ∃ users, reply.users = some users ∧ u ∈ users := by
  rcases handle_cases update reply with ⟨-, hd | ⟨-, hd⟩⟩ | ⟨users, hu, hd⟩
  · rw [hd] at h
    cases h
  · rw [hd] at h
    cases List.mem_singleton.mp h
  · rw [hd] at h
    have hm : ∃ v ∈ users, v = u ∧ update = b := by
      cases update <;> simpa using h
    obtain ⟨v, hv, rfl, rfl⟩ := hm
    exact ⟨rfl, users, hu, hv⟩

/-- A refresh handler that does anything deletes everything first. -/
theorem head_handle_refresh (reply : Reply) (h : handle true reply ≠ []) :
    (handle true reply).head? = some .deleteAll := by
  rcases handle_cases true reply with ⟨-, hd | ⟨-, hd⟩⟩ | ⟨users, -, hd⟩
  · exact absurd hd h
  · rw [hd]
    rfl
  · rw [hd]
    rfl

theorem storedIds_put (r : Realm) (u : RandomUserData) :
    storedIds (r.put u) = insert u.uuid (storedIds r) := by
  ext k
  simp [storedIds, Realm.put]

theorem mem_upTo_page {feed : Feed} {p m : Nat} {u : RandomUserData} (hp : p ≠ 0)
    (hu : u ∈ feed.page p) : u.uuid ∈ upTo feed.ids m ↔ p ≤ m := by
  have hid : u.uuid ∈ feed.ids p := Feed.mem_ids.mpr ⟨u, hu, rfl⟩
  constructor
  · intro hm
    by_contra hlt
    exact feed.paged.not_mem_upTo hid (by omega) hm
  · intro hle
    exact mem_upTo.mpr ⟨p, by omega, hle, hid⟩

/-! ## The handlers of a session -/

/-- A handler stores users of its own page in its own mode, and a refresh handler that has made
its wipe has nothing but the first page below it. -/
structure HandlerOk (feed : Feed) (r : Realm) (h : Running) : Prop where
  first : h.pending.update = true → h.pending.page = 1
  users : ∀ b u, .store b u ∈ h.todo →
    b = h.pending.update ∧ (h.pending.page ≠ 0 → u ∈ feed.page h.pending.page)
  wiped : h.pending.update = true →
    h.todo.head? = some .deleteAll ∨ storedIds r ⊆ feed.ids 1

structure Handlers (feed : Feed) (s : Session) : Prop where
  first : ∀ q ∈ s.inFlight, q.update = true → q.page = 1
  running : ∀ h, s.running = some h → HandlerOk feed s.realm h

theorem continueWith_eq_some {p : Pending} {todo : List Action} {h : Running}
    (hc : continueWith p todo = some h) : todo ≠ [] ∧ h = ⟨p, todo⟩ := by
  simp only [continueWith, Option.ite_none_left_eq_some, Option.some.injEq] at hc
  exact ⟨hc.1, hc.2.symm⟩

theorem handlers_addUsersData {feed : Feed} {s : Session} (hs : Handlers feed s) (update : Bool) :
    Handlers feed (addUsersData update s) where
  first := by
    intro q hq hu
    rcases List.mem_append.mp hq with hq | hq
    · exact hs.first q hq hu
    · obtain rfl := List.mem_singleton.mp hq
      obtain rfl : update = true := hu
      rfl
  running := hs.running

theorem handlers_start (feed : Feed) : Handlers feed start :=
  ⟨fun _ hq => absurd hq List.not_mem_nil, fun _ h => by cases h⟩

/-- A handler that has just started. -/
theorem handlerOk_handle {feed : Feed} {s : Session} (hs : Handlers feed s) {i : Nat}
    {reply : Reply} (ha : Allowed feed s (.reply i reply)) {p : Pending}
    (hp : s.inFlight[i]? = some p) (hne : handle p.update reply ≠ []) (r : Realm) :
    HandlerOk feed r ⟨p, handle p.update reply⟩ where
  first := hs.first p (List.mem_of_getElem? hp)
  users := by
    intro b u hu
    obtain ⟨hb, users, hr, hmem⟩ := mem_handle_store hu
    refine ⟨hb, fun h0 => ?_⟩
    exact (ha p hp users hr).resolve_left h0 ▸ hmem
  wiped := by
    intro hu
    have hu : p.update = true := hu
    rw [hu] at hne
    simp only [hu]
    exact Or.inl (head_handle_refresh reply hne)

section Runs

variable [Unicode]

/-- After any action of a refresh handler the store is a part of the first page. -/
theorem storedIds_perform_refresh {feed : Feed} {r t : Realm} {p : Pending} {a : Action}
    {todo : List Action} (h : HandlerOk feed r ⟨p, a :: todo⟩) (hu : p.update = true)
    (hp : a.perform false r = some t) : storedIds t ⊆ feed.ids 1 := by
  have hw := h.wiped hu
  cases a with
  | deleteAll =>
    obtain rfl : Realm.empty = t := Option.some.inj hp
    exact Finset.empty_subset _
  | store b u =>
    have hsub : storedIds r ⊆ feed.ids 1 := hw.resolve_left (by simp)
    have hone : p.page = 1 := h.first hu
    obtain ⟨hb, hmem⟩ := h.users b u List.mem_cons_self
    have hmem : u ∈ feed.page p.page := hmem (by simp [hone])
    have hb : b = true := hb.trans hu
    have hp : storeUser false b u r = some t := hp
    rw [hb, storeUser_update] at hp
    rw [← Option.some.inj hp, storedIds_put]
    rw [hone] at hmem
    exact Finset.insert_subset (Feed.mem_ids.mpr ⟨u, hmem, rfl⟩) hsub
  | endFetching =>
    obtain rfl : r = t := Option.some.inj hp
    exact hw.resolve_left (by simp)

/-- A handler that has done its next action. -/
theorem handlerOk_perform {feed : Feed} {r t : Realm} {p : Pending} {a : Action}
    {todo : List Action} (h : HandlerOk feed r ⟨p, a :: todo⟩)
    (hp : a.perform false r = some t) : HandlerOk feed t ⟨p, todo⟩ where
  first := h.first
  users := fun b u hu => h.users b u (List.mem_cons_of_mem a hu)
  wiped := fun hu => Or.inr (storedIds_perform_refresh h hu hp)

theorem handlers_step {feed : Feed} {s t : Session} {e : Event} (hs : Handlers feed s)
    (ha : Allowed feed s e) (h : step s e = some t) : Handlers feed t := by
  cases e with
  | viewDidLoad =>
    rw [(step_viewDidLoad h).2]
    exact ⟨(handlers_addUsersData hs false).first, hs.running⟩
  | scroll =>
    rw [(step_scroll h).2, scrollViewDidScroll]
    split
    · exact hs
    · exact handlers_addUsersData hs false
  | refresh =>
    rw [(step_refresh h).2]
    exact handlers_addUsersData hs true
  | advance =>
    rw [step_advance h]
    exact ⟨hs.first, hs.running⟩
  | reply i reply =>
    obtain ⟨p, hr, hp, rfl⟩ := step_reply h
    refine ⟨fun q hq => hs.first q (List.mem_of_mem_eraseIdx hq), fun h' hc => ?_⟩
    obtain ⟨hne, rfl⟩ := continueWith_eq_some hc
    exact handlerOk_handle hs ha hp hne s.realm
  | work fails =>
    obtain rfl : fails = false := ha
    obtain ⟨p, a, todo, realm, hr, hp, rfl⟩ := step_work h
    refine ⟨hs.first, fun h' hc => ?_⟩
    obtain ⟨-, rfl⟩ := continueWith_eq_some hc
    exact handlerOk_perform (hs.running _ hr) hp

/-! ## No hole -/

/-- A load-more stores the id of a user that passes the check. -/
theorem storedIds_storeUser {u : RandomUserData} {r s : Realm}
    (h : storeUser false false u r = some s) :
    storedIds s = if canonical u.uuid ∈ canonicalIds r then storedIds r
      else insert u.uuid (storedIds r) := by
  by_cases hk : canonical u.uuid ∈ canonicalIds r
  · rw [storeUser_known hk] at h
    rw [if_pos hk, Option.some.inj h]
  · rw [storeUser_new hk] at h
    rw [if_neg hk, addUser_eq_some h, storedIds_put]

theorem inStep_store {feed : Feed} {s : Session} {p : Pending} {u : RandomUserData}
    {todo : List Action} (hr : s.running = some ⟨p, .store false u :: todo⟩) (fails : Bool) :
    InStep feed s (.work fails) ↔
      if p.page = 0 then canonical u.uuid ∈ canonicalIds s.realm ∨
        u.uuid ∈ upTo feed.ids (s.realm.users.rows.length / 10 + 1)
      else p.page ≤ s.realm.users.rows.length / 10 + 1 := by
  constructor
  · intro hc
    exact hc p u todo hr
  · intro hc p' u' todo' hr'
    obtain ⟨rfl, rfl, -⟩ : p = p' ∧ u = u' ∧ todo = todo' := by simpa using hr.symm.trans hr'
    exact hc

theorem inStep_other {feed : Feed} {s : Session} {p : Pending} {a : Action}
    {todo : List Action} (hr : s.running = some ⟨p, a :: todo⟩) (ha : ∀ u, a ≠ .store false u)
    (fails : Bool) : InStep feed s (.work fails) := by
  intro p' u todo' hr'
  obtain ⟨-, hau, -⟩ : p = p' ∧ a = .store false u ∧ todo = todo' := by
    simpa using hr.symm.trans hr'
  exact absurd hau (ha u)

/-- Without a hole, a user of the feed who is skipped is stored, and so is not behind the page that
the count names. -/
theorem mem_upTo_of_known {feed : Feed} (hd : feed.Distinct) {s : Session} (hn : NoHole feed s)
    {p : Nat} (hp : p ≠ 0) {u : RandomUserData} (hu : u ∈ feed.page p)
    (hk : canonical u.uuid ∈ canonicalIds s.realm) :
    u.uuid ∈ upTo feed.ids (s.realm.users.rows.length / 10 + 1) := by
  have hsub := (feed.paged.noHole_count hn).2
  rw [card_storedIds] at hsub
  obtain ⟨k, hstored, hkey⟩ := List.mem_map.mp hk
  have hmem := hsub (List.mem_toFinset.mpr hstored)
  obtain ⟨q, hq, -, hkq⟩ := mem_upTo.mp hmem
  obtain ⟨v, hv, rfl⟩ := Feed.mem_ids.mp hkq
  rwa [hd p q (by omega) hq u hu v hv hkey.symm]

/-- From a state without a hole, a handler's action leaves none exactly when it is in step. -/
theorem noHole_work_iff {feed : Feed} (hd : feed.Distinct) {s : Session} (hn : NoHole feed s)
    {p : Pending} {a : Action} {todo : List Action} (hr : s.running = some ⟨p, a :: todo⟩)
    (hok : HandlerOk feed s.realm ⟨p, a :: todo⟩) {t : Realm}
    (hp : a.perform false s.realm = some t) (fails : Bool) :
    PagedCursor.NoHole feed.ids (storedIds t) ↔ InStep feed s (.work fails) := by
  cases a with
  | deleteAll =>
    obtain rfl : Realm.empty = t := Option.some.inj hp
    exact iff_of_true (noHole_first (Finset.empty_subset _)) (inStep_other hr (by simp) fails)
  | endFetching =>
    obtain rfl : s.realm = t := Option.some.inj hp
    exact iff_of_true hn (inStep_other hr (by simp) fails)
  | store b u =>
    obtain ⟨hb, hpage⟩ := hok.users b u List.mem_cons_self
    cases b with
    | true =>
      have hsub := storedIds_perform_refresh hok hb.symm hp
      exact iff_of_true (noHole_first hsub) (inStep_other hr (by simp) fails)
    | false =>
      have hp : storeUser false false u s.realm = some t := hp
      rw [inStep_store hr, storedIds_storeUser hp]
      by_cases hk : canonical u.uuid ∈ canonicalIds s.realm
      · rw [if_pos hk]
        refine iff_of_true hn ?_
        by_cases h0 : p.page = 0
        · rw [if_pos h0]
          exact Or.inl hk
        · rw [if_neg h0]
          exact (mem_upTo_page h0 (hpage h0)).mp (mem_upTo_of_known hd hn h0 (hpage h0) hk)
      · have hinsert := feed.paged.noHole_insert_iff hn u.uuid
        rw [card_storedIds] at hinsert
        rw [if_neg hk, hinsert]
        by_cases h0 : p.page = 0
        · rw [if_pos h0, or_iff_right hk]
        · rw [if_neg h0]
          exact mem_upTo_page h0 (hpage h0)

theorem noHole_step_iff {feed : Feed} (hd : feed.Distinct) {s t : Session} {e : Event}
    (hs : Handlers feed s) (hn : NoHole feed s) (ha : Allowed feed s e) (h : step s e = some t) :
    NoHole feed t ↔ InStep feed s e := by
  cases e with
  | viewDidLoad =>
    rw [(step_viewDidLoad h).2]
    exact iff_of_true hn trivial
  | scroll =>
    rw [(step_scroll h).2, scrollViewDidScroll]
    split <;> exact iff_of_true hn trivial
  | refresh =>
    rw [(step_refresh h).2]
    exact iff_of_true hn trivial
  | advance =>
    rw [step_advance h]
    exact iff_of_true hn trivial
  | reply i reply =>
    obtain ⟨p, -, -, rfl⟩ := step_reply h
    exact iff_of_true hn trivial
  | work fails =>
    obtain rfl : fails = false := ha
    obtain ⟨p, a, todo, realm, hr, hp, rfl⟩ := step_work h
    exact noHole_work_iff hd hn hr (hs.running _ hr) hp false

/-- The store never has a hole exactly when every load-more handler is in step with the store it
adds to. -/
theorem no_hole_iff (feed : Feed) (hd : feed.Distinct) (es : List Event)
    (h : Guarded step (Allowed feed) es start) :
    Always step (NoHole feed) es start ↔ Guarded step (InStep feed) es start :=
  always_iff_guarded_of (fun _ _ _ hs _ ha h => handlers_step hs ha h)
    (fun _ _ _ hs hn ha h => noHole_step_iff hd hs hn ha h) es (handlers_start feed)
    (noHole_first (Finset.empty_subset _)) h

end Runs

/-! ## A page that arrives too late -/

/-- The id of user `i` of page `p`. -/
def sampleId (p i : Nat) : String :=
  String.ofList (List.replicate p 'a' ++ List.replicate i 'b')

def sampleUser (p i : Nat) : RandomUserData := { login := some { uuid := some (sampleId p i) } }

theorem sampleId_inj {p q i j : Nat} (h : sampleId p i = sampleId q j) : p = q ∧ i = j := by
  have hl := String.ofList_inj.mp h
  have ha := congrArg (List.count 'a') hl
  have hb := congrArg (List.count 'b') hl
  simp [List.count_append, List.count_replicate] at ha hb
  exact ⟨ha, hb⟩

def sampleFeed : Feed where
  page p := (List.range 10).map (sampleUser p)
  ten := by
    intro p _
    simp
  present := by
    intro p _ u hu
    obtain ⟨i, -, rfl⟩ := List.mem_map.mp hu
    simp [sampleUser, RandomUserData.uuid]
  nodup := by
    intro p _
    rw [List.map_map]
    refine List.Nodup.map ?_ List.nodup_range
    intro i j h
    exact (sampleId_inj (Option.some.inj h)).2
  apart := by
    intro p q _ _ hne u hu v hv h
    obtain ⟨i, -, rfl⟩ := List.mem_map.mp hu
    obtain ⟨j, -, rfl⟩ := List.mem_map.mp hv
    exact hne (sampleId_inj (Option.some.inj h)).1

def sampleReply (p : Nat) : Reply := .ofIds ((List.range 10).map (sampleId p))

/-- A reply and the actions of its handler. -/
def handled (i : Nat) (reply : Reply) (actions : Nat) : List Event :=
  .reply i reply :: List.replicate actions (.work false)

/-- Two pages are loaded. The request for the third is out when a refresh is sent, and the refresh
is answered first. -/
def lateRun : List Event :=
  .viewDidLoad :: handled 0 (sampleReply 1) 11 ++ .advance ::
  .scroll :: handled 0 (sampleReply 2) 11 ++ .advance ::
  .scroll :: .refresh :: handled 1 (sampleReply 1) 12 ++ handled 0 (sampleReply 3) 11

instance (feed : Feed) (s : Session) : (e : Event) → Decidable (Allowed feed s e)
  | .reply i reply => inferInstanceAs (Decidable (∀ p ∈ s.inFlight[i]?, ∀ users ∈ reply.users,
      p.page = 0 ∨ users = feed.page p.page))
  | .work fails => inferInstanceAs (Decidable (fails = false))
  | .viewDidLoad => isTrue trivial
  | .scroll => isTrue trivial
  | .refresh => isTrue trivial
  | .advance => isTrue trivial

section Names

attribute [local instance] ascii

/-- ASCII strings are compared by their bytes. -/
theorem Feed.distinct_ascii (feed : Feed) : feed.Distinct := by
  intro p q _ _ u _ v _ h
  have hid : ∀ k, canonical k = k := fun k => Option.map_id'
  rwa [hid, hid] at h

theorem lateRun_allowed : Guarded step (Allowed sampleFeed) lateRun start := by
  decide +kernel

theorem no_hole_lateRun : Always step (NoHole sampleFeed) lateRun start ↔
    Guarded step (InStep sampleFeed) lateRun start :=
  no_hole_iff sampleFeed sampleFeed.distinct_ascii lateRun lateRun_allowed

/-- The late page ends up right behind the first one. -/
theorem late_page_leaves_hole : Guarded step (Allowed sampleFeed) lateRun start ∧
    ∃ s, exec step lateRun start = some s ∧ s.running = none ∧ ¬ NoHole sampleFeed s := by
  refine ⟨lateRun_allowed, ?_⟩
  have hrun : (exec step lateRun start).map (fun s => (s.running,
      decide (some (sampleId 3 0) ∈ s.realm.users.keys),
      decide (some (sampleId 2 0) ∈ s.realm.users.keys))) = some (none, true, false) := by
    decide +kernel
  obtain ⟨s, hs, hfacts⟩ := Option.map_eq_some_iff.mp hrun
  simp only [Prod.mk.injEq, decide_eq_true_eq, decide_eq_false_iff_not] at hfacts
  obtain ⟨hidle, hthird, hsecond⟩ := hfacts
  have hmem : ∀ p, some (sampleId p 0) ∈ sampleFeed.ids p := fun p =>
    Feed.mem_ids.mpr ⟨sampleUser p 0, List.mem_map.mpr ⟨0, by decide, rfl⟩, rfl⟩
  refine ⟨s, hs, hidle, sampleFeed.paged.hole (by decide) (by decide : 2 < 3) (hmem 3) ?_
    (hmem 2) ?_⟩
  · exact List.mem_toFinset.mpr hthird
  · exact fun h => hsecond (List.mem_toFinset.mp h)

end Names

end UsersListFeed
