import RandomUserClient.SequentialRounds
import RandomUserClient.StoredUsers
import RandomUserClient.UsersListFeed

/-!
# Page bounds

The page of a load-more is to lie between `firstPage` and `lastPage`, but the
limit is compared with the number of users, not of pages. Past it the page is 0,
which is meant to say that there is no next page, and which `addUsersData` sends
to the server like any other. So the bounds are kept exactly as long as there are
no more users than `lastPage`, and the pages behind the first thousand and one
are never asked for.
-/

namespace PageBounds

open UsersViewStructs RealmService RUCUsersListInfoController RUCUsersListViewController
open RealmObjectGraph StoredUsers UsersListSession SequentialRounds UsersListFeed PagedCursor
open EventRuns

/-- The requests that a load-more sends. -/
def sent (s : Session) : List Pending := (addUsersData false s).inFlight.drop s.inFlight.length

/-- A load-more keeps to the pages of the info controller, asks for none where there is no next
page, and goes on to the page behind the full ones. -/
structure Bounded (s : Session) : Prop where
  bounds : ∀ p ∈ sent s, s.info.firstPage ≤ p.page ∧ p.page ≤ s.info.lastPage
  marked : getNextPageIndex s.info s.main.users.rows.length 10 = 0 → sent s = []
  ended : 10 * s.info.lastPage ≤ s.main.users.rows.length → sent s = []
  next : ∀ (feed : Feed) (m : Nat), m < s.info.lastPage → storedIds s.main = upTo feed.ids m →
    (sent s).map (·.page) = [m + 1]

/-- There is always one request. -/
@[simp] theorem sent_eq (s : Session) : sent s = [⟨false, nextPage s⟩] := by
  rw [sent, inFlight_addUsersData, List.drop_left]

/-! ## The limits are constants -/

/-- The limits that the info controller starts with. -/
def Limits (s : Session) : Prop := s.info.firstPage = 1 ∧ s.info.lastPage = 10000

theorem limits_step [Unicode] (s : Session) (e : Event) (t : Session) (hs : Limits s)
    (h : step s e = some t) : Limits t := by
  cases e with
  | viewDidLoad =>
    obtain ⟨-, rfl⟩ := step_viewDidLoad h
    exact hs
  | scroll =>
    obtain ⟨-, rfl⟩ := step_scroll h
    rw [scrollViewDidScroll]
    split <;> exact hs
  | refresh =>
    obtain ⟨-, rfl⟩ := step_refresh h
    exact hs
  | advance =>
    obtain rfl := step_advance h
    exact hs
  | reply i reply =>
    obtain ⟨p, -, -, rfl⟩ := step_reply h
    exact hs
  | work fails =>
    obtain ⟨p, a, todo, realm, -, -, rfl⟩ := step_work h
    exact hs

theorem limits_run [Unicode] (r : Realm) (es : List Event) {s : Session}
    (h : exec step es (opened r) = some s) : Limits s :=
  exec_invariant limits_step es ⟨rfl, rfl⟩ h

/-! ## What is asked for -/

/-- Past the limit the marker is sent as a page. -/
theorem nextPage_past {s : Session} (h : s.info.lastPage < s.main.users.rows.length) :
    nextPage s = 0 := by
  rw [nextPage, getNextPageIndex, if_neg (by omega), if_neg (by omega)]

/-- Full pages are counted as pages, as long as their users are within the limit. -/
theorem nextPage_full {s : Session} {feed : Feed} {m : Nat}
    (h : storedIds s.main = upTo feed.ids m)
    (hlimit : s.main.users.rows.length ≤ s.info.lastPage) : nextPage s = m + 1 := by
  have hcount : s.main.users.rows.length = 10 * m := by
    rw [← card_storedIds, h, feed.paged.card_upTo]
  rw [nextPage, getNextPageIndex_eq s.info hlimit, hcount]
  omega

/-- No page behind the first thousand and one is ever asked for. -/
theorem nextPage_le {s : Session} (hs : Limits s) : nextPage s ≤ 1001 := by
  have hlast : s.info.lastPage = 10000 := hs.2
  by_cases h : s.main.users.rows.length ≤ s.info.lastPage
  · rw [nextPage, getNextPageIndex_eq s.info h]
    omega
  · rw [nextPage_past (by omega)]
    omega

theorem bounded_of_le {s : Session} (hs : Limits s)
    (h : s.main.users.rows.length ≤ s.info.lastPage) : Bounded s where
  bounds := by
    intro p hp
    obtain rfl : p = ⟨false, nextPage s⟩ := by simpa using hp
    have hle := nextPage_le hs
    have hpage : nextPage s = s.main.users.rows.length / 10 + 1 := getNextPageIndex_eq s.info h
    obtain ⟨hfirst, hlast⟩ := hs
    dsimp only
    omega
  marked := by
    intro hzero
    rw [getNextPageIndex_eq s.info h] at hzero
    omega
  ended := by
    intro hall
    obtain ⟨-, hlast⟩ := hs
    omega
  next := by
    intro feed m _ hfull
    rw [sent_eq, List.map_singleton, nextPage_full hfull h]

theorem past_limit {s : Session} (hs : Limits s)
    (h : s.info.lastPage < s.main.users.rows.length) : sent s = [⟨false, 0⟩] ∧ ¬ Bounded s := by
  have hsent : sent s = [⟨false, 0⟩] := by rw [sent_eq, nextPage_past h]
  refine ⟨hsent, fun hb => ?_⟩
  have hfirst : s.info.firstPage ≤ 0 := (hb.bounds ⟨false, 0⟩ (by rw [hsent]; simp)).1
  have hone : s.info.firstPage = 1 := hs.1
  omega

/-- At any time of any session, a load-more keeps to the bounds exactly when there are no more users
than `lastPage`. -/
theorem page_bounds_iff [Unicode] (r : Realm) (es : List Event) (s : Session)
    (h : exec step es (opened r) = some s) :
    Bounded s ↔ s.main.users.rows.length ≤ s.info.lastPage := by
  have hs := limits_run r es h
  constructor
  · intro hb
    by_contra hlt
    exact (past_limit hs (Nat.lt_of_not_le hlt)).2 hb
  · exact bounded_of_le hs

section Names

attribute [local instance] ascii

/-- A load-more that brings one new user, on a store with one user. -/
def loadedMore : List Event :=
  [.viewDidLoad, .reply 0 (.ofIds ["a", "b"]), .work false, .work false, .work false, .advance]

/-- What it leaves. -/
def twoUsers : Session :=
  { opened ((Realm.empty.put (.ofId "a")).put (.ofId "b")) with loaded := true }

theorem page_bounds_twoUsers : exec step loadedMore (opened (Realm.empty.put (.ofId "a"))) =
    some twoUsers ∧ (Bounded twoUsers ↔
      twoUsers.main.users.rows.length ≤ twoUsers.info.lastPage) :=
  ⟨rfl, page_bounds_iff (Realm.empty.put (.ofId "a")) loadedMore twoUsers rfl⟩

end Names

/-- As many users as are on a thousand and one pages. -/
def manyUsers : Realm := ((List.range 10010).map (sampleUser 0)).foldl Realm.put .empty

theorem length_manyUsers : manyUsers.users.rows.length = 10010 := by
  have hnodup : (((List.range 10010).map (sampleUser 0)).map (·.uuid)).Nodup := by
    rw [List.map_map]
    refine List.Nodup.map (fun i j h => ?_) List.nodup_range
    exact (sampleId_inj (Option.some.inj h)).2
  have hlacks : ∀ u : RandomUserData, Realm.empty.Lacks u.uuid := fun u =>
    objectGraph_empty.lacks (by simp [Realm.empty])
  rw [manyUsers, (appended_new hnodup fun u _ => hlacks u).users]
  simp [Realm.empty]

/-- With so many users a load-more asks for page 0. -/
theorem page_zero_sent :
    sent (opened manyUsers) = [⟨false, 0⟩] ∧ ¬ Bounded (opened manyUsers) := by
  have hpast : ∀ r : Realm, 10000 < r.users.rows.length →
      sent (opened r) = [⟨false, 0⟩] ∧ ¬ Bounded (opened r) := fun r hr =>
    past_limit ⟨rfl, rfl⟩ hr
  refine hpast manyUsers ?_
  rw [length_manyUsers]
  decide

end PageBounds
