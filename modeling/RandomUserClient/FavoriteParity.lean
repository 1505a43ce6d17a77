import RandomUserClient.InvalidObjects

/-!
# Favourites as parities

A user is created with the flag `"false"`, and an updating create of a refresh
sets it back. Each star action turns the flag it has read around. So the flag is
the parity of the toggles since then, as long as the flag that an action has read
is still the stored one when it writes: the read is outside the transaction.
-/

namespace FavoriteParity

open KeyedTable UsersViewModel UsersViewStructs RealmService RUCUsersListInfoController
open RUCUsersListViewController ChangeInFavoritesStatus RealmThreads InvalidObjects EventRuns
open UserCells (Foundation sampleFoundation)

/-- The flag after `n` toggles. -/
def parityFlag (n : Nat) : String := if n % 2 = 1 then "true" else "false"

theorem parityFlag_eq_true {n : Nat} : parityFlag n = "true" ↔ n % 2 = 1 := by
  by_cases h : n % 2 = 1 <;> simp [parityFlag, h]

/-- Turning a flag around makes it the next parity exactly when it is on at odd parity. -/
theorem toggled_eq_parityFlag {flag : String} {n : Nat} :
    toggled flag = parityFlag (n + 1) ↔ (flag = "true" ↔ n % 2 = 1) := by
  by_cases hf : flag = "true"
  · by_cases hn : n % 2 = 1
    · have hs : ¬ (n + 1) % 2 = 1 := by omega
      simp [toggled, parityFlag, hf, hn, hs]
    · have hs : (n + 1) % 2 = 1 := by omega
      simp [toggled, parityFlag, hf, hn, hs]
  · by_cases hn : n % 2 = 1
    · have hs : ¬ (n + 1) % 2 = 1 := by omega
      simp [toggled, parityFlag, hf, hn, hs]
    · have hs : (n + 1) % 2 = 1 := by omega
      simp [toggled, parityFlag, hf, hn, hs]

/-- Every flag is the parity of its user's toggles, and the favourites query selects the users with
an odd number of them. -/
structure ByParity (v : Version) : Prop where
  flags : ∀ user ∈ v.realm.users.rows, user.isInFavorites = parityFlag (v.toggles user.id)
  query : ∀ k, (∃ user ∈ favorites v.realm, user.id = k) ↔
    k ∈ v.realm.users.keys ∧ v.toggles k % 2 = 1

def FavoritesByParity (s : App) : Prop := ByParity s.latest

/-- A write of a star action that succeeds on a valid object finds the flag as it was read. -/
def ReadsCurrent (s : App) : Event → Prop
  | .write fails => fails = false → ∀ toggle, s.toggling = some toggle →
      toggle.object.Valid s.latest →
      ∀ user, s.latest.realm.users.find toggle.object.id = some user →
        (user.isInFavorites = "true" ↔ toggle.isInFavorites = "true")
  | _ => True

/-- The two stores differ at most in the flag of one user. -/
def OneField (id : Key) (r t : Realm) : Prop :=
  ∃ flag, t.users.rows = r.users.rows.map (fun user =>
    if user.id = id then { user with isInFavorites := flag } else user) ∧
    { t with users := r.users } = r

/-- A load-more leaves a user that its check finds stored alone, a star action writes one field of
its user, and no other step of the main thread writes anything. -/
def Confined [Unicode] (F : Foundation) (s : App) (e : Event) : Prop :=
  ∀ t, step F s e = some t → match e with
    | .work _ => ∀ user todo, s.todo = .store false user :: todo →
        canonical user.uuid ∈ canonicalIds s.latest.realm → t.latest = s.latest
    | .write _ => t.latest = s.latest ∨ ∃ toggle, s.toggling = some toggle ∧
        OneField toggle.object.id s.latest.realm t.latest.realm
    | _ => t.latest = s.latest

theorem byParity_of_flags {v : Version}
    (h : ∀ user ∈ v.realm.users.rows, user.isInFavorites = parityFlag (v.toggles user.id)) :
    ByParity v where
  flags := h
  query := by
    intro k
    simp only [favorites, getObjects, List.mem_filter, decide_eq_true_eq, Table.mem_keys]
    constructor
    · rintro ⟨user, ⟨hu, hf⟩, rfl⟩
      rw [h user hu, parityFlag_eq_true] at hf
      exact ⟨⟨user, hu, rfl⟩, hf⟩
    · rintro ⟨⟨user, hu, rfl⟩, hn⟩
      exact ⟨user, ⟨hu, by rw [h user hu]; exact parityFlag_eq_true.mpr hn⟩, rfl⟩

/-! ## The handlers -/

section Check

variable [Unicode]

/-- A store that is not skipped has put the ten rows of its user. -/
theorem storeUser_put {fails update : Bool} {user : RandomUserData} {r s : Realm}
    (hc : ¬ (fails = true ∨ (update = false ∧ canonical user.uuid ∈ canonicalIds r)))
    (h : storeUser fails update user r = some s) : s = r.put user := by
  cases fails with
  | true => exact absurd (Or.inl rfl) hc
  | false =>
    cases update with
    | true => exact (Option.some.inj (storeUser_update user r ▸ h)).symm
    | false =>
      have hk : canonical user.uuid ∉ canonicalIds r := fun hk => hc (Or.inr ⟨rfl, hk⟩)
      rw [storeUser_new hk] at h
      exact addUser_eq_some h

theorem byParity_after {v : Version} (hv : ByParity v) {fails : Bool} {a : Action} {realm : Realm}
    (hp : a.perform fails v.realm = some realm) : ByParity (v.after fails a realm) := by
  cases a with
  | endFetching => exact hv
  | deleteAll =>
    cases fails with
    | true => exact hv
    | false =>
      obtain rfl : Realm.empty = realm := Option.some.inj hp
      exact byParity_of_flags fun user hu => absurd hu List.not_mem_nil
  | store update user =>
    have hp : storeUser fails update user v.realm = some realm := hp
    by_cases hc : fails = true ∨ (update = false ∧ canonical user.uuid ∈ canonicalIds v.realm)
    · simp only [Version.after, if_pos hc]
      exact hv
    · obtain rfl := storeUser_put hc hp
      simp only [Version.after, if_neg hc]
      refine byParity_of_flags fun x hx => ?_
      rcases Table.mem_rows_upsert.mp hx with rfl | ⟨hx, hne⟩
      · -- the row is new or overwritten, and its count starts again
        have hid : (userRowOf user).id = user.uuid := rfl
        simp only [hid, if_true]
        rfl
      · have hne : x.id ≠ user.uuid := hne
        simp only [if_neg hne]
        exact hv.flags x hx

end Check

/-! ## The star actions -/

theorem oneField_written (toggle : Toggle) (r : Realm) :
    OneField toggle.object.id r (toggle.written r) :=
  ⟨toggled toggle.isInFavorites, rfl, rfl⟩

theorem byParity_toggle_iff {v : Version} (hv : ByParity v) {toggle : Toggle}
    {user : RandomUserDataRow} (hu : v.realm.users.find toggle.object.id = some user) :
    ByParity (v.toggle toggle.object.id (toggle.written v.realm)) ↔
      (user.isInFavorites = "true" ↔ toggle.isInFavorites = "true") := by
  obtain ⟨hmem, hid⟩ := Table.find_eq_some.mp hu
  have hid : user.id = toggle.object.id := hid
  have hflag : user.isInFavorites = "true" ↔ v.toggles toggle.object.id % 2 = 1 := by
    rw [hv.flags user hmem, hid, parityFlag_eq_true]
  have hnext : (user.isInFavorites = "true" ↔ toggle.isInFavorites = "true") ↔
      toggled toggle.isInFavorites = parityFlag (v.toggles toggle.object.id + 1) := by
    rw [toggled_eq_parityFlag, hflag]
    exact Iff.comm
  rw [hnext]
  constructor
  · intro hp
    have hrow := hp.flags { user with isInFavorites := toggled toggle.isInFavorites }
      (List.mem_map.mpr ⟨user, hmem, if_pos hid⟩)
    simpa [Version.toggle, hid] using hrow
  · intro hp
    refine byParity_of_flags fun x hx => ?_
    obtain ⟨y, hy, rfl⟩ := List.mem_map.mp hx
    by_cases hk : y.id = toggle.object.id
    · have hk' : primaryKey y = toggle.object.id := hk
      simp [Version.toggle, hk, hk', hp]
    · have hk' : ¬ primaryKey y = toggle.object.id := hk
      simp only [Version.toggle, hk, hk', if_false]
      exact hv.flags y hy

theorem byParity_write_iff {s t : App} (hs : Threads s) (hp : FavoritesByParity s) {fails : Bool}
    {toggle : Toggle} (ht : s.toggling = some toggle) (h : writeToggle fails toggle s = some t) :
    FavoritesByParity t ↔ ReadsCurrent s (.write fails) := by
  rcases writeToggle_eq_some h with ⟨hno, rfl⟩ | ⟨-, rfl, rfl⟩ | ⟨hyes, rfl, rfl⟩
  · refine iff_of_true hp fun _ toggle' ht' hv => ?_
    obtain rfl := Option.some.inj (ht.symm.trans ht')
    exact absurd hv hno
  · exact iff_of_true hp fun hf => by cases hf
  · have hkey : toggle.object.id ∈ s.latest.realm.users.keys :=
      (hs.latest.rows _).mp (by rw [hyes]; rfl)
    obtain ⟨user, hmem, hid⟩ := Table.mem_keys.mp hkey
    have hfind := Table.find_eq_some.mpr ⟨hmem, hid⟩
    have hcond : ReadsCurrent s (.write false) ↔
        (user.isInFavorites = "true" ↔ toggle.isInFavorites = "true") := by
      constructor
      · intro hc
        exact hc rfl toggle ht hyes user hfind
      · intro hc _ toggle' ht' _ user' hfind'
        obtain rfl := Option.some.inj (ht.symm.trans ht')
        obtain rfl := Option.some.inj (hfind.symm.trans hfind')
        exact hc
    rw [hcond]
    exact byParity_toggle_iff hp hfind

section Runs

variable [Unicode] {F : Foundation}

theorem byParity_step_iff {s t : App} {e : Event} (hs : Threads s) (hp : FavoritesByParity s)
    (h : step F s e = some t) : FavoritesByParity t ↔ ReadsCurrent s e := by
  cases e with
  | handler update reply =>
    rw [step_handler h]
    exact iff_of_true hp trivial
  | work fails =>
    obtain ⟨a, todo, realm, -, hr, rfl⟩ := step_work h
    exact iff_of_true (byParity_after hp hr) trivial
  | advance =>
    rw [(step_advance h).2]
    exact iff_of_true hp trivial
  | listCell tab cell row =>
    obtain ⟨rowItem, rfl⟩ := step_listCell h
    exact iff_of_true hp trivial
  | openUserInfo id =>
    rw [step_openUserInfo h]
    exact iff_of_true hp trivial
  | userInfoCell i sect =>
    obtain ⟨screen, -, rfl⟩ := step_userInfoCell h
    refine iff_of_true ?_ trivial
    rw [FavoritesByParity, latest_cellForRow]
    exact hp
  | star star =>
    obtain ⟨user, rfl⟩ := step_star h
    exact iff_of_true hp trivial
  | write fails =>
    obtain ⟨toggle, ht, hw⟩ := step_write h
    exact byParity_write_iff hs hp ht hw

theorem confined (s : App) (e : Event) : Confined F s e := by
  intro t h
  cases e with
  | handler update reply => rw [step_handler h]
  | work fails =>
    intro user todo htodo hk
    obtain ⟨a, todo', realm, ht, -, rfl⟩ := step_work h
    obtain ⟨rfl, rfl⟩ : a = .store false user ∧ todo' = todo := by simpa using ht.symm.trans htodo
    simp [Version.after, hk]
  | advance => rw [(step_advance h).2]
  | listCell tab cell row =>
    obtain ⟨rowItem, rfl⟩ := step_listCell h
    rfl
  | openUserInfo id => rw [step_openUserInfo h]
  | userInfoCell i sect =>
    obtain ⟨screen, -, rfl⟩ := step_userInfoCell h
    exact latest_cellForRow screen s
  | star star =>
    obtain ⟨user, rfl⟩ := step_star h
    rfl
  | write fails =>
    obtain ⟨toggle, ht, hw⟩ := step_write h
    rcases writeToggle_eq_some hw with ⟨-, rfl⟩ | ⟨-, -, rfl⟩ | ⟨-, -, rfl⟩
    · exact Or.inl rfl
    · exact Or.inl rfl
    · exact Or.inr ⟨toggle, ht, oneField_written toggle s.latest.realm⟩

end Runs

theorem byParity_start : FavoritesByParity start :=
  byParity_of_flags fun _ hu => absurd hu List.not_mem_nil

/-- Every flag is the parity of its user's toggles at every point of a run exactly when every star
action finds the flag that it has read; and no step writes more than it should. -/
theorem favorites_by_parity_iff [Unicode] (F : Foundation) (es : List Event) :
    (Always (step F) FavoritesByParity es start ↔ Guarded (step F) ReadsCurrent es start) ∧
      ∀ s e, Confined F s e :=
  ⟨always_iff_guarded (fun _ _ _ hs _ h => threads_step hs h)
    (fun _ _ _ hs hp h => byParity_step_iff hs hp h) es threads_start byParity_start, confined⟩

section Names

attribute [local instance] ascii

/-- A refresh delivers one user twice; the screen of the user is opened after the first create. -/
def deliveredTwice : List Event :=
  [.handler true (.ofIds ["v", "v"]), .work false, .work false, .advance, .openUserInfo "v",
    .star (.userInfo 0), .write false, .star (.userInfo 0), .work false, .write false]

/-- The user is toggled between the two creates, and toggled again across the second one: the flag
is `"false"` after one toggle since the overwrite. -/
theorem toggle_across_overwrite :
    ∃ s, exec (step sampleFoundation) deliveredTwice start = some s ∧ s.raised = false ∧
      ¬ FavoritesByParity s := by
  have hrun : (exec (step sampleFoundation) deliveredTwice start).map (fun s =>
      (s.raised, s.latest.realm.users.rows.map (·.isInFavorites),
        s.latest.realm.users.rows.map fun user => s.latest.toggles user.id)) =
      some (false, ["false"], [1]) := by
    decide +kernel
  obtain ⟨s, hs, hfacts⟩ := Option.map_eq_some_iff.mp hrun
  simp only [Prod.mk.injEq] at hfacts
  obtain ⟨hraised, hflags, hcounts⟩ := hfacts
  refine ⟨s, hs, hraised, fun hp => ?_⟩
  obtain ⟨user, hone⟩ := List.length_eq_one_iff.mp
    (by simpa using congrArg List.length hflags : s.latest.realm.users.rows.length = 1)
  have hparity := hp.flags user (by rw [hone]; exact List.mem_singleton_self user)
  simp only [hone, List.map_cons, List.map_nil, List.cons.injEq, and_true] at hflags hcounts
  rw [hflags, hcounts] at hparity
  exact absurd hparity (by decide)

end Names

end FavoriteParity
