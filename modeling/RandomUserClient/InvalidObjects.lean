import RandomUserClient.RealmThreads

/-!
# Objects of deleted rows

A managed object is valid in a version exactly as long as no wipe lies between
the version it was looked up in and that one. The user info screen reads its
object in the version of the main thread, a star action writes to its object in
the latest one. So a session touches no invalid object exactly when each of
these steps sees the wipes that the lookup saw, and no more.
-/

namespace InvalidObjects

open KeyedTable UsersViewModel UsersViewStructs RealmService RUCUsersListViewController
open RowLifetimes Lifetimes RealmThreads EventRuns
open UserCells (Foundation sampleFoundation)

/-- The rows of a version are the rows of its users. -/
structure Synced (v : Version) : Prop where
  past : Past v.rows
  rows : ∀ k, (v.rows.born k).isSome ↔ k ∈ v.realm.users.keys

theorem synced_start : Synced {} where
  past := past_start
  rows := by
    intro k
    simp [Lifetimes.start, Realm.empty]

theorem keys_storeUser [Unicode] {fails update : Bool} {user : RandomUserData} {r s : Realm}
    (h : storeUser fails update user r = some s) {k : Key} (hk : k ∈ r.users.keys) :
    k ∈ s.users.keys := by
  rcases storeUser_eq_some h with rfl | rfl
  · exact hk
  · exact Table.mem_keys_upsert.mpr (Or.inr hk)

/-- A commit that keeps the keys there are. -/
theorem synced_commit {v : Version} (hv : Synced v) {realm : Realm} (toggles : Key → Nat) :
    Synced ⟨realm, v.rows.commit realm.users.keys, toggles⟩ where
  past := hv.past.commit _
  rows := isSome_born_commit _ _

theorem later_commit {u : Lifetimes Key} {v : Version} (hv : Synced v) (h : Later u v.rows)
    {realm : Realm} (hkeep : ∀ k, k ∈ v.realm.users.keys → k ∈ realm.users.keys) :
    Later u (v.rows.commit realm.users.keys) :=
  h.commit fun k hk => hkeep k ((hv.rows k).mp hk)

/-- An action of a handler leads to a later version. -/
theorem synced_after [Unicode] {v : Version} (hv : Synced v) {fails : Bool} {a : Action}
    {realm : Realm} (hp : a.perform fails v.realm = some realm) :
    Synced (v.after fails a realm) ∧
      ∀ u, Later u v.rows → Later u (v.after fails a realm).rows := by
  cases a with
  | endFetching => exact ⟨hv, fun _ h => h⟩
  | deleteAll =>
    cases fails with
    | true => exact ⟨hv, fun _ h => h⟩
    | false =>
      obtain rfl : Realm.empty = realm := Option.some.inj hp
      refine ⟨⟨past_wipe v.rows, fun k => ?_⟩, fun u h => h.wipe⟩
      simp [Version.after, Lifetimes.wipe, Realm.empty]
  | store update user =>
    by_cases hc : fails = true ∨ (update = false ∧ canonical user.uuid ∈ canonicalIds v.realm)
    · simp only [Version.after, if_pos hc]
      exact ⟨hv, fun _ h => h⟩
    · simp only [Version.after, if_neg hc]
      refine ⟨synced_commit hv _, fun u h => later_commit hv h fun k hk => ?_⟩
      have hp : storeUser fails update user v.realm = some realm := hp
      exact keys_storeUser hp hk

/-- So does the write of a star action. -/
theorem synced_toggle {v : Version} (hv : Synced v) (toggle : Toggle) :
    Synced (v.toggle toggle.object.id (toggle.written v.realm)) ∧ ∀ u, Later u v.rows →
      Later u (v.toggle toggle.object.id (toggle.written v.realm)).rows := by
  refine ⟨synced_commit hv _, fun u h => later_commit hv h fun k hk => ?_⟩
  rw [Toggle.written, keys_setIsInFavorites]
  exact hk

/-! ## Held objects -/

/-- An object that was looked up in a version with its number of wipes, which the two current
versions follow. -/
def Held (o : Managed) (main latest : Version) : Prop :=
  ∃ v, v.wipes = o.asOf ∧ v.born o.id = some o.row ∧ Later v main.rows ∧ Later v latest.rows

/-- The invariant of the two threads. -/
structure Threads (s : App) : Prop where
  latest : Synced s.latest
  main : Synced s.main
  behind : Later s.main.rows s.latest.rows
  screens : ∀ screen ∈ s.screens, ∀ o, screen.userObject = some o → Held o s.main s.latest
  toggling : ∀ toggle, s.toggling = some toggle → Held toggle.object s.main s.latest

theorem Held.valid_main {o : Managed} {main latest : Version} (h : Held o main latest) :
    o.Valid main ↔ main.rows.wipes = o.asOf := by
  obtain ⟨v, hw, hb, hm, -⟩ := h
  rw [← hw]
  exact hm.row o.id o.row hb

theorem Held.valid_latest {o : Managed} {main latest : Version} (h : Held o main latest) :
    o.Valid latest ↔ latest.rows.wipes = o.asOf := by
  obtain ⟨v, hw, hb, -, hl⟩ := h
  rw [← hw]
  exact hl.row o.id o.row hb

theorem Held.commit {o : Managed} {main latest latest' : Version} (h : Held o main latest)
    (hl : ∀ u, Later u latest.rows → Later u latest'.rows) : Held o main latest' := by
  obtain ⟨v, hw, hb, hm, hv⟩ := h
  exact ⟨v, hw, hb, hm, hl v hv⟩

theorem Held.advance {o : Managed} {main latest : Version} (h : Held o main latest) :
    Held o latest latest := by
  obtain ⟨v, hw, hb, -, hv⟩ := h
  exact ⟨v, hw, hb, hv, hv⟩

/-- An object that has just been looked up. -/
theorem held_managed {main latest : Version} (hm : Synced main)
    (hb : Later main.rows latest.rows) {user : RandomUserDataRow} {o : Managed}
    (ho : main.managed user = some o) : Held o main latest := by
  obtain ⟨row, hr, rfl⟩ := Option.map_eq_some_iff.mp ho
  exact ⟨main.rows, rfl, hr, hm.past.later, hb⟩

theorem held_toggling {main latest : Version} (hm : Synced main)
    (hb : Later main.rows latest.rows) {user : RandomUserDataRow} {toggle : Toggle}
    (ht : main.toggling user = some toggle) : Held toggle.object main latest := by
  obtain ⟨o, ho, rfl⟩ := Option.map_eq_some_iff.mp ht
  exact held_managed hm hb ho

theorem held_setup {main latest : Version} (hm : Synced main)
    (hb : Later main.rows latest.rows) {id : String} {o : Managed}
    (ho : (RUCUserInfoViewController.setup id main).userObject = some o) :
    Held o main latest := by
  obtain ⟨user, -, hu⟩ := Option.bind_eq_some_iff.mp ho
  exact held_managed hm hb hu

/-- The latest version moves on. -/
theorem Threads.commit {s : App} (hs : Threads s) {v : Version} (hv : Synced v)
    (hl : ∀ u, Later u s.latest.rows → Later u v.rows) (todo : List Action) :
    Threads { s with latest := v, todo := todo } where
  latest := hv
  main := hs.main
  behind := hl _ hs.behind
  screens := fun screen h o ho => (hs.screens screen h o ho).commit hl
  toggling := fun toggle h => (hs.toggling toggle h).commit hl

/-- The main thread catches up. -/
theorem Threads.advance {s : App} (hs : Threads s) : Threads { s with main := s.latest } where
  latest := hs.latest
  main := hs.latest
  behind := hs.latest.past.later
  screens := fun screen h o ho => (hs.screens screen h o ho).advance
  toggling := fun toggle h => (hs.toggling toggle h).advance

theorem threads_step [Unicode] {F : Foundation} {s t : App} {e : Event} (hs : Threads s)
    (h : step F s e = some t) :
    Threads t := by
  cases e with
  | handler update reply =>
    rw [step_handler h]
    exact ⟨hs.latest, hs.main, hs.behind, hs.screens, hs.toggling⟩
  | work fails =>
    obtain ⟨a, todo, realm, -, hp, rfl⟩ := step_work h
    obtain ⟨hv, hl⟩ := synced_after hs.latest hp
    exact hs.commit hv hl todo
  | advance =>
    rw [(step_advance h).2]
    exact hs.advance
  | listCell tab cell row =>
    obtain ⟨rowItem, rfl⟩ := step_listCell h
    exact ⟨hs.latest, hs.main, hs.behind, hs.screens, hs.toggling⟩
  | openUserInfo id =>
    rw [step_openUserInfo h]
    refine ⟨hs.latest, hs.main, hs.behind, fun screen hm o ho => ?_, hs.toggling⟩
    rcases List.mem_append.mp hm with hm | hm
    · exact hs.screens screen hm o ho
    · obtain rfl := List.mem_singleton.mp hm
      exact held_setup hs.main hs.behind ho
  | userInfoCell i sect =>
    obtain ⟨screen, -, rfl⟩ := step_userInfoCell h
    unfold cellForRow
    split
    · exact hs
    · split
      · exact hs
      · exact ⟨hs.latest, hs.main, hs.behind, hs.screens, hs.toggling⟩
  | star star =>
    obtain ⟨user, rfl⟩ := step_star h
    refine ⟨hs.latest, hs.main, hs.behind, hs.screens, fun toggle ht => ?_⟩
    obtain ⟨found, -, hf⟩ := Option.bind_eq_some_iff.mp ht
    exact held_toggling hs.main hs.behind hf
  | write fails =>
    obtain ⟨toggle, ht, hw⟩ := step_write h
    have ha := hs.advance
    rcases writeToggle_eq_some hw with ⟨-, rfl⟩ | ⟨-, -, rfl⟩ | ⟨-, -, rfl⟩
    · exact ⟨ha.latest, ha.main, ha.behind, ha.screens, fun _ h => by cases h⟩
    · exact ⟨ha.latest, ha.main, ha.behind, ha.screens, fun _ h => by cases h⟩
    · obtain ⟨hv, hl⟩ := synced_toggle hs.latest toggle
      have hc := (ha.commit hv hl s.todo).advance
      exact ⟨hc.latest, hc.main, hc.behind, hc.screens, fun _ h => by cases h⟩

/-! ## When an object is touched -/

/-- A cell is read before the main thread sees a wipe that its screen did not see when it was
opened, and a star action writes before a wipe is committed that its lookup did not see. -/
def Undisturbed (s : App) : Event → Prop
  | .userInfoCell i _ => ∀ screen, s.screens[i]? = some screen →
      ∀ o, screen.userObject = some o → s.main.rows.wipes = o.asOf
  | .write _ => ∀ toggle, s.toggling = some toggle → s.latest.rows.wipes = toggle.object.asOf
  | _ => True

/-- No object of a deleted row has been touched. -/
def Unraised (s : App) : Prop := s.raised = false

theorem cellForRow_iff {s : App} (hs : Threads s) (hr : Unraised s) {i sect : Nat}
    {screen : RUCUserInfoViewController} (hi : s.screens[i]? = some screen) :
    Unraised (cellForRow screen s) ↔ Undisturbed s (.userInfoCell i sect) := by
  have hcond : Undisturbed s (.userInfoCell i sect) ↔
      ∀ o, screen.userObject = some o → s.main.rows.wipes = o.asOf := by
    constructor
    · intro h
      exact h screen hi
    · intro h screen' hi'
      obtain rfl := Option.some.inj (hi.symm.trans hi')
      exact h
  rw [hcond]
  cases ho : screen.userObject with
  | none => simp [cellForRow, ho, hr]
  | some o =>
    have hv := (hs.screens screen (List.mem_of_getElem? hi) o ho).valid_main
    simp only [Option.some.injEq, forall_eq', ← hv, cellForRow, ho]
    by_cases h : o.Valid s.main
    · simp only [h, if_true, iff_true]
      exact hr
    · simp [h, Unraised]

theorem writeToggle_iff {s t : App} (hs : Threads s) (hr : Unraised s) {fails : Bool}
    {toggle : Toggle} (ht : s.toggling = some toggle) (h : writeToggle fails toggle s = some t) :
    Unraised t ↔ Undisturbed s (.write fails) := by
  have hv := (hs.toggling toggle ht).valid_latest
  have hcond : Undisturbed s (.write fails) ↔ toggle.object.Valid s.latest := by
    simp only [Undisturbed, ht, Option.some.injEq, forall_eq', hv]
  rw [hcond]
  rcases writeToggle_eq_some h with ⟨hno, rfl⟩ | ⟨hyes, -, rfl⟩ | ⟨hyes, -, rfl⟩
  · simp [hno, Unraised]
  · exact iff_of_true hr hyes
  · exact iff_of_true hr hyes

theorem unraised_step_iff [Unicode] {F : Foundation} {s t : App} {e : Event} (hs : Threads s)
    (hr : Unraised s) (h : step F s e = some t) : Unraised t ↔ Undisturbed s e := by
  cases e with
  | handler update reply =>
    rw [step_handler h]
    exact iff_of_true hr trivial
  | work fails =>
    obtain ⟨a, todo, realm, -, -, rfl⟩ := step_work h
    exact iff_of_true hr trivial
  | advance =>
    rw [(step_advance h).2]
    exact iff_of_true hr trivial
  | listCell tab cell row =>
    obtain ⟨rowItem, rfl⟩ := step_listCell h
    exact iff_of_true hr trivial
  | openUserInfo id =>
    rw [step_openUserInfo h]
    exact iff_of_true hr trivial
  | userInfoCell i sect =>
    obtain ⟨screen, hi, rfl⟩ := step_userInfoCell h
    exact cellForRow_iff hs hr hi
  | star star =>
    obtain ⟨user, rfl⟩ := step_star h
    exact iff_of_true hr trivial
  | write fails =>
    obtain ⟨toggle, ht, hw⟩ := step_write h
    exact writeToggle_iff hs hr ht hw

theorem threads_start : Threads start where
  latest := synced_start
  main := synced_start
  behind := past_start.later
  screens := fun _ h => absurd h List.not_mem_nil
  toggling := fun _ h => by cases h

/-- No screen ever touches an object of a deleted row exactly when no wipe comes between a lookup
and the reads and writes of its object. -/
theorem no_invalid_access_iff [Unicode] (F : Foundation) (es : List Event) :
    Always (step F) Unraised es start ↔ Guarded (step F) Undisturbed es start :=
  always_iff_guarded (fun _ _ _ hs _ h => threads_step hs h)
    (fun _ _ _ hs hr h => unraised_step_iff hs hr h) es threads_start rfl

section Names

attribute [local instance] ascii

/-- A user info screen is open when a refresh replaces the users, the shown one included; the next
section that scrolls in reads the object of the deleted row. -/
theorem refresh_invalidates_user_info :
    ∃ s, exec (step sampleFoundation) [.handler false (.ofIds ["a"]), .work false, .work false,
      .advance, .openUserInfo "a", .handler true (.ofIds ["a"]), .work false, .work false,
      .work false, .advance, .userInfoCell 0 4] start = some s ∧ ¬ Unraised s := by
  have hrun : (exec (step sampleFoundation) [.handler false (.ofIds ["a"]), .work false,
      .work false, .advance, .openUserInfo "a", .handler true (.ofIds ["a"]), .work false,
      .work false, .work false, .advance, .userInfoCell 0 4] start).map (·.raised) = some true := by
    decide +kernel
  obtain ⟨s, hs, hr⟩ := Option.map_eq_some_iff.mp hrun
  exact ⟨s, hs, by simp [Unraised, hr]⟩

end Names

end InvalidObjects
