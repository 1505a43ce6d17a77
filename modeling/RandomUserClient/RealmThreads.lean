import RandomUserClient.EventRuns
import RandomUserClient.RowLifetimes
import RandomUserClient.ChangeInFavoritesStatus
import RandomUserClient.RUCUsersListViewController

/-!
# The main thread beside a response handler

The handlers commit their transactions on the session queue. The main thread
reads the version it last advanced to, and beginning a write advances it to the
latest one. A star action looks its user up first and writes afterwards, and the
handler may commit in between. The user info screen holds the object it was
opened with for as long as it lives. Of the rows of the two lists, which they
keep for themselves, only the delegates of their cells matter here.
-/

namespace RealmThreads

open KeyedTable UsersViewModel UsersViewStructs RealmService RUCUsersListInfoController UserCells
open RUCUsersListViewController ChangeInFavoritesStatus RowLifetimes EventRuns

/-- A committed version of the file. `rows` and `toggles` are history: which commit created a row,
and how often a user was toggled since it was last created or overwritten. -/
structure Version where
  realm : Realm := .empty
  rows : Lifetimes Key := .start
  toggles : Key → Nat := fun _ => 0

/-- A managed object, and the number of wipes the version it was looked up in had seen. -/
structure Managed where
  id : Key
  row : Nat
  asOf : Nat
  deriving DecidableEq, Repr

/-- The object of a row. -/
def Version.managed (v : Version) (user : RandomUserDataRow) : Option Managed :=
  (v.rows.born user.id).map fun row => ⟨user.id, row, v.rows.wipes⟩

/-- Not invalidated: the row is still there. -/
def Managed.Valid (o : Managed) (v : Version) : Prop := v.rows.born o.id = some o.row

instance (o : Managed) (v : Version) : Decidable (o.Valid v) :=
  inferInstanceAs (Decidable (v.rows.born o.id = some o.row))

/-- A star action that has read the favourite flag of its user and has yet to write. -/
structure Toggle where
  object : Managed
  isInFavorites : String
  deriving DecidableEq, Repr

/-- What a star action holds of the user it has looked up. -/
def Version.toggling (v : Version) (user : RandomUserDataRow) : Option Toggle :=
  (v.managed user).map fun object => ⟨object, user.isInFavorites⟩

/-! ## The user info screen -/

structure RUCUserInfoViewController where
  userObjectId : String := ""
  userObject : Option Managed := none
  deriving DecidableEq, Repr

/-- `setup`: without a user of that id the screen keeps its unmanaged default object. -/
def RUCUserInfoViewController.setup (userObjectId : String) (v : Version) :
    RUCUserInfoViewController where
  userObjectId := userObjectId
  userObject := (getSpecificObject v.realm userObjectId).bind v.managed

/-- `cellsForRegister.count`. A cell of any of these sections reads a property of `userObject`. -/
def numberOfSections : Nat := 8

/-! ## The two threads -/

structure App where
  latest : Version := {}
  main : Version := {}
  todo : List Action := []
  screens : List RUCUserInfoViewController := []
  toggling : Option Toggle := none
  delegates : Tab → Nat → Bool := fun _ _ => false
  raised : Bool := false

def start : App := {}

/-- The star that was tapped: on a cell of a list, which has it on some row, or on one of the open
user info screens. -/
inductive Star where
  | row : Tab → Nat → Nat → Star
  | userInfo : Nat → Star
  deriving DecidableEq, Repr

/-- The user that a star action looks up in the version of the main thread. The star of a cell
without a delegate looks up none. -/
def changeInFavoritesStatus (s : App) : Star → Option (Option RandomUserDataRow)
  | .row tab cell row =>
    if s.delegates tab cell then tab.changeInFavoritesStatus row s.main.realm else some none
  | .userInfo i => s.screens[i]?.map fun screen =>
      userInfoChangeInFavoritesStatus screen.userObjectId s.main.realm

inductive Event where
  | handler : Bool → Reply → Event
  | work : Bool → Event
  | advance : Event
  | listCell : Tab → Nat → Nat → Event
  | openUserInfo : String → Event
  | userInfoCell : Nat → Nat → Event
  | star : Star → Event
  | write : Bool → Event

/-- The version after an action of the handler. -/
def Version.after [Unicode] (fails : Bool) (a : Action) (realm : Realm) (v : Version) : Version :=
  match a with
  | .deleteAll => if fails then v else { v with realm := realm, rows := v.rows.wipe }
  | .store update user =>
    if fails = true ∨ (update = false ∧ canonical user.uuid ∈ canonicalIds v.realm) then v
    else
      { realm := realm
        rows := v.rows.commit realm.users.keys
        toggles := fun k => if k = user.uuid then 0 else v.toggles k }
  | .endFetching => v

/-- The version after the write of a star action. -/
def Version.toggle (id : Key) (realm : Realm) (v : Version) : Version where
  realm := realm
  rows := v.rows.commit realm.users.keys
  toggles := fun k => if k = id then v.toggles k + 1 else v.toggles k

/-- The store with the opposite of the flag that a star action has read. -/
def Toggle.written (toggle : Toggle) (r : Realm) : Realm :=
  r.setIsInFavorites toggle.object.id (toggled toggle.isInFavorites)

/-- The transaction of `update(_:with:)`, on a main thread that beginning it has advanced. -/
def writeToggle (fails : Bool) (toggle : Toggle) (s : App) : Option App :=
  let s := { s with main := s.latest, toggling := none }
  if toggle.object.Valid s.latest then
    if fails then some s
    else (RealmService.update false toggle.object.id (toggled toggle.isInFavorites)
      s.latest.realm).map fun realm =>
        let v := s.latest.toggle toggle.object.id realm
        { s with latest := v, main := v }
  else some { s with raised := true }

/-- A dequeued cell of a list is bound to the record of a row. -/
def bindCell (F : Foundation) (tab : Tab) (cell : Nat) (rowItem : RandomUserDataRow) (s : App) :
    App :=
  { s with delegates := fun other n => s.delegates other n ||
      ((tab.cellForRow F s.main.realm rowItem).delegate && decide (other = tab ∧ n = cell)) }

/-- A cell of a user info screen reads `userObject`. -/
def cellForRow (screen : RUCUserInfoViewController) (s : App) : App :=
  match screen.userObject with
  | none => s
  | some object => if object.Valid s.main then s else { s with raised := true }

@[simp] theorem latest_cellForRow (screen : RUCUserInfoViewController) (s : App) :
    (cellForRow screen s).latest = s.latest := by
  unfold cellForRow
  split
  · rfl
  · split <;> rfl

/-- A step of the main thread, which a star action keeps busy until its write is done. -/
def onMainThread (s : App) (next : Option App) : Option App :=
  if s.toggling = none then next else none

theorem onMainThread_eq_some {s t : App} {next : Option App} (h : onMainThread s next = some t) :
    s.toggling = none ∧ next = some t := by
  simpa [onMainThread] using h

/-- Beginning the write advances the main thread; then the object is gone, or the transaction
fails, or the flag of the user is set. -/
theorem writeToggle_eq_some {s t : App} {fails : Bool} {toggle : Toggle}
    (h : writeToggle fails toggle s = some t) :
    (¬ toggle.object.Valid s.latest ∧
      t = { s with main := s.latest, toggling := none, raised := true }) ∨
    (toggle.object.Valid s.latest ∧ fails = true ∧
      t = { s with main := s.latest, toggling := none }) ∨
    (toggle.object.Valid s.latest ∧ fails = false ∧
      t = { s with
        latest := s.latest.toggle toggle.object.id (toggle.written s.latest.realm)
        main := s.latest.toggle toggle.object.id (toggle.written s.latest.realm)
        toggling := none }) := by
  unfold writeToggle at h
  by_cases hv : toggle.object.Valid s.latest
  · simp only [hv, if_true] at h
    cases fails with
    | true => exact Or.inr (Or.inl ⟨hv, rfl, (Option.some.inj h).symm⟩)
    | false => exact Or.inr (Or.inr ⟨hv, rfl, (Option.some.inj h).symm⟩)
  · simp only [hv, if_false] at h
    exact Or.inl ⟨hv, (Option.some.inj h).symm⟩

/-! ## Steps -/

variable [Unicode] (F : Foundation)

def act (s : App) : Event → Option App
  | .handler update reply =>
    if s.todo = [] then some { s with todo := handle update reply } else none
  | .work fails =>
    match s.todo with
    | [] => none
    | a :: todo => (a.perform fails s.latest.realm).map fun realm =>
        { s with latest := s.latest.after fails a realm, todo := todo }
  | .advance => onMainThread s (some { s with main := s.latest })
  | .listCell tab cell row => onMainThread s
      ((tab.results s.main.realm)[row]?.map fun rowItem => bindCell F tab cell rowItem s)
  | .openUserInfo id => onMainThread s
      (some { s with screens := s.screens ++ [.setup id s.main] })
  | .userInfoCell i sect => onMainThread s (s.screens[i]?.bind fun screen =>
      if sect < numberOfSections then some (cellForRow screen s) else none)
  | .star star => onMainThread s
      ((changeInFavoritesStatus s star).map fun user =>
        { s with toggling := user.bind s.main.toggling })
  | .write fails => s.toggling.bind fun toggle => writeToggle fails toggle s

/-- An exception ends the process. -/
def step (s : App) (e : Event) : Option App := if s.raised then none else act F s e

/-! ## What one step can do -/

variable {F}

theorem step_eq_some {s t : App} {e : Event} (h : step F s e = some t) :
    s.raised = false ∧ act F s e = some t := by
  simpa [step] using h

theorem step_handler {s t : App} {update : Bool} {reply : Reply}
    (h : step F s (.handler update reply) = some t) :
    t = { s with todo := handle update reply } := by
  have ha := (step_eq_some h).2
  simp only [act, Option.ite_none_right_eq_some, Option.some.injEq] at ha
  exact ha.2.symm

theorem step_work {s t : App} {fails : Bool} (h : step F s (.work fails) = some t) :
    ∃ a todo realm, s.todo = a :: todo ∧ a.perform fails s.latest.realm = some realm ∧
      t = { s with latest := s.latest.after fails a realm, todo := todo } := by
  have ha := (step_eq_some h).2
  simp only [act] at ha
  cases htodo : s.todo with
  | nil => simp [htodo] at ha
  | cons a todo =>
    simp only [htodo] at ha
    obtain ⟨realm, hp, rfl⟩ := Option.map_eq_some_iff.mp ha
    exact ⟨a, todo, realm, rfl, hp, rfl⟩

theorem step_advance {s t : App} (h : step F s .advance = some t) :
    s.toggling = none ∧ t = { s with main := s.latest } := by
  obtain ⟨hidle, ht⟩ := onMainThread_eq_some (step_eq_some h).2
  exact ⟨hidle, (Option.some.inj ht).symm⟩

theorem step_listCell {s t : App} {tab : Tab} {cell row : Nat}
    (h : step F s (.listCell tab cell row) = some t) :
    ∃ rowItem, t = bindCell F tab cell rowItem s := by
  have ha := onMainThread_eq_some (step_eq_some h).2
  obtain ⟨rowItem, -, rfl⟩ := Option.map_eq_some_iff.mp ha.2
  exact ⟨rowItem, rfl⟩

theorem step_openUserInfo {s t : App} {id : String} (h : step F s (.openUserInfo id) = some t) :
    t = { s with screens := s.screens ++ [.setup id s.main] } := by
  exact (Option.some.inj (onMainThread_eq_some (step_eq_some h).2).2).symm

theorem step_userInfoCell {s t : App} {i sect : Nat}
    (h : step F s (.userInfoCell i sect) = some t) :
    ∃ screen, s.screens[i]? = some screen ∧ t = cellForRow screen s := by
  have ha := onMainThread_eq_some (step_eq_some h).2
  obtain ⟨screen, hs, ht⟩ := Option.bind_eq_some_iff.mp ha.2
  simp only [Option.ite_none_right_eq_some, Option.some.injEq] at ht
  exact ⟨screen, hs, ht.2.symm⟩

/-- A star action holds what it has looked up in the version of the main thread. -/
theorem step_star {s t : App} {star : Star} (h : step F s (.star star) = some t) :
    ∃ user : Option RandomUserDataRow, t = { s with toggling := user.bind s.main.toggling } := by
  have ha := onMainThread_eq_some (step_eq_some h).2
  obtain ⟨user, -, rfl⟩ := Option.map_eq_some_iff.mp ha.2
  exact ⟨user, rfl⟩

theorem step_write {s t : App} {fails : Bool} (h : step F s (.write fails) = some t) :
    ∃ toggle, s.toggling = some toggle ∧ writeToggle fails toggle s = some t := by
  exact Option.bind_eq_some_iff.mp (step_eq_some h).2

end RealmThreads
