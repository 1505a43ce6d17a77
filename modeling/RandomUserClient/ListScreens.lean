import RandomUserClient.EventRuns
import RandomUserClient.ListBatches
import RandomUserClient.ChangeInFavoritesStatus

/-!
# The two list screens

The users list and the favourites list show the same store. Each table keeps its
own rows: how many there are, and which cell is on a row, requested for which
user. A star writes at once and the live results change with it; the tables
follow when their change notification is delivered, or when their screen appears
and reloads. A table that is loaded, at any time, starts with the first call of its
observe callback. A cell that leaves the screen is used again and keeps its
delegate. Everything here happens on the main thread, one event at a time.
-/

namespace ListScreens

open KeyedTable UsersViewModel RealmService UserCells ChangeInFavoritesStatus ListBatches
open EventRuns

/-- `numberOfRowsInSection`. The favourites list counts its lazy filter. -/
def numberOfRows : Tab → Realm → Nat
  | .usersList, r => (getObjects r).length
  | .favoritesList, r => ((favorites r).filter fun user => user.isInFavorites = "true").length

/-- What is on a row: the user it was requested for, and which reusable cell it is; none for a
plain cell, which has no star. -/
structure RowCell where
  user : Key
  cell : Option Nat
  deriving DecidableEq, Repr

/-- A table view. `delivered` is the contents at the last delivery, `touched` the users modified
since then, and `reloaded` the row count of the last reload since then. -/
structure TableView where
  rows : List (Option RowCell)
  delivered : List Key
  touched : List Key := []
  reloaded : Option Nat := none
  deriving DecidableEq, Repr

/-- A reusable cell is on one of the rows. -/
def TableView.Displays (v : TableView) (cell : Nat) : Prop :=
  some cell ∈ v.rows.map fun shown => shown.bind (·.cell)

instance (v : TableView) (cell : Nat) : Decidable (v.Displays cell) :=
  inferInstanceAs (Decidable (some cell ∈ v.rows.map fun shown => shown.bind (·.cell)))

/-- The screens. `delegates` tells the cells of each table whose delegate has been set. -/
structure Screens where
  realm : Realm
  views : Tab → TableView
  delegates : Tab → Nat → Bool := fun _ _ => false
  opened : Option String := none
  raised : Bool := false
  aborted : Bool := false

/-- A table after the first call of its observe callback, which reloads it. -/
def TableView.initial (tab : Tab) (r : Realm) : TableView where
  rows := List.replicate (numberOfRows tab r) none
  delivered := (tab.results r).map (·.id)

/-- Both tables have loaded what is stored. -/
def start (r : Realm) : Screens where
  realm := r
  views tab := .initial tab r

inductive Event where
  | star : Tab → Nat → Event
  | starUserInfo : String → Event
  | select : Tab → Nat → Event
  | cell : Tab → Nat → Nat → Event
  | hide : Tab → Nat → Event
  | initial : Tab → Event
  | appear : Tab → Event
  | deliver : Tab → Event

def Screens.cellAt (s : Screens) (tab : Tab) (row : Nat) : Option RowCell :=
  ((s.views tab).rows[row]?).join

/-- The user that a row shows, if a cell is on screen for it. -/
def Screens.shows (s : Screens) (tab : Tab) (row : Nat) : Option Key :=
  (s.cellAt tab row).map (·.user)

/-- The star on a row: that of a reusable cell. -/
def Screens.starAt (s : Screens) (tab : Tab) (row : Nat) : Option Nat :=
  (s.cellAt tab row).bind (·.cell)

/-- The row has a star that reaches its controller. -/
def Screens.Live (s : Screens) (tab : Tab) (row : Nat) : Prop :=
  (s.starAt tab row).any (s.delegates tab) = true

instance (s : Screens) (tab : Tab) (row : Nat) : Decidable (s.Live tab row) :=
  inferInstanceAs (Decidable (_ = true))

def Screens.setView (s : Screens) (tab : Tab) (v : TableView) : Screens :=
  { s with views := Function.update s.views tab v }

def Screens.setRow (s : Screens) (tab : Tab) (row : Nat) (shown : Option RowCell) : Screens :=
  s.setView tab { s.views tab with rows := (s.views tab).rows.set row shown }

/-- The write that ends a star action. -/
def writeStar (user : RandomUserDataRow) (s : Screens) : Option Screens :=
  (RealmService.update false user.id (toggled user.isInFavorites) s.realm).map fun realm =>
    { s with
      realm := realm
      views := fun tab => { s.views tab with touched := user.id :: (s.views tab).touched } }

/-- The star action of a list, on the row that the table has for the cell. -/
def pressStar (tab : Tab) (row : Nat) (s : Screens) : Option Screens :=
  match tab.changeInFavoritesStatus row s.realm with
  | none => some { s with raised := true }
  | some none => some s
  | some (some user) => writeStar user s

/-- A change notification is delivered. There is none when nothing changed. -/
def deliver (tab : Tab) (s : Screens) : Option Screens :=
  let v := s.views tab
  let live := (tab.results s.realm).map (·.id)
  let batch := between v.delivered live v.touched
  let count := numberOfRows tab s.realm
  if batch.IsEmpty then none
  else if batch.Consistent v.rows.length count then
    some (s.setView tab { rows := batch.apply count v.rows, delivered := live })
  else some { s with aborted := true }

variable (F : Foundation)

/-- A row gets what `cellForRowAt` returns: the dequeued cell, bound to the record, or a plain
one. -/
def bindCell (tab : Tab) (row cell : Nat) (rowItem : RandomUserDataRow) (s : Screens) : Screens :=
  let b := tab.cellForRow F s.realm rowItem
  { s.setRow tab row (some ⟨rowItem.id, b.cell.map fun _ => cell⟩) with
    delegates := fun other n =>
      s.delegates other n || (b.delegate && decide (other = tab ∧ n = cell)) }

def act (s : Screens) : Event → Option Screens
  | .star tab row =>
    match s.starAt tab row with
    | none => none
    | some cell => if s.delegates tab cell then pressStar tab row s else some s
  | .starUserInfo userObjectId =>
    match userInfoChangeInFavoritesStatus userObjectId s.realm with
    | none => some s
    | some user => writeStar user s
  | .select tab row =>
    if s.shows tab row = none then none
    else match (tab.results s.realm)[row]? with
      | none => some { s with raised := true }
      | some selectedUser => some { s with opened := some (selectedUser.id.getD "") }
  | .cell tab row cell =>
    -- a cell that is on screen is not dequeued
    if row < (s.views tab).rows.length ∧ ¬ (s.views tab).Displays cell then
      match (tab.results s.realm)[row]? with
      | none => some { s with raised := true }
      | some rowItem => some (bindCell F tab row cell rowItem s)
    else none
  | .hide tab row => some (s.setRow tab row none)
  | .initial tab => some (s.setView tab (.initial tab s.realm))
  | .appear tab => some (s.setView tab { s.views tab with
      rows := List.replicate (numberOfRows tab s.realm) none
      reloaded := some (numberOfRows tab s.realm) })
  | .deliver tab => deliver tab s

/-- An index out of range and an inconsistent batch end the process. -/
def step (s : Screens) (e : Event) : Option Screens :=
  if s.raised = true ∨ s.aborted = true then none else act F s e

/-! ## The live results -/

theorem numberOfRows_eq (tab : Tab) (r : Realm) :
    numberOfRows tab r = (tab.results r).length := by
  cases tab with
  | usersList => rfl
  | favoritesList =>
    simp only [numberOfRows, Tab.results, favorites, List.filter_filter, Bool.and_self]

theorem nodup_rows (r : Realm) : r.users.rows.Nodup := r.users.nodup.of_map

theorem nodup_results (tab : Tab) (r : Realm) : ((tab.results r).map (·.id)).Nodup := by
  cases tab with
  | usersList => exact r.users.nodup
  | favoritesList => exact r.users.nodup.sublist (List.filter_sublist.map _)

theorem mem_results {tab : Tab} {r : Realm} {user : RandomUserDataRow}
    (h : user ∈ tab.results r) : user ∈ r.users.rows := by
  cases tab with
  | usersList => exact h
  | favoritesList => exact (List.mem_filter.mp h).1

/-- The flag of one user turned around. -/
def flipped (id : Key) (r : Realm) : Realm where
  users := r.users.modify id
    (fun user => { user with isInFavorites := toggled user.isInFavorites }) fun _ => rfl
  names := r.names
  locations := r.locations
  coordinates := r.coordinates
  timezones := r.timezones
  logins := r.logins
  dobs := r.dobs
  registereds := r.registereds
  dataIds := r.dataIds
  pictures := r.pictures

@[simp] theorem keys_flipped (id : Key) (r : Realm) :
    (flipped id r).users.keys = r.users.keys := by
  simp only [flipped, Table.keys_modify]

/-- A star action on a stored user turns its flag around. -/
theorem update_flipped {user : RandomUserDataRow} {r : Realm} (h : user ∈ r.users.rows) :
    RealmService.update false user.id (toggled user.isInFavorites) r =
      some (flipped user.id r) := by
  simp only [update_false, Realm.setIsInFavorites, flipped]
  congr 2
  refine Table.modify_congr fun x hx hk => ?_
  rw [Table.row_unique hx h hk]

/-- Turning the flag of a stored user around shows whose flag it was. -/
theorem flipped_inj {u v : Key} {r : Realm} (hv : v ∈ r.users.keys)
    (h : flipped v r = flipped u r) : v = u := by
  by_contra hne
  obtain ⟨user, hmem, rfl⟩ := Table.mem_keys.mp hv
  have hfind := Table.find_eq_some.mpr ⟨hmem, rfl⟩
  have hcong := congrArg (fun r => r.users.find (primaryKey user)) h
  simp only [flipped, Table.find_modify, if_true, if_neg hne, hfind, Option.map_some,
    Option.some.injEq] at hcong
  exact toggled_ne _ (congrArg RandomUserDataRow.isInFavorites hcong)

/-- Turning the flag of a stored user around is not nothing. -/
theorem flipped_ne {v : Key} {r : Realm} (hv : v ∈ r.users.keys) : flipped v r ≠ r := by
  intro h
  obtain ⟨user, hmem, rfl⟩ := Table.mem_keys.mp hv
  have hfind := Table.find_eq_some.mpr ⟨hmem, rfl⟩
  have hcong := congrArg (fun r => r.users.find (primaryKey user)) h
  simp only [flipped, Table.find_modify, if_true, hfind, Option.map_some,
    Option.some.injEq] at hcong
  exact toggled_ne _ (congrArg RandomUserDataRow.isInFavorites hcong)

/-! ## What one step can do -/

variable {F}

theorem step_eq_some {s t : Screens} {e : Event} (h : step F s e = some t) :
    s.raised = false ∧ s.aborted = false ∧ act F s e = some t := by
  simpa [step, and_assoc] using h

/-- The store after the write of a star action, and the tables told of it. -/
def starred (id : Key) (s : Screens) : Screens :=
  { s with
    realm := flipped id s.realm
    views := fun tab => { s.views tab with touched := id :: (s.views tab).touched } }

theorem writeStar_eq {user : RandomUserDataRow} {s : Screens} (h : user ∈ s.realm.users.rows) :
    writeStar user s = some (starred user.id s) := by
  rw [writeStar, update_flipped h]
  rfl

/-- A star finds its user by the id it has read off the row, so it acts on the user at that
position of the results. -/
theorem pressStar_eq_some {s t : Screens} {tab : Tab} {row : Nat}
    (h : pressStar tab row s = some t) :
    ((tab.results s.realm)[row]? = none ∧ t = { s with raised := true }) ∨
    (∃ user, (tab.results s.realm)[row]? = some user ∧
      t = if user.id = none then s else starred user.id s) := by
  simp only [pressStar, changeInFavoritesStatus_eq, selectedUser] at h
  cases hrow : (tab.results s.realm)[row]? with
  | none =>
    simp only [hrow, Option.map_none, Option.some.injEq] at h
    exact Or.inl ⟨rfl, h.symm⟩
  | some user =>
    refine Or.inr ⟨user, rfl, ?_⟩
    have hmem := mem_results (List.mem_of_getElem? hrow)
    cases hid : user.id with
    | none =>
      simp only [hrow, Option.map_some, hid, Option.bind_none, Option.some.injEq] at h
      simpa using h.symm
    | some id =>
      have hfind : getSpecificObject s.realm id = some user :=
        Table.find_eq_some.mpr ⟨hmem, hid⟩
      simp only [hrow, Option.map_some, hid, Option.bind_some, hfind, writeStar_eq hmem,
        Option.some.injEq] at h
      simpa using h.symm

/-- A star whose cell has no delegate does nothing. -/
theorem step_star {s t : Screens} {tab : Tab} {row : Nat}
    (h : step F s (.star tab row) = some t) :
    s.shows tab row ≠ none ∧
    ((¬ s.Live tab row ∧ t = s) ∨ (s.Live tab row ∧ pressStar tab row s = some t)) := by
  obtain ⟨-, -, ha⟩ := step_eq_some h
  simp only [act] at ha
  cases hstar : s.starAt tab row with
  | none =>
    rw [hstar] at ha
    cases ha
  | some cell =>
    rw [hstar] at ha
    have hshows : s.shows tab row ≠ none := by
      intro hnone
      have hcell := Option.map_eq_none_iff.mp hnone
      rw [Screens.starAt, hcell] at hstar
      cases hstar
    have hlive : s.Live tab row ↔ s.delegates tab cell = true := by
      rw [Screens.Live, hstar, Option.any_some]
    refine ⟨hshows, ?_⟩
    cases hd : s.delegates tab cell with
    | false =>
      simp only [hd, Bool.false_eq_true, if_false, Option.some.injEq] at ha
      exact Or.inl ⟨by simp [hlive, hd], ha.symm⟩
    | true =>
      simp only [hd, if_true] at ha
      exact Or.inr ⟨hlive.mpr hd, ha⟩

theorem step_starUserInfo {s t : Screens} {id : String} (h : step F s (.starUserInfo id) = some t) :
    t = s ∨ t = starred (some id) s := by
  obtain ⟨-, -, ha⟩ := step_eq_some h
  simp only [act, userInfoChangeInFavoritesStatus] at ha
  cases hfind : getSpecificObject s.realm id with
  | none =>
    simp only [hfind, Option.some.injEq] at ha
    exact Or.inl ha.symm
  | some user =>
    obtain ⟨hmem, hid⟩ := Table.find_eq_some.mp hfind
    have hid : user.id = some id := hid
    simp only [hfind, writeStar_eq hmem, hid, Option.some.injEq] at ha
    exact Or.inr ha.symm

theorem step_select {s t : Screens} {tab : Tab} {row : Nat}
    (h : step F s (.select tab row) = some t) :
    s.shows tab row ≠ none ∧
    (((tab.results s.realm)[row]? = none ∧ t = { s with raised := true }) ∨
    (∃ user, (tab.results s.realm)[row]? = some user ∧
      t = { s with opened := some (user.id.getD "") })) := by
  obtain ⟨-, -, ha⟩ := step_eq_some h
  simp only [act, Option.ite_none_left_eq_some] at ha
  obtain ⟨hshows, ha⟩ := ha
  refine ⟨hshows, ?_⟩
  cases hrow : (tab.results s.realm)[row]? with
  | none =>
    simp only [hrow, Option.some.injEq] at ha
    exact Or.inl ⟨rfl, ha.symm⟩
  | some user =>
    simp only [hrow, Option.some.injEq] at ha
    exact Or.inr ⟨user, rfl, ha.symm⟩

theorem step_cell {s t : Screens} {tab : Tab} {row cell : Nat}
    (h : step F s (.cell tab row cell) = some t) :
    row < (s.views tab).rows.length ∧
    (((tab.results s.realm)[row]? = none ∧ t = { s with raised := true }) ∨
    (∃ user, (tab.results s.realm)[row]? = some user ∧ t = bindCell F tab row cell user s)) := by
  obtain ⟨-, -, ha⟩ := step_eq_some h
  simp only [act, Option.ite_none_right_eq_some] at ha
  obtain ⟨⟨hlen, -⟩, ha⟩ := ha
  refine ⟨hlen, ?_⟩
  cases hrow : (tab.results s.realm)[row]? with
  | none =>
    simp only [hrow, Option.some.injEq] at ha
    exact Or.inl ⟨rfl, ha.symm⟩
  | some user =>
    simp only [hrow, Option.some.injEq] at ha
    exact Or.inr ⟨user, rfl, ha.symm⟩

theorem step_hide {s t : Screens} {tab : Tab} {row : Nat} (h : step F s (.hide tab row) = some t) :
    t = s.setRow tab row none := by
  obtain ⟨-, -, ha⟩ := step_eq_some h
  exact (Option.some.inj ha).symm

theorem step_initial {s t : Screens} {tab : Tab} (h : step F s (.initial tab) = some t) :
    t = s.setView tab (.initial tab s.realm) := by
  obtain ⟨-, -, ha⟩ := step_eq_some h
  exact (Option.some.inj ha).symm

theorem step_appear {s t : Screens} {tab : Tab} (h : step F s (.appear tab) = some t) :
    t = s.setView tab { s.views tab with
      rows := List.replicate (numberOfRows tab s.realm) none
      reloaded := some (numberOfRows tab s.realm) } := by
  obtain ⟨-, -, ha⟩ := step_eq_some h
  exact (Option.some.inj ha).symm

theorem step_deliver {s t : Screens} {tab : Tab} (h : step F s (.deliver tab) = some t) :
    let v := s.views tab
    let live := (tab.results s.realm).map (·.id)
    let batch := between v.delivered live v.touched
    (batch.Consistent v.rows.length live.length ∧
      t = s.setView tab { rows := batch.apply live.length v.rows, delivered := live }) ∨
    (¬ batch.Consistent v.rows.length live.length ∧ t = { s with aborted := true }) := by
  obtain ⟨-, -, ha⟩ := step_eq_some h
  simp only [act, deliver, Option.ite_none_left_eq_some, numberOfRows_eq] at ha
  simp only [List.length_map]
  obtain ⟨-, ha⟩ := ha
  split at ha
  · rename_i hc
    exact Or.inl ⟨hc, (Option.some.inj ha).symm⟩
  · rename_i hc
    exact Or.inr ⟨hc, (Option.some.inj ha).symm⟩

/-! ## Delegates -/

/-- The step binds this cell to a user with both names and a picture whose address is a URL. -/
def Completes (F : Foundation) (tab : Tab) (cell : Nat) (s : Screens) (e : Event) : Prop :=
  ∃ row rowItem, e = .cell tab row cell ∧ (tab.results s.realm)[row]? = some rowItem ∧
    (tab.cellForRow F s.realm rowItem).delegate = true

theorem delegates_pressStar {s t : Screens} {tab : Tab} {row : Nat}
    (h : pressStar tab row s = some t) : t.delegates = s.delegates := by
  rcases pressStar_eq_some h with ⟨-, rfl⟩ | ⟨user, -, rfl⟩
  · rfl
  · split <;> rfl

theorem delegates_bindCell {s : Screens} {tab other : Tab} {row cell n : Nat}
    {rowItem : RandomUserDataRow} :
    (bindCell F tab row cell rowItem s).delegates other n = true ↔
      s.delegates other n = true ∨
        ((tab.cellForRow F s.realm rowItem).delegate = true ∧ other = tab ∧ n = cell) := by
  simp [bindCell]

theorem delegates_step {s t : Screens} {e : Event} (h : step F s e = some t) (tab : Tab)
    (cell : Nat) :
    t.delegates tab cell = true ↔ s.delegates tab cell = true ∨ Completes F tab cell s e := by
  have hother : (∀ row, e ≠ .cell tab row cell) → t.delegates tab cell = s.delegates tab cell →
      (t.delegates tab cell = true ↔ s.delegates tab cell = true ∨ Completes F tab cell s e) := by
    intro hne hsame
    rw [hsame]
    constructor
    · exact Or.inl
    · rintro (hold | ⟨row, rowItem, he, -, -⟩)
      · exact hold
      · exact absurd he (hne row)
  cases e with
  | star other row =>
    apply hother (by simp)
    rcases (step_star h).2 with ⟨-, rfl⟩ | ⟨-, hpress⟩
    · rfl
    · rw [delegates_pressStar hpress]
  | starUserInfo id =>
    apply hother (by simp)
    rcases step_starUserInfo h with rfl | rfl <;> rfl
  | select other row =>
    apply hother (by simp)
    rcases (step_select h).2 with ⟨-, rfl⟩ | ⟨user, -, rfl⟩ <;> rfl
  | hide other row =>
    apply hother (by simp)
    rw [step_hide h]
    rfl
  | initial other =>
    apply hother (by simp)
    rw [step_initial h]
    rfl
  | appear other =>
    apply hother (by simp)
    rw [step_appear h]
    rfl
  | deliver other =>
    apply hother (by simp)
    rcases step_deliver h with ⟨-, rfl⟩ | ⟨-, rfl⟩ <;> rfl
  | cell other row n =>
    rcases (step_cell h).2 with ⟨hnone, rfl⟩ | ⟨user, huser, rfl⟩
    · constructor
      · exact Or.inl
      · rintro (hold | ⟨row', rowItem, he, hrow, -⟩)
        · exact hold
        · obtain ⟨rfl, rfl, rfl⟩ : other = tab ∧ row = row' ∧ n = cell := by simpa using he
          rw [hnone] at hrow
          cases hrow
    · rw [delegates_bindCell]
      apply or_congr_right
      constructor
      · rintro ⟨hset, rfl, rfl⟩
        exact ⟨row, user, rfl, huser, hset⟩
      · rintro ⟨row', rowItem, he, hrow, hset⟩
        obtain ⟨rfl, rfl, rfl⟩ : other = tab ∧ row = row' ∧ n = cell := by simpa using he
        obtain rfl := Option.some.inj (huser.symm.trans hrow)
        exact ⟨hset, rfl, rfl⟩

/-- A cell has its delegate exactly when some step of the run so far has bound it in full. -/
theorem delegates_exec {es : List Event} {s t : Screens} (h : exec (step F) es s = some t)
    (tab : Tab) (cell : Nat) : t.delegates tab cell = true ↔ s.delegates tab cell = true ∨
      ∃ before e after mid, es = before ++ e :: after ∧ exec (step F) before s = some mid ∧
        Completes F tab cell mid e := by
  induction es generalizing s with
  | nil =>
    obtain rfl := Option.some.inj h
    simp
  | cons e es ih =>
    obtain ⟨u, hu, hrun⟩ := exec_cons_some.mp h
    rw [ih hrun, delegates_step hu, or_assoc]
    apply or_congr_right
    constructor
    · rintro (hfirst | ⟨before, e', after, mid, rfl, hmid, hlater⟩)
      · exact ⟨[], e, es, s, rfl, rfl, hfirst⟩
      · exact ⟨e :: before, e', after, mid, rfl, exec_cons_some.mpr ⟨u, hu, hmid⟩, hlater⟩
    · rintro ⟨before, e', after, mid, hes, hmid, hc⟩
      cases before with
      | nil =>
        obtain ⟨rfl, rfl⟩ := List.cons.inj hes
        obtain rfl := Option.some.inj hmid
        exact Or.inl hc
      | cons e'' before =>
        obtain ⟨rfl, rfl⟩ := List.cons.inj hes
        obtain ⟨u', hu', hmid⟩ := exec_cons_some.mp hmid
        obtain rfl := Option.some.inj (hu.symm.trans hu')
        exact Or.inr ⟨before, e', after, mid, rfl, hmid, hc⟩

end ListScreens
