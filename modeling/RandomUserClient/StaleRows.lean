import RandomUserClient.TableBatches

/-!
# Stale rows

A row of the favourites list goes on showing its user after the live results
have closed the gap of a removed favourite. A tap or a selection finds its user
by the position of the row, so it is right exactly when the user is still a
favourite and still has as many favourites before it as the row has rows above.
No row of the users list ever moves. A star of either list does nothing at all
as long as its cell has not been given a delegate.
-/

namespace StaleRows

open KeyedTable UsersViewModel UsersViewStructs RealmService UserCells ChangeInFavoritesStatus
open ListBatches ListScreens TableBatches EventRuns

/-- The star action turned the flag of this user around and did nothing else. -/
def ActsOn (u : Key) (r t : Realm) : Prop := u ∈ r.users.keys ∧ t = flipped u r

/-- A step acts on the user that its row shows, and indexes nothing out of range. -/
def RightStep (s : Screens) (e : Event) (t : Screens) : Prop :=
  t.raised = false ∧ match e with
    | .star tab row => ∀ u ∈ s.shows tab row, ActsOn u s.realm t.realm
    | .select tab row => ∀ u ∈ s.shows tab row, t.opened = u
    | _ => True

def Right (F : Foundation) (s : Screens) (e : Event) : Prop := ∀ t ∈ step F s e, RightStep s e t

/-- The user is a favourite, and `row` of the users stored before it are. -/
def FavoriteAt (r : Realm) (u : Key) (row : Nat) : Prop :=
  ∃ user ∈ r.users.rows, user.id = u ∧ user.isInFavorites = "true" ∧
    (r.users.rows.takeWhile fun x => x ≠ user).countP (fun x => x.isInFavorites = "true") = row

/-- A star of the favourites list, and a selection there, meets its user at the place that the row
had for it, and a cell is requested for a row that there are favourites for. The star of either
list is that of a cell with its delegate. -/
def Undisplaced (s : Screens) : Event → Prop
  | .star .usersList row => s.Live .usersList row
  | .star .favoritesList row => s.Live .favoritesList row ∧
      ∀ u ∈ s.shows .favoritesList row, FavoriteAt s.realm u row
  | .select .favoritesList row => ∀ u ∈ s.shows .favoritesList row, FavoriteAt s.realm u row
  | .cell .favoritesList row _ =>
    row < s.realm.users.rows.countP fun user => user.isInFavorites = "true"
  | _ => True

variable {F : Foundation}

/-! ## Positions in the results -/

/-- The user at a position of the live results. -/
def At (tab : Tab) (r : Realm) (row : Nat) (u : Key) : Prop :=
  ∃ user, (tab.results r)[row]? = some user ∧ user.id = u

theorem at_favoritesList (r : Realm) (row : Nat) (u : Key) :
    At .favoritesList r row u ↔ FavoriteAt r u row := by
  simp only [At, FavoriteAt, Tab.results, favorites, getObjects,
    getElem?_filter_eq_some (nodup_rows r), decide_eq_true_eq]
  constructor
  · rintro ⟨user, ⟨hmem, hf, hc⟩, hid⟩
    exact ⟨user, hmem, hid, hf, hc⟩
  · rintro ⟨user, hmem, hid, hf, hc⟩
    exact ⟨user, ⟨hmem, hf, hc⟩, hid⟩

theorem at_usersList (r : Realm) (row : Nat) (u : Key) :
    At .usersList r row u ↔ r.users.keys[row]? = some u := by
  simp only [At, Tab.results, getObjects, Table.keys, List.getElem?_map, Option.map_eq_some_iff]
  rfl

/-- What the users list shows is what is stored at that position. -/
structure Shown (s : Screens) : Prop where
  tables : Tables s
  ids : none ∉ s.realm.users.keys
  rows : ∀ row u, s.shows .usersList row = some u → s.realm.users.keys[row]? = some u

theorem shows_setView (s : Screens) (tab other : Tab) (v : TableView) (row : Nat) :
    (s.setView tab v).shows other row =
      if other = tab then ((v.rows[row]?).join).map (·.user) else s.shows other row := by
  by_cases h : other = tab
  · subst h
    simp [Screens.shows, Screens.cellAt, Screens.setView]
  · simp [Screens.shows, Screens.cellAt, Screens.setView, h]

/-- A row that is set shows what it is set to, and the others what they showed. -/
theorem shows_setRow {s : Screens} {tab other : Tab} {row i : Nat} {shown : Option RowCell}
    {u : Key} (h : (s.setRow tab i shown).shows other row = some u) :
    s.shows other row = some u ∨ (other = tab ∧ row = i ∧ shown.map (·.user) = some u) := by
  rw [Screens.setRow, shows_setView] at h
  by_cases ht : other = tab
  · subst ht
    rw [if_pos rfl, List.getElem?_set] at h
    by_cases hi : i = row
    · rw [if_pos hi] at h
      split at h
      · exact Or.inr ⟨rfl, hi.symm, h⟩
      · cases h
    · rw [if_neg hi] at h
      exact Or.inl h
  · rw [if_neg ht] at h
    exact Or.inl h

theorem between_self (l touched : List Key) :
    (between l l touched).deletions = [] ∧ (between l l touched).insertions = [] := by
  constructor <;> exact List.findIdxs_eq_nil_iff.mpr fun x hx => by simp [hx]

/-- A batch for unchanged contents puts nothing new on a row. -/
theorem shown_of_apply {l touched : List Key} {rows : List (Option RowCell)} {row : Nat}
    {shown : RowCell} (hlen : rows.length = l.length)
    (h : (((between l l touched).apply l.length rows)[row]?).join = some shown) :
    (rows[row]?).join = some shown := by
  obtain ⟨hd, hi⟩ := between_self l touched
  rw [← hlen, apply_modifications hd hi, reloadRows, List.getElem?_mapIdx] at h
  cases hrow : rows[row]? with
  | none => simp [hrow] at h
  | some old =>
    rw [hrow, Option.map_some, Option.join_some] at h
    split at h
    · cases h
    · rw [h, Option.join_some]

/-- Rows that have just been reloaded show nothing yet. -/
theorem shown_fresh (n row : Nat) {u : Key} :
    ((List.replicate n (none : Option RowCell))[row]?).join.map (·.user) ≠ some u := by
  rw [List.getElem?_replicate]
  split <;> exact fun h => by cases h

theorem shown_starred {s : Screens} (hs : Shown s) (id : Key) : Shown (starred id s) where
  tables := tables_starred hs.tables id
  ids := by simpa [starred] using hs.ids
  rows := by simpa [starred, Screens.shows, Screens.cellAt] using hs.rows

theorem shown_step {s t : Screens} {e : Event} (hs : Shown s) (h : step F s e = some t) :
    Shown t := by
  have ht := tables_step hs.tables h
  cases e with
  | star tab row =>
    rcases (step_star h).2 with ⟨-, rfl⟩ | ⟨-, hpress⟩
    · exact hs
    · rcases pressStar_eq_some hpress with ⟨-, rfl⟩ | ⟨user, -, rfl⟩
      · exact ⟨ht, hs.ids, hs.rows⟩
      · split
        · exact hs
        · exact shown_starred hs user.id
  | starUserInfo id =>
    rcases step_starUserInfo h with rfl | rfl
    · exact hs
    · exact shown_starred hs (some id)
  | select tab row =>
    rcases (step_select h).2 with ⟨-, rfl⟩ | ⟨user, -, rfl⟩ <;> exact ⟨ht, hs.ids, hs.rows⟩
  | cell tab row cell =>
    rcases (step_cell h).2 with ⟨-, rfl⟩ | ⟨user, hrow, rfl⟩
    · exact ⟨ht, hs.ids, hs.rows⟩
    · refine ⟨ht, hs.ids, fun i u hu => ?_⟩
      rcases shows_setRow hu with hold | ⟨rfl, rfl, hnew⟩
      · exact hs.rows i u hold
      · exact (at_usersList s.realm i u).mp ⟨user, hrow, Option.some.inj hnew⟩
  | hide tab row =>
    obtain rfl := step_hide h
    refine ⟨ht, hs.ids, fun i u hu => ?_⟩
    rcases shows_setRow hu with hold | ⟨-, -, hnew⟩
    · exact hs.rows i u hold
    · cases hnew
  | initial tab =>
    obtain rfl := step_initial h
    refine ⟨ht, hs.ids, fun i u hu => ?_⟩
    rw [shows_setView] at hu
    split at hu
    · exact absurd hu (shown_fresh _ i)
    · exact hs.rows i u hu
  | appear tab =>
    obtain rfl := step_appear h
    refine ⟨ht, hs.ids, fun i u hu => ?_⟩
    rw [shows_setView] at hu
    split at hu
    · exact absurd hu (shown_fresh _ i)
    · exact hs.rows i u hu
  | deliver tab =>
    rcases step_deliver h with ⟨-, rfl⟩ | ⟨-, rfl⟩
    · refine ⟨ht, hs.ids, fun i u hu => ?_⟩
      rw [shows_setView] at hu
      split at hu
      · rename_i hu'
        subst hu'
        have hlive : (Tab.usersList.results s.realm).map (·.id) = s.realm.users.keys := rfl
        simp only [hlive, hs.tables.delivered] at hu
        obtain ⟨shown, hshown, hu⟩ := Option.map_eq_some_iff.mp hu
        have hold := shown_of_apply hs.tables.length_usersList hshown
        apply hs.rows i u
        rw [Screens.shows, Screens.cellAt, hold, Option.map_some, hu]
      · exact hs.rows i u hu
    · exact ⟨ht, hs.ids, hs.rows⟩

/-! ## When a step is right -/

theorem right_iff {s t : Screens} {e : Event} (h : step F s e = some t) :
    Right F s e ↔ RightStep s e t := by
  constructor
  · intro hr
    exact hr t h
  · intro hr t' h'
    obtain rfl := Option.some.inj (h.symm.trans h')
    exact hr

theorem id_ne_none {s : Screens} (hs : Shown s) {tab : Tab} {row : Nat} {user : RandomUserDataRow}
    (h : (tab.results s.realm)[row]? = some user) : user.id ≠ none := by
  intro hid
  have hmem := mem_results (List.mem_of_getElem? h)
  exact hs.ids (Table.mem_keys.mpr ⟨user, hmem, hid⟩)

theorem right_star_iff {s t : Screens} (hs : Shown s) {tab : Tab} {row : Nat}
    (h : step F s (.star tab row) = some t) :
    Right F s (.star tab row) ↔
      s.Live tab row ∧ ∀ u ∈ s.shows tab row, At tab s.realm row u := by
  obtain ⟨hraised, -, -⟩ := step_eq_some h
  obtain ⟨hshows, hcase⟩ := step_star h
  obtain ⟨u, hu⟩ := Option.ne_none_iff_exists'.mp hshows
  rw [right_iff h, RightStep, hu]
  simp only [Option.mem_some_iff, forall_eq']
  rcases hcase with ⟨hdead, rfl⟩ | ⟨hlive, hpress⟩
  · -- the tap has left the flag of the user alone
    apply iff_of_false
    · rintro ⟨-, hkey, hsame⟩
      exact flipped_ne hkey hsame.symm
    · rintro ⟨hlive, -⟩
      exact hdead hlive
  · rw [and_iff_right hlive]
    rcases pressStar_eq_some hpress with ⟨hnone, rfl⟩ | ⟨user, huser, rfl⟩
    · apply iff_of_false
      · rintro ⟨hr, -⟩
        cases hr
      · rintro ⟨user, huser, -⟩
        rw [hnone] at huser
        cases huser
    · have hat : At tab s.realm row u ↔ user.id = u := by simp [At, huser]
      rw [hat, if_neg (id_ne_none hs huser)]
      have hkey : user.id ∈ s.realm.users.keys :=
        Table.mem_keys.mpr ⟨user, mem_results (List.mem_of_getElem? huser), rfl⟩
      constructor
      · rintro ⟨-, -, hacts⟩
        exact flipped_inj hkey hacts
      · rintro rfl
        exact ⟨hraised, hkey, rfl⟩

theorem right_select_iff {s t : Screens} (hs : Shown s) {tab : Tab} {row : Nat}
    (h : step F s (.select tab row) = some t) :
    Right F s (.select tab row) ↔ ∀ u ∈ s.shows tab row, At tab s.realm row u := by
  obtain ⟨hraised, -, -⟩ := step_eq_some h
  obtain ⟨hshows, hcase⟩ := step_select h
  obtain ⟨u, hu⟩ := Option.ne_none_iff_exists'.mp hshows
  rw [right_iff h, RightStep, hu]
  simp only [Option.mem_some_iff, forall_eq']
  rcases hcase with ⟨hnone, rfl⟩ | ⟨user, huser, rfl⟩
  · refine iff_of_false (fun hr => by cases hr.1) ?_
    rintro ⟨user, huser, -⟩
    rw [hnone] at huser
    cases huser
  · have hat : At tab s.realm row u ↔ user.id = u := by simp [At, huser]
    obtain ⟨id, hid⟩ := Option.ne_none_iff_exists'.mp (id_ne_none hs huser)
    rw [hat, hid, Option.getD_some]
    exact and_iff_right hraised

theorem right_cell_iff {s t : Screens} {tab : Tab} {row cell : Nat}
    (h : step F s (.cell tab row cell) = some t) :
    Right F s (.cell tab row cell) ↔ row < (tab.results s.realm).length := by
  obtain ⟨hraised, -, -⟩ := step_eq_some h
  rw [right_iff h]
  rcases (step_cell h).2 with ⟨hnone, rfl⟩ | ⟨user, huser, rfl⟩
  · have hout := List.getElem?_eq_none_iff.mp hnone
    exact iff_of_false (fun hr => by cases hr.1) (by omega)
  · exact iff_of_true ⟨hraised, trivial⟩ (List.getElem?_eq_some_iff.mp huser).1

/-- The users list has every user where it shows it. -/
theorem at_shown {s : Screens} (hs : Shown s) (row : Nat) :
    ∀ u ∈ s.shows .usersList row, At .usersList s.realm row u :=
  fun u hu => (at_usersList s.realm row u).mpr (hs.rows row u hu)

theorem right_step_iff {s t : Screens} {e : Event} (hs : Shown s) (h : step F s e = some t) :
    Right F s e ↔ Undisplaced s e := by
  obtain ⟨hraised, -, -⟩ := step_eq_some h
  cases e with
  | star tab row =>
    rw [right_star_iff hs h]
    cases tab with
    | usersList => exact and_iff_left (at_shown hs row)
    | favoritesList => simp only [at_favoritesList, Undisplaced]
  | select tab row =>
    rw [right_select_iff hs h]
    cases tab with
    | usersList => exact iff_of_true (at_shown hs row) trivial
    | favoritesList => simp only [at_favoritesList, Undisplaced]
  | cell tab row cell =>
    rw [right_cell_iff h]
    cases tab with
    | usersList =>
      have hlen := (step_cell h).1
      rw [hs.tables.length_usersList, Table.length_keys] at hlen
      exact iff_of_true hlen trivial
    | favoritesList => simp only [Undisplaced, Tab.results, favorites, getObjects,
        List.countP_eq_length_filter]
  | starUserInfo id =>
    rw [right_iff h]
    rcases step_starUserInfo h with rfl | rfl <;> exact iff_of_true ⟨hraised, trivial⟩ trivial
  | hide tab row =>
    rw [right_iff h, step_hide h]
    exact iff_of_true ⟨hraised, trivial⟩ trivial
  | initial tab =>
    rw [right_iff h, step_initial h]
    exact iff_of_true ⟨hraised, trivial⟩ trivial
  | appear tab =>
    rw [right_iff h, step_appear h]
    exact iff_of_true ⟨hraised, trivial⟩ trivial
  | deliver tab =>
    rw [right_iff h]
    rcases step_deliver h with ⟨-, rfl⟩ | ⟨-, rfl⟩ <;>
      exact iff_of_true ⟨hraised, trivial⟩ trivial

theorem shown_start {r : Realm} (hids : none ∉ r.users.keys) : Shown (start r) where
  tables := tables_start r
  ids := hids
  rows := by
    intro row u hu
    exact absurd hu (shown_fresh _ row)

/-- Every tap and selection acts on the user its row shows, and no index is out of range, exactly
when the stars have their delegates and the favourites list is used while its rows are where their
users are. -/
theorem right_iff_undisplaced (F : Foundation) (r : Realm) (hids : none ∉ r.users.keys)
    (es : List Event) :
    Guarded (step F) (Right F) es (start r) ↔ Guarded (step F) Undisplaced es (start r) :=
  guarded_congr (fun _ _ _ hs h => shown_step hs h) (fun _ _ _ hs h => right_step_iff hs h) es
    (shown_start hids)

/-! ## Two favourites -/

instance (u : Key) (r t : Realm) : Decidable (ActsOn u r t) :=
  inferInstanceAs (Decidable (u ∈ r.users.keys ∧ t = flipped u r))

instance (s t : Screens) : (e : Event) → Decidable (RightStep s e t)
  | .star tab row => inferInstanceAs (Decidable (t.raised = false ∧
      ∀ u ∈ s.shows tab row, ActsOn u s.realm t.realm))
  | .select tab row => inferInstanceAs (Decidable (t.raised = false ∧
      ∀ u ∈ s.shows tab row, t.opened = u))
  | .starUserInfo _ => inferInstanceAs (Decidable (t.raised = false ∧ True))
  | .cell _ _ _ => inferInstanceAs (Decidable (t.raised = false ∧ True))
  | .hide _ _ => inferInstanceAs (Decidable (t.raised = false ∧ True))
  | .initial _ => inferInstanceAs (Decidable (t.raised = false ∧ True))
  | .appear _ => inferInstanceAs (Decidable (t.raised = false ∧ True))
  | .deliver _ => inferInstanceAs (Decidable (t.raised = false ∧ True))

instance (F : Foundation) (s : Screens) (e : Event) : Decidable (Right F s e) :=
  inferInstanceAs (Decidable (∀ t ∈ step F s e, RightStep s e t))

def twoFavorites : Realm :=
  flipped (some "b") (flipped (some "a")
    ((Realm.empty.put (listedUser "a")).put (listedUser "b")))

/-- The star of the first row is tapped twice, and the second tap comes before the table has
followed the first. -/
def tappedTwice : List Event :=
  [.cell .favoritesList 0 0, .star .favoritesList 0, .star .favoritesList 0]

theorem right_iff_undisplaced_twoFavorites :
    Guarded (step sampleFoundation) (Right sampleFoundation) tappedTwice (start twoFavorites) ↔
      Guarded (step sampleFoundation) Undisplaced tappedTwice (start twoFavorites) :=
  right_iff_undisplaced sampleFoundation twoFavorites (by decide) tappedTwice

/-- The second tap is on the row that shows the first user, and it acts on the second one. -/
theorem second_tap_acts_on_other_user :
    ¬ Guarded (step sampleFoundation) (Right sampleFoundation) tappedTwice
      (start twoFavorites) := by
  decide +kernel

end StaleRows
