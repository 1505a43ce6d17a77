import RandomUserClient.ListScreens

/-!
# Reloads and batch updates

A table is brought up to date in two ways that do not know of each other: its
screen appears and reloads it, and the change notification tells it what changed
since the last notification. A batch fits as long as the reloads since then, if
there were any, found as many rows as the last notification left.
-/

namespace TableBatches

open KeyedTable UsersViewModel UsersViewStructs RealmService UserCells ChangeInFavoritesStatus
open ListBatches ListScreens EventRuns

variable {F : Foundation}

/-- No batch update has been inconsistent. -/
def Unaborted (s : Screens) : Prop := s.aborted = false

/-- When a change of the favourites is delivered, the last reload of the table since the call of
its observe callback before it, if there was one, saw as many favourites as that call. -/
def ReloadsAgree (s : Screens) : Event → Prop
  | .deliver .favoritesList => ∀ n, (s.views .favoritesList).reloaded = some n →
      n = (s.views .favoritesList).delivered.length
  | _ => True

/-- The row count of a table is the one that its last reload or delivery left. No user comes or
goes on the main thread, so for the users list it is always the number of users. -/
structure Tables (s : Screens) : Prop where
  nodup : ∀ tab, (s.views tab).delivered.Nodup
  count : ∀ tab, (s.views tab).rows.length =
    (s.views tab).reloaded.getD (s.views tab).delivered.length
  delivered : (s.views .usersList).delivered = s.realm.users.keys
  reloaded : ∀ n, (s.views .usersList).reloaded = some n → n = s.realm.users.keys.length

/-- What a view keeps when neither a reload nor a delivery happens. -/
structure SameCounts (v w : TableView) : Prop where
  rows : w.rows.length = v.rows.length
  delivered : w.delivered = v.delivered
  reloaded : w.reloaded = v.reloaded

theorem SameCounts.refl (v : TableView) : SameCounts v v := ⟨rfl, rfl, rfl⟩

theorem sameCounts_setRow (s : Screens) (tab : Tab) (row : Nat) (shown : Option RowCell)
    (other : Tab) :
    SameCounts (s.views other) ((s.setRow tab row shown).views other) := by
  by_cases h : other = tab
  · subst h
    constructor <;> simp [Screens.setRow, Screens.setView]
  · simp only [Screens.setRow, Screens.setView, Function.update_of_ne h]
    exact SameCounts.refl _

theorem tables_same {s t : Screens} (hs : Tables s)
    (hk : t.realm.users.keys = s.realm.users.keys)
    (hv : ∀ tab, SameCounts (s.views tab) (t.views tab)) : Tables t where
  nodup := by
    intro tab
    rw [(hv tab).delivered]
    exact hs.nodup tab
  count := by
    intro tab
    rw [(hv tab).rows, (hv tab).delivered, (hv tab).reloaded]
    exact hs.count tab
  delivered := by
    rw [(hv .usersList).delivered, hk]
    exact hs.delivered
  reloaded := by
    rw [(hv .usersList).reloaded, hk]
    exact hs.reloaded

/-- A view is replaced by one whose row count fits. -/
theorem tables_setView {s : Screens} (hs : Tables s) {tab : Tab} {v : TableView}
    (hn : v.delivered.Nodup) (hc : v.rows.length = v.reloaded.getD v.delivered.length)
    (hu : tab = .usersList → v.delivered = s.realm.users.keys ∧
      ∀ n, v.reloaded = some n → n = s.realm.users.keys.length) : Tables (s.setView tab v) where
  nodup := by
    intro other
    by_cases h : other = tab
    · subst h
      simpa [Screens.setView] using hn
    · simpa [Screens.setView, Function.update_of_ne h] using hs.nodup other
  count := by
    intro other
    by_cases h : other = tab
    · subst h
      simpa [Screens.setView] using hc
    · simpa [Screens.setView, Function.update_of_ne h] using hs.count other
  delivered := by
    by_cases h : Tab.usersList = tab
    · subst h
      simpa [Screens.setView] using (hu rfl).1
    · simpa [Screens.setView, Function.update_of_ne h] using hs.delivered
  reloaded := by
    by_cases h : Tab.usersList = tab
    · subst h
      simpa [Screens.setView] using (hu rfl).2
    · simpa [Screens.setView, Function.update_of_ne h] using hs.reloaded

theorem tables_starred {s : Screens} (hs : Tables s) (id : Key) : Tables (starred id s) :=
  tables_same hs (keys_flipped id s.realm) fun _ => ⟨rfl, rfl, rfl⟩

theorem length_initial (tab : Tab) (r : Realm) : (TableView.initial tab r).rows.length =
    (TableView.initial tab r).reloaded.getD (TableView.initial tab r).delivered.length := by
  simp [TableView.initial, numberOfRows_eq]

theorem tables_pressStar {s t : Screens} {tab : Tab} {row : Nat} (hs : Tables s)
    (h : pressStar tab row s = some t) : Tables t := by
  rcases pressStar_eq_some h with ⟨-, rfl⟩ | ⟨user, -, rfl⟩
  · exact tables_same hs rfl fun _ => SameCounts.refl _
  · split
    · exact hs
    · exact tables_starred hs user.id

theorem tables_step {s t : Screens} {e : Event} (hs : Tables s) (h : step F s e = some t) :
    Tables t := by
  cases e with
  | star tab row =>
    rcases (step_star h).2 with ⟨-, rfl⟩ | ⟨-, hpress⟩
    · exact hs
    · exact tables_pressStar hs hpress
  | starUserInfo id =>
    rcases step_starUserInfo h with rfl | rfl
    · exact hs
    · exact tables_starred hs (some id)
  | select tab row =>
    rcases (step_select h).2 with ⟨-, rfl⟩ | ⟨user, -, rfl⟩ <;>
      exact tables_same hs rfl fun _ => SameCounts.refl _
  | cell tab row cell =>
    rcases (step_cell h).2 with ⟨-, rfl⟩ | ⟨user, -, rfl⟩
    · exact tables_same hs rfl fun _ => SameCounts.refl _
    · exact tables_same hs rfl (sameCounts_setRow s tab row _)
  | hide tab row =>
    rw [step_hide h]
    exact tables_same hs rfl (sameCounts_setRow s tab row none)
  | initial tab =>
    rw [step_initial h]
    refine tables_setView hs (nodup_results tab s.realm) (length_initial tab s.realm) ?_
    rintro rfl
    exact ⟨rfl, fun n hn => by cases hn⟩
  | appear tab =>
    rw [step_appear h]
    refine tables_setView hs (hs.nodup tab) (by simp) ?_
    rintro rfl
    refine ⟨hs.delivered, fun n hn => ?_⟩
    have hn : (getObjects s.realm).length = n := Option.some.inj hn
    rw [← hn, Table.length_keys]
    rfl
  | deliver tab =>
    rcases step_deliver h with ⟨-, rfl⟩ | ⟨-, rfl⟩
    · refine tables_setView hs (nodup_results tab s.realm) (length_apply _ _ _) ?_
      rintro rfl
      exact ⟨rfl, fun n hn => by cases hn⟩
    · exact tables_same hs rfl fun _ => SameCounts.refl _

theorem tables_start (r : Realm) : Tables (start r) where
  nodup := fun tab => nodup_results tab r
  count := fun tab => length_initial tab r
  delivered := rfl
  reloaded := fun _ h => by cases h

/-- The users list always has one row for each user. -/
theorem Tables.length_usersList {s : Screens} (hs : Tables s) :
    (s.views .usersList).rows.length = s.realm.users.keys.length := by
  have hc := hs.count .usersList
  cases hr : (s.views .usersList).reloaded with
  | none =>
    rw [hr, hs.delivered] at hc
    exact hc
  | some n =>
    rw [hr, hs.reloaded n hr] at hc
    exact hc

theorem deliver_consistent_iff {s : Screens} (hs : Tables s) (tab : Tab) :
    (between (s.views tab).delivered ((tab.results s.realm).map (·.id))
      (s.views tab).touched).Consistent (s.views tab).rows.length
      ((tab.results s.realm).map (·.id)).length ↔ ReloadsAgree s (.deliver tab) := by
  rw [consistent_between_iff (hs.nodup tab) (nodup_results tab s.realm)]
  cases tab with
  | usersList =>
    refine iff_of_true ?_ trivial
    rw [hs.length_usersList, hs.delivered]
  | favoritesList =>
    rw [hs.count]
    cases hr : (s.views .favoritesList).reloaded with
    | none => simp [ReloadsAgree, hr]
    | some n => simp [ReloadsAgree, hr]

theorem unaborted_step_iff {s t : Screens} {e : Event} (hs : Tables s) (hp : Unaborted s)
    (h : step F s e = some t) : Unaborted t ↔ ReloadsAgree s e := by
  cases e with
  | star tab row =>
    apply iff_of_true ?_ trivial
    rcases (step_star h).2 with ⟨-, rfl⟩ | ⟨-, hpress⟩
    · exact hp
    · rcases pressStar_eq_some hpress with ⟨-, rfl⟩ | ⟨user, -, rfl⟩
      · exact hp
      · split <;> exact hp
  | starUserInfo id =>
    rcases step_starUserInfo h with rfl | rfl <;> exact iff_of_true hp trivial
  | select tab row =>
    rcases (step_select h).2 with ⟨-, rfl⟩ | ⟨user, -, rfl⟩ <;> exact iff_of_true hp trivial
  | cell tab row cell =>
    rcases (step_cell h).2 with ⟨-, rfl⟩ | ⟨user, -, rfl⟩ <;> exact iff_of_true hp trivial
  | hide tab row =>
    rw [step_hide h]
    exact iff_of_true hp trivial
  | initial tab =>
    rw [step_initial h]
    exact iff_of_true hp trivial
  | appear tab =>
    rw [step_appear h]
    exact iff_of_true hp trivial
  | deliver tab =>
    have hc := deliver_consistent_iff hs tab
    rcases step_deliver h with ⟨hyes, rfl⟩ | ⟨hno, rfl⟩
    · exact iff_of_true hp (hc.mp hyes)
    · exact iff_of_false (by simp [Unaborted]) fun ha => hno (hc.mpr ha)

/-- Every batch update is consistent exactly when no change of the favourites is delivered to a
table that a reload has brought to another row count. -/
theorem batches_consistent_iff (F : Foundation) (r : Realm) (es : List Event) :
    Always (step F) Unaborted es (start r) ↔ Guarded (step F) ReloadsAgree es (start r) :=
  always_iff_guarded (fun _ _ _ hs _ h => tables_step hs h)
    (fun _ _ _ hs hp h => unaborted_step_iff hs hp h) es (tables_start r) rfl

/-- A user whose cell binds in full, its delegate included. -/
def listedUser (id : String) : RandomUserData where
  name := some { first := some "a", last := some "b" }
  login := some { uuid := some id }
  picture := some { medium := some "p" }

/-- A user becomes a favourite, the favourites screen appears and reloads, and then the change is
delivered: the table has the new row already. -/
theorem reload_before_delivery :
    ¬ Always (step sampleFoundation) Unaborted [.cell .usersList 0 0, .star .usersList 0,
      .appear .favoritesList, .deliver .favoritesList]
      (start (Realm.empty.put (listedUser "a"))) := by
  intro h
  have hrun : (exec (step sampleFoundation) [.cell .usersList 0 0, .star .usersList 0,
      .appear .favoritesList, .deliver .favoritesList]
      (start (Realm.empty.put (listedUser "a")))).map (·.aborted) = some true := by
    decide +kernel
  obtain ⟨s, hs, haborted⟩ := Option.map_eq_some_iff.mp hrun
  have hlast : Unaborted s := always_last _ h hs
  exact Bool.noConfusion (haborted.symm.trans hlast)

end TableBatches
