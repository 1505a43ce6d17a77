import RandomUserClient.RefreshHandler
import RandomUserClient.StaleRows

/-!
# Users that can be addressed

A row of the users list is a position, but the user info screen that it opens
and both stars look their user up by primary key. A user without a uuid has the
key nil, which no lookup by a string finds: its star does nothing, and its
screen opens with the default id, the empty string, which may be another user's.
The star of a cell without a delegate does nothing either.
-/

namespace AddressableRows

open KeyedTable UsersViewModel UsersViewStructs RealmService RUCUsersListInfoController UserCells
open RUCUsersListViewController ChangeInFavoritesStatus RefreshHandler ListScreens TableBatches
open StaleRows EventRuns

/-- Selecting the row opens a screen that loads the user of the row; its star and the star of the
row turn around the flag of that user and change nothing else. -/
structure Addressable (F : Foundation) (s : Screens) (row : Nat) (user : RandomUserDataRow) :
    Prop where
  select : ∃ t userObjectId, step F s (.select .usersList row) = some t ∧
    t.opened = some userObjectId ∧ getSpecificObject t.realm userObjectId = some user ∧
    ∃ t', step F t (.starUserInfo userObjectId) = some t' ∧ ActsOn user.id s.realm t'.realm
  star : ∃ t, step F s (.star .usersList row) = some t ∧ ActsOn user.id s.realm t.realm

/-- The process runs, and a cell on the row shows the user that is stored there. -/
structure Displayed (s : Screens) (row : Nat) (user : RandomUserDataRow) : Prop where
  raised : s.raised = false
  aborted : s.aborted = false
  shows : s.shows .usersList row = some user.id
  stored : (getObjects s.realm)[row]? = some user

variable {F : Foundation} {s : Screens} {row : Nat} {user : RandomUserDataRow}

namespace Displayed

theorem mem_rows (h : Displayed s row user) : user ∈ s.realm.users.rows :=
  List.mem_of_getElem? h.stored

theorem step_select (h : Displayed s row user) :
    step F s (.select .usersList row) = some { s with opened := some (user.id.getD "") } := by
  have hrow : (Tab.usersList.results s.realm)[row]? = some user := h.stored
  simp [step, h.raised, h.aborted, act, h.shows, hrow]

theorem step_star (h : Displayed s row user) (hlive : s.Live .usersList row) {id : String}
    (hid : user.id = some id) : step F s (.star .usersList row) = some (starred user.id s) := by
  obtain ⟨cell, hstar, hset⟩ := (Option.any_eq_true _ _).mp hlive
  have hrow : (Tab.usersList.results s.realm)[row]? = some user := h.stored
  have hfind : getSpecificObject s.realm id = some user := Table.find_eq_some.mpr ⟨h.mem_rows, hid⟩
  simp [step, h.raised, h.aborted, act, hstar, hset, pressStar, changeInFavoritesStatus_eq,
    selectedUser, hrow, hid, hfind, writeStar_eq h.mem_rows]

theorem step_starUserInfo (h : Displayed s row user) {id : String} (hid : user.id = some id)
    (opened : Option String) :
    step F { s with opened := opened } (.starUserInfo id) =
      some (starred user.id { s with opened := opened }) := by
  have hfind : getSpecificObject s.realm id = some user := Table.find_eq_some.mpr ⟨h.mem_rows, hid⟩
  rw [step, if_neg (by simp [h.raised, h.aborted]), act]
  simp only [userInfoChangeInFavoritesStatus, hfind]
  exact writeStar_eq h.mem_rows

/-- A star that turns the flag around has its delegate. -/
theorem live_of_acts (h : Displayed s row user) {t : Screens}
    (hstep : step F s (.star .usersList row) = some t) (hacts : ActsOn user.id s.realm t.realm) :
    s.Live .usersList row := by
  obtain ⟨-, ⟨hdead, rfl⟩ | ⟨hlive, -⟩⟩ := ListScreens.step_star hstep
  · exact absurd hacts.2.symm (flipped_ne hacts.1)
  · exact hlive

end Displayed

/-- A displayed user is addressable exactly when it has a uuid and the star of its row has its
delegate. -/
theorem addressable_iff (F : Foundation) (s : Screens) (row : Nat) (user : RandomUserDataRow)
    (h : Displayed s row user) :
    Addressable F s row user ↔ user.id ≠ none ∧ s.Live .usersList row := by
  constructor
  · intro ha
    obtain ⟨t, hstar, hacts⟩ := ha.star
    refine ⟨fun hnone => ?_, h.live_of_acts hstar hacts⟩
    obtain ⟨t, id, hstep, -, hfind, -⟩ := ha.select
    rw [h.step_select] at hstep
    obtain rfl := Option.some.inj hstep
    have hkey : user.id = some id := (Table.find_eq_some.mp hfind).2
    rw [hnone] at hkey
    cases hkey
  · rintro ⟨hne, hlive⟩
    obtain ⟨id, hid⟩ := Option.ne_none_iff_exists'.mp hne
    have hkey : user.id ∈ s.realm.users.keys := List.mem_map_of_mem h.mem_rows
    have hfind : getSpecificObject s.realm id = some user :=
      Table.find_eq_some.mpr ⟨h.mem_rows, hid⟩
    refine ⟨⟨_, id, h.step_select, by rw [hid]; rfl, hfind, _, h.step_starUserInfo hid _, ?_⟩,
      ⟨_, h.step_star hlive hid, ?_⟩⟩
    · exact ⟨hkey, rfl⟩
    · exact ⟨hkey, rfl⟩

/-- The row of the user "a" has got a cell. -/
def firstRow : Screens :=
  bindCell sampleFoundation .usersList 0 0 (userRowOf (listedUser "a"))
    (start (Realm.empty.put (listedUser "a")))

theorem addressable_first :
    step sampleFoundation (start (Realm.empty.put (listedUser "a"))) (.cell .usersList 0 0) =
      some firstRow ∧
    (Addressable sampleFoundation firstRow 0 (userRowOf (listedUser "a")) ↔
      (userRowOf (listedUser "a")).id ≠ none ∧ firstRow.Live .usersList 0) :=
  ⟨rfl, addressable_iff sampleFoundation firstRow 0 _ ⟨rfl, rfl, by decide +kernel, rfl⟩⟩

/-- A response with one user that has no leaf at all. -/
def emptyUser : Reply := ⟨some (.json (.obj [("results", .arr [.obj []])])), some 200⟩

section Names

attribute [local instance] ascii

/-- Its user is stored and displayed, and cannot be addressed. -/
theorem empty_user_not_addressable :
    ∃ r s, runActions (fun _ => false) (handle false emptyUser) .empty = some r ∧
      step sampleFoundation (start r) (.cell .usersList 0 0) = some s ∧
      Displayed s 0 (userRowOf {}) ∧ ¬ Addressable sampleFoundation s 0 (userRowOf {}) := by
  have hshown : Displayed (bindCell sampleFoundation .usersList 0 0 (userRowOf {})
      (start (Realm.empty.put {}))) 0 (userRowOf {}) := ⟨rfl, rfl, by decide +kernel, rfl⟩
  refine ⟨Realm.empty.put {}, _, rfl, rfl, hshown, fun h => ?_⟩
  obtain ⟨t, id, hstep, -, hfind, -⟩ := h.select
  rw [hshown.step_select] at hstep
  obtain rfl := Option.some.inj hstep
  have hkey : (userRowOf {}).id = some id := (Table.find_eq_some.mp hfind).2
  cases hkey

end Names

end AddressableRows
