import RandomUserClient.RealmService
import RandomUserClient.UserCells

/-!
# The star actions

Three controllers have a star. Each of them ends up with the object of one user,
looked up by primary key, and writes the opposite of the flag it finds there. The
two lists get at the key through a row of their results, and a star of theirs is
that of a cell, which passes it on to its delegate if it has been given one.
-/

namespace ChangeInFavoritesStatus

open KeyedTable UsersViewModel RealmService UserCells

/-- The value that the branch of a star action writes. -/
def toggled (isInFavorites : String) : String := if isInFavorites = "true" then "false" else "true"

theorem toggled_ne (isInFavorites : String) : toggled isInFavorites ≠ isInFavorites := by
  by_cases h : isInFavorites = "true"
  · rw [toggled, if_pos h, h]
    decide
  · rw [toggled, if_neg h]
    exact Ne.symm h

/-- The user behind a row of some results; `none` when the row is out of range. -/
def selectedUser (results : List RandomUserDataRow) (selectedRow : Nat) (r : Realm) :
    Option (Option RandomUserDataRow) :=
  results[selectedRow]?.map fun selectedUser => selectedUser.id.bind (getSpecificObject r)

/-- The star on a row of the users list. -/
def usersListChangeInFavoritesStatus (selectedRow : Nat) (r : Realm) :
    Option (Option RandomUserDataRow) :=
  selectedUser (getObjects r) selectedRow r

/-- The star on a row of the favourites list. -/
def favoritesChangeInFavoritesStatus (selectedRow : Nat) (r : Realm) :
    Option (Option RandomUserDataRow) :=
  selectedUser (favorites r) selectedRow r

/-- The star of the user info screen. -/
def userInfoChangeInFavoritesStatus (userObjectId : String) (r : Realm) :
    Option RandomUserDataRow :=
  getSpecificObject r userObjectId

/-! ## The two lists -/

inductive Tab where
  | usersList : Tab
  | favoritesList : Tab
  deriving DecidableEq, Repr

/-- What a controller indexes by row: `results` of the users list, `results` and `filteredResults`
of the favourites list. The subscript of a lazy filter is that of the query below it. -/
def Tab.results : Tab → Realm → List RandomUserDataRow
  | .usersList, r => getObjects r
  | .favoritesList, r => favorites r

def Tab.changeInFavoritesStatus : Tab → Nat → Realm → Option (Option RandomUserDataRow)
  | .usersList => usersListChangeInFavoritesStatus
  | .favoritesList => favoritesChangeInFavoritesStatus

theorem changeInFavoritesStatus_eq (tab : Tab) (row : Nat) (r : Realm) :
    tab.changeInFavoritesStatus row r = selectedUser (tab.results r) row r := by
  cases tab <;> rfl

section Cells

variable (F : Foundation)

/-- `tableView(_:cellForRowAt:)` on the record of a row. The network matters for the image only. -/
def Tab.cellForRow : Tab → Realm → RandomUserDataRow → Binding
  | .usersList, r, rowItem => usersListCellForRow F true (readUser r rowItem)
  | .favoritesList, r, rowItem => favoritesCellForRow F true (readUser r rowItem)

/-- A binding sets the delegate exactly when the user has both names and a picture whose address is
a URL: it stands after these checks. -/
theorem delegate_cellForRow_iff (tab : Tab) (r : Realm) (rowItem : RandomUserDataRow) :
    (tab.cellForRow F r rowItem).delegate = true ↔
      (∃ medium ∈ (readUser r rowItem).picture.bind (·.medium), F.url medium = true) ∧
      ((readUser r rowItem).name.bind (·.first)).isSome ∧
      ((readUser r rowItem).name.bind (·.last)).isSome := by
  have hlists : (tab.cellForRow F r rowItem) = usersListCellForRow F true (readUser r rowItem) := by
    cases tab <;> rfl
  rw [hlists, usersListCellForRow]
  split
  · rename_i medium first last hmedium hfirst hlast
    rw [hmedium, hfirst, hlast]
    by_cases hurl : F.url medium = true
    · simp [hurl]
    · simp [hurl, plain]
  · rename_i hno
    apply iff_of_false
    · simp
    · rintro ⟨⟨medium, hmedium, -⟩, hfirst, hlast⟩
      obtain ⟨first, hfirst⟩ := Option.isSome_iff_exists.mp hfirst
      obtain ⟨last, hlast⟩ := Option.isSome_iff_exists.mp hlast
      exact hno medium first last hmedium hfirst hlast

end Cells

end ChangeInFavoritesStatus
