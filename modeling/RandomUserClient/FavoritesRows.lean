import RandomUserClient.LazyFilters
import RandomUserClient.ListScreens

/-!
# The rows of the favourites screen

The screen counts and fills its rows from `filteredResults`, a lazy filter, and
its stars act on `results`, a query. The filter is over the query, which has the
same predicate, so it leaves nothing out, and an index of the one is an index of
the other. Both are live: what they hold is what is stored when they are read.
-/

namespace FavoritesRows

open LazyFilters RealmService ChangeInFavoritesStatus ListScreens

def results : Realm → List RandomUserDataRow := favorites

def isFavorite (user : RandomUserDataRow) : Bool := user.isInFavorites = "true"

/-- `filterResults(_:)`, which filters `results`, whatever it is given. -/
def filterResults (_res : Realm → List RandomUserDataRow) :
    Option (LazyFilterSequence Realm RandomUserDataRow) :=
  some ⟨results, isFavorite⟩

structure RUCFavoritesViewController where
  filteredResults : Option (LazyFilterSequence Realm RandomUserDataRow) := none

namespace RUCFavoritesViewController

def setup (vc : RUCFavoritesViewController) : RUCFavoritesViewController :=
  { vc with filteredResults := filterResults results }

def viewWillAppear (vc : RUCFavoritesViewController) : RUCFavoritesViewController :=
  { vc with filteredResults := filterResults results }

def numberOfRowsInSection (vc : RUCFavoritesViewController) (r : Realm) : Nat :=
  match vc.filteredResults with
  | some filteredResults =>
    if filteredResults.count r < 1 then 0 else filteredResults.count r
  | none => 0

/-- The record that `cellForRowAt` shows and `didSelectRowAt` opens. -/
def rowItem (vc : RUCFavoritesViewController) (r : Realm) (row : Nat) : Option RandomUserDataRow :=
  vc.filteredResults.bind fun filteredResults => filteredResults.get? r row

/-- The view has been loaded, and has appeared any number of times. -/
inductive Loaded : RUCFavoritesViewController → Prop where
  | viewDidLoad (vc : RUCFavoritesViewController) : Loaded vc.setup
  | viewWillAppear {vc : RUCFavoritesViewController} : Loaded vc → Loaded vc.viewWillAppear

theorem Loaded.filteredResults {vc : RUCFavoritesViewController} (h : Loaded vc) :
    vc.filteredResults = some ⟨results, isFavorite⟩ := by
  cases h with
  | viewDidLoad => rfl
  | viewWillAppear => rfl

theorem Loaded.numberOfRows {vc : RUCFavoritesViewController} (h : Loaded vc) (r : Realm) :
    vc.numberOfRowsInSection r = (results r).length := by
  have hpass : ∀ user ∈ results r, isFavorite user = true := fun user hmem =>
    (List.mem_filter.mp hmem).2
  have hcount : LazyFilterSequence.count ⟨results, isFavorite⟩ r = (results r).length :=
    LazyFilterSequence.count_eq_length hpass
  rw [numberOfRowsInSection, h.filteredResults]
  dsimp only
  rw [hcount]
  split
  · omega
  · rfl

theorem Loaded.rowItem {vc : RUCFavoritesViewController} (h : Loaded vc) (r : Realm) (row : Nat) :
    vc.rowItem r row = (results r)[row]? := by
  rw [RUCFavoritesViewController.rowItem, h.filteredResults]
  rfl

end RUCFavoritesViewController

open RUCFavoritesViewController

/-- Whatever is stored, the screen has as many rows as `results` and as there are favourites, and on
each row both have the favourite of the whole table before which there are as many favourites as
rows. -/
theorem row_sources_agree (vc : RUCFavoritesViewController) (h : Loaded vc) (r : Realm) :
    vc.numberOfRowsInSection r = (results r).length ∧
      vc.numberOfRowsInSection r = (getObjects r).countP isFavorite ∧
      ∀ row < vc.numberOfRowsInSection r, ∃ i user,
        (getObjects r)[i]? = some user ∧ user.isInFavorites = "true" ∧
        ((getObjects r).take i).countP isFavorite = row ∧
        (results r)[row]? = some user ∧ vc.rowItem r row = some user := by
  have hcount : (results r).length = (getObjects r).countP isFavorite :=
    List.countP_eq_length_filter.symm
  refine ⟨h.numberOfRows r, (h.numberOfRows r).trans hcount, fun row hrow => ?_⟩
  rw [h.numberOfRows] at hrow
  have huser : (results r)[row]? = some (results r)[row] := List.getElem?_eq_getElem hrow
  obtain ⟨i, hi, hfavorite, hbefore⟩ := (getElem?_filter_iff isFavorite).mp huser
  exact ⟨i, _, hi, of_decide_eq_true hfavorite, hbefore, huser, (h.rowItem r row).trans huser⟩

/-- A user that is no favourite is stored before two that are. -/
def threeUsers : Realm :=
  ((((Realm.empty.put (.ofId "a")).put (.ofId "b")).put (.ofId "c")).setIsInFavorites
    (some "b") "true").setIsInFavorites (some "c") "true"

theorem row_sources_agree_setup :
    (setup {}).numberOfRowsInSection threeUsers = (results threeUsers).length ∧
      (setup {}).numberOfRowsInSection threeUsers =
        (getObjects threeUsers).countP isFavorite ∧
      ∀ row < (setup {}).numberOfRowsInSection threeUsers, ∃ i user,
        (getObjects threeUsers)[i]? = some user ∧ user.isInFavorites = "true" ∧
        ((getObjects threeUsers).take i).countP isFavorite = row ∧
        (results threeUsers)[row]? = some user ∧
        (setup {}).rowItem threeUsers row = some user :=
  row_sources_agree _ (.viewDidLoad {}) threeUsers

/-! ## The list screens -/

/-- So the screen may be taken as one list of rows. -/
theorem numberOfRows_favoritesList {vc : RUCFavoritesViewController} (h : Loaded vc) (r : Realm) :
    numberOfRows .favoritesList r = vc.numberOfRowsInSection r := by
  rw [h.numberOfRows, numberOfRows_eq]
  rfl

theorem results_favoritesList {vc : RUCFavoritesViewController} (h : Loaded vc) (r : Realm)
    (row : Nat) : (Tab.favoritesList.results r)[row]? = vc.rowItem r row :=
  (h.rowItem r row).symm

end FavoritesRows
