import RandomUserClient.Overwriting
import RandomUserClient.UsersViewModel

/-!
# The cells that show a user

Both lists and the user info screen dequeue a reusable cell and bind it to a
user. A binding writes the text of some of the outlets of the cell and starts at
most one image load; what it does not write stays. The texts a fresh cell has
are those of its nib.
-/

namespace UserCells

open Overwriting UsersViewModel

/-- What the bindings use of Foundation. -/
structure Foundation where
  /-- `URL(string:)` returns a URL. -/
  url : String → Bool
  capitalized : String → String
  /-- A date read in the format of the server and written as month, day and year. -/
  reformatted : String → Option String
  some_url : ∃ s, url s = true
  capitalized_letter : capitalized "a" = "A"
  some_date : ∃ s, (reformatted s).isSome = true

/-- Foundation on a few strings. -/
def sampleFoundation : Foundation where
  url s := s ≠ ""
  capitalized s := s.capitalize
  reformatted s := if s = "2018-04-01T00:00:00Z" then some "04/01/2018" else none
  some_url := ⟨"a", by decide⟩
  capitalized_letter := by decide +kernel
  some_date := ⟨"2018-04-01T00:00:00Z", by decide +kernel⟩

inductive Label where
  | userNameLabel | emailLabel
  | firstNameLabel | lastNameLabel
  | postcodeLabel | stateLabel | cityLabel | streetLabel
  | offsetLabel | descriptionLabel
  | uuidLabel | usernameLabel | passwordLabel | saltLabel | md5Label | sha1Label | sha256Label
  | headerLabel | dateLabel | ageLabel
  | typeOfIdLabel | valueLabel
  | genderLabel | phoneLabel | cellLabel | natLabel
  deriving DecidableEq, Repr

inductive CellClass where
  | usersListTableViewCell
  | userInfoTopCell
  | userLocationCell
  | userAdressCell
  | userTimezoneCell
  | userLoginCell
  | userDateAgeDisplayCell
  | userIDCell
  | userOtherDataCell
  deriving DecidableEq, Repr

/-- The labels of a cell, with the texts of its nib. -/
def CellClass.outlets : CellClass → List (Label × String)
  | .usersListTableViewCell => [(.userNameLabel, "UserName"), (.emailLabel, "e-mail")]
  | .userInfoTopCell => [(.firstNameLabel, "FirstName"), (.lastNameLabel, "LastName")]
  | .userLocationCell => []
  | .userAdressCell => [(.postcodeLabel, "Postcode: -"), (.stateLabel, "State: -"),
      (.cityLabel, "City: -"), (.streetLabel, "Street: -")]
  | .userTimezoneCell => [(.offsetLabel, "Offset: -"), (.descriptionLabel, "Description: -")]
  | .userLoginCell => [(.uuidLabel, "UUID:"), (.usernameLabel, "Username:"),
      (.passwordLabel, "Password:"), (.saltLabel, "Salt:"), (.md5Label, "MD5:"),
      (.sha1Label, "SHA1:"), (.sha256Label, "SHA256:")]
  | .userDateAgeDisplayCell => [(.headerLabel, "Header"), (.dateLabel, "Date"),
      (.ageLabel, "Age")]
  | .userIDCell => [(.typeOfIdLabel, "Type of ID: -"), (.valueLabel, "Value: -")]
  | .userOtherDataCell => [(.genderLabel, "Gender: -"), (.emailLabel, "E-mail: -"),
      (.phoneLabel, "Phone: -"), (.cellLabel, "Cell: -"), (.natLabel, "Nationality: -")]

def CellClass.labels (cls : CellClass) : List Label := cls.outlets.map Prod.fst

/-- The texts of the labels of one cell. -/
abbrev Texts := Label → Option String

def CellClass.nib (cls : CellClass) : Texts :=
  assign (cls.outlets.map fun outlet => (outlet.1, some outlet.2)) fun _ => none

abbrev Writes := List (Label × Option String)

/-! ## The setups of the user info cells -/

variable (F : Foundation)

def userInfoTopCellSetup (obj : RandomUserDataModel) : Writes :=
  match obj.picture.bind (·.large) with
  | none => []
  | some userObjectPictureLarge =>
    if F.url userObjectPictureLarge then
      [(.firstNameLabel, (obj.name.bind (·.first)).map F.capitalized),
        (.lastNameLabel, (obj.name.bind (·.last)).map F.capitalized)]
    else []

def userAdressCellSetup (obj : RandomUserDataLocationModel) : Writes :=
  match obj.city, obj.state, obj.street with
  | some city, some state, some street =>
    [(.cityLabel, some ("City: " ++ F.capitalized city)),
      (.postcodeLabel, some ("Postcode: " ++ toString obj.postcode)),
      (.stateLabel, some ("State: " ++ F.capitalized state)),
      (.streetLabel, some ("Street: " ++ F.capitalized street))]
  | _, _, _ => []

def userTimezoneCellSetup (obj : RandomUserDataLocationTimezoneModel) : Writes :=
  match obj.offset, obj.zoneDescription with
  | some offset, some description =>
    [(.offsetLabel, some ("Offset: " ++ offset)),
      (.descriptionLabel, some ("Description: " ++ description))]
  | _, _ => []

def userLoginCellSetup (obj : RandomUserDataLoginModel) : Writes :=
  match obj.md5, obj.salt, obj.sha1, obj.sha256, obj.username, obj.password, obj.uuid with
  | some md5, some salt, some sha1, some sha256, some username, some password, some uuid =>
    [(.md5Label, some ("MD5: " ++ md5)),
      (.passwordLabel, some ("Password: " ++ password)),
      (.saltLabel, some ("Salt: " ++ salt)),
      (.sha1Label, some ("SHA1: " ++ sha1)),
      (.sha256Label, some ("SHA256: " ++ sha256)),
      (.usernameLabel, some ("Username: " ++ username)),
      (.uuidLabel, some ("UUID: " ++ uuid))]
  | _, _, _, _, _, _, _ => []

/-- What the two setups of the cell that shows a date have in common. -/
def dateAgeSetup (header : String) (date : Option String) (age : Int) : Writes :=
  match date with
  | none => []
  | some date =>
    (match F.reformatted date with
      | none => []
      | some date => [(.dateLabel, some ("Date: " ++ date))]) ++
    [(.headerLabel, some header), (.ageLabel, some ("Age: " ++ toString age))]

def userDOBCellSetup (obj : RandomUserDataDOBModel) : Writes :=
  dateAgeSetup F "Date of birth" obj.date obj.age

def userRegisteredCellSetup (obj : RandomUserDataRegisteredModel) : Writes :=
  dateAgeSetup F "Date of registration" obj.date obj.age

def userIDCellSetup (obj : RandomUserDataIDModel) : Writes :=
  match obj.name, obj.value with
  | some name, some value =>
    [(.typeOfIdLabel, some ("Type of ID: " ++ name)), (.valueLabel, some ("Value: " ++ value))]
  | _, _ => []

def userOtherDataCellSetup (obj : RandomUserDataModel) : Writes :=
  match obj.cell, obj.phone, obj.email, obj.nat, obj.gender with
  | some cell, some phone, some email, some nat, some gender =>
    [(.cellLabel, some ("Cell: " ++ cell)),
      (.phoneLabel, some ("Phone: " ++ phone)),
      (.emailLabel, some ("E-mail: " ++ email)),
      (.natLabel, some ("Nationality: " ++ nat)),
      (.genderLabel, some ("Gender: " ++ gender))]
  | _, _, _, _, _ => []

/-! ## Binding a cell -/

/-- What `tableView(_:cellForRowAt:)` does: the class of the dequeued cell it returns, or none for
a plain cell; what it writes there; the URL of the image load it starts; and whether it sets the
delegate of the cell, without which the star of the cell does nothing. -/
structure Binding where
  cell : Option CellClass := none
  writes : Writes := []
  load : Option String := none
  delegate : Bool := false

/-- `UITableViewCell()`. -/
def plain : Binding := {}

/-- The lists, which bind their cells alike, show the row of a user. -/
def usersListCellForRow (online : Bool) (user : RandomUserDataModel) : Binding :=
  match user.picture.bind (·.medium), user.name.bind (·.first), user.name.bind (·.last) with
  | some medium, some first, some last =>
    if F.url medium then
      { cell := some .usersListTableViewCell
        writes := [(.userNameLabel, some (F.capitalized first ++ " " ++ F.capitalized last)),
          (.emailLabel, user.email)]
        load := if online then some medium else none
        delegate := true }
    else plain
  | _, _, _ => { cell := some .usersListTableViewCell }

def favoritesCellForRow (online : Bool) (user : RandomUserDataModel) : Binding :=
  usersListCellForRow F online user

def userInfoTopCell (online : Bool) (userObject : RandomUserDataModel) : Binding where
  cell := some .userInfoTopCell
  writes := userInfoTopCellSetup F userObject
  load := if online then (userObject.picture.bind (·.large)).filter F.url else none

/-- A cell of the given class, set up with an object that may be missing. -/
def optionalCell {α : Type} (cls : CellClass) (setup : α → Writes) : Option α → Binding
  | none => plain
  | some obj => { cell := some cls, writes := setup obj }

/-- `tableView(_:cellForRowAt:)` of the user info screen. -/
def userInfoCellForRow (online : Bool) (userObject : RandomUserDataModel) : Nat → Binding
  | 0 => userInfoTopCell F online userObject
  | 1 => optionalCell .userLocationCell (fun _ => []) userObject.location
  | 2 => optionalCell .userAdressCell (userAdressCellSetup F) userObject.location
  | 3 => optionalCell .userTimezoneCell userTimezoneCellSetup
      (userObject.location.bind (·.timezone))
  | 4 => optionalCell .userLoginCell userLoginCellSetup userObject.login
  | 5 => optionalCell .userDateAgeDisplayCell (userDOBCellSetup F) userObject.dob
  | 6 => optionalCell .userDateAgeDisplayCell (userRegisteredCellSetup F) userObject.registered
  | 7 => optionalCell .userIDCell userIDCellSetup userObject.dataId
  | 8 => { cell := some .userOtherDataCell, writes := userOtherDataCellSetup userObject }
  | _ => plain

/-- Where a user is shown. -/
inductive Site where
  | usersList : Site
  | favorites : Site
  | userInfo : Nat → Site
  deriving DecidableEq, Repr

def cellForRow (online : Bool) (user : RandomUserDataModel) : Site → Binding
  | .usersList => usersListCellForRow F online user
  | .favorites => favoritesCellForRow F online user
  | .userInfo sect => userInfoCellForRow F online user sect

end UserCells
