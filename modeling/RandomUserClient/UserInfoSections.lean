import RandomUserClient.CellReuse
import RandomUserClient.RealmThreads
import RandomUserClient.SentLeaves

/-!
# What the user info screen shows

The screen has as many sections as it registers cells, which is one less than
its switch has cases. In a fresh cell a leaf is shown when its label is written,
and the setups write the labels of a cell all at once or not at all. So a leaf
can be lost because another one is missing, and a missing number can be shown
as 0. The screen of a user without a uuid looks up the empty one instead.
-/

namespace UserInfoSections

open JsonDecoding Overwriting UserCells CellReuse SentLeaves
open KeyedTable UsersViewModel UsersViewStructs RealmService RefreshHandler StoredUsers
open RealmThreads (numberOfSections)
open StoredLeaves (stringLeaves intLeaves)

def cellsForRegister : List CellClass :=
  [.userInfoTopCell, .userLocationCell, .userAdressCell, .userTimezoneCell, .userLoginCell,
    .userDateAgeDisplayCell, .userIDCell, .userOtherDataCell]

theorem numberOfSections_eq : numberOfSections = cellsForRegister.length := rfl

/-- `userObject` after `setup`: the user with the id of the screen, or the object that the screen
was made with. -/
def userObject (userObjectId : String) (r : Realm) : RandomUserDataModel :=
  match getSpecificObject r userObjectId with
  | some row => readUser r row
  | none => {}

/-- The text that the screen puts on a label of a section; `none` where it puts none, and a fresh
cell shows the text of its nib. -/
def shown (F : Foundation) (online : Bool) (userObject : RandomUserDataModel) (sect : Nat)
    (label : Label) : Option String :=
  if sect < numberOfSections then
    assign (userInfoCellForRow F online userObject sect).writes (fun _ => none) label
  else none

/-- A leaf that the setup of some cell renders: where, what of the data of the server, what is kept
of it, and as what. -/
structure TextLeaf where
  sect : Nat
  label : Label
  path : List String
  kept : RandomUserDataModel → Option String
  text : Foundation → String → String

def nameLeaves : List TextLeaf := [
  ⟨0, .firstNameLabel, ["name", "first"], fun o => o.name.bind (·.first),
    fun F s => F.capitalized s⟩,
  ⟨0, .lastNameLabel, ["name", "last"], fun o => o.name.bind (·.last),
    fun F s => F.capitalized s⟩]

def adressLeaves : List TextLeaf := [
  ⟨2, .cityLabel, ["location", "city"], fun o => o.location.bind (·.city),
    fun F s => "City: " ++ F.capitalized s⟩,
  ⟨2, .postcodeLabel, ["location", "postcode"],
    fun o => (o.location.map (·.postcode)).map toString, fun _ s => "Postcode: " ++ s⟩,
  ⟨2, .stateLabel, ["location", "state"], fun o => o.location.bind (·.state),
    fun F s => "State: " ++ F.capitalized s⟩,
  ⟨2, .streetLabel, ["location", "street"], fun o => o.location.bind (·.street),
    fun F s => "Street: " ++ F.capitalized s⟩]

def timezoneLeaves : List TextLeaf := [
  ⟨3, .offsetLabel, ["location", "timezone", "offset"],
    fun o => o.location.bind fun l => l.timezone.bind (·.offset), fun _ s => "Offset: " ++ s⟩,
  ⟨3, .descriptionLabel, ["location", "timezone", "description"],
    fun o => o.location.bind fun l => l.timezone.bind (·.zoneDescription),
    fun _ s => "Description: " ++ s⟩]

def loginLeaves : List TextLeaf := [
  ⟨4, .md5Label, ["login", "md5"], fun o => o.login.bind (·.md5), fun _ s => "MD5: " ++ s⟩,
  ⟨4, .passwordLabel, ["login", "password"], fun o => o.login.bind (·.password),
    fun _ s => "Password: " ++ s⟩,
  ⟨4, .saltLabel, ["login", "salt"], fun o => o.login.bind (·.salt), fun _ s => "Salt: " ++ s⟩,
  ⟨4, .sha1Label, ["login", "sha1"], fun o => o.login.bind (·.sha1), fun _ s => "SHA1: " ++ s⟩,
  ⟨4, .sha256Label, ["login", "sha256"], fun o => o.login.bind (·.sha256),
    fun _ s => "SHA256: " ++ s⟩,
  ⟨4, .usernameLabel, ["login", "username"], fun o => o.login.bind (·.username),
    fun _ s => "Username: " ++ s⟩,
  ⟨4, .uuidLabel, ["login", "uuid"], fun o => o.login.bind (·.uuid), fun _ s => "UUID: " ++ s⟩]

def dobLeaves : List TextLeaf := [
  ⟨5, .ageLabel, ["dob", "age"], fun o => (o.dob.map (·.age)).map toString,
    fun _ s => "Age: " ++ s⟩]

def registeredLeaves : List TextLeaf := [
  ⟨6, .ageLabel, ["registered", "age"], fun o => (o.registered.map (·.age)).map toString,
    fun _ s => "Age: " ++ s⟩]

def idLeaves : List TextLeaf := [
  ⟨7, .typeOfIdLabel, ["id", "name"], fun o => o.dataId.bind (·.name),
    fun _ s => "Type of ID: " ++ s⟩,
  ⟨7, .valueLabel, ["id", "value"], fun o => o.dataId.bind (·.value), fun _ s => "Value: " ++ s⟩]

def otherLeaves : List TextLeaf := [
  ⟨8, .cellLabel, ["cell"], fun o => o.cell, fun _ s => "Cell: " ++ s⟩,
  ⟨8, .phoneLabel, ["phone"], fun o => o.phone, fun _ s => "Phone: " ++ s⟩,
  ⟨8, .emailLabel, ["email"], fun o => o.email, fun _ s => "E-mail: " ++ s⟩,
  ⟨8, .natLabel, ["nat"], fun o => o.nat, fun _ s => "Nationality: " ++ s⟩,
  ⟨8, .genderLabel, ["gender"], fun o => o.gender, fun _ s => "Gender: " ++ s⟩]

def textLeaves : List TextLeaf :=
  nameLeaves ++ adressLeaves ++ timezoneLeaves ++ loginLeaves ++ dobLeaves ++ registeredLeaves ++
    idLeaves ++ otherLeaves

/-- A leaf that was sent is shown as its text, and of one that was not sent nothing is. -/
def Appears (F : Foundation) (online : Bool) (item : Json) (userObject : RandomUserDataModel)
    (leaf : TextLeaf) : Prop :=
  ∃ d, SentAs leaf.path item d ∧
    shown F online userObject leaf.sect leaf.label = d.map (leaf.text F)

def Complete (F : Foundation) (online : Bool) (item : Json) (userObject : RandomUserDataModel) :
    Prop :=
  ∀ leaf ∈ textLeaves, Appears F online item userObject leaf

/-! ## Which sections show something -/

/-- The object has all that the setup of a section needs. No case is reached of the sections from 8
on. -/
def Given (F : Foundation) (o : RandomUserDataModel) : Nat → Prop
  | 0 => LargePictureGiven F o
  | 2 => ∃ obj ∈ o.location, AdressGiven obj
  | 3 => ∃ obj ∈ o.location.bind (·.timezone), TimezoneGiven obj
  | 4 => ∃ obj ∈ o.login, LoginGiven obj
  | 5 => ∃ obj ∈ o.dob, obj.date ≠ none
  | 6 => ∃ obj ∈ o.registered, obj.date ≠ none
  | 7 => ∃ obj ∈ o.dataId, IDGiven obj
  | _ => False

/-- The leaves of a section are shown as they are kept where the section has what it needs, and not
at all elsewhere. -/
def Renders (F : Foundation) (online : Bool) (o : RandomUserDataModel) (sect : Nat)
    (leaves : List TextLeaf) : Prop :=
  (∀ leaf ∈ leaves, leaf.sect = sect) ∧
  (Given F o sect → ∀ leaf ∈ leaves,
    shown F online o sect leaf.label = (leaf.kept o).map (leaf.text F)) ∧
  (¬ Given F o sect → ∀ leaf ∈ leaves, shown F online o sect leaf.label = none)

variable {F : Foundation} {online : Bool} {item : Json} {value : RandomUserData}
  {o : RandomUserDataModel} {leaves : List TextLeaf}

theorem shown_none {sect : Nat} (h : (userInfoCellForRow F online o sect).writes = [])
    (label : Label) : shown F online o sect label = none := by
  unfold shown
  split
  · rw [h]
    rfl
  · rfl

/-- A section with an object that may be missing. -/
theorem writes_optionalCell {α : Type} (cls : CellClass) {setup : α → Writes} {given : α → Prop}
    (hnone : ∀ obj, ¬ given obj → setup obj = []) {x : Option α} (h : ¬ ∃ obj ∈ x, given obj) :
    (optionalCell cls setup x).writes = [] := by
  cases x with
  | none => rfl
  | some obj => exact hnone obj fun hg => h ⟨obj, rfl, hg⟩

theorem renders_name : Renders F online o 0 nameLeaves := by
  refine ⟨by simp [nameLeaves], fun h => ?_, fun h leaf _ => ?_⟩
  · have hwrites := userInfoTopCellSetup_some h
    simp [nameLeaves, shown, numberOfSections, userInfoCellForRow, userInfoTopCell, hwrites,
      assign]
  · have hwrites : (userInfoCellForRow F online o 0).writes = [] := userInfoTopCellSetup_none h
    exact shown_none hwrites leaf.label

theorem renders_adress : Renders F online o 2 adressLeaves := by
  refine ⟨by simp [adressLeaves], ?_, fun h leaf _ => ?_⟩
  · rintro ⟨obj, hobj, hg⟩
    obtain ⟨city, state, street, hc, hs, ht⟩ := adressGiven_iff.mp hg
    rw [Option.mem_def] at hobj
    simp [adressLeaves, shown, numberOfSections, userInfoCellForRow, optionalCell,
      userAdressCellSetup, assign, hobj, hc, hs, ht]
  · have hwrites : (userInfoCellForRow F online o 2).writes = [] :=
      writes_optionalCell .userAdressCell (fun _ => userAdressCellSetup_none) h
    exact shown_none hwrites leaf.label

theorem renders_timezone : Renders F online o 3 timezoneLeaves := by
  refine ⟨by simp [timezoneLeaves], ?_, fun h leaf _ => ?_⟩
  · rintro ⟨obj, hobj, hg⟩
    obtain ⟨offset, description, ho, hd⟩ := timezoneGiven_iff.mp hg
    obtain ⟨location, hlocation, htimezone⟩ := Option.bind_eq_some_iff.mp hobj
    simp [timezoneLeaves, shown, numberOfSections, userInfoCellForRow, optionalCell,
      userTimezoneCellSetup, assign, hlocation, htimezone, ho, hd]
  · have hwrites : (userInfoCellForRow F online o 3).writes = [] :=
      writes_optionalCell .userTimezoneCell (fun _ => userTimezoneCellSetup_none) h
    exact shown_none hwrites leaf.label

theorem renders_login : Renders F online o 4 loginLeaves := by
  refine ⟨by simp [loginLeaves], ?_, fun h leaf _ => ?_⟩
  · rintro ⟨obj, hobj, hg⟩
    obtain ⟨md5, salt, sha1, sha256, username, password, uuid, h₁, h₂, h₃, h₄, h₅, h₆, h₇⟩ :=
      loginGiven_iff.mp hg
    rw [Option.mem_def] at hobj
    simp [loginLeaves, shown, numberOfSections, userInfoCellForRow, optionalCell,
      userLoginCellSetup, assign, hobj, h₁, h₂, h₃, h₄, h₅, h₆, h₇]
  · have hwrites : (userInfoCellForRow F online o 4).writes = [] :=
      writes_optionalCell .userLoginCell (fun _ => userLoginCellSetup_none) h
    exact shown_none hwrites leaf.label

theorem renders_id : Renders F online o 7 idLeaves := by
  refine ⟨by simp [idLeaves], ?_, fun h leaf _ => ?_⟩
  · rintro ⟨obj, hobj, hg⟩
    obtain ⟨name, idValue, hn, hv⟩ := idGiven_iff.mp hg
    rw [Option.mem_def] at hobj
    simp [idLeaves, shown, numberOfSections, userInfoCellForRow, optionalCell,
      userIDCellSetup, assign, hobj, hn, hv]
  · have hwrites : (userInfoCellForRow F online o 7).writes = [] :=
      writes_optionalCell .userIDCell (fun _ => userIDCellSetup_none) h
    exact shown_none hwrites leaf.label

/-- The age is written wherever there is a date, whether the date can be read or not. -/
theorem assign_ageLabel (F : Foundation) (header : String) {date : Option String} (age : Int)
    (h : date ≠ none) : assign (dateAgeSetup F header date age) (fun _ => none) .ageLabel =
      some ("Age: " ++ toString age) := by
  obtain ⟨date, rfl⟩ := Option.ne_none_iff_exists'.mp h
  cases hr : F.reformatted date <;> simp [dateAgeSetup, hr, assign]

theorem dateAgeSetup_none (F : Foundation) (header : String) {date : Option String} (age : Int)
    (h : ¬ date ≠ none) : dateAgeSetup F header date age = [] := by
  rw [not_not.mp h]
  rfl

theorem userDOBCellSetup_none {obj : RandomUserDataDOBModel} (h : ¬ obj.date ≠ none) :
    userDOBCellSetup F obj = [] :=
  dateAgeSetup_none F _ obj.age h

theorem userRegisteredCellSetup_none {obj : RandomUserDataRegisteredModel}
    (h : ¬ obj.date ≠ none) : userRegisteredCellSetup F obj = [] :=
  dateAgeSetup_none F _ obj.age h

theorem renders_dob : Renders F online o 5 dobLeaves := by
  refine ⟨by simp [dobLeaves], ?_, fun h leaf _ => ?_⟩
  · rintro ⟨obj, hobj, hg⟩
    rw [Option.mem_def] at hobj
    have hage := assign_ageLabel F "Date of birth" obj.age hg
    simp [dobLeaves, shown, numberOfSections, userInfoCellForRow, optionalCell, userDOBCellSetup,
      hage, hobj]
  · have hwrites : (userInfoCellForRow F online o 5).writes = [] :=
      writes_optionalCell .userDateAgeDisplayCell (fun _ => userDOBCellSetup_none) h
    exact shown_none hwrites leaf.label

theorem renders_registered : Renders F online o 6 registeredLeaves := by
  refine ⟨by simp [registeredLeaves], ?_, fun h leaf _ => ?_⟩
  · rintro ⟨obj, hobj, hg⟩
    rw [Option.mem_def] at hobj
    have hage := assign_ageLabel F "Date of registration" obj.age hg
    simp [registeredLeaves, shown, numberOfSections, userInfoCellForRow, optionalCell,
      userRegisteredCellSetup, hage, hobj]
  · have hwrites : (userInfoCellForRow F online o 6).writes = [] :=
      writes_optionalCell .userDateAgeDisplayCell (fun _ => userRegisteredCellSetup_none) h
    exact shown_none hwrites leaf.label

/-- The last case of the switch is never reached. -/
theorem renders_other : Renders F online o 8 otherLeaves :=
  ⟨by simp [otherLeaves], False.elim, fun _ _ _ => rfl⟩

/-! ## When a section shows what was sent -/

/-- A section shows what is kept, if it shows anything, and that is what was sent. -/
def Matches (F : Foundation) (item : Json) (o : RandomUserDataModel) (leaf : TextLeaf) : Prop :=
  ∃ d, SentAs leaf.path item d ∧
    ((Given F o leaf.sect ∧ d.map (leaf.text F) = (leaf.kept o).map (leaf.text F)) ∨
      (¬ Given F o leaf.sect ∧ d = none))

/-- The user of an object would be shown with just the texts that were sent of another one. -/
def Coincides (F : Foundation) (item : Json) (o : RandomUserDataModel) : Prop :=
  ∀ leaf ∈ textLeaves, Matches F item o leaf

theorem Renders.appears_iff {sect : Nat} (h : Renders F online o sect leaves) :
    (∀ leaf ∈ leaves, Appears F online item o leaf) ↔ ∀ leaf ∈ leaves, Matches F item o leaf := by
  obtain ⟨hsect, hgiven, hnot⟩ := h
  refine forall_congr' fun leaf => imp_congr_right fun hleaf => exists_congr fun d =>
    and_congr_right fun _ => ?_
  rw [hsect leaf hleaf]
  by_cases hg : Given F o sect
  · rw [hgiven hg leaf hleaf]
    simp [hg, eq_comm]
  · rw [hnot hg leaf hleaf, eq_comm, Option.map_eq_none_iff]
    simp [hg]

theorem complete_iff_coincides : Complete F online item o ↔ Coincides F item o := by
  simp only [Complete, Coincides, textLeaves, List.forall_mem_append, renders_name.appears_iff,
    renders_adress.appears_iff, renders_timezone.appears_iff, renders_login.appears_iff,
    renders_dob.appears_iff, renders_registered.appears_iff, renders_id.appears_iff,
    renders_other.appears_iff]

/-- None of the leaves was sent. -/
def NoneSent (leaves : List TextLeaf) (item : Json) : Prop :=
  ∀ leaf ∈ leaves, SentAs leaf.path item none

/-- None of the leaves was sent, or all were, in a field that decodes. -/
def AllOrNone (k : String) (leaves : List TextLeaf) (item : Json) : Prop :=
  NoneSent leaves item ∨ (Decodes k item ∧ ∀ leaf ∈ leaves, ¬ SentAs leaf.path item none)

/-- A large picture was sent whose address is a URL. -/
def LargePictureSent (F : Foundation) (item : Json) : Prop :=
  Decodes "picture" item ∧ ∃ url, SentAs ["picture", "large"] item (some url) ∧ F.url url = true

/-- The age was sent exactly if the date was, and not at all in a field that does not decode. -/
def AgeWithDate (k : String) (item : Json) : Prop :=
  (Decodes k item → (SentAs [k, "age"] item none ↔ SentAs [k, "date"] item none)) ∧
    (¬ Decodes k item → SentAs [k, "age"] item none)

/-- What was sent of a user is what the sections can show. -/
structure Showable (F : Foundation) (item : Json) : Prop where
  name : NoneSent nameLeaves item ∨ (Decodes "name" item ∧ LargePictureSent F item)
  adress : AllOrNone "location" adressLeaves item
  timezone : AllOrNone "location" timezoneLeaves item
  login : AllOrNone "login" loginLeaves item
  dob : AgeWithDate "dob" item
  registered : AgeWithDate "registered" item
  id : AllOrNone "id" idLeaves item
  other : NoneSent otherLeaves item

theorem matches_not_given {leaf : TextLeaf} (h : ¬ Given F o leaf.sect) :
    Matches F item o leaf ↔ SentAs leaf.path item none := by
  constructor
  · rintro ⟨d, hd, ⟨hg, -⟩ | ⟨-, rfl⟩⟩
    · exact absurd hg h
    · exact hd
  · intro hd
    exact ⟨none, hd, Or.inr ⟨h, rfl⟩⟩

/-- A section that needs all of its leaves, the first of them a string. -/
theorem matches_iff_allOrNone {k : String} {first : TextLeaf} {rest : List TextLeaf} (given : Prop)
    (hsect : ∀ leaf ∈ first :: rest, (Given F o leaf.sect ↔ given))
    (hgiven : given ↔ ∀ leaf ∈ first :: rest, leaf.kept o ≠ none)
    (hfirst : (Decodes k item → SentAs first.path item (first.kept o)) ∧
      (¬ Decodes k item → first.kept o = none))
    (hsent : Decodes k item → ∀ leaf ∈ first :: rest, ∃ d, SentAs leaf.path item d ∧
      (d ≠ none → leaf.kept o = d)) :
    (∀ leaf ∈ first :: rest, Matches F item o leaf) ↔ AllOrNone k (first :: rest) item := by
  have hdecodes : given → Decodes k item := by
    intro hg
    by_contra hno
    exact hgiven.mp hg first List.mem_cons_self (hfirst.2 hno)
  constructor
  · intro hall
    by_cases hg : given
    · refine Or.inr ⟨hdecodes hg, fun leaf hleaf hnone => ?_⟩
      obtain ⟨d, hd, ⟨-, htext⟩ | ⟨hno, -⟩⟩ := hall leaf hleaf
      · rw [sentAs_unique hd hnone] at htext
        exact hgiven.mp hg leaf hleaf (Option.map_eq_none_iff.mp htext.symm)
      · exact hno ((hsect leaf hleaf).mpr hg)
    · refine Or.inl fun leaf hleaf => ?_
      have hno : ¬ Given F o leaf.sect := fun h => hg ((hsect leaf hleaf).mp h)
      exact (matches_not_given hno).mp (hall leaf hleaf)
  · rintro (hnone | ⟨hd, hall⟩) leaf hleaf
    · have hno : ¬ Given F o leaf.sect := by
        intro h
        have hg := (hsect leaf hleaf).mp h
        have hkept := hfirst.1 (hdecodes hg)
        have hfirstNone := hnone first List.mem_cons_self
        exact hgiven.mp hg first List.mem_cons_self (sentAs_unique hkept hfirstNone)
      exact (matches_not_given hno).mpr (hnone leaf hleaf)
    · have hkept : ∀ leaf ∈ first :: rest, ∃ d, SentAs leaf.path item d ∧ d ≠ none ∧
          leaf.kept o = d := by
        intro leaf hleaf
        obtain ⟨d, hsentAs, hkept⟩ := hsent hd leaf hleaf
        have hne : d ≠ none := by
          rintro rfl
          exact hall leaf hleaf hsentAs
        exact ⟨d, hsentAs, hne, hkept hne⟩
      have hg : given := by
        rw [hgiven]
        intro leaf hleaf
        obtain ⟨d, -, hne, hd⟩ := hkept leaf hleaf
        rw [hd]
        exact hne
      obtain ⟨d, hsentAs, -, hkept⟩ := hkept leaf hleaf
      exact ⟨d, hsentAs, Or.inl ⟨(hsect leaf hleaf).mpr hg, by rw [hkept]⟩⟩

/-! ## The sections of a stored user -/

/-- The leaves of a section of strings. -/
theorem matches_strings (hdec : decodeUser item = some value) (flag : String) {k : String}
    {first : TextLeaf} {rest : List TextLeaf} (given : Prop)
    (hsect : ∀ leaf ∈ first :: rest, (Given F (storedObject value flag) leaf.sect ↔ given))
    (hgiven : given ↔ ∀ leaf ∈ first :: rest, leaf.kept (storedObject value flag) ≠ none)
    (hstrings : ∀ leaf ∈ first :: rest, ∃ path, leaf.path = k :: path ∧
      ⟨k :: path, leaf.kept⟩ ∈ stringLeaves) :
    (∀ leaf ∈ first :: rest, Matches F item (storedObject value flag) leaf) ↔
      AllOrNone k (first :: rest) item := by
  have hkept : ∀ leaf ∈ first :: rest,
      (Decodes k item → SentAs leaf.path item (leaf.kept (storedObject value flag))) ∧
        (¬ Decodes k item → leaf.kept (storedObject value flag) = none) := by
    intro leaf hleaf
    obtain ⟨path, hpath, hmem⟩ := hstrings leaf hleaf
    rw [hpath]
    exact kept_string hdec flag hmem
  refine matches_iff_allOrNone given hsect hgiven (hkept first List.mem_cons_self) ?_
  intro hd leaf hleaf
  exact ⟨_, (hkept leaf hleaf).1 hd, fun _ => rfl⟩

/-- A number that was sent is kept. -/
theorem sent_int (hdec : decodeUser item = some value) (flag : String) {k : String}
    {path : List String} {kept : RandomUserDataModel → Option Int}
    (hmem : ⟨k :: path, kept⟩ ∈ intLeaves) (hd : Decodes k item) :
    ∃ d, SentAs (k :: path) item d ∧
      (d ≠ none → (kept (storedObject value flag)).map toString = d) := by
  obtain ⟨n, hsent, hkept⟩ := kept_int hdec flag hmem hd
  refine ⟨_, hsent, fun hne => ?_⟩
  cases n with
  | none => exact absurd rfl hne
  | some n => rw [hkept]; rfl

theorem matches_adress (hdec : decodeUser item = some value) (flag : String) :
    (∀ leaf ∈ adressLeaves, Matches F item (storedObject value flag) leaf) ↔
      AllOrNone "location" adressLeaves item := by
  have hcity : ⟨["location", "city"], fun o => o.location.bind (·.city)⟩ ∈ stringLeaves := by
    simp [stringLeaves]
  have hpostcode : ⟨["location", "postcode"], fun o => o.location.map (·.postcode)⟩ ∈
      intLeaves := by
    simp [intLeaves]
  have hstate : ⟨["location", "state"], fun o => o.location.bind (·.state)⟩ ∈ stringLeaves := by
    simp [stringLeaves]
  have hstreet : ⟨["location", "street"], fun o => o.location.bind (·.street)⟩ ∈
      stringLeaves := by
    simp [stringLeaves]
  apply matches_iff_allOrNone (AdressGiven (objLocation value))
  · simp [Given, RandomUserDataModel.ofValue]
  · simp [AdressGiven, RandomUserDataModel.ofValue]
  · exact kept_string hdec flag hcity
  · intro hd
    simp only [List.forall_mem_cons]
    refine ⟨⟨_, (kept_string hdec flag hcity).1 hd, fun _ => rfl⟩, sent_int hdec flag hpostcode hd,
      ⟨_, (kept_string hdec flag hstate).1 hd, fun _ => rfl⟩,
      ⟨_, (kept_string hdec flag hstreet).1 hd, fun _ => rfl⟩, by simp⟩

theorem matches_timezone (hdec : decodeUser item = some value) (flag : String) :
    (∀ leaf ∈ timezoneLeaves, Matches F item (storedObject value flag) leaf) ↔
      AllOrNone "location" timezoneLeaves item := by
  apply matches_strings hdec flag (TimezoneGiven (objLocationTimezone value))
  · simp [Given, RandomUserDataModel.ofValue, objLocation]
  · simp [TimezoneGiven, RandomUserDataModel.ofValue, objLocation]
  · simp [stringLeaves]

theorem matches_login (hdec : decodeUser item = some value) (flag : String) :
    (∀ leaf ∈ loginLeaves, Matches F item (storedObject value flag) leaf) ↔
      AllOrNone "login" loginLeaves item := by
  apply matches_strings hdec flag (LoginGiven (objLogin value))
  · simp [Given, RandomUserDataModel.ofValue]
  · simp only [LoginGiven, RandomUserDataModel.ofValue, List.forall_mem_cons, Option.bind_some]
    tauto
  · simp [stringLeaves]

theorem matches_id (hdec : decodeUser item = some value) (flag : String) :
    (∀ leaf ∈ idLeaves, Matches F item (storedObject value flag) leaf) ↔
      AllOrNone "id" idLeaves item := by
  apply matches_strings hdec flag (IDGiven (objDataId value))
  · simp [Given, RandomUserDataModel.ofValue]
  · simp [IDGiven, RandomUserDataModel.ofValue]
  · simp [stringLeaves]

/-- An age is shown as 0 where only the date was sent. -/
theorem matches_age (hdec : decodeUser item = some value) (flag : String) {k : String}
    {leaf : TextLeaf} {date : RandomUserDataModel → Option String}
    {age : RandomUserDataModel → Option Int} (hleaf : leaf.path = [k, "age"])
    (hkept : leaf.kept (storedObject value flag) = (age (storedObject value flag)).map toString)
    (hdate : ⟨[k, "date"], date⟩ ∈ stringLeaves) (hage : ⟨[k, "age"], age⟩ ∈ intLeaves)
    (hgiven : Given F (storedObject value flag) leaf.sect ↔
      date (storedObject value flag) ≠ none) :
    Matches F item (storedObject value flag) leaf ↔ AgeWithDate k item := by
  obtain ⟨hyes, hno⟩ := kept_string hdec flag hdate
  by_cases hd : Decodes k item
  · have hdate : SentAs [k, "date"] item none ↔ date (storedObject value flag) = none := by
      constructor
      · exact fun hnone => sentAs_unique (hyes hd) hnone
      · intro hnone
        rw [← hnone]
        exact hyes hd
    obtain ⟨n, hsent, hn⟩ := kept_int hdec flag hage hd
    have hage : SentAs [k, "age"] item none ↔ n = none := by
      constructor
      · exact fun hnone => Option.map_eq_none_iff.mp (sentAs_unique hsent hnone)
      · rintro rfl
        exact hsent
    have hcond : AgeWithDate k item ↔ (n = none ↔ date (storedObject value flag) = none) := by
      rw [AgeWithDate, hdate, hage]
      simp [hd]
    rw [hcond]
    by_cases hg : date (storedObject value flag) = none
    · have hnot : ¬ Given F (storedObject value flag) leaf.sect := fun h => hgiven.mp h hg
      rw [matches_not_given hnot, hleaf, hage]
      simp [hg]
    · have hyes := hgiven.mpr hg
      rw [iff_false_right hg]
      constructor
      · rintro ⟨d, hd, ⟨-, htext⟩ | ⟨hno, -⟩⟩ rfl
        · rw [hleaf] at hd
          rw [sentAs_unique hd hsent, hkept, hn] at htext
          cases htext
        · exact hno hyes
      · intro hne
        obtain ⟨n, rfl⟩ := Option.ne_none_iff_exists'.mp hne
        refine ⟨some (toString n), hleaf ▸ hsent, Or.inl ⟨hyes, ?_⟩⟩
        rw [hkept, hn]
        rfl
  · have hnot : ¬ Given F (storedObject value flag) leaf.sect := fun h => hgiven.mp h (hno hd)
    rw [matches_not_given hnot, hleaf, AgeWithDate]
    simp [hd]

theorem matches_dob (hdec : decodeUser item = some value) (flag : String) :
    (∀ leaf ∈ dobLeaves, Matches F item (storedObject value flag) leaf) ↔
      AgeWithDate "dob" item := by
  have hdate : ⟨["dob", "date"], fun o => o.dob.bind (·.date)⟩ ∈ stringLeaves := by
    simp [stringLeaves]
  have hage : ⟨["dob", "age"], fun o => o.dob.map (·.age)⟩ ∈ intLeaves := by simp [intLeaves]
  rw [dobLeaves, List.forall_mem_singleton]
  apply matches_age hdec flag rfl rfl hdate hage
  simp [Given, RandomUserDataModel.ofValue]

theorem matches_registered (hdec : decodeUser item = some value) (flag : String) :
    (∀ leaf ∈ registeredLeaves, Matches F item (storedObject value flag) leaf) ↔
      AgeWithDate "registered" item := by
  have hdate : ⟨["registered", "date"], fun o => o.registered.bind (·.date)⟩ ∈ stringLeaves := by
    simp [stringLeaves]
  have hage : ⟨["registered", "age"], fun o => o.registered.map (·.age)⟩ ∈ intLeaves := by
    simp [intLeaves]
  rw [registeredLeaves, List.forall_mem_singleton]
  apply matches_age hdec flag rfl rfl hdate hage
  simp [Given, RandomUserDataModel.ofValue]

theorem largePictureGiven_iff (hdec : decodeUser item = some value) (flag : String) :
    LargePictureGiven F (storedObject value flag) ↔ LargePictureSent F item := by
  have hlarge : ⟨["picture", "large"], fun o => o.picture.bind (·.large)⟩ ∈ stringLeaves := by
    simp [stringLeaves]
  obtain ⟨hyes, hno⟩ := kept_string hdec flag hlarge
  rw [LargePictureGiven, Option.any_eq_true]
  constructor
  · rintro ⟨url, hurl, hvalid⟩
    have hd : Decodes "picture" item := by
      by_contra hd
      rw [hno hd] at hurl
      cases hurl
    have hsent := hyes hd
    rw [hurl] at hsent
    exact ⟨hd, url, hsent, hvalid⟩
  · rintro ⟨hd, url, hsent, hvalid⟩
    exact ⟨url, sentAs_unique (hyes hd) hsent, hvalid⟩

/-- The name needs the picture, and a missing part of it shows nothing. -/
theorem matches_name (hdec : decodeUser item = some value) (flag : String) :
    (∀ leaf ∈ nameLeaves, Matches F item (storedObject value flag) leaf) ↔
      NoneSent nameLeaves item ∨ (Decodes "name" item ∧ LargePictureSent F item) := by
  have hstrings : ∀ leaf ∈ nameLeaves, leaf.sect = 0 ∧ ∃ path, leaf.path = "name" :: path ∧
      ⟨"name" :: path, leaf.kept⟩ ∈ stringLeaves := by
    simp [nameLeaves, stringLeaves]
  have hkept : ∀ leaf ∈ nameLeaves,
      (Decodes "name" item → SentAs leaf.path item (leaf.kept (storedObject value flag))) ∧
        (¬ Decodes "name" item → leaf.kept (storedObject value flag) = none) := by
    intro leaf hleaf
    obtain ⟨-, path, hpath, hmem⟩ := hstrings leaf hleaf
    rw [hpath]
    exact kept_string hdec flag hmem
  have hgiven : ∀ leaf ∈ nameLeaves,
      (Given F (storedObject value flag) leaf.sect ↔ LargePictureSent F item) := by
    intro leaf hleaf
    rw [(hstrings leaf hleaf).1]
    exact largePictureGiven_iff hdec flag
  have hnone : ∀ leaf ∈ nameLeaves, SentAs leaf.path item none →
      leaf.kept (storedObject value flag) = none := by
    intro leaf hleaf hsent
    by_cases hd : Decodes "name" item
    · exact sentAs_unique ((hkept leaf hleaf).1 hd) hsent
    · exact (hkept leaf hleaf).2 hd
  constructor
  · intro hall
    by_cases hboth : Decodes "name" item ∧ LargePictureSent F item
    · exact Or.inr hboth
    · refine Or.inl fun leaf hleaf => ?_
      obtain ⟨d, hd, ⟨hg, htext⟩ | ⟨-, rfl⟩⟩ := hall leaf hleaf
      · have hno : ¬ Decodes "name" item := fun h => hboth ⟨h, (hgiven leaf hleaf).mp hg⟩
        rw [(hkept leaf hleaf).2 hno] at htext
        exact Option.map_eq_none_iff.mp htext ▸ hd
      · exact hd
  · rintro (hall | ⟨hd, hpicture⟩) leaf hleaf
    · refine ⟨none, hall leaf hleaf, ?_⟩
      rw [hnone leaf hleaf (hall leaf hleaf)]
      by_cases hg : Given F (storedObject value flag) leaf.sect
      · exact Or.inl ⟨hg, rfl⟩
      · exact Or.inr ⟨hg, rfl⟩
    · exact ⟨_, (hkept leaf hleaf).1 hd, Or.inl ⟨(hgiven leaf hleaf).mpr hpicture, rfl⟩⟩

theorem matches_other :
    (∀ leaf ∈ otherLeaves, Matches F item o leaf) ↔ NoneSent otherLeaves item := by
  have hsect : ∀ leaf ∈ otherLeaves, leaf.sect = 8 := by simp [otherLeaves]
  refine forall_congr' fun leaf => imp_congr_right fun hleaf => matches_not_given ?_
  rw [hsect leaf hleaf]
  exact id

/-- The screen of a stored user shows what was sent of it exactly when that is showable. -/
theorem complete_storedObject_iff (hdec : decodeUser item = some value) (flag : String) :
    Complete F online item (storedObject value flag) ↔ Showable F item := by
  simp only [complete_iff_coincides, Coincides, textLeaves, List.forall_mem_append,
    matches_name hdec, matches_adress hdec, matches_timezone hdec, matches_login hdec,
    matches_dob hdec, matches_registered hdec, matches_id hdec, matches_other]
  constructor
  · rintro ⟨⟨⟨⟨⟨⟨⟨hname, hadress⟩, htimezone⟩, hlogin⟩, hdob⟩, hregistered⟩, hid⟩, hother⟩
    exact ⟨hname, hadress, htimezone, hlogin, hdob, hregistered, hid, hother⟩
  · rintro ⟨hname, hadress, htimezone, hlogin, hdob, hregistered, hid, hother⟩
    exact ⟨⟨⟨⟨⟨⟨⟨hname, hadress⟩, htimezone⟩, hlogin⟩, hdob⟩, hregistered⟩, hid⟩, hother⟩

/-! ## The user that the screen loads -/

/-- A user has a uuid when its login object decodes and has one. -/
def HasUuid (item : Json) : Prop :=
  Decodes "login" item ∧ ¬ SentAs ["login", "uuid"] item none

theorem hasUuid_iff (hdec : decodeUser item = some value) :
    HasUuid item ↔ value.uuid ≠ none := by
  have huuid : ⟨["login", "uuid"], fun o => o.login.bind (·.uuid)⟩ ∈ stringLeaves := by
    simp [stringLeaves]
  have hkept := kept_string hdec "false" huuid
  have hsame : (storedObject value "false").login.bind (·.uuid) = value.uuid := rfl
  simp only [hsame] at hkept
  constructor
  · rintro ⟨hd, hsent⟩ hnone
    have hkept := hkept.1 hd
    rw [hnone] at hkept
    exact hsent hkept
  · intro hne
    have hd : Decodes "login" item := by
      by_contra hd
      exact hne (hkept.2 hd)
    exact ⟨hd, fun hnone => hne (sentAs_unique (hkept.1 hd) hnone)⟩

/-- When the screen of a user is complete. With a uuid, what was sent of the user has to be
showable. Without one the screen looks up the empty uuid: there the user who has it has to be shown
with the same texts, and if there is none, no leaf at all may have been sent. -/
def CompleteWhen (F : Foundation) (r : Realm) (item : Json) : Prop :=
  (HasUuid item ∧ Showable F item) ∨
    (¬ HasUuid item ∧ match getSpecificObject r "" with
      | some row => Coincides F item (readUser r row)
      | none => NoneSent textLeaves item)

/-- The object that a screen is made with has nothing to show. -/
theorem coincides_default : Coincides F item {} ↔ NoneSent textLeaves item := by
  refine forall_congr' fun leaf => imp_congr_right fun _ => matches_not_given ?_
  intro h
  unfold Given at h
  split at h
  · cases h
  all_goals simp at h

/-- The user info screen that a row opens shows of its user just what the server sent exactly when
the condition holds. -/
theorem detail_screen_complete_iff (F : Foundation) (online : Bool) (r : Realm) (item : Json)
    (value : RandomUserData) (hdec : decodeUser item = some value) (h : Stored r value) :
    ∃ row, r.users.find value.uuid = some row ∧
      (Complete F online item (userObject (row.id.getD "") r) ↔ CompleteWhen F r item) := by
  obtain ⟨flag, hflag⟩ := h
  obtain ⟨row, hrow, hread⟩ := readUser_flagged hflag
  have hid : row.id = value.uuid := (Table.find_eq_some.mp hrow).2
  refine ⟨row, hrow, ?_⟩
  rw [CompleteWhen, hasUuid_iff hdec, hid]
  cases huuid : value.uuid with
  | some uuid =>
    rw [huuid] at hrow
    have hobject : userObject uuid r = storedObject value flag := by
      have hfind : getSpecificObject r uuid = some row := hrow
      rw [userObject, hfind]
      exact hread
    rw [Option.getD_some, hobject, complete_storedObject_iff hdec flag]
    simp
  | none =>
    rw [Option.getD_none, complete_iff_coincides, userObject]
    cases getSpecificObject r "" with
    | some other => simp
    | none => simp [coincides_default]

def uuidItem : Json := .obj [("login", .obj [("uuid", .str "a")])]

theorem detail_screen_complete_ofId :
    ∃ row, (Realm.empty.put (.ofId "a")).users.find (RandomUserData.ofId "a").uuid = some row ∧
      (Complete sampleFoundation true uuidItem
          (userObject (row.id.getD "") (Realm.empty.put (.ofId "a"))) ↔
        CompleteWhen sampleFoundation (Realm.empty.put (.ofId "a")) uuidItem) :=
  detail_screen_complete_iff sampleFoundation true _ uuidItem (.ofId "a") rfl
    (stored_of_recordOf (by rw [record_put, if_pos rfl]))

/-- A user of whom the server sent the gender. -/
def genderItem : Json := .obj [("login", .obj [("uuid", .str "a")]), ("gender", .str "male")]

def genderUser : RandomUserData := { RandomUserData.ofId "a" with gender := some "male" }

/-- The gender of a stored user appears nowhere. -/
theorem gender_not_shown :
    decodeUser genderItem = some genderUser ∧ Stored (Realm.empty.put genderUser) genderUser ∧
      ∃ row, (Realm.empty.put genderUser).users.find genderUser.uuid = some row ∧
        ¬ Complete sampleFoundation true genderItem
          (userObject (row.id.getD "") (Realm.empty.put genderUser)) := by
  refine ⟨rfl, stored_of_recordOf (by rw [record_put, if_pos rfl]), userRowOf genderUser, rfl,
    fun h => ?_⟩
  obtain ⟨d, hd, hshown⟩ := h ⟨8, .genderLabel, ["gender"], fun o => o.gender,
    fun _ s => "Gender: " ++ s⟩ (by simp [textLeaves, otherLeaves])
  have hsent : SentAs ["gender"] genderItem (some "male") := ⟨.str "male", rfl, rfl⟩
  rw [sentAs_unique hd hsent] at hshown
  cases hshown

end UserInfoSections
