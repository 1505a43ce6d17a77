import RandomUserClient.UserCells

/-!
# What a cell keeps of its past

A dequeued cell has the texts that earlier bindings left in it, `prepareForReuse`
clearing none of them. What a binding leaves to be seen is independent of that
past exactly when it writes every label of the cell it returns, and that depends
on which leaves of the user are missing.
-/

namespace CellReuse

open Overwriting UsersViewModel UserCells

/-- The texts that a dequeued cell of a class can have: those of its nib, or what any bindings to
any users left there. -/
inductive Left (F : Foundation) (cls : CellClass) : Texts → Prop where
  | fresh : Left F cls cls.nib
  | bound {t : Texts} (online : Bool) (user : RandomUserDataModel) (site : Site) :
      Left F cls t → (cellForRow F online user site).cell = some cls →
      Left F cls (assign (cellForRow F online user site).writes t)

/-- Whatever texts the dequeued cell had, after the binding its labels show the same. -/
def ForgetsPast (F : Foundation) (online : Bool) (user : RandomUserDataModel) (site : Site) :
    Prop :=
  ∀ cls, (cellForRow F online user site).cell = some cls →
    ∀ t, Left F cls t → ∀ t', Left F cls t' → ∀ label ∈ cls.labels,
      assign (cellForRow F online user site).writes t label =
        assign (cellForRow F online user site).writes t' label

/-! ## Which leaves a binding needs -/

def NamePictureGiven (user : RandomUserDataModel) : Prop :=
  user.picture.bind (·.medium) ≠ none ∧ user.name.bind (·.first) ≠ none ∧
    user.name.bind (·.last) ≠ none

def LargePictureGiven (F : Foundation) (user : RandomUserDataModel) : Prop :=
  (user.picture.bind (·.large)).any F.url

def AdressGiven (obj : RandomUserDataLocationModel) : Prop :=
  obj.city ≠ none ∧ obj.state ≠ none ∧ obj.street ≠ none

def TimezoneGiven (obj : RandomUserDataLocationTimezoneModel) : Prop :=
  obj.offset ≠ none ∧ obj.zoneDescription ≠ none

def LoginGiven (obj : RandomUserDataLoginModel) : Prop :=
  obj.md5 ≠ none ∧ obj.salt ≠ none ∧ obj.sha1 ≠ none ∧ obj.sha256 ≠ none ∧
    obj.username ≠ none ∧ obj.password ≠ none ∧ obj.uuid ≠ none

/-- The date is there and in the format of the server. -/
def DateGiven (F : Foundation) (date : Option String) : Prop := date.bind F.reformatted ≠ none

def IDGiven (obj : RandomUserDataIDModel) : Prop := obj.name ≠ none ∧ obj.value ≠ none

def OtherDataGiven (user : RandomUserDataModel) : Prop :=
  user.cell ≠ none ∧ user.phone ≠ none ∧ user.email ≠ none ∧ user.nat ≠ none ∧
    user.gender ≠ none

/-- The leaves that the binding at a site needs are there. A sub-object that is missing as a whole
gives a plain cell. -/
def LeavesGiven (F : Foundation) (user : RandomUserDataModel) : Site → Prop
  | .usersList => NamePictureGiven user
  | .favorites => NamePictureGiven user
  | .userInfo 0 => LargePictureGiven F user
  | .userInfo 2 => ∀ obj ∈ user.location, AdressGiven obj
  | .userInfo 3 => ∀ obj ∈ user.location.bind (·.timezone), TimezoneGiven obj
  | .userInfo 4 => ∀ obj ∈ user.login, LoginGiven obj
  | .userInfo 5 => ∀ obj ∈ user.dob, DateGiven F obj.date
  | .userInfo 6 => ∀ obj ∈ user.registered, DateGiven F obj.date
  | .userInfo 7 => ∀ obj ∈ user.dataId, IDGiven obj
  | .userInfo 8 => OtherDataGiven user
  | .userInfo _ => True

/-! ## Every label varies -/

/-- A user without a missing leaf. -/
def fullUser (url date : String) : RandomUserDataModel where
  gender := some "a"
  name := some { first := some "a", last := some "a" }
  location := some {
    street := some "a", city := some "a", state := some "a", postcode := 1
    timezone := some { offset := some "a", zoneDescription := some "a" } }
  email := some "a"
  login := some {
    uuid := some "a", username := some "a", password := some "a", salt := some "a"
    md5 := some "a", sha1 := some "a", sha256 := some "a" }
  dob := some { date := some date, age := 1 }
  registered := some { date := some date, age := 1 }
  phone := some "a"
  cell := some "a"
  dataId := some { name := some "a", value := some "a" }
  picture := some { large := some url, medium := some url }
  nat := some "a"

/-- A place where cells of the class are bound. -/
def siteOf : CellClass → Site
  | .usersListTableViewCell => .usersList
  | .userInfoTopCell => .userInfo 0
  | .userLocationCell => .userInfo 1
  | .userAdressCell => .userInfo 2
  | .userTimezoneCell => .userInfo 3
  | .userLoginCell => .userInfo 4
  | .userDateAgeDisplayCell => .userInfo 5
  | .userIDCell => .userInfo 7
  | .userOtherDataCell => .userInfo 8

theorem append_ne_self_prefix (d : String) : "Date: " ++ d ≠ "Date" := by
  intro h
  have hlength := congrArg String.length h
  rw [String.length_append] at hlength
  have hsix : "Date: ".length = 6 := by decide +kernel
  have hfour : "Date".length = 4 := by decide +kernel
  omega

theorem repr_one : Int.repr 1 = "1" := by decide +kernel

theorem fullUser_written (F : Foundation) {url date d : String} (hurl : F.url url = true)
    (hdate : F.reformatted date = some d) (cls : CellClass) :
    (cellForRow F false (fullUser url date) (siteOf cls)).cell = some cls ∧
      ∀ label ∈ cls.labels,
        assign (cellForRow F false (fullUser url date) (siteOf cls)).writes cls.nib label ≠
          cls.nib label := by
  cases cls <;>
    simp [siteOf, cellForRow, fullUser, usersListCellForRow, userInfoCellForRow, userInfoTopCell,
      optionalCell, userInfoTopCellSetup, userAdressCellSetup, userTimezoneCellSetup,
      userLoginCellSetup, userDOBCellSetup, dateAgeSetup, userIDCellSetup, userOtherDataCellSetup,
      CellClass.labels, CellClass.outlets, CellClass.nib, assign, F.capitalized_letter, hurl, hdate,
      append_ne_self_prefix, repr_one]

/-! ## What a binding writes -/

/-- Every label of the cell is written. -/
def Covers (cls : CellClass) (writes : Writes) : Prop :=
  ∀ label ∈ cls.labels, label ∈ written writes

/-- A binding forgets the past exactly when it writes every label. -/
theorem forgetsPast_iff_covers (F : Foundation) (online : Bool) (user : RandomUserDataModel)
    (site : Site) : ForgetsPast F online user site ↔
      ∀ cls, (cellForRow F online user site).cell = some cls →
        Covers cls (cellForRow F online user site).writes := by
  obtain ⟨url, hurl⟩ := F.some_url
  obtain ⟨date, hdate⟩ := F.some_date
  obtain ⟨d, hd⟩ := Option.isSome_iff_exists.mp hdate
  refine forall_congr' fun cls => imp_congr_right fun _ => ?_
  refine forgets_iff (S := {t | Left F cls t}) fun label hlabel => ?_
  obtain ⟨hcell, hne⟩ := fullUser_written F hurl hd cls
  exact ⟨_, .bound _ _ _ .fresh hcell, _, .fresh, hne label hlabel⟩

theorem covers_nil {cls : CellClass} : Covers cls [] ↔ cls.labels = [] := by
  simp [Covers, written, List.eq_nil_iff_forall_not_mem]

/-- A setup that writes every label where what it needs is given, and nothing elsewhere. -/
theorem covers_iff {cls : CellClass} {writes : Writes} {given : Prop} (hlabels : cls.labels ≠ [])
    (hgiven : given → Covers cls writes) (hnot : ¬ given → writes = []) :
    Covers cls writes ↔ given := by
  by_cases h : given
  · exact iff_of_true (hgiven h) h
  · rw [hnot h, covers_nil]
    exact iff_of_false hlabels h

variable {F : Foundation}

theorem userInfoTopCellSetup_none {user : RandomUserDataModel} (h : ¬ LargePictureGiven F user) :
    userInfoTopCellSetup F user = [] := by
  unfold userInfoTopCellSetup
  split
  · rfl
  · rename_i large hlarge
    rw [LargePictureGiven, hlarge] at h
    exact if_neg h

theorem userInfoTopCellSetup_some {user : RandomUserDataModel} (h : LargePictureGiven F user) :
    userInfoTopCellSetup F user =
      [(.firstNameLabel, (user.name.bind (·.first)).map F.capitalized),
        (.lastNameLabel, (user.name.bind (·.last)).map F.capitalized)] := by
  unfold userInfoTopCellSetup
  split
  · rename_i hlarge
    rw [LargePictureGiven, hlarge] at h
    cases h
  · rename_i large hlarge
    rw [LargePictureGiven, hlarge] at h
    exact if_pos h

theorem covers_userInfoTopCell {user : RandomUserDataModel} :
    Covers .userInfoTopCell (userInfoTopCellSetup F user) ↔ LargePictureGiven F user := by
  refine covers_iff (by decide) (fun h => ?_) userInfoTopCellSetup_none
  rw [userInfoTopCellSetup_some h]
  simp [Covers, CellClass.labels, CellClass.outlets, written]

theorem adressGiven_iff {obj : RandomUserDataLocationModel} : AdressGiven obj ↔
    ∃ city state street, obj.city = some city ∧ obj.state = some state ∧
      obj.street = some street := by
  simp only [AdressGiven, Option.ne_none_iff_exists']
  tauto

theorem userAdressCellSetup_none {obj : RandomUserDataLocationModel} (h : ¬ AdressGiven obj) :
    userAdressCellSetup F obj = [] := by
  unfold userAdressCellSetup
  split
  · rename_i hc hs ht
    exact absurd (adressGiven_iff.mpr ⟨_, _, _, hc, hs, ht⟩) h
  · rfl

theorem covers_userAdressCell {obj : RandomUserDataLocationModel} :
    Covers .userAdressCell (userAdressCellSetup F obj) ↔ AdressGiven obj := by
  refine covers_iff (by decide) (fun h => ?_) userAdressCellSetup_none
  obtain ⟨city, state, street, hc, hs, ht⟩ := adressGiven_iff.mp h
  simp [Covers, CellClass.labels, CellClass.outlets, written, userAdressCellSetup, hc, hs, ht]

theorem timezoneGiven_iff {obj : RandomUserDataLocationTimezoneModel} : TimezoneGiven obj ↔
    ∃ offset description, obj.offset = some offset ∧ obj.zoneDescription = some description := by
  simp only [TimezoneGiven, Option.ne_none_iff_exists']
  tauto

theorem userTimezoneCellSetup_none {obj : RandomUserDataLocationTimezoneModel}
    (h : ¬ TimezoneGiven obj) : userTimezoneCellSetup obj = [] := by
  unfold userTimezoneCellSetup
  split
  · rename_i ho hd
    exact absurd (timezoneGiven_iff.mpr ⟨_, _, ho, hd⟩) h
  · rfl

theorem covers_userTimezoneCell {obj : RandomUserDataLocationTimezoneModel} :
    Covers .userTimezoneCell (userTimezoneCellSetup obj) ↔ TimezoneGiven obj := by
  refine covers_iff (by decide) (fun h => ?_) userTimezoneCellSetup_none
  obtain ⟨offset, description, ho, hd⟩ := timezoneGiven_iff.mp h
  simp [Covers, CellClass.labels, CellClass.outlets, written, userTimezoneCellSetup, ho, hd]

theorem loginGiven_iff {obj : RandomUserDataLoginModel} : LoginGiven obj ↔
    ∃ md5 salt sha1 sha256 username password uuid, obj.md5 = some md5 ∧ obj.salt = some salt ∧
      obj.sha1 = some sha1 ∧ obj.sha256 = some sha256 ∧ obj.username = some username ∧
      obj.password = some password ∧ obj.uuid = some uuid := by
  simp only [LoginGiven, Option.ne_none_iff_exists']
  constructor
  · rintro ⟨⟨_, h₁⟩, ⟨_, h₂⟩, ⟨_, h₃⟩, ⟨_, h₄⟩, ⟨_, h₅⟩, ⟨_, h₆⟩, ⟨_, h₇⟩⟩
    exact ⟨_, _, _, _, _, _, _, h₁, h₂, h₃, h₄, h₅, h₆, h₇⟩
  · rintro ⟨_, _, _, _, _, _, _, h₁, h₂, h₃, h₄, h₅, h₆, h₇⟩
    exact ⟨⟨_, h₁⟩, ⟨_, h₂⟩, ⟨_, h₃⟩, ⟨_, h₄⟩, ⟨_, h₅⟩, ⟨_, h₆⟩, ⟨_, h₇⟩⟩

theorem userLoginCellSetup_none {obj : RandomUserDataLoginModel} (h : ¬ LoginGiven obj) :
    userLoginCellSetup obj = [] := by
  unfold userLoginCellSetup
  split
  · rename_i h₁ h₂ h₃ h₄ h₅ h₆ h₇
    exact absurd (loginGiven_iff.mpr ⟨_, _, _, _, _, _, _, h₁, h₂, h₃, h₄, h₅, h₆, h₇⟩) h
  · rfl

theorem covers_userLoginCell {obj : RandomUserDataLoginModel} :
    Covers .userLoginCell (userLoginCellSetup obj) ↔ LoginGiven obj := by
  refine covers_iff (by decide) (fun h => ?_) userLoginCellSetup_none
  obtain ⟨_, _, _, _, _, _, _, h₁, h₂, h₃, h₄, h₅, h₆, h₇⟩ := loginGiven_iff.mp h
  simp [Covers, CellClass.labels, CellClass.outlets, written, userLoginCellSetup, h₁, h₂, h₃, h₄,
    h₅, h₆, h₇]

theorem covers_dateAge {header : String} {date : Option String} {age : Int} :
    Covers .userDateAgeDisplayCell (dateAgeSetup F header date age) ↔ DateGiven F date := by
  unfold dateAgeSetup DateGiven
  split
  · rw [covers_nil]
    exact iff_of_false (by decide) (fun h => h rfl)
  · rename_i date
    cases h : F.reformatted date <;>
      simp [Covers, CellClass.labels, CellClass.outlets, written, h]

theorem idGiven_iff {obj : RandomUserDataIDModel} : IDGiven obj ↔
    ∃ name value, obj.name = some name ∧ obj.value = some value := by
  simp only [IDGiven, Option.ne_none_iff_exists']
  tauto

theorem userIDCellSetup_none {obj : RandomUserDataIDModel} (h : ¬ IDGiven obj) :
    userIDCellSetup obj = [] := by
  unfold userIDCellSetup
  split
  · rename_i hn hv
    exact absurd (idGiven_iff.mpr ⟨_, _, hn, hv⟩) h
  · rfl

theorem covers_userIDCell {obj : RandomUserDataIDModel} :
    Covers .userIDCell (userIDCellSetup obj) ↔ IDGiven obj := by
  refine covers_iff (by decide) (fun h => ?_) userIDCellSetup_none
  obtain ⟨name, value, hn, hv⟩ := idGiven_iff.mp h
  simp [Covers, CellClass.labels, CellClass.outlets, written, userIDCellSetup, hn, hv]

theorem otherDataGiven_iff {user : RandomUserDataModel} : OtherDataGiven user ↔
    ∃ cell phone email nat gender, user.cell = some cell ∧ user.phone = some phone ∧
      user.email = some email ∧ user.nat = some nat ∧ user.gender = some gender := by
  simp only [OtherDataGiven, Option.ne_none_iff_exists']
  constructor
  · rintro ⟨⟨_, h₁⟩, ⟨_, h₂⟩, ⟨_, h₃⟩, ⟨_, h₄⟩, ⟨_, h₅⟩⟩
    exact ⟨_, _, _, _, _, h₁, h₂, h₃, h₄, h₅⟩
  · rintro ⟨_, _, _, _, _, h₁, h₂, h₃, h₄, h₅⟩
    exact ⟨⟨_, h₁⟩, ⟨_, h₂⟩, ⟨_, h₃⟩, ⟨_, h₄⟩, ⟨_, h₅⟩⟩

theorem userOtherDataCellSetup_none {user : RandomUserDataModel} (h : ¬ OtherDataGiven user) :
    userOtherDataCellSetup user = [] := by
  unfold userOtherDataCellSetup
  split
  · rename_i h₁ h₂ h₃ h₄ h₅
    exact absurd (otherDataGiven_iff.mpr ⟨_, _, _, _, _, h₁, h₂, h₃, h₄, h₅⟩) h
  · rfl

theorem covers_userOtherDataCell {user : RandomUserDataModel} :
    Covers .userOtherDataCell (userOtherDataCellSetup user) ↔ OtherDataGiven user := by
  refine covers_iff (by decide) (fun h => ?_) userOtherDataCellSetup_none
  obtain ⟨_, _, _, _, _, h₁, h₂, h₃, h₄, h₅⟩ := otherDataGiven_iff.mp h
  simp [Covers, CellClass.labels, CellClass.outlets, written, userOtherDataCellSetup, h₁, h₂, h₃,
    h₄, h₅]

/-! ## The sites -/

/-- The cell a binding returns, if it returns one of ours, has every label written. -/
def CoversCell (b : Binding) : Prop := ∀ cls, b.cell = some cls → Covers cls b.writes

theorem coversCell_plain : CoversCell plain := fun _ h => by cases h

theorem coversCell_some {cls : CellClass} {writes : Writes} {load : Option String}
    {delegate : Bool} : CoversCell ⟨some cls, writes, load, delegate⟩ ↔ Covers cls writes :=
  ⟨fun h => h cls rfl, fun h _ hcls => Option.some.inj hcls ▸ h⟩

theorem coversCell_optional {α : Type} {cls : CellClass} {setup : α → Writes} {P : α → Prop}
    (h : ∀ obj, Covers cls (setup obj) ↔ P obj) (o : Option α) :
    CoversCell (optionalCell cls setup o) ↔ ∀ obj ∈ o, P obj := by
  cases o with
  | none => exact iff_of_true coversCell_plain (fun _ h => by cases h)
  | some obj =>
    rw [optionalCell, coversCell_some, h]
    simp

theorem coversCell_usersList {online : Bool} {user : RandomUserDataModel} :
    CoversCell (usersListCellForRow F online user) ↔ NamePictureGiven user := by
  unfold usersListCellForRow NamePictureGiven
  split
  · rename_i hm hf hl
    rw [hm, hf, hl]
    split
    · simp [coversCell_some, Covers, CellClass.labels, CellClass.outlets, written]
    · exact iff_of_true coversCell_plain (by simp)
  · rename_i hno
    rw [coversCell_some, covers_nil]
    refine iff_of_false (by decide) ?_
    simp only [Option.ne_none_iff_exists']
    rintro ⟨⟨_, hm⟩, ⟨_, hf⟩, ⟨_, hl⟩⟩
    exact hno _ _ _ hm hf hl

theorem coversCell_userInfo {online : Bool} {user : RandomUserDataModel} {sect : Nat} :
    CoversCell (userInfoCellForRow F online user sect) ↔ LeavesGiven F user (.userInfo sect) := by
  match sect with
  | 0 => rw [userInfoCellForRow, userInfoTopCell, coversCell_some, covers_userInfoTopCell]; rfl
  | 1 =>
    refine (coversCell_optional (P := fun _ => True) (fun _ => ?_) user.location).trans ?_
    · rw [covers_nil]
      decide
    · simp [LeavesGiven]
  | 2 => exact coversCell_optional (fun _ => covers_userAdressCell) user.location
  | 3 => exact coversCell_optional (fun _ => covers_userTimezoneCell) _
  | 4 => exact coversCell_optional (fun _ => covers_userLoginCell) user.login
  | 5 => exact coversCell_optional (fun _ => covers_dateAge) user.dob
  | 6 => exact coversCell_optional (fun _ => covers_dateAge) user.registered
  | 7 => exact coversCell_optional (fun _ => covers_userIDCell) user.dataId
  | 8 => rw [userInfoCellForRow, coversCell_some, covers_userOtherDataCell]; rfl
  | _ + 9 => exact iff_of_true coversCell_plain trivial

/-- What a binding leaves to be seen is independent of the past of its cell exactly when the leaves
it needs are there. -/
theorem forgets_past_iff (F : Foundation) (online : Bool) (user : RandomUserDataModel)
    (site : Site) : ForgetsPast F online user site ↔ LeavesGiven F user site := by
  rw [forgetsPast_iff_covers]
  cases site with
  | usersList => exact coversCell_usersList
  | favorites => exact coversCell_usersList
  | userInfo sect => exact coversCell_userInfo

/-- A user without a picture is shown under the name of the user before it. -/
theorem name_of_other_user :
    ¬ ForgetsPast sampleFoundation true
      { id := some "b", name := some { first := some "b", last := some "b" } } .usersList := by
  intro h
  have hleft : Left sampleFoundation .usersListTableViewCell _ :=
    .bound true (fullUser "a" "a") .usersList .fresh rfl
  have hsame := h .usersListTableViewCell rfl _ .fresh _ hleft .userNameLabel (by decide)
  exact absurd hsame (by decide +kernel)

end CellReuse
