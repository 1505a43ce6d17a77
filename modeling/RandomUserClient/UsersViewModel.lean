import RandomUserClient.UsersViewStructs

/-!
# The Realm objects of a user

`RandomUserDataModel` is an unmanaged object with its nine sub-objects, as
`init(value:)` builds it from a decoded user. Every object of the graph gets
the user's uuid as its primary key, a missing uuid being the key nil.
-/

namespace UsersViewModel

open UsersViewStructs

/-- A primary key: the property is an optional string, and nil is a key too. -/
abbrev Key := Option String

structure RandomUserDataNameModel where
  id : Key := none
  title : Option String := none
  first : Option String := none
  last : Option String := none
  deriving DecidableEq, Repr

structure RandomUserDataLocationCoordinatesModel where
  id : Key := none
  latitude : Option String := none
  longitude : Option String := none
  deriving DecidableEq, Repr

structure RandomUserDataLocationTimezoneModel where
  id : Key := none
  offset : Option String := none
  zoneDescription : Option String := none
  deriving DecidableEq, Repr

structure RandomUserDataLocationModel where
  id : Key := none
  street : Option String := none
  city : Option String := none
  state : Option String := none
  postcode : Int := 0
  coordinates : Option RandomUserDataLocationCoordinatesModel := none
  timezone : Option RandomUserDataLocationTimezoneModel := none
  deriving DecidableEq, Repr

structure RandomUserDataLoginModel where
  uuid : Key := none
  username : Option String := none
  password : Option String := none
  salt : Option String := none
  md5 : Option String := none
  sha1 : Option String := none
  sha256 : Option String := none
  deriving DecidableEq, Repr

structure RandomUserDataDOBModel where
  id : Key := none
  date : Option String := none
  age : Int := 0
  deriving DecidableEq, Repr

structure RandomUserDataRegisteredModel where
  id : Key := none
  date : Option String := none
  age : Int := 0
  deriving DecidableEq, Repr

structure RandomUserDataIDModel where
  id : Key := none
  name : Option String := none
  value : Option String := none
  deriving DecidableEq, Repr

structure RandomUserDataPictureModel where
  id : Key := none
  large : Option String := none
  medium : Option String := none
  thumbnail : Option String := none
  deriving DecidableEq, Repr

structure RandomUserDataModel where
  id : Key := none
  gender : Option String := none
  name : Option RandomUserDataNameModel := none
  location : Option RandomUserDataLocationModel := none
  email : Option String := none
  login : Option RandomUserDataLoginModel := none
  dob : Option RandomUserDataDOBModel := none
  registered : Option RandomUserDataRegisteredModel := none
  phone : Option String := none
  cell : Option String := none
  dataId : Option RandomUserDataIDModel := none
  picture : Option RandomUserDataPictureModel := none
  nat : Option String := none
  isInFavorites : String := "false"
  deriving DecidableEq, Repr

/-! ## The sub-objects that `init(value:)` fills in -/

def objName (value : RandomUserData) : RandomUserDataNameModel where
  id := value.uuid
  first := value.name.bind (·.first)
  last := value.name.bind (·.last)
  title := value.name.bind (·.title)

def objLocationCoordinates (value : RandomUserData) : RandomUserDataLocationCoordinatesModel where
  id := value.uuid
  latitude := value.location.bind fun l => l.coordinates.bind (·.latitude)
  longitude := value.location.bind fun l => l.coordinates.bind (·.longitude)

def objLocationTimezone (value : RandomUserData) : RandomUserDataLocationTimezoneModel where
  id := value.uuid
  offset := value.location.bind fun l => l.timezone.bind (·.offset)
  zoneDescription := value.location.bind fun l => l.timezone.bind (·.description)

def objLocation (value : RandomUserData) : RandomUserDataLocationModel where
  id := value.uuid
  street := value.location.bind (·.street)
  city := value.location.bind (·.city)
  state := value.location.bind (·.state)
  postcode := (value.location.bind (·.postcode)).getD 0
  coordinates := some (objLocationCoordinates value)
  timezone := some (objLocationTimezone value)

def objLogin (value : RandomUserData) : RandomUserDataLoginModel where
  uuid := value.uuid
  username := value.login.bind (·.username)
  password := value.login.bind (·.password)
  salt := value.login.bind (·.salt)
  md5 := value.login.bind (·.md5)
  sha1 := value.login.bind (·.sha1)
  sha256 := value.login.bind (·.sha256)

def objDOB (value : RandomUserData) : RandomUserDataDOBModel where
  id := value.uuid
  date := value.dob.bind (·.date)
  age := (value.dob.bind (·.age)).getD 0

def objRegistred (value : RandomUserData) : RandomUserDataRegisteredModel where
  id := value.uuid
  date := value.registered.bind (·.date)
  age := (value.registered.bind (·.age)).getD 0

def objDataId (value : RandomUserData) : RandomUserDataIDModel where
  id := value.uuid
  name := value.id.bind (·.name)
  value := value.id.bind (·.value)

def objPicture (value : RandomUserData) : RandomUserDataPictureModel where
  id := value.uuid
  large := value.picture.bind (·.large)
  medium := value.picture.bind (·.medium)
  thumbnail := value.picture.bind (·.thumbnail)

/-- `RandomUserDataModel.init(value:)`. The favourite flag keeps its default. -/
def RandomUserDataModel.ofValue (value : RandomUserData) : RandomUserDataModel where
  id := value.uuid
  gender := value.gender
  name := some (objName value)
  location := some (objLocation value)
  email := value.email
  login := some (objLogin value)
  dob := some (objDOB value)
  registered := some (objRegistred value)
  phone := value.phone
  cell := value.cell
  dataId := some (objDataId value)
  picture := some (objPicture value)
  nat := value.nat

end UsersViewModel
