import RandomUserClient.JsonDecoding

/-!
# The response structs and their decoding

The structs of a server response. All but `RandomUserData` decode as the
compiler synthesizes it: every field is optional, and one field of the wrong
type fails the struct. `RandomUserData` decodes every field on its own and
turns a failed one into nil.
-/

namespace UsersViewStructs

open JsonDecoding

structure RandomUserDataName where
  title : Option String := none
  first : Option String := none
  last : Option String := none
  deriving DecidableEq, Repr

structure RandomUserDataLocationCoordinates where
  latitude : Option String := none
  longitude : Option String := none
  deriving DecidableEq, Repr

structure RandomUserDataLocationTimezone where
  offset : Option String := none
  description : Option String := none
  deriving DecidableEq, Repr

structure RandomUserDataLocation where
  street : Option String := none
  city : Option String := none
  state : Option String := none
  postcode : Option Int := none
  coordinates : Option RandomUserDataLocationCoordinates := none
  timezone : Option RandomUserDataLocationTimezone := none
  deriving DecidableEq, Repr

structure RandomUserDataLogin where
  uuid : Option String := none
  username : Option String := none
  password : Option String := none
  salt : Option String := none
  md5 : Option String := none
  sha1 : Option String := none
  sha256 : Option String := none
  deriving DecidableEq, Repr

structure RandomUserDataDOB where
  date : Option String := none
  age : Option Int := none
  deriving DecidableEq, Repr

structure RandomUserDataRegistered where
  date : Option String := none
  age : Option Int := none
  deriving DecidableEq, Repr

structure RandomUserDataID where
  name : Option String := none
  value : Option String := none
  deriving DecidableEq, Repr

structure RandomUserDataPicture where
  large : Option String := none
  medium : Option String := none
  thumbnail : Option String := none
  deriving DecidableEq, Repr

structure RandomUserData where
  gender : Option String := none
  name : Option RandomUserDataName := none
  location : Option RandomUserDataLocation := none
  email : Option String := none
  login : Option RandomUserDataLogin := none
  dob : Option RandomUserDataDOB := none
  registered : Option RandomUserDataRegistered := none
  phone : Option String := none
  cell : Option String := none
  id : Option RandomUserDataID := none
  picture : Option RandomUserDataPicture := none
  nat : Option String := none
  deriving DecidableEq, Repr

structure Info where
  seed : Option String := none
  results : Option Int := none
  page : Option Int := none
  version : Option String := none
  deriving DecidableEq, Repr

structure RandomUsersDataRoot where
  results : Option (List RandomUserData) := none
  info : Option Info := none
  deriving DecidableEq, Repr

/-- The identity that everything the app stores about a user is keyed by. -/
def RandomUserData.uuid (user : RandomUserData) : Option String := user.login.bind (·.uuid)

/-- A user that has nothing but an id. -/
def RandomUserData.ofId (id : String) : RandomUserData := { login := some { uuid := some id } }

/-! ## Decoding -/

def decodeName (j : Json) : Option RandomUserDataName := do
  let c ← container j
  let title ← decodeIfPresent decodeString "title" c
  let first ← decodeIfPresent decodeString "first" c
  let last ← decodeIfPresent decodeString "last" c
  some ⟨title, first, last⟩

def decodeCoordinates (j : Json) : Option RandomUserDataLocationCoordinates := do
  let c ← container j
  let latitude ← decodeIfPresent decodeString "latitude" c
  let longitude ← decodeIfPresent decodeString "longitude" c
  some ⟨latitude, longitude⟩

def decodeTimezone (j : Json) : Option RandomUserDataLocationTimezone := do
  let c ← container j
  let offset ← decodeIfPresent decodeString "offset" c
  let description ← decodeIfPresent decodeString "description" c
  some ⟨offset, description⟩

def decodeLocation (j : Json) : Option RandomUserDataLocation := do
  let c ← container j
  let street ← decodeIfPresent decodeString "street" c
  let city ← decodeIfPresent decodeString "city" c
  let state ← decodeIfPresent decodeString "state" c
  let postcode ← decodeIfPresent decodeInt "postcode" c
  let coordinates ← decodeIfPresent decodeCoordinates "coordinates" c
  let timezone ← decodeIfPresent decodeTimezone "timezone" c
  some ⟨street, city, state, postcode, coordinates, timezone⟩

def decodeLogin (j : Json) : Option RandomUserDataLogin := do
  let c ← container j
  let uuid ← decodeIfPresent decodeString "uuid" c
  let username ← decodeIfPresent decodeString "username" c
  let password ← decodeIfPresent decodeString "password" c
  let salt ← decodeIfPresent decodeString "salt" c
  let md5 ← decodeIfPresent decodeString "md5" c
  let sha1 ← decodeIfPresent decodeString "sha1" c
  let sha256 ← decodeIfPresent decodeString "sha256" c
  some ⟨uuid, username, password, salt, md5, sha1, sha256⟩

def decodeDOB (j : Json) : Option RandomUserDataDOB := do
  let c ← container j
  let date ← decodeIfPresent decodeString "date" c
  let age ← decodeIfPresent decodeInt "age" c
  some ⟨date, age⟩

def decodeRegistered (j : Json) : Option RandomUserDataRegistered := do
  let c ← container j
  let date ← decodeIfPresent decodeString "date" c
  let age ← decodeIfPresent decodeInt "age" c
  some ⟨date, age⟩

def decodeID (j : Json) : Option RandomUserDataID := do
  let c ← container j
  let name ← decodeIfPresent decodeString "name" c
  let value ← decodeIfPresent decodeString "value" c
  some ⟨name, value⟩

def decodePicture (j : Json) : Option RandomUserDataPicture := do
  let c ← container j
  let large ← decodeIfPresent decodeString "large" c
  let medium ← decodeIfPresent decodeString "medium" c
  let thumbnail ← decodeIfPresent decodeString "thumbnail" c
  some ⟨large, medium, thumbnail⟩

/-- `RandomUserData.init(from:)`: every field is a `try?` of a required field,
so only a value that is no object at all fails. -/
def decodeUser (j : Json) : Option RandomUserData := do
  let c ← container j
  some {
    gender := decode decodeString "gender" c
    name := decode decodeName "name" c
    location := decode decodeLocation "location" c
    email := decode decodeString "email" c
    login := decode decodeLogin "login" c
    dob := decode decodeDOB "dob" c
    registered := decode decodeRegistered "registered" c
    phone := decode decodeString "phone" c
    cell := decode decodeString "cell" c
    id := decode decodeID "id" c
    picture := decode decodePicture "picture" c
    nat := decode decodeString "nat" c }

def decodeInfo (j : Json) : Option Info := do
  let c ← container j
  let seed ← decodeIfPresent decodeString "seed" c
  let results ← decodeIfPresent decodeInt "results" c
  let page ← decodeIfPresent decodeInt "page" c
  let version ← decodeIfPresent decodeString "version" c
  some ⟨seed, results, page, version⟩

def decodeRoot (j : Json) : Option RandomUsersDataRoot := do
  let c ← container j
  let results ← decodeIfPresent (decodeArray decodeUser) "results" c
  let info ← decodeIfPresent decodeInfo "info" c
  some ⟨results, info⟩

end UsersViewStructs
