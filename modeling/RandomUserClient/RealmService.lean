import RandomUserClient.KeyedTable
import RandomUserClient.UsersViewModel

/-!
# The Realm service

The Realm file is ten tables. A managed object is a row, and a link from one
row to another is the key of the row it leads to, a primary key being fixed for
the life of its row. Adding an object adds its whole graph; an existing key at
any level raises unless the add updates, and an update overwrites every
property, nil included. An uncaught exception is `none`: it ends the process in
the middle of the transaction, which is then never committed.
-/

namespace RealmService

open KeyedTable UsersViewModel UsersViewStructs

structure RandomUserDataLocationRow where
  id : Key
  street : Option String
  city : Option String
  state : Option String
  postcode : Int
  coordinates : Option Key
  timezone : Option Key
  deriving DecidableEq, Repr

structure RandomUserDataRow where
  id : Key
  gender : Option String
  name : Option Key
  location : Option Key
  email : Option String
  login : Option Key
  dob : Option Key
  registered : Option Key
  phone : Option String
  cell : Option String
  dataId : Option Key
  picture : Option Key
  nat : Option String
  isInFavorites : String
  deriving DecidableEq, Repr

instance : PrimaryKey RandomUserDataNameModel Key := ⟨(·.id)⟩
instance : PrimaryKey RandomUserDataLocationCoordinatesModel Key := ⟨(·.id)⟩
instance : PrimaryKey RandomUserDataLocationTimezoneModel Key := ⟨(·.id)⟩
instance : PrimaryKey RandomUserDataLoginModel Key := ⟨(·.uuid)⟩
instance : PrimaryKey RandomUserDataDOBModel Key := ⟨(·.id)⟩
instance : PrimaryKey RandomUserDataRegisteredModel Key := ⟨(·.id)⟩
instance : PrimaryKey RandomUserDataIDModel Key := ⟨(·.id)⟩
instance : PrimaryKey RandomUserDataPictureModel Key := ⟨(·.id)⟩
instance : PrimaryKey RandomUserDataLocationRow Key := ⟨(·.id)⟩
instance : PrimaryKey RandomUserDataRow Key := ⟨(·.id)⟩

@[ext] structure Realm where
  users : Table RandomUserDataRow := .empty
  names : Table RandomUserDataNameModel := .empty
  locations : Table RandomUserDataLocationRow := .empty
  coordinates : Table RandomUserDataLocationCoordinatesModel := .empty
  timezones : Table RandomUserDataLocationTimezoneModel := .empty
  logins : Table RandomUserDataLoginModel := .empty
  dobs : Table RandomUserDataDOBModel := .empty
  registereds : Table RandomUserDataRegisteredModel := .empty
  dataIds : Table RandomUserDataIDModel := .empty
  pictures : Table RandomUserDataPictureModel := .empty
  deriving DecidableEq

def Realm.empty : Realm := {}

/-! ## Adding an object graph -/

def locationRow (o : RandomUserDataLocationModel) : RandomUserDataLocationRow where
  id := o.id
  street := o.street
  city := o.city
  state := o.state
  postcode := o.postcode
  coordinates := o.coordinates.map (·.id)
  timezone := o.timezone.map (·.id)

def userRow (o : RandomUserDataModel) : RandomUserDataRow where
  id := o.id
  gender := o.gender
  name := o.name.map (·.id)
  location := o.location.map (·.id)
  email := o.email
  login := o.login.map (·.uuid)
  dob := o.dob.map (·.id)
  registered := o.registered.map (·.id)
  phone := o.phone
  cell := o.cell
  dataId := o.dataId.map (·.id)
  picture := o.picture.map (·.id)
  nat := o.nat
  isInFavorites := o.isInFavorites

/-- Add the object that a link property holds, if it holds one. -/
def addLinked {β : Type} (add : β → Realm → Option Realm) : Option β → Realm → Option Realm
  | none, r => some r
  | some o, r => add o r

def addName (update : Bool) (o : RandomUserDataNameModel) (r : Realm) : Option Realm :=
  (r.names.add update o).map fun t => { r with names := t }

def addCoordinates (update : Bool) (o : RandomUserDataLocationCoordinatesModel) (r : Realm) :
    Option Realm :=
  (r.coordinates.add update o).map fun t => { r with coordinates := t }

def addTimezone (update : Bool) (o : RandomUserDataLocationTimezoneModel) (r : Realm) :
    Option Realm :=
  (r.timezones.add update o).map fun t => { r with timezones := t }

def addLogin (update : Bool) (o : RandomUserDataLoginModel) (r : Realm) : Option Realm :=
  (r.logins.add update o).map fun t => { r with logins := t }

def addDOB (update : Bool) (o : RandomUserDataDOBModel) (r : Realm) : Option Realm :=
  (r.dobs.add update o).map fun t => { r with dobs := t }

def addRegistered (update : Bool) (o : RandomUserDataRegisteredModel) (r : Realm) : Option Realm :=
  (r.registereds.add update o).map fun t => { r with registereds := t }

def addDataId (update : Bool) (o : RandomUserDataIDModel) (r : Realm) : Option Realm :=
  (r.dataIds.add update o).map fun t => { r with dataIds := t }

def addPicture (update : Bool) (o : RandomUserDataPictureModel) (r : Realm) : Option Realm :=
  (r.pictures.add update o).map fun t => { r with pictures := t }

def addLocation (update : Bool) (o : RandomUserDataLocationModel) (r : Realm) : Option Realm := do
  let t ← r.locations.add update (locationRow o)
  let r ← addLinked (addCoordinates update) o.coordinates { r with locations := t }
  addLinked (addTimezone update) o.timezone r

/-- `realm.add(_:update:)` of a user: its row, then the objects it links to in the order of
the properties. -/
def addUser (update : Bool) (o : RandomUserDataModel) (r : Realm) : Option Realm := do
  let t ← r.users.add update (userRow o)
  let r ← addLinked (addName update) o.name { r with users := t }
  let r ← addLinked (addLocation update) o.location r
  let r ← addLinked (addLogin update) o.login r
  let r ← addLinked (addDOB update) o.dob r
  let r ← addLinked (addRegistered update) o.registered r
  let r ← addLinked (addDataId update) o.dataId r
  addLinked (addPicture update) o.picture r

/-! ## The service methods -/

/-- `realm.write`: the block runs first, and an exception in it is not caught. A transaction that
then fails to commit changes nothing, and its error is posted. -/
def write (fails : Bool) (block : Realm → Option Realm) (r : Realm) : Option Realm :=
  (block r).map fun s => if fails then r else s

def create (fails : Bool) (object : RandomUserDataModel) (isNeedUpdate : Bool) (r : Realm) :
    Option Realm :=
  write fails (addUser isNeedUpdate object) r

/-- `setValue` of `isInFavorites` on the object whose row has the key `id`. -/
def Realm.setIsInFavorites (id : Key) (isInFavorites : String) (r : Realm) : Realm :=
  { r with
    users := r.users.modify id (fun row => { row with isInFavorites := isInFavorites })
      fun _ => rfl }

/-- `update(_:with:)` as the app calls it: its dictionary has a value for `isInFavorites` only. -/
def update (fails : Bool) (id : Key) (isInFavorites : String) (r : Realm) : Option Realm :=
  write fails (fun r => some (r.setIsInFavorites id isInFavorites)) r

/-- `realm.delete` of the user whose row has the key `id`: the rows that it links to stay. -/
def Realm.deleteUser (id : Key) (r : Realm) : Realm := { r with users := r.users.delete id }

/-- `delete` of a user. -/
def delete (fails : Bool) (id : Key) (r : Realm) : Option Realm :=
  write fails (fun r => some (r.deleteUser id)) r

def deleteAll (fails : Bool) (r : Realm) : Option Realm :=
  write fails (fun _ => some .empty) r

/-- `getObjects(RandomUserDataModel.self)`: unsorted results list the rows in insertion order. -/
def getObjects (r : Realm) : List RandomUserDataRow := r.users.rows

def getSpecificObject (r : Realm) (primaryKey : String) : Option RandomUserDataRow :=
  r.users.find (some primaryKey)

/-- The live query behind the favourites screen. -/
def favorites (r : Realm) : List RandomUserDataRow :=
  (getObjects r).filter fun user => user.isInFavorites = "true"

@[simp] theorem write_false (block : Realm → Option Realm) (r : Realm) :
    write false block r = block r :=
  Option.map_id'

@[simp] theorem write_true (block : Realm → Option Realm) (r : Realm) :
    write true block r = (block r).map fun _ => r := rfl

@[simp] theorem update_false (id : Key) (isInFavorites : String) (r : Realm) :
    update false id isInFavorites r = some (r.setIsInFavorites id isInFavorites) := rfl

@[simp] theorem keys_setIsInFavorites (id : Key) (isInFavorites : String) (r : Realm) :
    (r.setIsInFavorites id isInFavorites).users.keys = r.users.keys := by
  simp only [Realm.setIsInFavorites, Table.keys_modify]

/-! ## Reading a user -/

def readLocation (r : Realm) (row : RandomUserDataLocationRow) : RandomUserDataLocationModel where
  id := row.id
  street := row.street
  city := row.city
  state := row.state
  postcode := row.postcode
  coordinates := row.coordinates.bind r.coordinates.find
  timezone := row.timezone.bind r.timezones.find

/-- The managed object of a user row: a link that is read leads to the row with its key. -/
def readUser (r : Realm) (row : RandomUserDataRow) : RandomUserDataModel where
  id := row.id
  gender := row.gender
  name := row.name.bind r.names.find
  location := row.location.bind fun k => (r.locations.find k).map (readLocation r)
  email := row.email
  login := row.login.bind r.logins.find
  dob := row.dob.bind r.dobs.find
  registered := row.registered.bind r.registereds.find
  phone := row.phone
  cell := row.cell
  dataId := row.dataId.bind r.dataIds.find
  picture := row.picture.bind r.pictures.find
  nat := row.nat
  isInFavorites := row.isInFavorites

/-! ## What an add leaves in the tables -/

def locationRowOf (value : RandomUserData) : RandomUserDataLocationRow :=
  locationRow (objLocation value)

def userRowOf (value : RandomUserData) : RandomUserDataRow :=
  userRow (RandomUserDataModel.ofValue value)

@[simp] theorem primaryKey_userRowOf (value : RandomUserData) :
    primaryKey (userRowOf value) = value.uuid := rfl
@[simp] theorem primaryKey_objName (value : RandomUserData) :
    primaryKey (objName value) = value.uuid := rfl
@[simp] theorem primaryKey_locationRowOf (value : RandomUserData) :
    primaryKey (locationRowOf value) = value.uuid := rfl
@[simp] theorem primaryKey_objLocationCoordinates (value : RandomUserData) :
    primaryKey (objLocationCoordinates value) = value.uuid := rfl
@[simp] theorem primaryKey_objLocationTimezone (value : RandomUserData) :
    primaryKey (objLocationTimezone value) = value.uuid := rfl
@[simp] theorem primaryKey_objLogin (value : RandomUserData) :
    primaryKey (objLogin value) = value.uuid := rfl
@[simp] theorem primaryKey_objDOB (value : RandomUserData) :
    primaryKey (objDOB value) = value.uuid := rfl
@[simp] theorem primaryKey_objRegistred (value : RandomUserData) :
    primaryKey (objRegistred value) = value.uuid := rfl
@[simp] theorem primaryKey_objDataId (value : RandomUserData) :
    primaryKey (objDataId value) = value.uuid := rfl
@[simp] theorem primaryKey_objPicture (value : RandomUserData) :
    primaryKey (objPicture value) = value.uuid := rfl

/-- The ten rows of a user, each in the place of the row with its key or at the end. -/
def Realm.put (r : Realm) (value : RandomUserData) : Realm where
  users := r.users.upsert (userRowOf value)
  names := r.names.upsert (objName value)
  locations := r.locations.upsert (locationRowOf value)
  coordinates := r.coordinates.upsert (objLocationCoordinates value)
  timezones := r.timezones.upsert (objLocationTimezone value)
  logins := r.logins.upsert (objLogin value)
  dobs := r.dobs.upsert (objDOB value)
  registereds := r.registereds.upsert (objRegistred value)
  dataIds := r.dataIds.upsert (objDataId value)
  pictures := r.pictures.upsert (objPicture value)

/-- No table has a row with key `k`. -/
structure Realm.Lacks (r : Realm) (k : Key) : Prop where
  users : k ∉ r.users.keys
  names : k ∉ r.names.keys
  locations : k ∉ r.locations.keys
  coordinates : k ∉ r.coordinates.keys
  timezones : k ∉ r.timezones.keys
  logins : k ∉ r.logins.keys
  dobs : k ∉ r.dobs.keys
  registereds : k ∉ r.registereds.keys
  dataIds : k ∉ r.dataIds.keys
  pictures : k ∉ r.pictures.keys

/-- Adding the graph of a user is ten adds, one to each table. -/
theorem addUser_ofValue (update : Bool) (value : RandomUserData) (r : Realm) :
    addUser update (.ofValue value) r =
      (r.users.add update (userRowOf value)).bind fun users =>
      (r.names.add update (objName value)).bind fun names =>
      (r.locations.add update (locationRowOf value)).bind fun locations =>
      (r.coordinates.add update (objLocationCoordinates value)).bind fun coordinates =>
      (r.timezones.add update (objLocationTimezone value)).bind fun timezones =>
      (r.logins.add update (objLogin value)).bind fun logins =>
      (r.dobs.add update (objDOB value)).bind fun dobs =>
      (r.registereds.add update (objRegistred value)).bind fun registereds =>
      (r.dataIds.add update (objDataId value)).bind fun dataIds =>
      (r.pictures.add update (objPicture value)).map fun pictures =>
        ⟨users, names, locations, coordinates, timezones, logins, dobs, registereds, dataIds,
          pictures⟩ := by
  simp only [addUser, RandomUserDataModel.ofValue, addLinked, addName, addLocation, objLocation,
    addCoordinates, addTimezone, addLogin, addDOB, addRegistered, addDataId, addPicture,
    Option.bind_eq_bind, Option.bind_map, Option.bind_assoc, Function.comp_def]
  rfl

/-- An updating add never raises. -/
theorem addUser_true (value : RandomUserData) (r : Realm) :
    addUser true (.ofValue value) r = some (r.put value) := by
  simp only [addUser_ofValue, Table.add_true, Option.bind_some, Option.map_some]
  rfl

/-- An add goes through where every table lacks the key. -/
theorem addUser_new {update : Bool} {value : RandomUserData} {r : Realm}
    (h : r.Lacks value.uuid) : addUser update (.ofValue value) r = some (r.put value) := by
  rw [addUser_ofValue, Table.add_new h.users, Option.bind_some, Table.add_new h.names,
    Option.bind_some, Table.add_new h.locations, Option.bind_some, Table.add_new h.coordinates,
    Option.bind_some, Table.add_new h.timezones, Option.bind_some, Table.add_new h.logins,
    Option.bind_some, Table.add_new h.dobs, Option.bind_some, Table.add_new h.registereds,
    Option.bind_some, Table.add_new h.dataIds, Option.bind_some, Table.add_new h.pictures]
  rfl

/-- An add that goes through has put the ten rows of the user. -/
theorem addUser_eq_some {update : Bool} {value : RandomUserData} {r s : Realm}
    (h : addUser update (.ofValue value) r = some s) : s = r.put value := by
  simp only [addUser_ofValue, Option.bind_eq_some_iff, Option.map_eq_some_iff] at h
  obtain ⟨users, hu, names, hn, locations, hl, coordinates, hc, timezones, ht, logins, hg,
    dobs, hd, registereds, hr, dataIds, hi, pictures, hp, rfl⟩ := h
  rw [Table.add_eq_some hu, Table.add_eq_some hn, Table.add_eq_some hl, Table.add_eq_some hc,
    Table.add_eq_some ht, Table.add_eq_some hg, Table.add_eq_some hd, Table.add_eq_some hr,
    Table.add_eq_some hi, Table.add_eq_some hp]
  rfl

end RealmService
