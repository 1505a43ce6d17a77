import RandomUserClient.UsersViewStructs

/-!
# The users list info controller

The paging constants, the request that is sent for a page, and what reaches the
completion of the caller when the request ends. A request can end without the
completion being called at all.
-/

namespace RUCUsersListInfoController

open JsonDecoding UsersViewStructs

structure RUCUsersListInfoControllerImpl where
  lastPage : Nat := 10000
  firstPage : Nat := 1
  fetchingMore : Bool := false
  deriving DecidableEq, Repr

structure Request where
  baseURL : String
  query : List (String × String)
  deriving DecidableEq, Repr

/-- The request of `fetchUsersData(forPage:)`. Its two guards on the URL always pass: the base is
a literal, and no query item has a character that a URL could not hold. -/
def fetchUsersData (page : Nat) : Request where
  baseURL := "https://randomuser.me/api"
  query := [("seed", "qwerty"), ("results", "10"), ("page", toString page)]

/-- A request tells which page it is for. -/
theorem fetchUsersData_injective : Function.Injective fetchUsersData := by
  intro m n h
  have hrepr : Nat.repr m = Nat.repr n := by simpa [fetchUsersData] using h
  have hdigits := congrArg String.toList hrepr
  rw [Nat.toList_repr, Nat.toList_repr] at hdigits
  rw [← Nat.ofDigitChars_ten_toDigits (n := m), hdigits, Nat.ofDigitChars_ten_toDigits]

inductive Body where
  | json : Json → Body
  | notJson : Body

/-- How a data task ends: with or without data, with or without an HTTP status. -/
structure Reply where
  data : Option Body
  statusCode : Option Nat

/-- A reply with users that have nothing but the given ids. -/
def Reply.ofIds (ids : List String) : Reply :=
  ⟨some (.json (.obj [("results", .arr (ids.map fun id =>
    .obj [("login", .obj [("uuid", .str id)])]))])), some 200⟩

/-- `try? jsonDecoder.decode(RandomUsersDataRoot.self, from: data)`. -/
def Body.decode : Body → Option RandomUsersDataRoot
  | .json j => decodeRoot j
  | .notJson => none

/-- The argument the data task calls the completion with; `none` when it returns without a call. -/
def Reply.completed (reply : Reply) : Option (Option RandomUsersDataRoot) :=
  match reply.data with
  | none => none
  | some data => if reply.statusCode ≠ some 200 then none else some data.decode

/-- The user list a reply carries, if it carries one. -/
def Reply.users (reply : Reply) : Option (List RandomUserData) :=
  reply.completed.bind fun data => data.bind (·.results)

theorem users_ofIds (ids : List String) : (Reply.ofIds ids).users = some (ids.map .ofId) := by
  have hitems : decodeItems decodeUser (ids.map fun id =>
      .obj [("login", .obj [("uuid", .str id)])]) = some (ids.map .ofId) := by
    induction ids with
    | nil => rfl
    | cons id ids ih =>
      have hid : decodeUser (.obj [("login", .obj [("uuid", .str id)])]) =
          some (.ofId id) := rfl
      rw [List.map_cons, decodeItems, ih, hid]
      rfl
  have hroot : (Reply.ofIds ids).completed = some (some ⟨some (ids.map .ofId), none⟩) := by
    simp [Reply.ofIds, Reply.completed, Body.decode, decodeRoot, container, decodeIfPresent,
      entry, decodeArray, hitems]
  rw [Reply.users, hroot]
  rfl

end RUCUsersListInfoController
