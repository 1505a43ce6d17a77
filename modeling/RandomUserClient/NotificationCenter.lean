import Mathlib.Data.List.Basic

/-!
# A notification center

A center keeps what has been registered with it, in order. An entry is held under
an object of the program, or, when a block was registered, under a token that the
center hands out for it. Removing an object takes away the entries held under
that object; those of blocks are held under their tokens, and stay.
-/

namespace NotificationCenter

variable {ω ν σ β : Type}

structure Notification (ν σ : Type) where
  name : ν
  object : Option σ := none
  deriving DecidableEq, Repr

/-- What an entry is held under. -/
inductive Observer (ω : Type) where
  | object : ω → Observer ω
  | token : Nat → Observer ω
  deriving DecidableEq, Repr

/-- A block, and the notifications it is for: those with a name, and from one sender if one is
given. -/
structure Entry (ω ν σ β : Type) where
  observer : Observer ω
  name : ν
  object : Option σ
  block : β

structure Center (ω ν σ β : Type) where
  entries : List (Entry ω ν σ β) := []
  issued : Nat := 0

/-- `addObserver(forName:object:queue:using:)`, which returns a new token. -/
def Center.addObserver (name : ν) (object : Option σ) (block : β) (center : Center ω ν σ β) :
    Observer ω × Center ω ν σ β :=
  let token := Observer.token center.issued
  (token, {
    entries := center.entries ++ [⟨token, name, object, block⟩]
    issued := center.issued + 1 })

/-- Nothing but blocks has been registered. -/
def Center.OnlyBlocks (center : Center ω ν σ β) : Prop :=
  ∀ entry ∈ center.entries, ∃ token, entry.observer = .token token

theorem onlyBlocks_addObserver {center : Center ω ν σ β} (h : center.OnlyBlocks) (name : ν)
    (object : Option σ) (block : β) : (center.addObserver name object block).2.OnlyBlocks := by
  intro entry hentry
  rcases List.mem_append.mp hentry with hold | hnew
  · exact h entry hold
  · obtain rfl := List.mem_singleton.mp hnew
    exact ⟨center.issued, rfl⟩

variable [DecidableEq ν] [DecidableEq σ]

/-- The blocks that a post runs, one after another. -/
def Center.blocks (notification : Notification ν σ) (center : Center ω ν σ β) : List β :=
  (center.entries.filter fun entry => entry.name = notification.name ∧
    (entry.object = none ∨ entry.object = notification.object)).map (·.block)

/-- A block that is registered for all senders comes behind the others. -/
theorem blocks_addObserver (center : Center ω ν σ β) (name : ν) (block : β) (object : Option σ) :
    (center.addObserver name none block).2.blocks ⟨name, object⟩ =
      center.blocks ⟨name, object⟩ ++ [block] := by
  simp [Center.addObserver, Center.blocks]

variable [DecidableEq ω]

/-- `removeObserver(_:name:object:)`. -/
def Center.removeObserver (observer : Observer ω) (name : ν) (object : Option σ)
    (center : Center ω ν σ β) : Center ω ν σ β :=
  { center with entries := center.entries.filter fun entry =>
      ¬ (entry.observer = observer ∧ entry.name = name ∧
        (object = none ∨ entry.object = object)) }

/-- Removing an object removes no block. -/
theorem removeObserver_object {center : Center ω ν σ β} (h : center.OnlyBlocks) (observer : ω)
    (name : ν) (object : Option σ) :
    center.removeObserver (.object observer) name object = center := by
  have hkept : ∀ entry ∈ center.entries, entry.observer ≠ .object observer := by
    intro entry hentry hobject
    obtain ⟨token, htoken⟩ := h entry hentry
    rw [hobject] at htoken
    cases htoken
  have hentries : center.entries.filter (fun entry => ¬ (entry.observer = .object observer ∧
      entry.name = name ∧ (object = none ∨ entry.object = object))) = center.entries := by
    refine List.filter_eq_self.mpr fun entry hentry => ?_
    simp [hkept entry hentry]
  rw [Center.removeObserver, hentries]

end NotificationCenter
