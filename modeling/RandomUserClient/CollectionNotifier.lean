import RandomUserClient.CollectionChangeBuilder

/-!
# The callbacks of a notifier

A notifier merges each change set into what every callback has not been told
yet. On delivery the callbacks are called one after the other with what they
have accumulated. Callbacks may be added and removed while one of them is
called, and the worker goes on adding changes. As long as no callback is added
and removed within one delivery, nobody skips changes who is not up to date, and
the lists are short enough for sets of one chunk, a callback is told exactly
what has become of the list that it knows.
-/

namespace CollectionNotifiers

open IndexSets CollectionChangeBuilders CollectionChangeBuilder

/-! ## The notifier -/

def emptyChangeSet : CollectionChangeSet := ⟨.empty, .empty, .empty, .empty, []⟩

def isEmptyChangeSet (c : CollectionChangeSet) : Bool :=
  c.deletions.isEmpty && c.insertions.isEmpty && c.modifications.isEmpty &&
    c.modificationsNew.isEmpty && c.moves.isEmpty

structure Callback where
  accumulatedChanges : CollectionChangeBuilder
  changesToDeliver : CollectionChangeSet
  token : Nat
  initialDelivered : Bool
  skipNext : Bool

/-- The index and the count are unsigned; `none` stands for -1, which is above all numbers. -/
structure CollectionNotifier where
  callbacks : List Callback
  callbackIndex : Option Nat
  callbackCount : Option Nat
  nextToken : Nat
  haveCallbacks : Bool
  hasRun : Bool

/-- What becomes of one turn of the loop over the callbacks. -/
inductive Turn where
  | done
  | passed
  | called (token : Nat) (changes : CollectionChangeSet)

/-- The number that is one more. -/
def increment : Option Nat → Nat
  | none => 0
  | some n => n + 1

/-- The number that is one less. -/
def decrement : Option Nat → Option Nat
  | none => none
  | some 0 => none
  | some (n + 1) => some n

namespace CollectionNotifier

def create : CollectionNotifier := ⟨[], none, none, 0, false, false⟩

def addCallback (n : CollectionNotifier) : CollectionNotifier :=
  { n with
    callbacks := n.callbacks ++ [⟨empty, emptyChangeSet, n.nextToken, false, false⟩]
    nextToken := n.nextToken + 1
    haveCallbacks := n.haveCallbacks || n.callbackIndex.isNone }

def findCallback (n : CollectionNotifier) (token : Nat) : Option Nat :=
  n.callbacks.findIdx? fun c => c.token = token

/-- The callback at an index is removed, and the loop over the callbacks goes on behind it. -/
def removeAt (n : CollectionNotifier) (idx : Nat) : CollectionNotifier :=
  { n with
    callbacks := n.callbacks.eraseIdx idx
    callbackIndex := if n.callbackIndex.any (idx ≤ ·) then decrement n.callbackIndex
      else n.callbackIndex
    callbackCount := decrement n.callbackCount
    haveCallbacks := !(n.callbacks.eraseIdx idx).isEmpty }

def removeCallback (n : CollectionNotifier) (token : Nat) : CollectionNotifier :=
  match n.findCallback token with
  | some idx => n.removeAt idx
  | none => n

def suppressNextNotification (n : CollectionNotifier) (token : Nat) : CollectionNotifier :=
  match n.findCallback token with
  | some idx => { n with callbacks := n.callbacks.modify idx fun c => { c with skipNext := true } }
  | none => n

def addChanges (n : CollectionNotifier) (change : CollectionChangeBuilder) : CollectionNotifier :=
  { n with callbacks := n.callbacks.map fun c =>
      if c.skipNext then { c with skipNext := false }
      else { c with accumulatedChanges := c.accumulatedChanges.merge change } }

/-- The changes of a run are handed over. -/
def prepareHandover (n : CollectionNotifier) (change : CollectionChangeBuilder) :
    CollectionNotifier :=
  { n.addChanges change with hasRun := true }

def packageForDelivery (n : CollectionNotifier) : CollectionNotifier :=
  { n with
    callbacks := n.callbacks.map fun c => { c with
      changesToDeliver := c.accumulatedChanges.finalize
      accumulatedChanges := empty }
    callbackCount := some n.callbacks.length }

/-- One turn of the loop of `after_advance`; there is nothing behind the last callback. -/
def callNext (n : CollectionNotifier) : Option (CollectionNotifier × Turn) :=
  let index := increment n.callbackIndex
  if n.callbackCount.all (index < ·) then
    match n.callbacks[index]? with
    | none => none
    | some c =>
      let n := { n with callbackIndex := some index }
      if c.initialDelivered && isEmptyChangeSet c.changesToDeliver then some (n, .passed)
      else some ({ n with callbacks := n.callbacks.set index { c with
            initialDelivered := true
            changesToDeliver := emptyChangeSet } }, .called c.token c.changesToDeliver)
  else some ({ n with callbackIndex := none }, .done)

end CollectionNotifier

/-! ## What has become of a list -/

variable {α : Type}

/-- A list that was `first`, then each of `mids`, and is `last`, with the items that have been
modified on the way, and whether those that stayed are in their order throughout. -/
structure Span (α : Type) where
  first : List α
  mids : List (List α)
  last : List α
  touched : α → Prop
  ordered : Prop

/-- Nothing has become of it. -/
def Span.still (l : List α) : Span α := ⟨l, [], l, fun _ => False, True⟩

def Span.append (s t : Span α) : Span α :=
  ⟨s.first, s.mids ++ s.last :: t.mids, t.last, fun x => s.touched x ∨ t.touched x,
    s.ordered ∧ t.ordered⟩

/-- The change set follows only items that were in the list all the time, and all of them as long as
they are in order. -/
structure Exact (s : Span α) (b : CollectionChangeBuilder) : Prop where
  moved : b.Moved
  carries : b.Carries s.first s.last
  follows : ∀ i j x, s.first[i]? = some x → b.Follows i j →
    s.last[j]? = some x ∧ ∀ m ∈ s.mids, x ∈ m
  kept : s.ordered → ∀ i j x, s.first[i]? = some x → s.last[j]? = some x →
    (∀ m ∈ s.mids, x ∈ m) → b.Follows i j
  modified : ∀ i j x, s.first[i]? = some x → b.Follows i j →
    (b.modifications.contains j = true ↔ s.touched x)
  fits : b.Fits s.first.length s.last.length

theorem Exact.append {s t : Span α} {b c : CollectionChangeBuilder} (hs : Exact s b)
    (ht : Exact t c) (hst : s.last = t.first) : Exact (s.append t) (b.merge c) := by
  obtain ⟨hmoved, hfollows, hmodified, -⟩ := merge_spec hs.moved ht.moved
  refine ⟨hmoved, fun i j h => ?_, fun i j x hx h => ?_, fun ho i j x hx hj hmids => ?_,
    fun i j x hx h => ?_, ?_⟩
  · obtain ⟨k, hik, hkj⟩ := (hfollows i j).mp h
    rw [Span.append, ht.carries k j hkj, ← hst, hs.carries i k hik]
  · obtain ⟨k, hik, hkj⟩ := (hfollows i j).mp h
    obtain ⟨hk, hmids⟩ := hs.follows i k x hx hik
    obtain ⟨hj, hmids'⟩ := ht.follows k j x (hst ▸ hk) hkj
    refine ⟨hj, fun m hm => ?_⟩
    rcases List.mem_append.mp hm with hm | hm
    · exact hmids m hm
    · rcases List.mem_cons.mp hm with rfl | hm
      · exact List.mem_of_getElem? hk
      · exact hmids' m hm
  · dsimp only [Span.append] at hj hmids
    obtain ⟨k, hk⟩ := List.getElem?_of_mem (hmids s.last (by simp))
    exact (hfollows i j).mpr ⟨k, hs.kept ho.1 i k x hx hk fun m hm => hmids m (by simp [hm]),
      ht.kept ho.2 k j x (hst ▸ hk) hj fun m hm => hmids m (by simp [hm])⟩
  · obtain ⟨k, hik, hkj⟩ := (hfollows i j).mp h
    have hk := (hs.follows i k x hx hik).1
    rw [hmodified i k j hik hkj, Bool.or_eq_true, hs.modified i k x hx hik,
      ht.modified k j x (hst ▸ hk) hkj]
    rfl
  · have hfits := ht.fits
    rw [← hst] at hfits
    exact hs.fits.merge hs.moved ht.moved hfits

/-- Without changes every row is where it was. -/
theorem Exact.unchanged {l : List α} (hl : l.Nodup) {touched : α → Prop} (ht : ∀ x, ¬ touched x)
    (ordered : Prop) {b : CollectionChangeBuilder} (h : b.isEmpty = true) :
    Exact ⟨l, [], l, touched, ordered⟩ b := by
  have hfollows := follows_of_isEmpty h
  have hfits := fits_of_isEmpty h l.length
  simp only [isEmpty, Bool.and_eq_true, List.isEmpty_iff] at h
  refine ⟨by constructor <;> simp [h.2], fun i j hij => ?_, fun i j x hx hij => ?_,
    fun _ i j x hx hj _ => ?_, fun i j x _ _ => ?_, hfits⟩
  · rw [(hfollows i j).mp hij]
  · rw [← (hfollows i j).mp hij]
    exact ⟨hx, fun m hm => by cases hm⟩
  · obtain ⟨hi, hget⟩ := List.getElem?_eq_some_iff.mp hx
    obtain ⟨hj, hget'⟩ := List.getElem?_eq_some_iff.mp hj
    exact (hfollows i j).mpr (hl.getElem_inj_iff.mp (hget.trans hget'.symm))
  · rw [IndexSet.eq_empty h.1.2]
    exact iff_of_false (by simp) (ht x)

theorem Exact.still {l : List α} (hl : l.Nodup) {b : CollectionChangeBuilder}
    (h : b.isEmpty = true) : Exact (.still l) b :=
  .unchanged hl (fun _ => id) True h

/-- A list whose change set is empty has stayed as it was. -/
theorem Exact.eq_of_isEmpty {s : Span α} {b : CollectionChangeBuilder} (h : Exact s b)
    (hb : b.isEmpty = true) : s.last = s.first :=
  List.ext_getElem? fun i => h.carries i i ((follows_of_isEmpty hb i i).mpr rfl)

/-- Nor has any of its items been modified. -/
theorem Exact.untouched_of_isEmpty {s : Span α} {b : CollectionChangeBuilder} (h : Exact s b)
    (hb : b.isEmpty = true) : ∀ x ∈ s.first, ¬ s.touched x := by
  intro x hx htouched
  obtain ⟨i, hi⟩ := List.getElem?_of_mem hx
  have hmod := (h.modified i i x hi ((follows_of_isEmpty hb i i).mpr rfl)).mpr htouched
  simp only [isEmpty, Bool.and_eq_true] at hb
  rw [IndexSet.eq_empty hb.1.2] at hmod
  cases hmod

/-- What is delivered is empty only if there is nothing to tell. -/
theorem isEmpty_of_finalize {b : CollectionChangeBuilder}
    (h : isEmptyChangeSet b.finalize = true) : b.isEmpty = true := by
  simp only [isEmptyChangeSet, Bool.and_eq_true, finalize] at h
  obtain ⟨⟨⟨⟨hdel, hins⟩, -⟩, hmod⟩, hmoves⟩ := h
  have hnone : b.modifications.isEmpty = true := by
    rw [IndexSet.isEmpty_iff] at hmod ⊢
    intro k
    have hk := hmod k
    rw [IndexSet.contains_removeSet, IndexSet.eq_empty hins] at hk
    simpa using hk
  simp only [isEmpty, hdel, hins, hnone, hmoves, Bool.and_self]

theorem isEmptyChangeSet_finalize {b : CollectionChangeBuilder} (h : b.isEmpty = true) :
    isEmptyChangeSet b.finalize = true := by
  simp only [isEmpty, Bool.and_eq_true] at h
  obtain ⟨⟨⟨hdel, hins⟩, hmod⟩, hmoves⟩ := h
  have hnone := IndexSet.isEmpty_iff.mp hmod
  have hold : b.finalize.modifications.isEmpty = true := by
    rw [IndexSet.isEmpty_iff]
    intro i
    rw [← Bool.not_eq_true, contains_modificationsOld]
    rintro ⟨j, -, hj⟩
    exact absurd hj (by rw [hnone]; exact Bool.false_ne_true)
  have hnew : b.finalize.modificationsNew.isEmpty = true := by
    rw [IndexSet.isEmpty_iff]
    intro j
    rw [← Bool.not_eq_true, contains_modificationsNew, hnone]
    simp
  simp only [isEmptyChangeSet, hold, hnew, Bool.and_true]
  simp only [finalize, hdel, hins, hmoves, Bool.and_self]

/-! ## What the callbacks know -/

/-- The list that a client knows, what it is about to be told, and what has happened since. -/
structure Client (α : Type) where
  shown : List α
  due : Option (Span α)
  pending : Span α

namespace Client

def arrive (l : List α) : Client α := ⟨l, none, .still l⟩

/-- A client that has asked not to be told of its own changes knows the list that they lead to;
before the first run there is nothing to know. -/
def run (hasRun : Bool) (s : Span α) (c : Client α) (cb : Callback) : Client α :=
  if hasRun = false then arrive s.last
  else if cb.skipNext then ⟨s.last, c.due.map fun _ => .still s.last, .still s.last⟩
  else { c with pending := c.pending.append s }

def package (c : Client α) : Client α :=
  { c with due := some c.pending, pending := .still c.pending.last }

def call (c : Client α) : Client α :=
  { c with shown := (c.due.map Span.last).getD c.shown, due := none }

end Client

/-- The notifier with its list, and the clients behind its callbacks. -/
structure World (α : Type) where
  notifier : CollectionNotifier
  list : List α
  sending : Bool
  clients : List (Client α)

/-- One turn of the loop over the callbacks, or one thing that a client does. -/
inductive Deed where
  | turn
  | add
  | remove (token : Nat)
  | suppress (token : Nat)

/-- What comes of it; `find_callback` asserts that there is a callback with the token. -/
inductive Act : Deed → World α → World α → Prop where
  | done {w : World α} {n : CollectionNotifier} (hsending : w.sending = true)
      (hcall : w.notifier.callNext = some (n, .done)) : Act .turn w ⟨n, w.list, false, w.clients⟩
  | call {w : World α} {n : CollectionNotifier} {turn : Turn} (hsending : w.sending = true)
      (hcall : w.notifier.callNext = some (n, turn)) (hturn : turn ≠ .done) : Act .turn w
      ⟨n, w.list, true, w.clients.modify (increment w.notifier.callbackIndex) Client.call⟩
  | add {w : World α} :
      Act .add w ⟨w.notifier.addCallback, w.list, w.sending, w.clients ++ [.arrive w.list]⟩
  | remove {w : World α} {token idx : Nat} (hfind : w.notifier.findCallback token = some idx) :
      Act (.remove token) w
        ⟨w.notifier.removeCallback token, w.list, w.sending, w.clients.eraseIdx idx⟩
  | suppress {w : World α} {token idx : Nat} (hfind : w.notifier.findCallback token = some idx) :
      Act (.suppress token) w
        { w with notifier := w.notifier.suppressNextNotification token }

/-- A callback that has been added during a delivery is not removed during the same one, where it
would be counted out without having been counted in. A client that skips changes knows the list as
it is, since it is up to date when it begins to write. -/
def World.Allows (w : World α) : Deed → Prop
  | .remove token => w.sending = true → ∀ idx, w.notifier.findCallback token = some idx →
      w.notifier.callbackCount.any (idx < ·)
  | .suppress token => ∀ idx cb, w.notifier.findCallback token = some idx →
      w.notifier.callbacks[idx]? = some cb → cb.accumulatedChanges.isEmpty = true ∧
        isEmptyChangeSet cb.changesToDeliver = true
  | _ => True

/-- A delivery begins. -/
def World.package (w : World α) : World α :=
  ⟨w.notifier.packageForDelivery, w.list, true, w.clients.map Client.package⟩

/-- The worker has run with these changes. -/
def World.run (w : World α) (next : List α) (touched : α → Prop) (ordered : Prop)
    (change : CollectionChangeBuilder) : World α :=
  ⟨w.notifier.prepareHandover change, next, w.sending, List.zipWith
    (Client.run w.notifier.hasRun ⟨w.list, [], next, touched, ordered⟩) w.clients
    w.notifier.callbacks⟩

/-- The lists are short enough for one chunk. -/
inductive Step : World α → World α → Prop where
  | act {w w' : World α} {d : Deed} (h : Act d w w') (hd : w.Allows d) : Step w w'
  | package {w : World α} (hsending : w.sending = false) (hrun : w.notifier.hasRun = true) :
      Step w w.package
  | run {w : World α} {next : List α} {touched : α → Prop} {ordered : Prop}
      {change : CollectionChangeBuilder} (hnext : next.Nodup)
      (hlength : next.length ≤ 2 * RangeChunks.maxSize)
      (hchange : w.notifier.hasRun = true → w.notifier.callbacks ≠ [] →
        Exact ⟨w.list, [], next, touched, ordered⟩ change)
      (hfirst : w.notifier.hasRun = false → change = empty) :
      Step w (w.run next touched ordered change)

/-- What is known of a client and its callback. -/
structure Knows (hasRun : Bool) (list : List α) (c : Client α) (cb : Callback) : Prop where
  last : c.pending.last = list
  length : c.pending.first.length ≤ 2 * RangeChunks.maxSize
  pending : Exact c.pending cb.accumulatedChanges
  first : c.due = none → c.shown = c.pending.first
  due : ∀ s, c.due = some s → s.first = c.shown ∧ s.last = c.pending.first ∧
    ∃ b, Exact s b ∧ cb.changesToDeliver = b.finalize
  skip : cb.skipNext = true → cb.accumulatedChanges.isEmpty = true ∧
    isEmptyChangeSet cb.changesToDeliver = true
  new : hasRun = false → cb.accumulatedChanges = empty ∧ c.due = none

/-- The callbacks from the next one on up to the count are due, and no others. -/
structure Inv (w : World α) : Prop where
  nodup : w.list.Nodup
  short : w.list.length ≤ 2 * RangeChunks.maxSize
  haveCallbacks : w.notifier.callbacks ≠ [] → w.notifier.haveCallbacks = true
  length : w.clients.length = w.notifier.callbacks.length
  knows : ∀ (k : Nat) c cb, w.clients[k]? = some c → w.notifier.callbacks[k]? = some cb →
    Knows w.notifier.hasRun w.list c cb
  quiet : w.sending = false → w.notifier.callbackIndex = none ∧ ∀ c ∈ w.clients, c.due = none
  sending : w.sending = true → w.notifier.hasRun = true ∧
    ∃ count, w.notifier.callbackCount = some count ∧
      increment w.notifier.callbackIndex ≤ count ∧ count ≤ w.clients.length ∧
      ∀ (k : Nat) c, w.clients[k]? = some c →
        (c.due.isSome ↔ increment w.notifier.callbackIndex ≤ k ∧ k < count)

theorem Knows.run {list next : List α} {hasRun : Bool} {touched : α → Prop} {ordered : Prop}
    {c : Client α} {cb : Callback} {change : CollectionChangeBuilder} (h : Knows hasRun list c cb)
    (hnext : next.Nodup) (hlength : next.length ≤ 2 * RangeChunks.maxSize)
    (hchange : hasRun = true → Exact ⟨list, [], next, touched, ordered⟩ change)
    (hfirst : hasRun = false → change = empty) :
    Knows true next (c.run hasRun ⟨list, [], next, touched, ordered⟩ cb)
      (if cb.skipNext then { cb with skipNext := false }
        else { cb with accumulatedChanges := cb.accumulatedChanges.merge change }) := by
  obtain ⟨hlast, hold, hpending, hshown, hdue, hskip, hnew⟩ := h
  have hstill : ∀ {b : CollectionChangeBuilder}, b.isEmpty = true → Exact (.still next) b :=
    fun hb => .still hnext hb
  cases hasRun with
  | false =>
    obtain ⟨hacc, -⟩ := hnew rfl
    have hempty : empty.isEmpty = true := rfl
    have hmerge : empty.merge empty = empty := by
      rw [merge, if_pos hempty]
    rw [Client.run, if_pos rfl]
    refine ⟨rfl, hlength, ?_, fun _ => rfl, fun s hs => (by cases hs), ?_,
      fun hrun => by cases hrun⟩
    · split
      · exact hstill (hacc ▸ hempty)
      · rw [hacc, hfirst rfl, hmerge]
        exact hstill hempty
    · split <;> rename_i hs
      · exact fun hs => by cases hs
      · exact fun hs' => absurd hs' hs
  | true =>
    rw [Client.run, if_neg (by simp)]
    split
    · rename_i hs
      obtain ⟨hacc, hdeliver⟩ := hskip hs
      refine ⟨rfl, hlength, hstill hacc, fun _ => rfl, fun s hs => ?_, fun hs => (by cases hs),
        fun hrun => by cases hrun⟩
      obtain ⟨s', hs', rfl⟩ := Option.map_eq_some_iff.mp hs
      obtain ⟨-, -, b, -, hb⟩ := hdue s' hs'
      exact ⟨rfl, rfl, b, hstill (isEmpty_of_finalize (hb ▸ hdeliver)), hb⟩
    · rename_i hs
      exact ⟨rfl, hold, hpending.append (hchange rfl) hlast, hshown, hdue,
        fun hs' => absurd hs' hs, fun hrun => by cases hrun⟩

theorem Knows.package {list : List α} {c : Client α} {cb : Callback} (h : Knows true list c cb)
    (hlist : list.Nodup) (hlength : list.length ≤ 2 * RangeChunks.maxSize)
    (hquiet : c.due = none) : Knows true list c.package { cb with
      changesToDeliver := cb.accumulatedChanges.finalize
      accumulatedChanges := empty } := by
  obtain ⟨hlast, -, hpending, hshown, hdue, hskip, hnew⟩ := h
  have hpended : c.pending.last.length ≤ 2 * RangeChunks.maxSize := hlast ▸ hlength
  refine ⟨hlast, hpended, .still (hlast ▸ hlist) rfl, fun hdue => (by cases hdue), fun s hs => ?_,
    fun hs => ⟨rfl, isEmptyChangeSet_finalize (hskip hs).1⟩, fun hrun => by cases hrun⟩
  · obtain rfl := Option.some.inj hs
    exact ⟨(hshown hquiet).symm, rfl, cb.accumulatedChanges, hpending, rfl⟩

theorem Knows.call {hasRun : Bool} {list : List α} {c : Client α} {cb : Callback}
    (h : Knows hasRun list c cb) (initialDelivered : Bool) {changes : CollectionChangeSet}
    (hchanges : isEmptyChangeSet changes = true) : Knows hasRun list c.call { cb with
      changesToDeliver := changes
      initialDelivered := initialDelivered } := by
  obtain ⟨hlast, hlength, hpending, hshown, hdue, hskip, hnew⟩ := h
  refine ⟨hlast, hlength, hpending, fun _ => ?_, fun s hs => (by cases hs),
    fun hs => ⟨(hskip hs).1, hchanges⟩, fun hrun => ⟨(hnew hrun).1, rfl⟩⟩
  cases hc : c.due with
  | none => simpa [Client.call, hc] using hshown hc
  | some s => simpa [Client.call, hc] using (hdue s hc).2.1

/-! ## Step by step -/

theorem due_run {s : Span α} {c : Client α} {cb : Callback} :
    (c.run true s cb).due.isSome = c.due.isSome := by
  rw [Client.run, if_neg (by simp)]
  split
  · simp
  · rfl

theorem Inv.run {w : World α} {next : List α} {touched : α → Prop} {ordered : Prop}
    {change : CollectionChangeBuilder} (h : Inv w) (hnext : next.Nodup)
    (hshort : next.length ≤ 2 * RangeChunks.maxSize)
    (hchange : w.notifier.hasRun = true → w.notifier.callbacks ≠ [] →
      Exact ⟨w.list, [], next, touched, ordered⟩ change)
    (hfirst : w.notifier.hasRun = false → change = empty) :
    Inv (w.run next touched ordered change) := by
  obtain ⟨-, -, hhave, hlength, hknows, hquiet, hsending⟩ := h
  -- the client at an index is the old one after the run
  have hclient : ∀ (k : Nat) c', (List.zipWith
      (Client.run w.notifier.hasRun ⟨w.list, [], next, touched, ordered⟩) w.clients
        w.notifier.callbacks)[k]? = some c' → ∃ c cb, w.clients[k]? = some c ∧
      w.notifier.callbacks[k]? = some cb ∧
        c' = c.run w.notifier.hasRun ⟨w.list, [], next, touched, ordered⟩ cb := fun k c' hc' => by
    rw [List.getElem?_zipWith_eq_some] at hc'
    obtain ⟨c, cb, hc, hcb, rfl⟩ := hc'
    exact ⟨c, cb, hc, hcb, rfl⟩
  refine ⟨hnext, hshort, fun hne => hhave fun hnil => hne ?_, ?_, fun k c' cb' hc' hcb' => ?_,
    fun hs => ⟨(hquiet hs).1, fun c' hc' => ?_⟩, fun hs => ?_⟩
  · simp [World.run, CollectionNotifier.prepareHandover, CollectionNotifier.addChanges, hnil]
  · simp [World.run, CollectionNotifier.prepareHandover, CollectionNotifier.addChanges, hlength]
  · obtain ⟨c, cb, hc, hcb, rfl⟩ := hclient k c' hc'
    simp only [World.run, CollectionNotifier.prepareHandover, CollectionNotifier.addChanges,
      List.getElem?_map, hcb, Option.map_some, Option.some.injEq] at hcb'
    rw [← hcb']
    exact (hknows k c cb hc hcb).run hnext hshort
      (fun hrun => hchange hrun (List.ne_nil_of_mem (List.mem_of_getElem? hcb))) hfirst
  · obtain ⟨k, hk⟩ := List.getElem?_of_mem hc'
    obtain ⟨c, cb, hc, -, rfl⟩ := hclient k c' hk
    have hnone := (hquiet hs).2 c (List.mem_of_getElem? hc)
    rw [Client.run]
    split
    · rfl
    · split
      · simp [hnone]
      · exact hnone
  · obtain ⟨hrun, count, hcount, hle, hlen, hdue⟩ := hsending hs
    refine ⟨rfl, count, hcount, hle, by simpa [World.run, ← hlength] using hlen,
      fun k c' hc' => ?_⟩
    obtain ⟨c, cb, hc, -, rfl⟩ := hclient k c' hc'
    rw [hrun, due_run]
    exact hdue k c hc

theorem Inv.package {w : World α} (h : Inv w) (hs : w.sending = false)
    (hrun : w.notifier.hasRun = true) : Inv w.package := by
  rw [World.package]
  obtain ⟨hnodup, hshort, hhave, hlength, hknows, hquiet, -⟩ := h
  obtain ⟨hindex, hquiet⟩ := hquiet hs
  rw [hrun] at hknows
  refine ⟨hnodup, hshort, fun hne => hhave fun hnil => hne ?_, ?_, fun k c' cb' hc' hcb' => ?_,
    fun hs => (by cases hs), fun _ => ?_⟩
  · simp [CollectionNotifier.packageForDelivery, hnil]
  · simp [CollectionNotifier.packageForDelivery, hlength]
  · rw [List.getElem?_map, Option.map_eq_some_iff] at hc'
    simp only [CollectionNotifier.packageForDelivery, List.getElem?_map,
      Option.map_eq_some_iff] at hcb'
    obtain ⟨c, hc, rfl⟩ := hc'
    obtain ⟨cb, hcb, rfl⟩ := hcb'
    simp only [CollectionNotifier.packageForDelivery, hrun]
    exact (hknows k c cb hc hcb).package hnodup hshort (hquiet c (List.mem_of_getElem? hc))
  · refine ⟨hrun, _, rfl, ?_, by simp [hlength], fun k c' hc' => ?_⟩
    · simp [CollectionNotifier.packageForDelivery, hindex, increment]
    · rw [List.getElem?_map, Option.map_eq_some_iff] at hc'
      obtain ⟨c, hc, rfl⟩ := hc'
      have := (List.getElem?_eq_some_iff.mp hc).1
      simp [Client.package, CollectionNotifier.packageForDelivery, hindex, increment]
      omega

/-- The loop stays within the callbacks and calls the ones that are due. -/
theorem Inv.callNext {w : World α} (h : Inv w) (hs : w.sending = true) :
    (∃ c cb s changes turn, w.clients[increment w.notifier.callbackIndex]? = some c ∧
      w.notifier.callbacks[increment w.notifier.callbackIndex]? = some cb ∧
      c.due = some s ∧ isEmptyChangeSet changes = true ∧
      (turn = .called cb.token cb.changesToDeliver ∨ turn = .passed ∧
        cb.initialDelivered = true ∧ isEmptyChangeSet cb.changesToDeliver = true) ∧
      w.notifier.callNext = some ({ w.notifier with
        callbackIndex := some (increment w.notifier.callbackIndex)
        callbacks := w.notifier.callbacks.set (increment w.notifier.callbackIndex) { cb with
          initialDelivered := true
          changesToDeliver := changes } }, turn)) ∨
    (∀ c ∈ w.clients, c.due = none) ∧
      w.notifier.callNext = some ({ w.notifier with callbackIndex := none }, .done) := by
  obtain ⟨hrun, count, hcount, hle, hlen, hdue⟩ := h.sending hs
  have hlength := h.length
  have hall : ∀ index, w.notifier.callbackCount.all (index < ·) = decide (index < count) := by
    rw [hcount]
    exact fun _ => rfl
  rw [CollectionNotifier.callNext]
  dsimp only
  generalize increment w.notifier.callbackIndex = index at *
  rw [hall]
  by_cases hlt : index < count
  · left
    have hcb := List.getElem?_eq_getElem (by omega : index < w.notifier.callbacks.length)
    have hc := List.getElem?_eq_getElem (by omega : index < w.clients.length)
    obtain ⟨s, hsome⟩ := Option.isSome_iff_exists.mp ((hdue index _ hc).mpr ⟨Nat.le_refl _, hlt⟩)
    rw [hcb, if_pos (by simpa using hlt)]
    dsimp only
    split
    · rename_i hpass
      rw [Bool.and_eq_true] at hpass
      refine ⟨_, _, s, _, .passed, hc, rfl, hsome, hpass.2, Or.inr ⟨rfl, hpass⟩, ?_⟩
      have hsame : { w.notifier.callbacks[index] with initialDelivered := true } =
          w.notifier.callbacks[index] := by
        rw [← hpass.1]
      rw [hsame, List.set_getElem_self]
    · exact ⟨_, _, s, emptyChangeSet, _, hc, rfl, hsome, rfl, Or.inl rfl, rfl⟩
  · right
    rw [if_neg (by simpa using hlt)]
    refine ⟨fun c hc => ?_, rfl⟩
    obtain ⟨k, hk⟩ := List.getElem?_of_mem hc
    have hnot := hdue k c hk
    rw [← Option.not_isSome_iff_eq_none, hnot]
    omega

theorem Inv.done {w : World α} {n : CollectionNotifier} (h : Inv w) (hs : w.sending = true)
    (hcall : w.notifier.callNext = some (n, .done)) : Inv ⟨n, w.list, false, w.clients⟩ := by
  rcases h.callNext hs with ⟨c, cb, s, changes, turn, -, -, -, -, hturn, hnext⟩ | ⟨hnone, hnext⟩
  · rw [hcall] at hnext
    obtain ⟨-, rfl⟩ := Prod.mk.inj (Option.some.inj hnext)
    rcases hturn with hturn | ⟨hturn, -⟩ <;> cases hturn
  · rw [hcall] at hnext
    obtain ⟨rfl, -⟩ := Prod.mk.inj (Option.some.inj hnext)
    exact ⟨h.nodup, h.short, h.haveCallbacks, h.length, h.knows, fun _ => ⟨rfl, hnone⟩,
      fun hs => by cases hs⟩

theorem Inv.call {w : World α} {n : CollectionNotifier} {turn : Turn} (h : Inv w)
    (hs : w.sending = true) (hcall : w.notifier.callNext = some (n, turn)) (hturn : turn ≠ .done) :
    Inv ⟨n, w.list, true,
      w.clients.modify (increment w.notifier.callbackIndex) Client.call⟩ := by
  rcases h.callNext hs with ⟨c, cb, s, changes, turn', hc, hcb, hdue, hempty, -, hnext⟩ |
    ⟨-, hnext⟩
  · rw [hcall] at hnext
    obtain ⟨rfl, rfl⟩ := Prod.mk.inj (Option.some.inj hnext)
    obtain ⟨hrun, count, hcount, hle, hlen, hdues⟩ := h.sending hs
    have hlt := ((hdues _ c hc).mp (by simp [hdue])).2
    generalize increment w.notifier.callbackIndex = index at *
    refine ⟨h.nodup, h.short,
      fun _ => h.haveCallbacks (List.ne_nil_of_mem (List.mem_of_getElem? hcb)),
      by simp [h.length], fun k c' cb' hc' hcb' => ?_, fun hs => (by cases hs),
      fun _ => ⟨hrun, count, hcount, hlt, by simpa using hlen, fun k c' hc' => ?_⟩⟩
    · rw [List.getElem?_modify, Option.map_eq_map, Option.map_eq_some_iff] at hc'
      rw [List.getElem?_set] at hcb'
      obtain ⟨c₀, hc₀, rfl⟩ := hc'
      by_cases hk : index = k
      · subst hk
        obtain rfl : c = c₀ := Option.some.inj (hc.symm.trans hc₀)
        rw [if_pos rfl, if_pos (List.getElem?_eq_some_iff.mp hcb).1, Option.some.injEq] at hcb'
        rw [if_pos rfl, ← hcb']
        exact (h.knows _ _ _ hc hcb).call true hempty
      · rw [if_neg hk] at hcb' ⊢
        exact h.knows k _ _ hc₀ hcb'
    · rw [List.getElem?_modify, Option.map_eq_map, Option.map_eq_some_iff] at hc'
      obtain ⟨c₀, hc₀, rfl⟩ := hc'
      have hdue₀ := hdues k c₀ hc₀
      dsimp only [increment]
      by_cases hk : index = k
      · rw [if_pos hk, Client.call, Option.isSome_none]
        simp only [Bool.false_eq_true, false_iff]
        omega
      · rw [if_neg hk, hdue₀]
        omega
  · rw [hcall] at hnext
    exact absurd (Prod.mk.inj (Option.some.inj hnext)).2 hturn

theorem Inv.add {w : World α} (h : Inv w) :
    Inv ⟨w.notifier.addCallback, w.list, w.sending, w.clients ++ [.arrive w.list]⟩ := by
  obtain ⟨hnodup, hshort, hhave, hlength, hknows, hquiet, hsending⟩ := h
  have hnew : Knows w.notifier.hasRun w.list (.arrive w.list)
      ⟨empty, emptyChangeSet, w.notifier.nextToken, false, false⟩ :=
    ⟨rfl, hshort, .still hnodup rfl, fun _ => rfl, fun s hs => (by cases hs),
      fun hs => (by cases hs), fun _ => ⟨rfl, rfl⟩⟩
  refine ⟨hnodup, hshort, fun _ => ?_, by simp [CollectionNotifier.addCallback, hlength],
    fun k c cb hc hcb => ?_, fun hs => ⟨(hquiet hs).1, fun c hc => ?_⟩, fun hs => ?_⟩
  · dsimp only [CollectionNotifier.addCallback]
    cases hindex : w.notifier.callbackIndex with
    | none => simp
    | some i =>
      -- a delivery is going on, so there are callbacks
      have hs : w.sending = true := by
        by_contra hs
        rw [Bool.not_eq_true] at hs
        exact absurd (hquiet hs).1 (by simp [hindex])
      obtain ⟨-, count, -, hle, hlen, -⟩ := hsending hs
      rw [hindex, increment] at hle
      rw [hhave (List.ne_nil_of_length_pos (by omega)), Bool.true_or]
  · dsimp only [CollectionNotifier.addCallback] at hc hcb
    rw [List.getElem?_append] at hc hcb
    rw [← hlength] at hcb
    split at hc
    · rename_i hlt
      rw [if_pos hlt] at hcb
      exact hknows k c cb hc hcb
    · rename_i hge
      rw [if_neg hge] at hcb
      rw [List.getElem?_singleton] at hc hcb
      split at hc
      · rename_i hk
        rw [if_pos hk] at hcb
        rw [← Option.some.inj hc, ← Option.some.inj hcb]
        exact hnew
      · cases hc
  · rcases List.mem_append.mp hc with hc | hc
    · exact (hquiet hs).2 c hc
    · rw [List.mem_singleton.mp hc]
      rfl
  · obtain ⟨hrun, count, hcount, hle, hlen, hdue⟩ := hsending hs
    refine ⟨hrun, count, hcount, hle, ?_, fun k c hc => ?_⟩
    · rw [List.length_append]
      omega
    · rw [List.getElem?_append] at hc
      split at hc
      · exact hdue k c hc
      · rw [List.getElem?_singleton] at hc
        split at hc
        · rw [← Option.some.inj hc]
          simp [Client.arrive]
          omega
        · cases hc

theorem increment_removeAt (n : CollectionNotifier) (idx : Nat) :
    increment (n.removeAt idx).callbackIndex =
      if idx < increment n.callbackIndex then increment n.callbackIndex - 1
      else increment n.callbackIndex := by
  have hnumber : ∀ i : Nat, increment (some i) = i + 1 := fun _ => rfl
  dsimp only [CollectionNotifier.removeAt]
  cases n.callbackIndex with
  | none => rfl
  | some i =>
    rw [Option.any_some, hnumber]
    by_cases hi : idx ≤ i
    · rw [if_pos (by simpa using hi), if_pos (by omega)]
      cases i <;> rfl
    · rw [if_neg (by simpa using hi), if_neg (by omega), hnumber]

theorem Inv.remove {w : World α} {token idx : Nat} (h : Inv w)
    (hfind : w.notifier.findCallback token = some idx) (hallows : w.Allows (.remove token)) :
    Inv ⟨w.notifier.removeCallback token, w.list, w.sending, w.clients.eraseIdx idx⟩ := by
  obtain ⟨hnodup, hshort, hhave, hlength, hknows, hquiet, hsending⟩ := h
  have hremove : w.notifier.removeCallback token = w.notifier.removeAt idx := by
    rw [CollectionNotifier.removeCallback, hfind]
  have hindex := increment_removeAt w.notifier idx
  rw [hremove]
  refine ⟨hnodup, hshort, fun hne => ?_, ?_, fun k c cb hc hcb => ?_,
    fun hs => ⟨?_, fun c hc => ?_⟩, fun hs => ?_⟩
  · simpa [CollectionNotifier.removeAt] using hne
  · simp only [CollectionNotifier.removeAt, List.length_eraseIdx, hlength]
  · dsimp only [CollectionNotifier.removeAt] at hc hcb
    rw [List.getElem?_eraseIdx] at hc hcb
    split at hc
    · rename_i hk
      rw [if_pos hk] at hcb
      exact hknows k c cb hc hcb
    · rename_i hk
      rw [if_neg hk] at hcb
      exact hknows _ c cb hc hcb
  · simp [CollectionNotifier.removeAt, (hquiet hs).1]
  · exact (hquiet hs).2 c (List.mem_of_mem_eraseIdx hc)
  · obtain ⟨hrun, count, hcount, hle, hlen, hdue⟩ := hsending hs
    have hidx := hallows hs idx hfind
    rw [hcount, Option.any_some, decide_eq_true_eq] at hidx
    obtain ⟨count, rfl⟩ : ∃ n, count = n + 1 := ⟨count - 1, by omega⟩
    refine ⟨hrun, count, ?_, ?_, ?_, fun k c hc => ?_⟩
    · dsimp only [CollectionNotifier.removeAt]
      rw [hcount, decrement]
    · rw [hindex]
      split <;> omega
    · rw [List.length_eraseIdx]
      split <;> omega
    · rw [List.getElem?_eraseIdx] at hc
      rw [hindex]
      split at hc
      · rw [hdue k c hc]
        split <;> omega
      · rw [hdue _ c hc]
        split <;> omega

theorem Inv.suppress {w : World α} {token idx : Nat} (h : Inv w)
    (hfind : w.notifier.findCallback token = some idx) (hallows : w.Allows (.suppress token)) :
    Inv { w with notifier := w.notifier.suppressNextNotification token } := by
  obtain ⟨hnodup, hshort, hhave, hlength, hknows, hquiet, hsending⟩ := h
  rw [CollectionNotifier.suppressNextNotification, hfind]
  refine ⟨hnodup, hshort, fun hne => hhave fun hnil => hne ?_, by simp [hlength],
    fun k c cb' hc hcb' => ?_, hquiet, hsending⟩
  · simp [hnil]
  · dsimp only at hc hcb'
    rw [List.getElem?_modify, Option.map_eq_map, Option.map_eq_some_iff] at hcb'
    obtain ⟨cb, hcb, rfl⟩ := hcb'
    have hk := hknows k c cb hc hcb
    by_cases hidx : idx = k
    · subst hidx
      rw [if_pos rfl]
      exact ⟨hk.last, hk.length, hk.pending, hk.first, hk.due,
        fun _ => hallows idx cb hfind hcb, hk.new⟩
    · rw [if_neg hidx]
      exact hk

theorem Inv.act {w w' : World α} {d : Deed} (h : Inv w) (hact : Act d w w') (hd : w.Allows d) :
    Inv w' := by
  cases hact with
  | done hs hcall => exact h.done hs hcall
  | call hs hcall hturn => exact h.call hs hcall hturn
  | add => exact h.add
  | remove hfind => exact h.remove hfind hd
  | suppress hfind => exact h.suppress hfind hd

theorem Inv.step {w w' : World α} (h : Inv w) (hstep : Step w w') : Inv w' := by
  cases hstep with
  | act hact hd => exact h.act hact hd
  | package hs hrun => exact h.package hs hrun
  | run hnext hlength hchange hfirst => exact h.run hnext hlength hchange hfirst

/-! ## Whole runs -/

/-- A notifier without callbacks that has not run. -/
def World.begin : World α := ⟨.create, [], false, []⟩

theorem inv_begin : Inv (World.begin : World α) :=
  ⟨List.nodup_nil, Nat.zero_le _, fun hne => absurd rfl hne, rfl,
    fun k c cb hc => by simp [World.begin] at hc,
    fun _ => ⟨rfl, fun c hc => (by cases hc)⟩, fun hs => by cases hs⟩

theorem Inv.reachable {w w' : World α} (h : Inv w) (hrun : Relation.ReflTransGen Step w w') :
    Inv w' := by
  induction hrun with
  | refl => exact h
  | tail _ hstep ih => exact ih.step hstep

/-- What a client learns when its callback is called. -/
structure Learns (c : Client α) (changes : CollectionChangeSet) (s : Span α) : Prop where
  first : s.first = c.shown
  shown : c.call.shown = s.last
  exact : ∃ b, Exact s b ∧ changes = b.finalize

/-- Nothing has become of the list. -/
structure Span.Same (s : Span α) : Prop where
  last : s.last = s.first
  untouched : ∀ x ∈ s.first, ¬ s.touched x

/-- The next turn of the loop calls the next callback, or passes it over. -/
theorem Inv.turn {w : World α} (h : Inv w) (hs : w.sending = true) :
    ∃ n turn, w.notifier.callNext = some (n, turn) ∧ (turn ≠ .done → ∃ c cb s,
      w.clients[increment w.notifier.callbackIndex]? = some c ∧
      w.notifier.callbacks[increment w.notifier.callbackIndex]? = some cb ∧
      c.due = some s ∧ Learns c cb.changesToDeliver s ∧
      (turn = .called cb.token cb.changesToDeliver ∨ turn = .passed ∧ s.Same)) := by
  rcases h.callNext hs with ⟨c, cb, s, changes, turn, hc, hcb, hdue, -, hturn, hnext⟩ | ⟨-, hnext⟩
  · obtain ⟨hfirst, hlast, b, hexact, hb⟩ := (h.knows _ c cb hc hcb).due s hdue
    refine ⟨_, turn, hnext, fun _ => ⟨c, cb, s, hc, hcb, hdue, ⟨hfirst, ?_, b, hexact, hb⟩, ?_⟩⟩
    · simp [Client.call, hdue]
    · apply hturn.imp_right
      rintro ⟨hpassed, -, hempty⟩
      have hnothing := isEmpty_of_finalize (hb ▸ hempty)
      exact ⟨hpassed, hexact.eq_of_isEmpty hnothing, hexact.untouched_of_isEmpty hnothing⟩
  · exact ⟨_, _, hnext, fun hturn => absurd rfl hturn⟩

/-- Between deliveries every client knows the list from which its next changes are accumulated. -/
theorem Inv.between {w : World α} (h : Inv w) (hs : w.sending = false) {k : Nat} {c : Client α}
    {cb : Callback} (hc : w.clients[k]? = some c) (hcb : w.notifier.callbacks[k]? = some cb) :
    c.pending.first = c.shown ∧ c.pending.last = w.list ∧
      Exact c.pending cb.accumulatedChanges := by
  have hk := h.knows k c cb hc hcb
  exact ⟨(hk.first ((h.quiet hs).2 c (List.mem_of_getElem? hc))).symm, hk.last, hk.pending⟩

/-- The next run counts in sets of one chunk only. -/
theorem Inv.counted {w : World α} (h : Inv w) {next : List α} {touched : α → Prop}
    {ordered : Prop} {change : CollectionChangeBuilder}
    (hlength : next.length ≤ 2 * RangeChunks.maxSize)
    (hchange : Exact ⟨w.list, [], next, touched, ordered⟩ change) {cb : Callback}
    (hcb : cb ∈ w.notifier.callbacks) : Counted cb.accumulatedChanges change := by
  obtain ⟨k, hk⟩ := List.getElem?_of_mem hcb
  have hlt : k < w.clients.length := h.length ▸ (List.getElem?_eq_some_iff.mp hk).1
  have hknows := h.knows k _ cb (List.getElem?_eq_getElem hlt) hk
  have hfits := hknows.pending.fits
  rw [hknows.last] at hfits
  exact hfits.counted hchange.fits hknows.length h.short hlength

/-- In any interleaving that is allowed the loop stays within the callbacks. A callback is told
exactly what has become of the list that it knows, and for one that is passed over nothing has. When
the loop is over every callback knows the list from which its next changes are accumulated. At any
time the change set of a next run is merged by counting in sets of one chunk. -/
theorem callbacks_learn {w : World α} (hw : Relation.ReflTransGen Step .begin w) :
    (w.sending = true → ∃ n turn, w.notifier.callNext = some (n, turn) ∧
      (turn ≠ .done → ∃ c cb s, w.clients[increment w.notifier.callbackIndex]? = some c ∧
        w.notifier.callbacks[increment w.notifier.callbackIndex]? = some cb ∧
        c.due = some s ∧ Learns c cb.changesToDeliver s ∧
        (turn = .called cb.token cb.changesToDeliver ∨ turn = .passed ∧ s.Same))) ∧
      (w.sending = false → ∀ (k : Nat) c cb, w.clients[k]? = some c →
        w.notifier.callbacks[k]? = some cb →
        c.pending.first = c.shown ∧ c.pending.last = w.list ∧
          Exact c.pending cb.accumulatedChanges) ∧
      ∀ next touched ordered change, next.length ≤ 2 * RangeChunks.maxSize →
        Exact ⟨w.list, [], next, touched, ordered⟩ change → ∀ cb ∈ w.notifier.callbacks,
        Counted cb.accumulatedChanges change := by
  have h := (inv_begin (α := α)).reachable hw
  refine ⟨h.turn, fun hs k c cb hc hcb => h.between hs hc hcb, ?_⟩
  intro next touched ordered change hlength hchange cb hcb
  exact h.counted hlength hchange hcb

/-- The first delivery to a callback that was there when the notifier first ran. -/
theorem callbacks_learn_first :
    let w : World Nat := ⟨((CollectionNotifier.create.addCallback).prepareHandover
      empty).packageForDelivery, [5, 7], true, [⟨[5, 7], some (.still [5, 7]), .still [5, 7]⟩]⟩
    Relation.ReflTransGen Step .begin w ∧ ∃ n turn, w.notifier.callNext = some (n, turn) ∧
      (turn ≠ .done → ∃ c cb s, w.clients[increment w.notifier.callbackIndex]? = some c ∧
        w.notifier.callbacks[increment w.notifier.callbackIndex]? = some cb ∧
        c.due = some s ∧ Learns c cb.changesToDeliver s ∧
        (turn = .called cb.token cb.changesToDeliver ∨ turn = .passed ∧ s.Same)) := by
  intro w
  have hadd : Step (World.begin : World Nat) ⟨CollectionNotifier.create.addCallback, [], false,
      [.arrive []]⟩ := .act .add trivial
  have hrun : Step (⟨CollectionNotifier.create.addCallback, [], false, [.arrive []]⟩ : World Nat)
      ⟨(CollectionNotifier.create.addCallback).prepareHandover empty, [5, 7], false,
        [.arrive [5, 7]]⟩ :=
    @Step.run Nat _ _ (fun _ => False) True _ (by decide) (by decide) (fun h => by cases h)
      fun _ => rfl
  have hreach : Relation.ReflTransGen Step .begin w :=
    ((Relation.ReflTransGen.single hadd).tail hrun).tail (.package rfl rfl)
  exact ⟨hreach, (callbacks_learn hreach).1 rfl⟩

/-- A callback that is added and removed during a delivery is counted out although it has not been
counted in: with the first one removed as well, the loop reads behind the callbacks. -/
example :
    let n := (CollectionNotifier.create.addCallback.prepareHandover empty).packageForDelivery
    n.callNext.map (fun next => (((next.1.addCallback).removeCallback 1).removeCallback 0).callNext)
      = some none := rfl

end CollectionNotifiers
