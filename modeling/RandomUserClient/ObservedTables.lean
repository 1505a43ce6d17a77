import RandomUserClient.ResultsDelivery
import RandomUserClient.DeliveredBatches

/-!
# Tables that show results

A screen observes results and shows them in a table view. Its table is loaded
when the observer is first called, and updated with the batch of each later
call; in between, cells are made for rows from the results. However commits,
deliveries and the doings of the screens come one after the other, every batch
fits the table that it is for, and its cells are those of the objects that the
results have by then.
-/

namespace ObservedTables

open CollectionChangeBuilders CollectionChangeBuilder CollectionNotifiers ListBatches
  DeliveredBatches DeepChangeChecking ResultsNotifiers

variable {ι : Type}

/-! ## The screens -/

/-- A table view with the `skip` of the block that its screen has added; `none` is a row whose cell
has not been made. -/
structure ObservedTable (ι : Type) where
  skip : Bool
  rows : List (Option ι)

/-- The observer: `reloadData`, or the updates between `beginUpdates` and `endUpdates`. -/
def observe (rows : List (Option ι)) (shown : List ι) : RealmCollectionChange → List (Option ι)
  | .initial => List.replicate shown.length none
  | .update batch => batch.apply shown.length rows

namespace ObservedTable

def turn (t : ObservedTable ι) (shown : List ι) : Turn → ObservedTable ι
  | .called _ changes =>
    let called := notificationBlock t.skip changes
    ⟨called.2, observe t.rows shown called.1⟩
  | _ => t

/-- The cell of a row is made. -/
def cellForRow (t : ObservedTable ι) (shown : List ι) (row : Nat) : ObservedTable ι :=
  { t with rows := t.rows.set row shown[row]? }

end ObservedTable

/-- The tables in the order of their callbacks. -/
structure Screens (ι : Type) where
  system : System ι
  tables : List (ObservedTable ι)

/-- No screen writes without being notified, and none that begins to observe during a delivery stops
during the same one. -/
inductive ScreenStep : Screens ι → Screens ι → Prop where
  | commit {s : Screens ι} {c : Commit ι} (h : c.Next s.system) :
      ScreenStep s ⟨s.system.commit c, s.tables⟩
  | deliver {s : Screens ι} (hsending : s.system.sending = false)
      (hrun : s.system.notifier.hasRun = true) : ScreenStep s ⟨s.system.deliver, s.tables⟩
  | done {s : Screens ι} {n : CollectionNotifier} (hsending : s.system.sending = true)
      (hcall : s.system.notifier.callNext = some (n, .done)) : ScreenStep s
      ⟨s.system.acted ⟨n, s.system.list, false, s.system.clients⟩, s.tables⟩
  | call {s : Screens ι} {n : CollectionNotifier} {turn : Turn}
      (hsending : s.system.sending = true)
      (hcall : s.system.notifier.callNext = some (n, turn)) (hturn : turn ≠ .done) : ScreenStep s
      ⟨s.system.acted ⟨n, s.system.list, true,
        s.system.clients.modify (increment s.system.notifier.callbackIndex) Client.call⟩,
        s.tables.modify (increment s.system.notifier.callbackIndex)
          fun t => t.turn s.system.shown turn⟩
  | observe {s : Screens ι} : ScreenStep s
      ⟨s.system.acted ⟨s.system.notifier.addCallback, s.system.list, s.system.sending,
        s.system.clients ++ [.arrive s.system.list]⟩, s.tables ++ [⟨true, []⟩]⟩
  | invalidate {s : Screens ι} {token idx : Nat}
      (hfind : s.system.notifier.findCallback token = some idx)
      (hallows : s.system.world.Allows (.remove token)) : ScreenStep s
      ⟨s.system.acted ⟨s.system.notifier.removeCallback token, s.system.list, s.system.sending,
        s.system.clients.eraseIdx idx⟩, s.tables.eraseIdx idx⟩
  -- a cell is made for the results as they are between deliveries
  | cell {s : Screens ι} (k row : Nat) (hsending : s.system.sending = false) :
      ScreenStep s ⟨s.system, s.tables.modify k fun t => t.cellForRow s.system.shown row⟩
  | use {s : Screens ι} : ScreenStep s ⟨s.system.used, s.tables⟩

/-- What the tables do is nothing to the notifier. -/
theorem ScreenStep.system {s s' : Screens ι} (h : ScreenStep s s') :
    SystemStep s.system s'.system ∨ s'.system = s.system := by
  cases h with
  | commit h => exact Or.inl (.commit h)
  | deliver hsending hrun => exact Or.inl (.deliver hsending hrun)
  | done hsending hcall => exact Or.inl (.act (.done hsending hcall) trivial)
  | call hsending hcall hturn => exact Or.inl (.act (.call hsending hcall hturn) trivial)
  | observe => exact Or.inl (.act .add trivial)
  | invalidate hfind hallows => exact Or.inl (.act (.remove hfind) hallows)
  | cell k row hsending => exact Or.inr rfl
  | use => exact Or.inl .use

/-! ## One table -/

/-- What is known of a table, its callback and what its client knows. -/
structure Watches (hasRun : Bool) (shown : List ι) (c : Client ι) (cb : Callback)
    (t : ObservedTable ι) : Prop where
  told : cb.skipNext = false
  first : t.skip = !cb.initialDelivered
  run : hasRun = false → cb.initialDelivered = false
  leads : ∀ span, c.due = some span → span.last = shown
  shows : t.skip = false → Shows t.rows c.shown ∧ (c.due = none → c.shown = shown)

theorem Watches.of_run {hasRun : Bool} {shown : List ι} {c : Client ι} {cb : Callback}
    {t : ObservedTable ι} (h : Watches hasRun shown c cb t) (span : Span ι)
    (change : CollectionChangeBuilder) :
    Watches true shown (c.run hasRun span cb)
      (if cb.skipNext then { cb with skipNext := false }
        else { cb with accumulatedChanges := cb.accumulatedChanges.merge change }) t := by
  obtain ⟨htold, hfirst, hrun, hleads, hshows⟩ := h
  have hnot : ¬ cb.skipNext = true := by
    rw [htold]
    exact Bool.false_ne_true
  rw [Client.run, if_neg hnot, if_neg hnot]
  cases hasRun with
  | false =>
    refine ⟨htold, hfirst, fun h => (by cases h), fun span h => (by cases h), fun hskip => ?_⟩
    rw [hfirst, hrun rfl] at hskip
    cases hskip
  | true =>
    rw [if_neg (by simp)]
    exact ⟨htold, hfirst, fun h => (by cases h), hleads, hshows⟩

theorem Watches.package {hasRun : Bool} {shown shown' : List ι} {c : Client ι} {cb : Callback}
    {t : ObservedTable ι} (h : Watches hasRun shown c cb t) (hlast : c.pending.last = shown') :
    Watches hasRun shown' c.package { cb with
      changesToDeliver := cb.accumulatedChanges.finalize
      accumulatedChanges := empty } t := by
  refine ⟨h.told, h.first, h.run, fun span hspan => ?_, fun hskip => ⟨(h.shows hskip).1, ?_⟩⟩
  · rw [← Option.some.inj hspan]
    exact hlast
  · intro hdue
    cases hdue

/-- The table after its observer has been called, or passed over. -/
theorem Watches.call {hasRun : Bool} {shown : List ι} {c : Client ι} {cb : Callback}
    {t : ObservedTable ι} (h : Watches hasRun shown c cb t) (hrun : hasRun = true)
    {span : Span ι} {b : CollectionChangeBuilder} {turn : Turn} (changes : CollectionChangeSet)
    (hdue : c.due = some span) (hspan : span.first = c.shown) (hexact : Exact span b)
    (hb : cb.changesToDeliver = b.finalize)
    (hturn : turn = .called cb.token cb.changesToDeliver ∨
      turn = .passed ∧ cb.initialDelivered = true ∧ isEmptyChangeSet cb.changesToDeliver = true) :
    Watches hasRun shown c.call { cb with
      initialDelivered := true
      changesToDeliver := changes } (t.turn shown turn) := by
  have hshown : c.call.shown = shown := by
    rw [← h.leads span hdue, Client.call, hdue]
    rfl
  have hlater : (t.turn shown turn).skip = false → Shows (t.turn shown turn).rows shown →
      Watches hasRun shown c.call { cb with
        initialDelivered := true
        changesToDeliver := changes } (t.turn shown turn) := fun hskip hshows =>
    ⟨h.told, hskip, fun hnot => absurd hrun (by simp [hnot]), fun span hspan => (by cases hspan),
      fun _ => ⟨hshown ▸ hshows, fun _ => hshown⟩⟩
  rcases hturn with rfl | ⟨rfl, hdelivered, hempty⟩
  · cases hskip : t.skip with
    | true =>
      apply hlater <;> rw [ObservedTable.turn, notificationBlock, hskip]
      · rfl
      · exact shows_replicate shown
    | false =>
      have hrows := (h.shows hskip).1
      rw [← hspan] at hrows
      have hshows := Exact.shows hexact hrows
      rw [← hb, h.leads span hdue] at hshows
      cases hempty : isEmptyChangeSet cb.changesToDeliver with
      | true =>
        apply hlater <;> rw [ObservedTable.turn, notificationBlock, hskip, hempty]
        · rfl
        · exact shows_replicate shown
      | false =>
        apply hlater <;> rw [ObservedTable.turn, notificationBlock, hskip, hempty]
        · rfl
        · exact hshows
  · have hskip : t.skip = false := by
      rw [h.first, hdelivered]
      rfl
    apply hlater hskip
    -- there was nothing to learn
    have hsame := hexact.eq_of_isEmpty (isEmpty_of_finalize (hb ▸ hempty))
    rw [← h.leads span hdue, hsame, hspan]
    exact (h.shows hskip).1

theorem Watches.cell {hasRun : Bool} {shown : List ι} {c : Client ι} {cb : Callback}
    {t : ObservedTable ι} (h : Watches hasRun shown c cb t) (hdue : c.due = none) (row : Nat) :
    Watches hasRun shown c cb (t.cellForRow shown row) := by
  refine ⟨h.told, h.first, h.run, h.leads, fun hskip => ?_⟩
  obtain ⟨hshows, hshown⟩ := h.shows hskip
  refine ⟨⟨?_, fun j x hj => ?_⟩, hshown⟩
  · exact (List.length_set).trans hshows.length
  · rw [ObservedTable.cellForRow, List.getElem?_set] at hj
    split at hj
    · rename_i heq
      split at hj
      · rw [← heq, hshown hdue]
        exact Option.some.inj hj
      · cases hj
    · exact hshows.cells j x hj

/-! ## All of them -/

/-- What holds between any two steps. -/
structure Followed (s : Screens ι) : Prop where
  good : Good s.system
  length : s.tables.length = s.system.clients.length
  watches : ∀ (k : Nat) c cb t, s.system.clients[k]? = some c →
    s.system.notifier.callbacks[k]? = some cb → s.tables[k]? = some t →
    Watches s.system.notifier.hasRun s.system.shown c cb t

variable {s : Screens ι}

theorem Followed.commit (hs : Followed s) {c : Commit ι} (h : c.Next s.system) :
    Followed ⟨s.system.commit c, s.tables⟩ := by
  have hworld := world_commit h
  have hclients := congrArg World.clients hworld
  have hcallbacks := congrArg (fun w => w.notifier.callbacks) hworld
  have hrun := congrArg (fun w => w.notifier.hasRun) hworld
  dsimp only [System.world, World.run, CollectionNotifier.prepareHandover,
    CollectionNotifier.addChanges] at hclients hcallbacks hrun
  have hlength := hs.good.inv.length
  dsimp only [System.world] at hlength
  refine ⟨hs.good.commit h, ?_, fun k c' cb' t hc' hcb' ht => ?_⟩
  · dsimp only
    rw [hclients, List.length_zipWith, hlength, Nat.min_self, hs.length, hlength]
  · dsimp only at hc' hcb' ⊢
    rw [hclients, List.getElem?_zipWith_eq_some] at hc'
    obtain ⟨c, cb, hc, hcb, rfl⟩ := hc'
    rw [hcallbacks, List.getElem?_map, hcb, Option.map_some, Option.some.injEq] at hcb'
    rw [← hcb', hrun]
    exact (hs.watches k c cb t hc hcb ht).of_run _ _

theorem Followed.deliver (hs : Followed s) (hsending : s.system.sending = false)
    (hrun : s.system.notifier.hasRun = true) : Followed ⟨s.system.deliver, s.tables⟩ := by
  have hworld := world_deliver s.system
  have hclients := congrArg World.clients hworld
  have hcallbacks := congrArg (fun w => w.notifier.callbacks) hworld
  have hsame := congrArg (fun w => w.notifier.hasRun) hworld
  dsimp only [System.world, World.package, CollectionNotifier.packageForDelivery]
    at hclients hcallbacks hsame
  refine ⟨hs.good.deliver hsending hrun, ?_, fun k c' cb' t hc' hcb' ht => ?_⟩
  · dsimp only
    rw [hclients, List.length_map, hs.length]
  · dsimp only at hc' hcb' ⊢
    rw [hclients, List.getElem?_map, Option.map_eq_some_iff] at hc'
    obtain ⟨c, hc, rfl⟩ := hc'
    rw [hcallbacks, List.getElem?_map, Option.map_eq_some_iff] at hcb'
    obtain ⟨cb, hcb, rfl⟩ := hcb'
    rw [hsame]
    apply (hs.watches k c cb t hc hcb ht).package
    rw [hs.good.shown_deliver hrun]
    exact (hs.good.inv.knows k c cb hc hcb).last

theorem Followed.done (hs : Followed s) {n : CollectionNotifier}
    (hsending : s.system.sending = true)
    (hcall : s.system.notifier.callNext = some (n, .done)) :
    Followed ⟨s.system.acted ⟨n, s.system.list, false, s.system.clients⟩, s.tables⟩ := by
  have hgood := hs.good.acted (.done hsending hcall) trivial
  rcases hs.good.inv.callNext hsending with ⟨c, cb, span, changes, turn, -, -, -, -, hturn, hnext⟩ |
    ⟨-, hnext⟩
  · cases hcall.symm.trans hnext
    rcases hturn with hturn | ⟨hturn, -⟩ <;> cases hturn
  · cases hcall.symm.trans hnext
    exact ⟨hgood, hs.length, hs.watches⟩

theorem Followed.call (hs : Followed s) {n : CollectionNotifier} {turn : Turn}
    (hsending : s.system.sending = true)
    (hcall : s.system.notifier.callNext = some (n, turn)) (hturn : turn ≠ .done) :
    Followed ⟨s.system.acted ⟨n, s.system.list, true,
      s.system.clients.modify (increment s.system.notifier.callbackIndex) Client.call⟩,
      s.tables.modify (increment s.system.notifier.callbackIndex)
        fun t => t.turn s.system.shown turn⟩ := by
  have hgood := hs.good.acted (.call hsending hcall hturn) trivial
  have hrun := (hs.good.inv.sending hsending).1
  rcases hs.good.inv.callNext hsending with
    ⟨c, cb, span, changes, turn', hc, hcb, hdue, -, hcalled, hnext⟩ | ⟨-, hnext⟩
  · cases hcall.symm.trans hnext
    obtain ⟨hfirst, -, b, hexact, hb⟩ := (hs.good.inv.knows _ c cb hc hcb).due span hdue
    refine ⟨hgood, ?_, fun k c' cb' t' hc' hcb' ht' => ?_⟩
    · dsimp only [System.acted]
      rw [List.length_modify, List.length_modify, hs.length]
    · dsimp only [System.acted, System.world] at hc hcb hrun hc' hcb' ht' ⊢
      generalize increment s.system.notifier.callbackIndex = index at *
      rw [List.getElem?_modify, Option.map_eq_map, Option.map_eq_some_iff] at hc' ht'
      rw [List.getElem?_set] at hcb'
      obtain ⟨c₀, hc₀, rfl⟩ := hc'
      obtain ⟨t, ht, rfl⟩ := ht'
      by_cases hk : index = k
      · subst hk
        cases hc.symm.trans hc₀
        rw [if_pos rfl, if_pos (List.getElem?_eq_some_iff.mp hcb).1, Option.some.injEq] at hcb'
        rw [if_pos rfl, if_pos rfl, ← hcb']
        exact (hs.watches index c cb t hc hcb ht).call hrun changes hdue hfirst hexact hb hcalled
      · rw [if_neg hk] at hcb' ⊢
        rw [if_neg hk]
        exact hs.watches k c₀ cb' t hc₀ hcb' ht
  · cases hcall.symm.trans hnext
    exact absurd rfl hturn

/-- An item of a list with one more item behind it. -/
theorem getElem?_concat {α : Type} {l : List α} {x y : α} {k : Nat} :
    (l ++ [x])[k]? = some y ↔ l[k]? = some y ∨ (k = l.length ∧ x = y) := by
  grind

theorem Followed.observe (hs : Followed s) :
    Followed ⟨s.system.acted ⟨s.system.notifier.addCallback, s.system.list, s.system.sending,
      s.system.clients ++ [.arrive s.system.list]⟩, s.tables ++ [⟨true, []⟩]⟩ := by
  refine ⟨hs.good.acted .add trivial, ?_, fun k c cb t hc hcb ht => ?_⟩
  · dsimp only [System.acted]
    rw [List.length_append, List.length_append, hs.length, List.length_singleton,
      List.length_singleton]
  · have hlength := hs.length
    have hlength' := hs.good.inv.length
    dsimp only [System.acted, System.world, CollectionNotifier.addCallback] at hlength' hc hcb ht ⊢
    rw [getElem?_concat] at hc hcb ht
    rcases hc with hc | ⟨hk, rfl⟩
    · have hlt := (List.getElem?_eq_some_iff.mp hc).1
      rw [or_iff_left (by omega)] at hcb ht
      exact hs.watches k c cb t hc hcb ht
    · obtain ⟨-, rfl⟩ := hcb.resolve_left fun h => by
        have := (List.getElem?_eq_some_iff.mp h).1
        omega
      obtain ⟨-, rfl⟩ := ht.resolve_left fun h => by
        have := (List.getElem?_eq_some_iff.mp h).1
        omega
      exact ⟨rfl, rfl, fun _ => rfl, fun span h => (by cases h), fun h => by cases h⟩

theorem Followed.invalidate (hs : Followed s) {token idx : Nat}
    (hfind : s.system.notifier.findCallback token = some idx)
    (hallows : s.system.world.Allows (.remove token)) :
    Followed ⟨s.system.acted ⟨s.system.notifier.removeCallback token, s.system.list,
      s.system.sending, s.system.clients.eraseIdx idx⟩, s.tables.eraseIdx idx⟩ := by
  have hremove : s.system.notifier.removeCallback token = s.system.notifier.removeAt idx := by
    rw [CollectionNotifier.removeCallback, hfind]
  refine ⟨hs.good.acted (.remove hfind) hallows, ?_, fun k c cb t hc hcb ht => ?_⟩
  · dsimp only [System.acted]
    rw [List.length_eraseIdx, List.length_eraseIdx, hs.length]
  · dsimp only [System.acted] at hc hcb ht ⊢
    rw [hremove] at hcb ⊢
    dsimp only [CollectionNotifier.removeAt] at hcb ⊢
    rw [List.getElem?_eraseIdx] at hc hcb ht
    split at hc
    · rename_i hk
      rw [if_pos hk] at hcb ht
      exact hs.watches k c cb t hc hcb ht
    · rename_i hk
      rw [if_neg hk] at hcb ht
      exact hs.watches (k + 1) c cb t hc hcb ht

theorem Followed.cell (hs : Followed s) (k row : Nat) (hsending : s.system.sending = false) :
    Followed ⟨s.system, s.tables.modify k fun t => t.cellForRow s.system.shown row⟩ := by
  refine ⟨hs.good, ?_, fun k' c cb t hc hcb ht => ?_⟩
  · rw [List.length_modify, hs.length]
  · rw [List.getElem?_modify, Option.map_eq_map, Option.map_eq_some_iff] at ht
    obtain ⟨t, ht, rfl⟩ := ht
    have hwatches := hs.watches k' c cb t hc hcb ht
    by_cases hk : k = k'
    · rw [if_pos hk]
      apply hwatches.cell
      exact (hs.good.inv.quiet hsending).2 c (List.mem_of_getElem? hc)
    · rw [if_neg hk]
      exact hwatches

theorem Followed.step {s' : Screens ι} (hs : Followed s) (h : ScreenStep s s') : Followed s' := by
  cases h with
  | commit h => exact hs.commit h
  | deliver hsending hrun => exact hs.deliver hsending hrun
  | done hsending hcall => exact hs.done hsending hcall
  | call hsending hcall hturn => exact hs.call hsending hcall hturn
  | observe => exact hs.observe
  | invalidate hfind hallows => exact hs.invalidate hfind hallows
  | cell k row hsending => exact hs.cell k row hsending
  | use => exact ⟨hs.good.used, hs.length, hs.watches⟩

/-! ## Whole runs -/

theorem Followed.reachable {s' : Screens ι} (hs : Followed s)
    (h : Relation.ReflTransGen ScreenStep s s') : Followed s' := by
  induction h with
  | refl => exact hs
  | tail _ hstep ih => exact ih.step hstep

/-- Nobody observes the results yet. -/
def Screens.begin (n : ResultsNotifier) (sizes : Nat → Nat) (ids : List ι) : Screens ι :=
  ⟨.begin n sizes ids, []⟩

end ObservedTables
