import RandomUserClient.ResultsNotifier

/-!
# From commits to callbacks

Whatever is committed between two deliveries, a callback is told what has become
of the objects that it knows, and the rows that its results have been given are
those that the change set leads to. The versions of the file are only known to
the worker; what it hands over may be several commits old when it is delivered.
-/

namespace ResultsNotifiers

open CollectionChangeBuilders CollectionChangeBuilder TransactLogs CollectionNotifiers
  DeepChangeChecking

variable {ι : Type}

/-! ## The system -/

/-- A notifier with what its worker has read: the sizes of the tables and the objects of the table
of the query. The rows that the results have been given are of the objects of `shown`. -/
structure System (ι : Type) where
  notifier : ResultsNotifier
  sizes : Nat → Nat
  ids : List ι
  sending : Bool
  clients : List (Client ι)
  shown : List ι

namespace System

/-- The objects of the last run of the query. -/
def list (s : System ι) : List ι := objects s.ids s.notifier.previousRows

def world (s : System ι) : World ι :=
  ⟨s.notifier.toCollectionNotifier, s.list, s.sending, s.clients⟩

/-- The worker reads a log, runs the query if need be and hands the changes over. -/
def commit (s : System ι) (c : Commit ι) : System ι :=
  let n := s.notifier.run (c.info s.notifier) c.tables c.query
  let list := objects c.ids n.previousRows
  { s with
    notifier := n.prepareHandover
    sizes := fun tbl => (c.group.rows tbl).length
    ids := c.ids
    clients := (s.world.run list (c.touched s.notifier)
      (s.notifier.InTableOrder ∨ SameOrder s.list list) n.changes).clients }

/-- A delivery begins: the results are given their rows before any callback is called. -/
def deliver (s : System ι) : System ι :=
  let n := s.notifier.packageForDelivery
  { s with
    notifier := n.deliver
    sending := true
    clients := s.clients.map Client.package
    shown := (n.tvToDeliver.map (objects s.ids)).getD s.shown }

/-- What a client has done, or the loop over the callbacks. -/
def acted (s : System ι) (w : World ι) : System ι :=
  { s with
    notifier := { s.notifier with toCollectionNotifier := w.notifier }
    sending := w.sending
    clients := w.clients }

/-- The results have been used. -/
def used (s : System ι) : System ι :=
  { s with notifier := { s.notifier with
      targetResults := { s.notifier.targetResults with hasUsedTableView := true } } }

end System

/-- A commit that the worker reads while somebody listens; the version of the table tells it if the
query has to be run again. The results are short enough for sets of one chunk. -/
structure Commit.Next (c : Commit ι) (s : System ι) : Prop where
  valid : c.Valid s.notifier s.sizes s.ids
  attached : c.query.isSome = true
  short : ∀ query, c.query = some query → query.rows.length ≤ 2 * RangeChunks.maxSize
  listens : s.notifier.haveCallbacks = true ∨
    s.notifier.targetResults.wantsBackgroundUpdates = true
  version : ∀ query, c.query = some query → s.notifier.hasRun = true →
    s.notifier.lastSeenVersion = some query.version →
    c.ids = s.ids ∧ query.rows = s.notifier.previousRows ∧ ∀ x, ¬ c.touched s.notifier x

inductive SystemStep : System ι → System ι → Prop where
  | commit {s : System ι} {c : Commit ι} (h : c.Next s) : SystemStep s (s.commit c)
  | deliver {s : System ι} (hsending : s.sending = false)
      (hrun : s.notifier.hasRun = true) : SystemStep s s.deliver
  | act {s : System ι} {w : World ι} {d : Deed} (h : Act d s.world w) (hd : s.world.Allows d) :
      SystemStep s (s.acted w)
  | use {s : System ι} : SystemStep s s.used

/-- A client has nothing to learn but what leads to the objects that the results show. -/
def Client.Leads (c : Client ι) (shown : List ι) : Prop :=
  ∀ s, c.due = some s → s.last = shown ∨ ∃ l, s = .still l

/-- What holds between any two steps. -/
structure Good (s : System ι) : Prop where
  inv : Inv s.world
  ids : s.ids.Nodup
  previous : s.notifier.Previous s.ids
  changes : s.notifier.changes = empty
  tv : s.notifier.tv = none
  handover : ∀ rows, s.notifier.tvHandover = some rows → rows = s.notifier.previousRows
  shown : s.notifier.tvHandover = none → s.notifier.hasRun = true → s.shown = s.list
  due : ∀ c ∈ s.clients, Client.Leads c s.shown

/-! ## One commit -/

namespace ResultsNotifier

theorem calculateChanges_eq (n : ResultsNotifier) (info : TransactionChangeInfo) (tables : Tables)
    (rows : List Nat) : n.calculateChanges info tables rows = { n with
      changes := (n.calculateChanges info tables rows).changes
      previousRows := rows } := by
  rw [calculateChanges]
  split <;> rfl

/-- The query is run again, or nothing happens. -/
theorem run_eq (n : ResultsNotifier) (info : TransactionChangeInfo) (tables : Tables)
    (query : QueryRun) : n.run info tables (some query) =
      if n.needToRun query.version then { n with
        tv := some query.rows
        lastSeenVersion := some query.version
        changes := (n.calculateChanges info tables query.rows).changes
        previousRows := query.rows }
      else n := by
  rw [run]
  cases n.needToRun query.version with
  | false => rfl
  | true =>
    have hsame : ({ n with
        tv := some query.rows
        lastSeenVersion := some query.version }.calculateChanges info tables query.rows).changes =
        (n.calculateChanges info tables query.rows).changes := by
      rw [calculateChanges, calculateChanges]
      split <;> rfl
    rw [if_neg (by simp), if_pos rfl, calculateChanges_eq, hsame]

/-- Nothing is calculated before the first run. -/
theorem changes_first {n : ResultsNotifier} (hrun : n.hasRun = false)
    (info : TransactionChangeInfo) (tables : Tables) (rows : List Nat) :
    (n.calculateChanges info tables rows).changes = n.changes := by
  rw [calculateChanges, if_neg (by simp [hrun])]

end ResultsNotifier

theorem toCollectionNotifier_run (n : ResultsNotifier) (info : TransactionChangeInfo)
    (tables : Tables) (query : QueryRun) :
    (n.run info tables (some query)).toCollectionNotifier = n.toCollectionNotifier := by
  rw [n.run_eq]
  split <;> rfl

/-- Without a new version there is nothing new. -/
theorem Commit.Next.same {c : Commit ι} {s : System ι} (h : c.Next s) {query : QueryRun}
    (hquery : c.query = some query) (hneed : s.notifier.needToRun query.version = false) :
    s.notifier.hasRun = true ∧ c.ids = s.ids ∧ query.rows = s.notifier.previousRows ∧
      ∀ x, ¬ c.touched s.notifier x := by
  rw [ResultsNotifier.needToRun] at hneed
  split at hneed
  · rename_i hnobody
    rw [Bool.and_eq_true, Bool.not_eq_true', Bool.not_eq_true'] at hnobody
    rcases h.listens with hlistens | hlistens
    · rw [hnobody.1] at hlistens
      cases hlistens
    · rw [hnobody.2] at hlistens
      cases hlistens
  · rw [Bool.not_eq_false', Bool.and_eq_true, decide_eq_true_eq] at hneed
    exact ⟨hneed.1, h.version query hquery hneed.1 hneed.2⟩

/-- The rows of a run are rows of the table as it is then. -/
theorem Commit.Next.previous {c : Commit ι} {s : System ι} (h : c.Next s) (hs : Good s) :
    ((s.notifier.run (c.info s.notifier) c.tables c.query).prepareHandover).Previous c.ids := by
  obtain ⟨query, hquery⟩ := Option.isSome_iff_exists.mp h.attached
  rw [hquery, ResultsNotifier.run_eq]
  cases hneed : s.notifier.needToRun query.version with
  | true =>
    obtain ⟨hnodup, hordered, hlt⟩ := h.valid.rows query hquery
    exact ⟨hnodup, hordered, hlt⟩
  | false =>
    obtain ⟨-, hids, -, -⟩ := h.same hquery hneed
    rw [hids]
    exact ⟨hs.previous.nodup, hs.previous.ordered, hs.previous.lt⟩

/-- The change set that is handed over says what has become of the objects. -/
theorem Commit.Next.exact {c : Commit ι} {s : System ι} (h : c.Next s) (hs : Good s)
    (hrun : s.notifier.hasRun = true) (hcallbacks : s.notifier.haveCallbacks = true) :
    let n := s.notifier.run (c.info s.notifier) c.tables c.query
    Exact ⟨s.list, [], objects c.ids n.previousRows, c.touched s.notifier,
      s.notifier.InTableOrder ∨ SameOrder s.list (objects c.ids n.previousRows)⟩ n.changes := by
  obtain ⟨query, hquery⟩ := Option.isSome_iff_exists.mp h.attached
  dsimp only
  rw [hquery, ResultsNotifier.run_eq]
  cases hneed : s.notifier.needToRun query.version with
  | true => exact h.valid.exact hs.ids hrun hcallbacks hs.previous hquery
  | false =>
    obtain ⟨-, hids, -, htouched⟩ := h.same hquery hneed
    rw [if_neg Bool.false_ne_true, hids, hs.changes]
    exact .unchanged (nodup_objects hs.ids hs.previous.nodup) htouched _ rfl

theorem Commit.Next.first {c : Commit ι} {s : System ι} (h : c.Next s) (hs : Good s)
    (hrun : s.notifier.hasRun = false) :
    (s.notifier.run (c.info s.notifier) c.tables c.query).changes = empty := by
  obtain ⟨query, hquery⟩ := Option.isSome_iff_exists.mp h.attached
  rw [hquery, ResultsNotifier.run_eq]
  split
  · dsimp only
    rw [ResultsNotifier.changes_first hrun, hs.changes]
  · exact hs.changes

/-- A commit is a run of the notifier. -/
theorem world_commit {c : Commit ι} {s : System ι} (h : c.Next s) :
    (s.commit c).world = s.world.run
      (objects c.ids (s.notifier.run (c.info s.notifier) c.tables c.query).previousRows)
      (c.touched s.notifier) (s.notifier.InTableOrder ∨ SameOrder s.list
        (objects c.ids (s.notifier.run (c.info s.notifier) c.tables c.query).previousRows))
      (s.notifier.run (c.info s.notifier) c.tables c.query).changes := by
  obtain ⟨query, hquery⟩ := Option.isSome_iff_exists.mp h.attached
  have hbase := toCollectionNotifier_run s.notifier (c.info s.notifier) c.tables query
  rw [← hquery] at hbase
  rw [System.world, System.list, System.commit, World.run]
  dsimp only [ResultsNotifier.prepareHandover]
  rw [hbase]
  rfl

/-- The objects of a run are as many as its rows. -/
theorem Commit.Next.length_le {c : Commit ι} {s : System ι} (h : c.Next s) (hs : Good s) :
    (objects c.ids (s.notifier.run (c.info s.notifier) c.tables c.query).previousRows).length ≤
      2 * RangeChunks.maxSize := by
  obtain ⟨query, hquery⟩ := Option.isSome_iff_exists.mp h.attached
  rw [hquery, ResultsNotifier.run_eq]
  cases hneed : s.notifier.needToRun query.version with
  | true =>
    rw [if_pos rfl, length_objects (h.valid.rows query hquery).2.2]
    exact h.short query hquery
  | false =>
    obtain ⟨-, hids, -, -⟩ := h.same hquery hneed
    rw [if_neg Bool.false_ne_true, hids]
    exact hs.inv.short

theorem step_commit {c : Commit ι} {s : System ι} (h : c.Next s) (hs : Good s) :
    Step s.world (s.commit c).world := by
  have hprevious := h.previous hs
  rw [world_commit h]
  apply Step.run (nodup_objects h.valid.renumbered.nodup hprevious.nodup) (h.length_le hs)
  · intro hrun hcallbacks
    exact h.exact hs hrun (hs.inv.haveCallbacks hcallbacks)
  · exact h.first hs

/-! ## What holds throughout -/

theorem leads_run {hasRun : Bool} {span : Span ι} {c : Client ι} {cb : Callback} {shown : List ι}
    (h : Client.Leads c shown) : Client.Leads (c.run hasRun span cb) shown := by
  rw [Client.run]
  split
  · intro s hs
    cases hs
  · split
    · intro s hs
      obtain ⟨-, -, rfl⟩ := Option.map_eq_some_iff.mp hs
      exact Or.inr ⟨_, rfl⟩
    · exact h

theorem Good.commit {c : Commit ι} {s : System ι} (hs : Good s) (h : c.Next s) :
    Good (s.commit c) := by
  have hstep := step_commit h hs
  have hprevious := h.previous hs
  obtain ⟨query, hquery⟩ := Option.isSome_iff_exists.mp h.attached
  refine ⟨hs.inv.step hstep, h.valid.renumbered.nodup, hprevious, rfl, rfl, ?_, ?_, ?_⟩
  · intro rows
    rw [System.commit]
    dsimp only [ResultsNotifier.prepareHandover]
    rw [hquery, ResultsNotifier.run_eq]
    cases hneed : s.notifier.needToRun query.version with
    | true =>
      intro hrows
      exact (Option.some.inj hrows).symm
    | false =>
      rw [if_neg Bool.false_ne_true, hs.tv]
      exact hs.handover rows
  · intro hhandover _
    rw [System.commit] at hhandover ⊢
    dsimp only [System.list, ResultsNotifier.prepareHandover] at hhandover ⊢
    rw [hquery, ResultsNotifier.run_eq] at hhandover ⊢
    cases hneed : s.notifier.needToRun query.version with
    | true =>
      rw [hneed, if_pos rfl] at hhandover
      cases hhandover
    | false =>
      obtain ⟨hrun, hids, -, -⟩ := h.same hquery hneed
      rw [hneed, if_neg Bool.false_ne_true, hs.tv] at hhandover
      rw [if_neg Bool.false_ne_true, hids]
      exact hs.shown hhandover hrun
  · intro client hclient
    obtain ⟨k, hk⟩ := List.getElem?_of_mem hclient
    rw [System.commit] at hk
    dsimp only [World.run] at hk
    rw [List.getElem?_zipWith_eq_some] at hk
    obtain ⟨client', cb, hclient', -, rfl⟩ := hk
    exact leads_run (hs.due client' (List.mem_of_getElem? hclient'))

/-- The rows that are delivered are those of the last run. -/
theorem Good.shown_deliver {s : System ι} (hs : Good s) (hrun : s.notifier.hasRun = true) :
    s.deliver.shown = s.list := by
  rw [System.deliver]
  dsimp only [ResultsNotifier.packageForDelivery]
  cases hhandover : s.notifier.tvHandover with
  | none => exact hs.shown hhandover hrun
  | some rows =>
    rw [hs.handover rows hhandover]
    rfl

theorem deliver_eq (n : ResultsNotifier) : n.deliver = { n with
    targetResults := (n.tvToDeliver.map n.targetResults.setTableView).getD n.targetResults
    tvToDeliver := none } := by
  obtain ⟨base, tableNdx, relatedTables, targetResults, inOrder, sorts, version, previous, changes,
    tv, handover, toDeliver⟩ := n
  cases toDeliver <;> rfl

theorem world_deliver (s : System ι) : s.deliver.world = s.world.package := by
  rw [System.world, System.deliver, deliver_eq]
  rfl

theorem Good.deliver {s : System ι} (hs : Good s) (hsending : s.sending = false)
    (hrun : s.notifier.hasRun = true) : Good s.deliver := by
  have hshown := hs.shown_deliver hrun
  have hworld := world_deliver s
  refine ⟨?_, hs.ids, ?_, ?_, ?_, ?_, ?_, ?_⟩
  · rw [hworld]
    exact hs.inv.package hsending hrun
  · rw [System.deliver, deliver_eq]
    exact ⟨hs.previous.nodup, hs.previous.ordered, hs.previous.lt⟩
  · rw [System.deliver, deliver_eq]
    exact hs.changes
  · rw [System.deliver, deliver_eq]
    exact hs.tv
  · intro rows hrows
    rw [System.deliver, deliver_eq] at hrows
    cases hrows
  · intro _ _
    have hlist : s.deliver.list = s.list := congrArg World.list hworld
    rw [hshown, hlist]
  · intro client hclient span hspan
    left
    rw [hshown]
    obtain ⟨client', hclient', rfl⟩ := List.mem_map.mp hclient
    obtain ⟨k, hk⟩ := List.getElem?_of_mem hclient'
    obtain rfl := Option.some.inj hspan
    have hlength : s.clients.length = s.notifier.callbacks.length := hs.inv.length
    have hlt : k < s.notifier.callbacks.length :=
      hlength ▸ (List.getElem?_eq_some_iff.mp hk).1
    exact (hs.inv.knows k client' _ hk (List.getElem?_eq_getElem hlt)).last

theorem hasRun_callNext {n n' : CollectionNotifier} {turn : Turn}
    (h : n.callNext = some (n', turn)) : n'.hasRun = n.hasRun := by
  rw [CollectionNotifier.callNext] at h
  dsimp only at h
  split at h
  · split at h
    · cases h
    · split at h <;> (cases h; rfl)
  · cases h
    rfl

/-- The clients and the loop change neither the list nor anything of the run. -/
theorem act_same {w w' : World ι} {d : Deed} (h : Act d w w') :
    w'.list = w.list ∧ w'.notifier.hasRun = w.notifier.hasRun := by
  cases h with
  | done _ hcall => exact ⟨rfl, hasRun_callNext hcall⟩
  | call _ hcall _ => exact ⟨rfl, hasRun_callNext hcall⟩
  | add => exact ⟨rfl, rfl⟩
  | remove _ =>
    refine ⟨rfl, ?_⟩
    dsimp only
    rw [CollectionNotifier.removeCallback]
    split <;> rfl
  | suppress _ =>
    refine ⟨rfl, ?_⟩
    dsimp only
    rw [CollectionNotifier.suppressNextNotification]
    split <;> rfl

theorem leads_act {w w' : World ι} {d : Deed} (h : Act d w w') {shown : List ι}
    (hw : ∀ c ∈ w.clients, Client.Leads c shown) : ∀ c ∈ w'.clients, Client.Leads c shown := by
  cases h with
  | done _ _ => exact hw
  | call _ _ _ =>
    intro c hc
    obtain ⟨k, hk⟩ := List.getElem?_of_mem hc
    rw [List.getElem?_modify, Option.map_eq_map, Option.map_eq_some_iff] at hk
    obtain ⟨c', hc', rfl⟩ := hk
    split
    · intro s hs
      cases hs
    · exact hw c' (List.mem_of_getElem? hc')
  | add =>
    intro c hc
    rcases List.mem_append.mp hc with hc | hc
    · exact hw c hc
    · rw [List.mem_singleton.mp hc]
      intro s hs
      cases hs
  | remove _ =>
    intro c hc
    exact hw c (List.mem_of_mem_eraseIdx hc)
  | suppress _ => exact hw

theorem Good.acted {s : System ι} (hs : Good s) {w : World ι} {d : Deed} (h : Act d s.world w)
    (hd : s.world.Allows d) : Good (s.acted w) := by
  obtain ⟨hlist, hrun⟩ := act_same h
  have hworld : (s.acted w).world = w := by
    obtain ⟨notifier, list, sending, clients⟩ := w
    obtain rfl : list = s.list := hlist
    rfl
  refine ⟨?_, hs.ids, ⟨hs.previous.nodup, hs.previous.ordered, hs.previous.lt⟩, hs.changes, hs.tv,
    hs.handover, ?_, leads_act h hs.due⟩
  · rw [hworld]
    exact hs.inv.act h hd
  · intro hhandover hrun'
    exact hs.shown hhandover (hrun.symm.trans hrun')

theorem Good.used {s : System ι} (hs : Good s) : Good s.used :=
  ⟨hs.inv, hs.ids, ⟨hs.previous.nodup, hs.previous.ordered, hs.previous.lt⟩, hs.changes, hs.tv,
    hs.handover, hs.shown, hs.due⟩

theorem Good.step {s s' : System ι} (hs : Good s) (h : SystemStep s s') : Good s' := by
  cases h with
  | commit hc => exact hs.commit hc
  | deliver hsending hrun => exact hs.deliver hsending hrun
  | act hact hd => exact hs.acted hact hd
  | use => exact hs.used

/-! ## Whole runs -/

/-- A notifier that has not run. -/
def ResultsNotifier.create (tableNdx : Nat) (relatedTables : List RelatedTable)
    (targetIsInTableOrder willApplySort : Bool) : ResultsNotifier :=
  ⟨.create, tableNdx, relatedTables, ⟨none, false, true⟩, targetIsInTableOrder, willApplySort, none,
    [], empty, none, none, none⟩

def System.begin (n : ResultsNotifier) (sizes : Nat → Nat) (ids : List ι) : System ι :=
  ⟨n, sizes, ids, false, [], []⟩

theorem Good.reachable {s s' : System ι} (hs : Good s)
    (h : Relation.ReflTransGen SystemStep s s') : Good s' := by
  induction h with
  | refl => exact hs
  | tail _ hstep ih => exact ih.step hstep

end ResultsNotifiers
