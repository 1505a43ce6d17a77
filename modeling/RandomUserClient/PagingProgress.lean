import Mathlib.Data.Finset.Card
import RandomUserClient.LoadMoreHandler
import RandomUserClient.SequentialRounds

/-!
# Paging progress

There is no cursor: the page of a load-more is the number of stored users
divided by ten, plus one. So the list gets on to the next page exactly when an
answer fills up the page that the count was in, that is, when it brings as many
ids as are missing there and are not stored yet.
-/

namespace PagingProgress

open KeyedTable KeyedMerge UsersViewModel UsersViewStructs RealmService RefreshHandler
open RealmObjectGraph RUCUsersListViewController RUCUsersListInfoController StoredUsers
open LoadMoreHandler EventRuns UsersListSession SequentialRounds

section Runs

variable [Unicode]

/-- A load-more that is answered with users, whose writes succeed, and that stays within the
limit is followed by a load-more for a later page. -/
def Advances (s : Session) (x : Round) : Prop :=
  ∀ t users, round s x = some t → x.trigger.update = false → 1 ≤ nextPage s →
    x.reply.users = some users → users ≠ [] → (∀ n, x.fails n = false) →
    t.realm.users.rows.length ≤ t.info.lastPage → nextPage s < nextPage t

/-- How many ids the users have that are not stored, as the check tells ids apart. -/
def newIds (users : List RandomUserData) (r : Realm) : Nat :=
  ((users.map fun u => canonical u.uuid).toFinset \ (canonicalIds r).toFinset).card

/-- The answer of such a load-more brings the ids that are missing on the page of the count. -/
def FillsPage (s : Session) (x : Round) : Prop :=
  ∀ users, x.trigger.update = false → x.reply.users = some users → users ≠ [] →
    (∀ n, x.fails n = false) →
    s.realm.users.rows.length + newIds users s.realm ≤ s.info.lastPage →
    10 ≤ s.realm.users.rows.length % 10 + newIds users s.realm

theorem length_newUsers (users : List RandomUserData) (r : Realm) :
    (newUsers r users).length = newIds users r := by
  have hids : ((newUsers r users).map fun u => canonical u.uuid).toFinset =
      (users.map fun u => canonical u.uuid).toFinset \ (canonicalIds r).toFinset := by
    ext k
    simp only [Finset.mem_sdiff, List.mem_toFinset]
    exact mem_keys_firsts
  rw [newIds, ← hids, List.toFinset_card_of_nodup (nodup_canonical_newUsers r users),
    List.length_map]

/-- A load-more stores one user for each new id. -/
theorem length_loadMore (users : List RandomUserData) {r : Realm} (hg : ObjectGraph r) :
    ((newUsers r users).foldl Realm.put r).users.rows.length =
      r.users.rows.length + newIds users r := by
  have happ : Appended r (newUsers r users) ((newUsers r users).foldl Realm.put r) :=
    appended_new (nodup_newUsers r users) fun u hu => hg.lacks (not_mem_keys_newUsers hu)
  rw [happ.users, List.length_append, List.length_map, length_newUsers]

/-- What a round with an answered load-more leaves, as far as paging goes. -/
theorem count_of_round {s t : Session} {x : Round} {users : List RandomUserData} (hs : Settled s)
    (h : round s x = some t) (hx : x.trigger.update = false) (hu : x.reply.users = some users)
    (hf : ∀ n, x.fails n = false) :
    t.main.users.rows.length = s.realm.users.rows.length + newIds users s.realm ∧
      t.realm = t.main ∧ t.info.lastPage = s.info.lastPage := by
  obtain ⟨hrun, ht, hlast⟩ := round_eq_some hs h
  have hall : x.fails = fun _ => false := funext hf
  rw [hall, Round.actions, hx, runActions_loadMore x.reply hs.graph, hu, Option.getD_some] at hrun
  refine ⟨?_, ht.main.symm, hlast⟩
  rw [ht.main, ← Option.some.inj hrun, length_loadMore users hs.graph]

/-- In a round that happens, to advance and to fill the page are one thing. -/
theorem advances_iff (s : Session) (x : Round) (t : Session) (hs : Settled s)
    (h : round s x = some t) : Advances s x ↔ FillsPage s x := by
  have hnext : ∀ {users}, x.trigger.update = false → x.reply.users = some users →
      (∀ n, x.fails n = false) →
      s.realm.users.rows.length + newIds users s.realm ≤ s.info.lastPage →
      nextPage s = s.realm.users.rows.length / 10 + 1 ∧
        nextPage t = (s.realm.users.rows.length + newIds users s.realm) / 10 + 1 := by
    intro users hx hu hf hlimit
    obtain ⟨hcount, -, hlast⟩ := count_of_round hs h hx hu hf
    rw [nextPage, nextPage, hs.main, hcount]
    exact ⟨getNextPageIndex_eq _ (by omega), getNextPageIndex_eq _ (by omega)⟩
  constructor
  · intro hadv users hx hu hne hf hlimit
    obtain ⟨hcount, hmain, hlast⟩ := count_of_round hs h hx hu hf
    obtain ⟨hpage, hpage'⟩ := hnext hx hu hf hlimit
    have hlt := hadv t users h hx (by omega) hu hne hf (by rw [hmain, hcount]; omega)
    omega
  · intro hfill t' users h' hx _ hu hne hf hlimit
    obtain rfl : t = t' := Option.some.inj (h.symm.trans h')
    obtain ⟨hcount, hmain, hlast⟩ := count_of_round hs h hx hu hf
    rw [hmain, hcount, hlast] at hlimit
    obtain ⟨hpage, hpage'⟩ := hnext hx hu hf hlimit
    have hten := hfill users hx hu hne hf hlimit
    omega

/-- A sequential session always gets on to the next page exactly when each answered load-more
fills up the page of the count. -/
theorem paging_progress_iff (r : Realm) (hg : ObjectGraph r) (rounds : List Round) :
    Guarded round Advances rounds (opened r) ↔ Guarded round FillsPage rounds (opened r) :=
  guarded_congr settled_round advances_iff rounds (settled_opened hg)

end Runs

section Names

attribute [local instance] ascii

/-- The first page is answered with a single user. -/
def shortPage : Round := ⟨.viewDidLoad, .ofIds ["a"], fun _ => false⟩

theorem paging_progress_shortPage :
    Guarded round Advances [shortPage] (opened .empty) ↔
      Guarded round FillsPage [shortPage] (opened .empty) :=
  paging_progress_iff .empty objectGraph_empty [shortPage]

/-- The short page is asked for again. -/
theorem short_page_again : ¬ Guarded round Advances [shortPage] (opened .empty) := by
  intro h
  have hrun : (round (opened .empty) shortPage).map (fun t => (nextPage t,
      decide (t.realm.users.rows.length ≤ t.info.lastPage))) = some (1, true) := by
    decide +kernel
  obtain ⟨t, ht, hfacts⟩ := Option.map_eq_some_iff.mp hrun
  obtain ⟨hpage, hlimit⟩ := Prod.mk.inj hfacts
  have hlt : 1 < nextPage t := (h t ht).1 t [.ofId "a"] ht rfl (by decide) (users_ofIds ["a"])
    (by decide) (fun _ => rfl) (of_decide_eq_true hlimit)
  omega

end Names

end PagingProgress
