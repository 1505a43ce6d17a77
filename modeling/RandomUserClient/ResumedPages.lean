import RandomUserClient.LoadMoreHandler
import RandomUserClient.SequentialRounds
import RandomUserClient.UsersListFeed

/-!
# Resuming a page

An app that is stopped while a handler runs, or creates that fail, leave a page
of the feed half stored. The count of what is there names that page again, since
fewer than ten of its users are stored, and its reply brings the rest of it and
leaves alone what is stored.
-/

namespace ResumedPages

open KeyedTable KeyedMerge UsersViewModel UsersViewStructs RealmService RefreshHandler
open RealmObjectGraph RUCUsersListViewController RUCUsersListInfoController StoredUsers
open LoadMoreHandler UsersListSession SequentialRounds UsersListFeed PagedCursor

/-- The store holds these users, each as it was made but for its favourite flag, and no others. -/
structure HoldsOnly (r : Realm) (users : Set RandomUserData) : Prop where
  stored : ∀ u ∈ users, Stored r u
  rest : ∀ k, (∀ u ∈ users, u.uuid ≠ k) → record r k = absent

/-- The users of pages 1 to m. -/
def pages (feed : Feed) (m : Nat) : Set RandomUserData :=
  {u | ∃ p, 1 ≤ p ∧ p ≤ m ∧ u ∈ feed.page p}

/-! ## Stores that hold some users -/

theorem mem_keys_iff_record {r : Realm} {k : Key} :
    k ∈ r.users.keys ↔ (record r k).user ≠ none := by
  rw [← not_iff_not, not_not]
  exact Table.find_eq_none.symm

theorem HoldsOnly.mem_keys {r : Realm} {users : Set RandomUserData} (h : HoldsOnly r users)
    {k : Key} : k ∈ r.users.keys ↔ ∃ u ∈ users, u.uuid = k := by
  rw [mem_keys_iff_record]
  constructor
  · intro hk
    by_contra hno
    push Not at hno
    exact hk (congrArg Record.user (h.rest k hno))
  · rintro ⟨u, hu, rfl⟩
    obtain ⟨flag, hflag⟩ := h.stored u hu
    rw [hflag]
    exact Option.some_ne_none _

/-- Every user row is that of one of the users. -/
theorem HoldsOnly.record_eq {r : Realm} {users : Set RandomUserData} (h : HoldsOnly r users)
    {k : Key} (hk : k ∈ r.users.keys) :
    ∃ u ∈ users, ∃ flag, u.uuid = k ∧ record r k = flagged u flag := by
  obtain ⟨u, hu, rfl⟩ := h.mem_keys.mp hk
  obtain ⟨flag, hflag⟩ := h.stored u hu
  exact ⟨u, hu, flag, rfl, hflag⟩

theorem HoldsOnly.absent {r : Realm} {users : Set RandomUserData} (h : HoldsOnly r users)
    {k : Key} (hk : k ∉ r.users.keys) : record r k = absent :=
  h.rest k fun u hu hkey => hk (h.mem_keys.mpr ⟨u, hu, hkey⟩)

/-- Stores whose records agree but for the user row have the key in the same sub-tables. -/
theorem subtable_keys_congr {t : Subtable} (ht : t ∈ subtables) {r s : Realm} {k : Key}
    (h : { record r k with user := none } = { record s k with user := none }) :
    k ∈ t.keys r ↔ k ∈ t.keys s := by
  rcases mem_subtables ht with rfl | rfl | rfl | rfl | rfl | rfl | rfl | rfl | rfl
  · exact Table.mem_keys_congr (congrArg Record.name h)
  · exact Table.mem_keys_congr (congrArg Record.location h)
  · exact Table.mem_keys_congr (congrArg Record.coordinates h)
  · exact Table.mem_keys_congr (congrArg Record.timezone h)
  · exact Table.mem_keys_congr (congrArg Record.login h)
  · exact Table.mem_keys_congr (congrArg Record.dob h)
  · exact Table.mem_keys_congr (congrArg Record.registered h)
  · exact Table.mem_keys_congr (congrArg Record.dataId h)
  · exact Table.mem_keys_congr (congrArg Record.picture h)

/-- Ten rows under each key, as `init(value:)` made them, are an object graph. -/
theorem HoldsOnly.objectGraph {r : Realm} {users : Set RandomUserData} (h : HoldsOnly r users) :
    ObjectGraph r where
  keys := by
    intro t ht k
    by_cases hk : k ∈ r.users.keys
    · obtain ⟨u, -, flag, hid, hrec⟩ := h.record_eq hk
      have hput : { record r k with user := none } =
          { record (Realm.empty.put u) k with user := none } := by
        rw [hrec, record_put, if_pos hid]
        rfl
      rw [subtable_keys_congr ht hput, subtable_keys_put ht]
      exact iff_of_true (Or.inl hid.symm) hk
    · have hempty : { record r k with user := none } =
          { record Realm.empty k with user := none } := by
        rw [h.absent hk, record_empty]
      rw [subtable_keys_congr ht hempty, objectGraph_empty.keys t ht k]
      exact iff_of_false List.not_mem_nil hk
  links := by
    intro t ht row hrow
    have hfind : r.users.find row.id = some row := Table.find_eq_some.mpr ⟨hrow, rfl⟩
    obtain ⟨u, -, flag, hid, hrec⟩ := h.record_eq (Table.mem_keys_of_find hfind)
    have hlocation : r.locations.find row.id = some (locationRowOf u) :=
      congrArg Record.location hrec
    have hmade : some row = some { userRowOf u with isInFavorites := flag } :=
      hfind.symm.trans (congrArg Record.user hrec)
    rw [← hid] at hlocation ⊢
    obtain rfl := Option.some.inj hmade
    have hlink : (userRowOf u).location = some u.uuid := rfl
    rcases mem_subtables ht with rfl | rfl | rfl | rfl | rfl | rfl | rfl | rfl | rfl
    case inr.inr.inl => simp only [coordinates, hlink, Option.bind_some, hlocation]; rfl
    case inr.inr.inr.inl => simp only [timezones, hlink, Option.bind_some, hlocation]; rfl
    all_goals rfl

/-! ## Pages of the feed -/

theorem mem_pages_succ {feed : Feed} {m : Nat} {u : RandomUserData} :
    u ∈ pages feed (m + 1) ↔ u ∈ pages feed m ∨ u ∈ feed.page (m + 1) := by
  constructor
  · rintro ⟨p, hp, hm, hu⟩
    by_cases h : p = m + 1
    · exact Or.inr (h ▸ hu)
    · exact Or.inl ⟨p, hp, by omega, hu⟩
  · rintro (⟨p, hp, hm, hu⟩ | hu)
    · exact ⟨p, hp, by omega, hu⟩
    · exact ⟨m + 1, by omega, Nat.le_refl _, hu⟩

/-- An id belongs to one user of the feed. -/
theorem pages_inj {feed : Feed} {m n : Nat} {u v : RandomUserData} (hu : u ∈ pages feed m)
    (hv : v ∈ pages feed n) (h : u.uuid = v.uuid) : u = v := by
  obtain ⟨p, hp, -, hu⟩ := hu
  obtain ⟨q, hq, -, hv⟩ := hv
  exact feed.user_unique hp hq hu hv h

/-- So an id of the feed belongs to one user for the check, too. -/
theorem pages_canonical_inj [Unicode] {feed : Feed} (hd : feed.Distinct) {m n : Nat}
    {u v : RandomUserData} (hu : u ∈ pages feed m) (hv : v ∈ pages feed n)
    (h : canonical u.uuid = canonical v.uuid) : u = v := by
  have hid : u.uuid = v.uuid := by
    obtain ⟨p, hp, -, hpage⟩ := hu
    obtain ⟨q, hq, -, hpage'⟩ := hv
    exact hd p q hp hq u hpage v hpage' h
  exact pages_inj hu hv hid

theorem pages_zero (feed : Feed) : pages feed 0 = ∅ := by
  ext u
  simp only [pages, Set.mem_ofPred_eq, Set.mem_empty_iff_false, iff_false]
  rintro ⟨p, hp, h0, -⟩
  omega

theorem mem_upTo_pages {feed : Feed} {m : Nat} {k : Key} :
    k ∈ upTo feed.ids m ↔ ∃ u ∈ pages feed m, u.uuid = k := by
  simp only [mem_upTo, Feed.mem_ids, pages, Set.mem_ofPred_eq]
  constructor
  · rintro ⟨p, hp, hm, u, hu, rfl⟩
    exact ⟨u, ⟨p, hp, hm, hu⟩, rfl⟩
  · rintro ⟨u, ⟨p, hp, hm, hu⟩, rfl⟩
    exact ⟨p, hp, hm, u, hu, rfl⟩

/-! ## The half page -/

variable {feed : Feed} {m : Nat} {S : Finset RandomUserData}

/-- With pages 1 to m and a part of page m + 1, the count is what one expects. -/
theorem length_half {r : Realm} (hS : S ⊆ (feed.page (m + 1)).toFinset)
    (h : HoldsOnly r (pages feed m ∪ ↑S)) : r.users.rows.length = 10 * m + S.card := by
  have hnext : ∀ u ∈ S, u ∈ pages feed (m + 1) := fun u hu =>
    mem_pages_succ.mpr (Or.inr (List.mem_toFinset.mp (hS hu)))
  have hids : storedIds r = upTo feed.ids m ∪ S.image (·.uuid) := by
    ext k
    rw [storedIds, List.mem_toFinset, h.mem_keys, Finset.mem_union, mem_upTo_pages,
      Finset.mem_image]
    simp only [Set.mem_union, Finset.mem_coe, or_and_right, exists_or]
  have hdisj : Disjoint (upTo feed.ids m) (S.image (·.uuid)) := by
    rw [Finset.disjoint_right]
    intro k hk
    obtain ⟨u, hu, rfl⟩ := Finset.mem_image.mp hk
    refine feed.paged.not_mem_upTo (p := m + 1) ?_ (by omega)
    exact Feed.mem_ids.mpr ⟨u, List.mem_toFinset.mp (hS hu), rfl⟩
  have hcard : (S.image (·.uuid)).card = S.card :=
    Finset.card_image_of_injOn fun u hu v hv => pages_inj (hnext u hu) (hnext v hv)
  rw [← card_storedIds, hids, Finset.card_union_of_disjoint hdisj, feed.paged.card_upTo, hcard]

section Runs

variable [Unicode]

/-- What the check finds of the feed is stored. -/
theorem known_iff {r : Realm} (hd : feed.Distinct) (hS : S ⊆ (feed.page (m + 1)).toFinset)
    (h : HoldsOnly r (pages feed m ∪ ↑S)) {u : RandomUserData} (hu : u ∈ pages feed (m + 1)) :
    canonical u.uuid ∈ canonicalIds r ↔ u ∈ pages feed m ∪ ↑S := by
  constructor
  · intro hk
    obtain ⟨k, hkey, hcanonical⟩ := List.mem_map.mp hk
    obtain ⟨v, hv, rfl⟩ := h.mem_keys.mp hkey
    have hv' : v ∈ pages feed (m + 1) := mem_pages_succ.mpr
      (hv.imp_right fun hv => List.mem_toFinset.mp (hS hv))
    rwa [pages_canonical_inj hd hu hv' hcanonical.symm]
  · intro hold
    exact mem_canonicalIds (h.mem_keys.mpr ⟨u, hold, rfl⟩)

/-- Loading page m + 1 completes it, and leaves what is stored as it is. -/
theorem holdsOnly_loadMore {r : Realm} (hd : feed.Distinct)
    (hS : S ⊆ (feed.page (m + 1)).toFinset) (h : HoldsOnly r (pages feed m ∪ ↑S)) :
    HoldsOnly ((newUsers r (feed.page (m + 1))).foldl Realm.put r) (pages feed (m + 1)) where
  stored := by
    intro u hu
    by_cases hold : u ∈ pages feed m ∪ ↑S
    · obtain ⟨flag, hflag⟩ := h.stored u hold
      exact ⟨flag, by rw [record_newUsers_old _ (h.mem_keys.mpr ⟨u, hold, rfl⟩), hflag]⟩
    · have hnew : canonical u.uuid ∉ canonicalIds r := (known_iff hd hS h hu).not.mpr hold
      have hpage : u ∈ feed.page (m + 1) :=
        (mem_pages_succ.mp hu).resolve_left fun hm => hold (Or.inl hm)
      have hfind : ((feed.page (m + 1)).find? fun v => canonical v.uuid = canonical u.uuid) =
          some u := by
        cases hv : (feed.page (m + 1)).find? fun v => canonical v.uuid = canonical u.uuid with
        | none => exact absurd (by simp) (List.find?_eq_none.mp hv u hpage)
        | some v =>
          have hkey : canonical v.uuid = canonical u.uuid := by simpa using List.find?_some hv
          exact congrArg some (pages_canonical_inj hd (mem_pages_succ.mpr
            (Or.inr (List.mem_of_find?_eq_some hv))) hu hkey)
      refine stored_of_recordOf ?_
      rw [record_newUsers, if_neg hnew, hfind, Option.filter_some_pos (by simp)]
      rfl
  rest := by
    intro k hk
    have hold : k ∉ r.users.keys := by
      intro hmem
      obtain ⟨v, hv, hkey⟩ := h.mem_keys.mp hmem
      exact hk v (mem_pages_succ.mpr (hv.imp_right fun hv => List.mem_toFinset.mp (hS hv))) hkey
    have hfind : (((feed.page (m + 1)).find? fun v => canonical v.uuid = canonical k).filter
        fun v => v.uuid = k) = none := by
      rw [Option.filter_eq_none_iff]
      intro v hv hkey
      exact hk v (mem_pages_succ.mpr (Or.inr (List.mem_of_find?_eq_some hv))) (by simpa using hkey)
    rw [record_newUsers, hfind]
    split <;> exact h.absent hold

/-- A half stored page is the one that is asked for next, and its reply completes it: then pages
1 to m + 1 are stored, each user once, and what was stored before is as it was. -/
theorem resume_half_page (feed : Feed) (hd : feed.Distinct) (m : Nat) (S : Finset RandomUserData)
    (hS : S ⊂ (feed.page (m + 1)).toFinset) (hlimit : 10 * m + S.card ≤ 10000) (s : Session)
    (hlast : s.info.lastPage = 10000) (hmain : s.main = s.realm)
    (hs : HoldsOnly s.realm (pages feed m ∪ ↑S)) (reply : Reply)
    (hu : reply.users = some (feed.page (m + 1))) :
    (addUsersData false s).inFlight = s.inFlight ++ [⟨false, m + 1⟩] ∧
      ∃ t, runActions (fun _ => false) (handle false reply) s.realm = some t ∧
        HoldsOnly t (pages feed (m + 1)) ∧ t.users.keys.Nodup ∧
        t.users.rows.length = 10 * (m + 1) ∧
        ∀ k ∈ s.realm.users.keys, record t k = record s.realm k := by
  have hcount := length_half hS.subset hs
  have hten : (feed.page (m + 1)).toFinset.card = 10 := by
    have hnodup := List.Nodup.of_map _ (feed.nodup (m + 1) (by omega))
    rw [List.toFinset_card_of_nodup hnodup, feed.ten (m + 1) (by omega)]
  have hfew : S.card < 10 := hten ▸ Finset.card_lt_card hS
  refine ⟨?_, _, runActions_loadMore reply hs.objectGraph, ?_⟩
  · have hpage : nextPage s = m + 1 := by
      rw [nextPage, hmain, getNextPageIndex_eq _ (by omega), hcount]
      omega
    rw [inFlight_addUsersData, hpage]
  · rw [hu, Option.getD_some]
    have hholds := holdsOnly_loadMore hd hS.subset hs
    refine ⟨hholds, Table.nodup_keys _, ?_, fun k hk => ?_⟩
    · have hall : pages feed (m + 1) = pages feed (m + 1) ∪ ↑(∅ : Finset RandomUserData) := by
        rw [Finset.coe_empty, Set.union_empty]
      rw [hall] at hholds
      rw [length_half (Finset.empty_subset _) hholds, Finset.card_empty, Nat.add_zero]
    · exact record_newUsers_old _ hk

end Runs

section Names

attribute [local instance] ascii

/-- The app was stopped after the first user of the first page. -/
theorem resume_half_page_first :
    (addUsersData false (opened (Realm.empty.put (sampleUser 1 0)))).inFlight = [] ++ [⟨false, 1⟩] ∧
      ∃ t, runActions (fun _ => false) (handle false (sampleReply 1))
          (Realm.empty.put (sampleUser 1 0)) = some t ∧
        HoldsOnly t (pages sampleFeed 1) ∧ t.users.keys.Nodup ∧ t.users.rows.length = 10 * 1 ∧
        ∀ k ∈ (Realm.empty.put (sampleUser 1 0)).users.keys,
          record t k = record (Realm.empty.put (sampleUser 1 0)) k := by
  refine resume_half_page sampleFeed sampleFeed.distinct_ascii 0 {sampleUser 1 0}
    (by decide +kernel) (by decide) (opened _) rfl rfl ⟨?_, ?_⟩ (sampleReply 1) ?_
  · intro u hu
    obtain rfl : u = sampleUser 1 0 := by simpa [pages_zero] using hu
    exact stored_of_recordOf (by rw [opened, record_put, if_pos rfl])
  · intro k hk
    rw [opened, record_put, if_neg (hk _ (by simp))]
    rfl
  · rw [sampleReply, users_ofIds, List.map_map]
    rfl

end Names

end ResumedPages
