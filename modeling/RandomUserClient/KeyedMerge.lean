import Mathlib.Data.List.Basic
import Mathlib.Data.List.Induction

/-!
# Merging items by key

A list of items with repeated keys can be merged in two ways: the first item of
a key stays and later ones are skipped, or a later item takes the place of an
earlier one. The first way is a scan that remembers the keys it has seen, the
second one a fold of upserts. Both keep the order in which the keys come up.
-/

namespace KeyedMerge

universe u v w

variable {α : Type u} {β : Type v} {κ : Type w} [DecidableEq κ]

/-- The items whose key is neither known nor that of an earlier item. -/
def firsts (key : α → κ) : List κ → List α → List α
  | _, [] => []
  | known, a :: l =>
    if key a ∈ known then firsts key known l else a :: firsts key (key a :: known) l

/-- The last item with the given key. -/
def last (key : α → κ) (k : κ) (l : List α) : Option α := l.reverse.find? fun a => key a = k

/-- One item for each key, in the order in which the keys come up, and each the last of its key. -/
def latest (key : α → κ) (l : List α) : List α :=
  (firsts key [] l).filterMap fun a => last key (key a) l

/-- Put an item in the place of the one with its key, or at the end. -/
def upsert (key : α → κ) (l : List α) (a : α) : List α :=
  if key a ∈ l.map key then l.map fun x => if key x = key a then a else x else l ++ [a]

variable {key : α → κ}

/-! ## First items -/

/-- Only which keys are known matters. -/
theorem firsts_congr {known known' : List κ} (h : ∀ k, k ∈ known ↔ k ∈ known') (l : List α) :
    firsts key known l = firsts key known' l := by
  induction l generalizing known known' with
  | nil => rfl
  | cons a l ih =>
    have hcons : ∀ k, k ∈ key a :: known ↔ k ∈ key a :: known' := fun k => by
      simp only [List.mem_cons, h]
    by_cases ha : key a ∈ known
    · rw [firsts, firsts, if_pos ha, if_pos ((h _).mp ha), ih h]
    · rw [firsts, firsts, if_neg ha, if_neg (fun ha' => ha ((h _).mpr ha')), ih hcons]

theorem firsts_append (known : List κ) (l m : List α) :
    firsts key known (l ++ m) = firsts key known l ++ firsts key (l.map key ++ known) m := by
  induction l generalizing known with
  | nil => rfl
  | cons a l ih =>
    by_cases ha : key a ∈ known
    · have hsame : ∀ k, k ∈ l.map key ++ known ↔ k ∈ (a :: l).map key ++ known := fun k => by
        rw [List.map_cons, List.cons_append, List.mem_cons]
        refine ⟨Or.inr, fun h => h.elim ?_ id⟩
        rintro rfl
        exact List.mem_append_right _ ha
      rw [List.cons_append, firsts, if_pos ha, ih, firsts, if_pos ha, firsts_congr hsame]
    · have hsame : ∀ k, k ∈ l.map key ++ key a :: known ↔ k ∈ (a :: l).map key ++ known :=
        fun k => by simp only [List.map_cons, List.mem_append, List.mem_cons]; tauto
      rw [List.cons_append, firsts, if_neg ha, ih, firsts, if_neg ha, List.cons_append,
        firsts_congr hsame]

theorem mem_of_mem_firsts {known : List κ} {l : List α} {a : α} (h : a ∈ firsts key known l) :
    a ∈ l := by
  induction l generalizing known with
  | nil => exact h
  | cons b l ih =>
    rw [firsts] at h
    split at h
    · exact List.mem_cons_of_mem b (ih h)
    · rcases List.mem_cons.mp h with rfl | h
      · exact List.mem_cons_self
      · exact List.mem_cons_of_mem b (ih h)

/-- The keys that come in are those of the items that are not known. -/
theorem mem_keys_firsts {known : List κ} {l : List α} {k : κ} :
    k ∈ (firsts key known l).map key ↔ k ∈ l.map key ∧ k ∉ known := by
  induction l generalizing known with
  | nil => simp [firsts]
  | cons a l ih =>
    rw [firsts, List.map_cons, List.mem_cons]
    by_cases ha : key a ∈ known
    · rw [if_pos ha, ih]
      refine ⟨fun h => ⟨Or.inr h.1, h.2⟩, fun h => ⟨h.1.resolve_left ?_, h.2⟩⟩
      rintro rfl
      exact h.2 ha
    · rw [if_neg ha, List.map_cons, List.mem_cons, ih, List.mem_cons]
      by_cases hk : k = key a
      · simp [hk, ha]
      · simp [hk]

theorem nodup_firsts (known : List κ) (l : List α) : ((firsts key known l).map key).Nodup := by
  induction l generalizing known with
  | nil => exact List.nodup_nil
  | cons a l ih =>
    rw [firsts]
    split
    · exact ih known
    · rw [List.map_cons, List.nodup_cons]
      exact ⟨fun h => (mem_keys_firsts.mp h).2 List.mem_cons_self, ih _⟩

/-- The item that stays is the first one with its key. -/
theorem find?_firsts {known : List κ} {k : κ} (hk : k ∉ known) (l : List α) :
    (firsts key known l).find? (fun a => key a = k) = l.find? fun a => key a = k := by
  induction l generalizing known with
  | nil => rfl
  | cons a l ih =>
    by_cases hak : key a = k
    · have ha : key a ∉ known := hak ▸ hk
      rw [firsts, if_neg ha, List.find?_cons_of_pos (by simpa using hak),
        List.find?_cons_of_pos (by simpa using hak)]
    · rw [List.find?_cons_of_neg (by simpa using hak), firsts]
      split
      · exact ih hk
      · rw [List.find?_cons_of_neg (by simpa using hak)]
        refine ih fun h => ?_
        rcases List.mem_cons.mp h with rfl | h
        · exact hak rfl
        · exact hk h

/-- Where items of one key are one item, the order of the items does not matter for finding one. -/
theorem find?_of_agree {l m : List α} (hsame : ∀ a, a ∈ l ↔ a ∈ m)
    (hagree : ∀ a ∈ l, ∀ b ∈ l, key a = key b → a = b) (k : κ) :
    (l.find? fun a => key a = k) = m.find? fun a => key a = k := by
  cases hl : l.find? fun a => key a = k with
  | none =>
    refine (List.find?_eq_none.mpr fun a ha => ?_).symm
    exact List.find?_eq_none.mp hl a ((hsame a).mpr ha)
  | some a =>
    have ha := List.mem_of_find?_eq_some hl
    have hk : key a = k := by simpa using List.find?_some hl
    cases hm : m.find? fun a => key a = k with
    | none => exact absurd (by simpa using hk) (List.find?_eq_none.mp hm a ((hsame a).mp ha))
    | some b =>
      have hb := (hsame b).mpr (List.mem_of_find?_eq_some hm)
      have hk' : key b = k := by simpa using List.find?_some hm
      rw [hagree a ha b hb (hk.trans hk'.symm)]

/-- The first item with a key, if none before it has the key. -/
theorem find?_append_cons {l m : List α} {a : α} {k : κ} (ha : key a = k)
    (hl : ∀ b ∈ l, key b ≠ k) : (l ++ a :: m).find? (fun b => key b = k) = some a := by
  have hnone : (l.find? fun b => key b = k) = none := by
    rw [List.find?_eq_none]
    exact fun b hb => by simpa using hl b hb
  rw [List.find?_append, hnone, Option.none_or, List.find?_cons_of_pos (by simpa using ha)]

/-- Where keys of one class belong to one item, an item is found by its key or by the class. -/
theorem find?_of_class {ι : Type v} [DecidableEq ι] {fine : α → ι} {cls : ι → κ} {l : List α}
    (hl : (l.map fun a => cls (fine a)).Nodup) (i : ι) :
    (l.find? fun a => fine a = i) =
      (l.find? fun a => cls (fine a) = cls i).filter fun a => fine a = i := by
  induction l with
  | nil => rfl
  | cons a l ih =>
    obtain ⟨ha, hl⟩ := List.nodup_cons.mp hl
    by_cases hcls : cls (fine a) = cls i
    · rw [List.find?_cons_of_pos (p := fun a => decide (cls (fine a) = cls i))
        (by simpa using hcls)]
      by_cases hfine : fine a = i
      · rw [List.find?_cons_of_pos (by simpa using hfine),
          Option.filter_some_pos (by simpa using hfine)]
      · have hnone : (l.find? fun b => fine b = i) = none := by
          rw [List.find?_eq_none]
          intro b hb hkey
          have hkey : fine b = i := by simpa using hkey
          exact ha (List.mem_map.mpr ⟨b, hb, (congrArg cls hkey).trans hcls.symm⟩)
        rw [List.find?_cons_of_neg (by simpa using hfine), hnone,
          Option.filter_some_neg (by simpa using hfine)]
    · have hfine : fine a ≠ i := fun h => hcls (h ▸ rfl)
      rw [List.find?_cons_of_neg (by simpa using hfine), ih hl,
        List.find?_cons_of_neg (p := fun a => decide (cls (fine a) = cls i)) (by simpa using hcls)]

theorem firsts_map {key' : β → κ} {f : α → β} (hf : ∀ a, key' (f a) = key a) (known : List κ)
    (l : List α) : firsts key' known (l.map f) = (firsts key known l).map f := by
  induction l generalizing known with
  | nil => rfl
  | cons a l ih =>
    rw [List.map_cons, firsts, firsts, hf]
    split
    · exact ih known
    · rw [List.map_cons, ih]

/-! ## Last items -/

theorem last_concat (k : κ) (l : List α) (a : α) :
    last key k (l ++ [a]) = if key a = k then some a else last key k l := by
  rw [last, List.reverse_append, List.reverse_singleton, List.singleton_append]
  by_cases h : key a = k
  · rw [List.find?_cons_of_pos (by simpa using h), if_pos h]
  · rw [List.find?_cons_of_neg (by simpa using h), if_neg h, last]

theorem last_cons (k : κ) (a : α) (l : List α) :
    last key k (a :: l) = (last key k l).or (if key a = k then some a else none) := by
  rw [last, List.reverse_cons, List.find?_append, last]
  by_cases h : key a = k <;> simp [h]

theorem last_eq_some {k : κ} {l : List α} {a : α} (h : last key k l = some a) :
    a ∈ l ∧ key a = k := by
  refine ⟨List.mem_reverse.mp (List.mem_of_find?_eq_some h), ?_⟩
  simpa using List.find?_some h

/-- The last item with a key, if none behind it has the key. -/
theorem last_append_cons {l m : List α} {a : α} {k : κ} (ha : key a = k)
    (hm : ∀ b ∈ m, key b ≠ k) : last key k (l ++ a :: m) = some a := by
  rw [last, List.reverse_append, List.reverse_cons, List.append_assoc, List.singleton_append]
  exact find?_append_cons ha fun b hb => hm b (List.mem_reverse.mp hb)

/-- Where no key is repeated, the first and the last item of a key are one. -/
theorem last_of_nodup {l : List α} (hl : (l.map key).Nodup) (k : κ) :
    last key k l = l.find? fun a => key a = k := by
  induction l using List.reverseRecOn with
  | nil => rfl
  | append_singleton l a ih =>
    rw [List.map_append, List.map_singleton, List.nodup_append] at hl
    obtain ⟨hl, -, hdisj⟩ := hl
    rw [last_concat, List.find?_append, ih hl]
    by_cases ha : key a = k
    · have hnone : (l.find? fun a => key a = k) = none := by
        rw [List.find?_eq_none]
        intro b hb hkey
        have hkey : key b = k := by simpa using hkey
        exact hdisj _ (List.mem_map_of_mem hb) _ (List.mem_singleton_self _) (hkey.trans ha.symm)
      rw [if_pos ha, hnone]
      simp [ha]
    · rw [if_neg ha]
      simp [ha]

theorem last_of_mem {l : List α} {a : α} (h : a ∈ l) : ∃ b, last key (key a) l = some b := by
  cases hl : last key (key a) l with
  | some b => exact ⟨b, rfl⟩
  | none => exact absurd (by simp) (List.find?_eq_none.mp hl a (List.mem_reverse.mpr h))

theorem last_map {key' : β → κ} {f : α → β} (hf : ∀ a, key' (f a) = key a) (k : κ) (l : List α) :
    last key' k (l.map f) = (last key k l).map f := by
  rw [last, ← List.map_reverse, List.find?_map, last]
  simp only [Function.comp_def, hf]

theorem latest_map {key' : β → κ} {f : α → β} (hf : ∀ a, key' (f a) = key a) (l : List α) :
    latest key' (l.map f) = (latest key l).map f := by
  rw [latest, firsts_map hf, List.filterMap_map, latest, List.map_filterMap]
  simp only [Function.comp_def, hf, last_map hf]

/-- One more item of a key that is there already takes the place of the item it had. -/
theorem latest_concat_old {l : List α} {a : α} (ha : key a ∈ l.map key) :
    latest key (l ++ [a]) = (latest key l).map fun x => if key x = key a then a else x := by
  have hfirsts : firsts key [] (l ++ [a]) = firsts key [] l := by
    rw [firsts_append, firsts, if_pos (by simpa using ha), firsts, List.append_nil]
  rw [latest, hfirsts, latest, List.map_filterMap]
  refine List.filterMap_congr fun b hb => ?_
  obtain ⟨x, hx⟩ : ∃ x, last key (key b) l = some x := last_of_mem (mem_of_mem_firsts hb)
  obtain ⟨-, hkey⟩ := last_eq_some hx
  rw [last_concat, hx, Option.map_some, hkey]
  by_cases hab : key a = key b
  · rw [if_pos hab, if_pos hab.symm]
  · rw [if_neg hab, if_neg (Ne.symm hab)]

/-- An item of a new key comes at the end. -/
theorem latest_concat_new {l : List α} {a : α} (ha : key a ∉ l.map key) :
    latest key (l ++ [a]) = latest key l ++ [a] := by
  have hfirsts : firsts key [] (l ++ [a]) = firsts key [] l ++ [a] := by
    rw [firsts_append, firsts, if_neg (by simpa using ha), firsts]
  rw [latest, hfirsts, List.filterMap_append, latest]
  have hold : (firsts key [] l).filterMap (fun b => last key (key b) (l ++ [a])) =
      (firsts key [] l).filterMap fun b => last key (key b) l := by
    refine List.filterMap_congr fun b hb => ?_
    rw [last_concat, if_neg]
    intro hab
    exact ha (hab ▸ List.mem_map_of_mem (mem_of_mem_firsts hb))
  rw [hold, List.filterMap_cons, last_concat, if_pos rfl]
  rfl

/-- The keys stand in the order in which they come up. -/
theorem keys_latest (l : List α) : (latest key l).map key = (firsts key [] l).map key := by
  rw [latest, List.map_filterMap, ← List.filterMap_eq_map]
  refine List.filterMap_congr fun a ha => ?_
  obtain ⟨b, hb⟩ : ∃ b, last key (key a) l = some b := last_of_mem (mem_of_mem_firsts ha)
  rw [hb, Option.map_some, (last_eq_some hb).2]
  rfl

theorem mem_keys_latest {l : List α} {k : κ} : k ∈ (latest key l).map key ↔ k ∈ l.map key := by
  constructor
  · intro h
    obtain ⟨x, hx, rfl⟩ := List.mem_map.mp h
    obtain ⟨b, -, hb⟩ := List.mem_filterMap.mp hx
    exact List.mem_map_of_mem (last_eq_some hb).1
  · intro h
    have hfirst : k ∈ (firsts key [] l).map key := mem_keys_firsts.mpr ⟨h, List.not_mem_nil⟩
    obtain ⟨b, hb, rfl⟩ := List.mem_map.mp hfirst
    obtain ⟨x, hx⟩ : ∃ x, last key (key b) l = some x := last_of_mem (mem_of_mem_firsts hb)
    exact List.mem_map.mpr ⟨x, List.mem_filterMap.mpr ⟨b, hb, hx⟩, (last_eq_some hx).2⟩

/-! ## Upserts -/

/-- A fold of upserts keeps the last item of each key, at the place of the first. -/
theorem foldl_upsert (l : List α) : l.foldl (upsert key) [] = latest key l := by
  induction l using List.reverseRecOn with
  | nil => rfl
  | append_singleton l a ih =>
    rw [List.foldl_append, ih, List.foldl_cons, List.foldl_nil, upsert]
    by_cases ha : key a ∈ l.map key
    · rw [if_pos (mem_keys_latest.mpr ha), latest_concat_old ha]
    · rw [if_neg (mem_keys_latest.not.mpr ha), latest_concat_new ha]

/-- A fold of upserts of new keys appends. -/
theorem foldl_upsert_new {m l : List α} (hl : (l.map key).Nodup)
    (hnew : ∀ a ∈ l, key a ∉ m.map key) : l.foldl (upsert key) m = m ++ l := by
  induction l generalizing m with
  | nil => rw [List.foldl_nil, List.append_nil]
  | cons a l ih =>
    obtain ⟨ha, hl⟩ := List.nodup_cons.mp hl
    obtain ⟨hm, hnew⟩ := List.forall_mem_cons.mp hnew
    rw [List.foldl_cons, upsert, if_neg hm, ih hl, List.append_assoc, List.singleton_append]
    intro b hb hkey
    rw [List.map_append, List.mem_append, List.map_singleton, List.mem_singleton] at hkey
    rcases hkey with hkey | hkey
    · exact hnew b hb hkey
    · exact ha (hkey ▸ List.mem_map_of_mem hb)

end KeyedMerge
