import RandomUserClient.CellReuse
import RandomUserClient.EventRuns

/-!
# Pictures of other users

A binding of a cell with an image starts a load when the network is reachable,
and the load captures the cell, not the user. When it ends it sets the image of
the cell, to the picture or to nothing, whatever the cell shows by then; nothing
else ever sets it. So a picture is wrong when it stays from an earlier binding,
or comes last although it is for one.
-/

namespace PictureLoads

open UsersViewModel UserCells EventRuns

/-- A cell: its class, and which of the cells of that class it is. -/
abbrev CellId := CellClass × Nat

/-- A load that has been started, and the cell it has captured. -/
structure Load where
  cell : CellId
  url : String
  deriving DecidableEq, Repr

/-- Which user each cell is bound to, whose picture it shows (none: it is empty, or shows the
placeholder of its nib), and the loads that have not ended. -/
structure Screens where
  user : CellId → Option RandomUserDataModel := fun _ => none
  image : CellId → Option String := fun _ => none
  loads : List Load := []

def start : Screens := {}

inductive Event where
  | bind : Site → Bool → RandomUserDataModel → Nat → Event
  | finish : Nat → Bool → Event

variable (F : Foundation)

/-- A cell is bound, for which `cellForRow` may return a plain cell instead; or one of the loads
ends, with a picture or without. -/
def step (s : Screens) : Event → Option Screens
  | .bind site online user n =>
    match (cellForRow F online user site).cell with
    | none => some s
    | some cls => some { s with
        user := Function.update s.user (cls, n) (some user)
        loads := s.loads ++
          ((cellForRow F online user site).load.map fun url => ⟨(cls, n), url⟩).toList }
  | .finish i ok => s.loads[i]?.map fun load => { s with
      image := Function.update s.image load.cell (if ok then some load.url else none)
      loads := s.loads.eraseIdx i }

/-- The picture that cells of a class show of a user. -/
def pictureOf (cls : CellClass) (user : RandomUserDataModel) : Option String :=
  match cls with
  | .usersListTableViewCell => user.picture.bind (·.medium)
  | .userInfoTopCell => user.picture.bind (·.large)
  | _ => none

/-- A load for the cell has not ended. -/
def Loading (s : Screens) (c : CellId) : Prop := ∃ load ∈ s.loads, load.cell = c

/-- The cell shows no picture, or that of the user it is bound to. -/
def OwnPicture (s : Screens) (c : CellId) : Prop :=
  s.image c = none ∨ ∃ user, s.user c = some user ∧ pictureOf c.1 user = s.image c

/-- Once all loads have ended, no cell shows the picture of another user. -/
def RightAtLast (s : Screens) : Prop := s.loads = [] → ∀ c, OwnPicture s c

/-- The loads that are out end one after another, none of them with a picture. -/
def allFail (s : Screens) : List Event := List.replicate s.loads.length (.finish 0 false)

/-- Should the loads that are out all fail, no cell shows the picture of another user then. -/
def RightIfAllFail (s : Screens) : Prop :=
  ∀ t, exec (step F) (allFail s) s = some t → RightAtLast t

/-- Once all loads for a cell have ended, it does not show the picture of another user. -/
def RightWhenQuiet (s : Screens) : Prop := ∀ c, ¬ Loading s c → OwnPicture s c

/-- A binding that starts no load finds the cell loading, or empty, or with the picture of the new
user. A load that ends with a picture leaves the cell loading, or has the picture of the user it is
bound to. -/
def Timely (s : Screens) : Event → Prop
  | .bind site online user n => ∀ cls, (cellForRow F online user site).cell = some cls →
      (cellForRow F online user site).load = none → Loading s (cls, n) ∨
        s.image (cls, n) = none ∨ pictureOf cls user = s.image (cls, n)
  | .finish i ok => ∀ load, s.loads[i]? = some load → ok = true →
      (∃ other ∈ s.loads.eraseIdx i, other.cell = load.cell) ∨
        ∃ user, s.user load.cell = some user ∧ pictureOf load.cell.1 user = some load.url

variable {F}

theorem rightAtLast_of_quiet {s : Screens} (h : RightWhenQuiet s) : RightAtLast s := by
  intro hnil c
  refine h c ?_
  rintro ⟨load, hload, -⟩
  rw [hnil] at hload
  cases hload

/-! ## A binding -/

theorem step_bind {s t : Screens} {site : Site} {online : Bool} {user : RandomUserDataModel}
    {n : Nat} (h : step F s (.bind site online user n) = some t) :
    ((cellForRow F online user site).cell = none ∧ t = s) ∨
      ∃ cls, (cellForRow F online user site).cell = some cls ∧ t = { s with
        user := Function.update s.user (cls, n) (some user)
        loads := s.loads ++
          ((cellForRow F online user site).load.map fun url => ⟨(cls, n), url⟩).toList } := by
  rw [step] at h
  split at h
  · rename_i hcell
    exact Or.inl ⟨hcell, (Option.some.inj h).symm⟩
  · rename_i cls hcell
    exact Or.inr ⟨cls, hcell, (Option.some.inj h).symm⟩

/-- A bound cell with a new load is loading; the others are as they were. -/
theorem quiet_bind_iff {s : Screens} (hs : RightWhenQuiet s) (c : CellId)
    (user : RandomUserDataModel) (load : Option String) :
    RightWhenQuiet { s with
        user := Function.update s.user c (some user)
        loads := s.loads ++ (load.map fun url => ⟨c, url⟩).toList } ↔
      (load = none → Loading s c ∨ s.image c = none ∨ pictureOf c.1 user = s.image c) := by
  have hloading : ∀ d, Loading { s with
      user := Function.update s.user c (some user)
      loads := s.loads ++ (load.map fun url => ⟨c, url⟩).toList } d ↔
      Loading s d ∨ (load ≠ none ∧ d = c) := by
    intro d
    cases load with
    | none => simp [Loading]
    | some url => simp [Loading, or_and_right, exists_or, eq_comm]
  constructor
  · intro h hload
    by_cases hl : Loading s c
    · exact Or.inl hl
    · have hown := h c fun hc => ((hloading c).mp hc).elim hl fun hne => hne.1 hload
      simpa [OwnPicture] using Or.inr hown
  · intro h d hd
    rw [hloading, not_or, not_and] at hd
    by_cases hdc : d = c
    · subst hdc
      have hnone : load = none := by
        by_contra hne
        exact hd.2 hne rfl
      have hown := (h hnone).resolve_left hd.1
      simpa [OwnPicture] using hown
    · have hown := hs d hd.1
      simpa [OwnPicture, Function.update_of_ne hdc] using hown

/-! ## The end of a load -/

theorem step_finish {s t : Screens} {i : Nat} {ok : Bool}
    (h : step F s (.finish i ok) = some t) : ∃ load, s.loads[i]? = some load ∧ t = { s with
      image := Function.update s.image load.cell (if ok then some load.url else none)
      loads := s.loads.eraseIdx i } := by
  obtain ⟨load, hload, rfl⟩ := Option.map_eq_some_iff.mp h
  exact ⟨load, hload, rfl⟩

/-- The cell of a load that ends shows what it brought; the others are as they were. -/
theorem quiet_finish_iff {s : Screens} (hs : RightWhenQuiet s) {i : Nat} {load : Load}
    (hload : s.loads[i]? = some load) (ok : Bool) :
    RightWhenQuiet { s with
        image := Function.update s.image load.cell (if ok then some load.url else none)
        loads := s.loads.eraseIdx i } ↔
      (ok = true → (∃ other ∈ s.loads.eraseIdx i, other.cell = load.cell) ∨
        ∃ user, s.user load.cell = some user ∧ pictureOf load.cell.1 user = some load.url) := by
  constructor
  · intro h hok
    by_cases hl : ∃ other ∈ s.loads.eraseIdx i, other.cell = load.cell
    · exact Or.inl hl
    · have hown := h load.cell hl
      simpa [OwnPicture, hok] using Or.inr hown
  · intro h c hc
    by_cases hcell : c = load.cell
    · subst hcell
      cases ok with
      | false => exact Or.inl (by simp)
      | true =>
        have hown := (h rfl).resolve_left hc
        simpa [OwnPicture] using hown
    · have hold : ¬ Loading s c := by
        rintro ⟨other, hother, rfl⟩
        refine hc ⟨other, ?_, rfl⟩
        obtain ⟨j, hj⟩ := List.mem_iff_getElem?.mp hother
        have hne : j ≠ i := by
          rintro rfl
          exact hcell (congrArg Load.cell (Option.some.inj (hj.symm.trans hload)))
        exact List.mem_eraseIdx_iff_getElem?.mpr ⟨j, hne, hj⟩
      have hown := hs c hold
      simpa [OwnPicture, Function.update_of_ne hcell] using hown

theorem loading_cons {user : CellId → Option RandomUserDataModel} {image : CellId → Option String}
    {load : Load} {loads : List Load} {c : CellId} :
    Loading ⟨user, image, load :: loads⟩ c ↔ load.cell = c ∨ Loading ⟨user, image, loads⟩ c := by
  simp [Loading]

/-- Failing loads clear the images of their cells and leave the others. -/
theorem exec_allFail (F : Foundation) (s : Screens) :
    ∃ t, exec (step F) (allFail s) s = some t ∧ t.loads = [] ∧ t.user = s.user ∧
      ∀ c, (Loading s c → t.image c = none) ∧ (¬ Loading s c → t.image c = s.image c) := by
  obtain ⟨user, image, loads⟩ := s
  induction loads generalizing image with
  | nil =>
    refine ⟨_, rfl, rfl, rfl, fun c => ⟨?_, fun _ => rfl⟩⟩
    rintro ⟨load, hload, -⟩
    cases hload
  | cons load loads ih =>
    obtain ⟨t, ht, hloads, huser, himage⟩ := ih (Function.update image load.cell none)
    refine ⟨t, ht, hloads, huser, fun c => ?_⟩
    rw [loading_cons]
    constructor
    · intro hc
      by_cases hrest : Loading ⟨user, Function.update image load.cell none, loads⟩ c
      · exact (himage c).1 hrest
      · have hcell : load.cell = c := hc.resolve_right hrest
        rw [(himage c).2 hrest, ← hcell]
        exact Function.update_self ..
    · intro hc
      obtain ⟨hcell, hrest⟩ := not_or.mp hc
      rw [(himage c).2 hrest]
      exact Function.update_of_ne (Ne.symm hcell) ..

/-- What the loads that are out may still do to their own cells is not held against the state. -/
theorem rightIfAllFail_iff (s : Screens) : RightIfAllFail F s ↔ RightWhenQuiet s := by
  obtain ⟨t, ht, hloads, huser, himage⟩ := exec_allFail F s
  constructor
  · intro h c hc
    have hown := h t ht hloads c
    rw [OwnPicture, huser, (himage c).2 hc] at hown
    exact hown
  · intro h t' ht' _ c
    obtain rfl := Option.some.inj (ht.symm.trans ht')
    by_cases hc : Loading s c
    · exact Or.inl ((himage c).1 hc)
    · rw [OwnPicture, huser, (himage c).2 hc]
      exact h c hc

/-! ## Runs -/

theorem quiet_step_iff (s : Screens) (e : Event) (t : Screens) (hs : RightWhenQuiet s)
    (h : step F s e = some t) : RightWhenQuiet t ↔ Timely F s e := by
  cases e with
  | bind site online user n =>
    rcases step_bind h with ⟨hcell, rfl⟩ | ⟨cls, hcell, rfl⟩
    · refine iff_of_true hs fun cls hcls => ?_
      rw [hcell] at hcls
      cases hcls
    · rw [quiet_bind_iff hs]
      constructor
      · intro hc cls' hcls'
        obtain rfl := Option.some.inj (hcell.symm.trans hcls')
        exact hc
      · intro hc
        exact hc cls hcell
  | finish i ok =>
    obtain ⟨load, hload, rfl⟩ := step_finish h
    rw [quiet_finish_iff hs hload]
    constructor
    · intro hc load' hload'
      obtain rfl := Option.some.inj (hload.symm.trans hload')
      exact hc
    · intro hc
      exact hc load hload

theorem quiet_start : RightWhenQuiet start := fun _ _ => Or.inl rfl

/-- At no time of a run would failing loads leave a cell with the picture of another user exactly
when every step of it is timely; and whenever all loads of such a run have ended, in whatever way,
no cell shows one. -/
theorem own_pictures_iff (F : Foundation) (es : List Event) :
    (Always (step F) (RightIfAllFail F) es start ↔ Guarded (step F) (Timely F) es start) ∧
      (Guarded (step F) (Timely F) es start → Always (step F) RightAtLast es start) := by
  have hiff : Always (step F) RightWhenQuiet es start ↔ Guarded (step F) (Timely F) es start :=
    always_iff_guarded (I := fun _ => True) (fun _ _ _ _ _ _ => trivial)
      (fun s e t _ hs h => quiet_step_iff s e t hs h) es trivial quiet_start
  constructor
  · rw [← hiff]
    exact ⟨always_mono (fun s => (rightIfAllFail_iff s).mp) es,
      always_mono (fun s => (rightIfAllFail_iff s).mpr) es⟩
  · intro h
    exact always_mono (fun _ => rightAtLast_of_quiet) es (hiff.mpr h)

/-- A cell is bound and its picture comes; then it is bound to another user while the network is
unreachable. -/
def rebinding : List Event := [
  .bind .usersList true (CellReuse.fullUser "a" "") 0,
  .finish 0 true,
  .bind .usersList false (CellReuse.fullUser "b" "") 0]

theorem picture_of_other_user :
    ¬ Always (step sampleFoundation) RightAtLast rebinding start := by
  intro h
  have hrun : (exec (step sampleFoundation) rebinding start).map (fun t =>
      (t.loads, t.image (.usersListTableViewCell, 0),
        (t.user (.usersListTableViewCell, 0)).bind (pictureOf .usersListTableViewCell))) =
      some ([], some "a", some "b") := by
    decide +kernel
  obtain ⟨t, ht, hfacts⟩ := Option.map_eq_some_iff.mp hrun
  simp only [Prod.mk.injEq] at hfacts
  obtain ⟨hloads, himage, huser⟩ := hfacts
  rcases always_last rebinding h ht hloads (.usersListTableViewCell, 0) with hnone | ⟨u, hu, hpic⟩
  · rw [himage] at hnone
    cases hnone
  · rw [hu, Option.bind_some, hpic, himage] at huser
    exact absurd huser (by decide)

end PictureLoads
