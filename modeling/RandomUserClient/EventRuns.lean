import Mathlib.Logic.Basic

/-!
# Runs of event-driven systems

A system is a partial step function: `step s e = some t` says that event `e` can
happen in state `s` and leads to `t`, and `none` that it cannot happen there.
A run is a list of events that can happen one after another. Nothing here
depends on what the states and the events are.
-/

namespace EventRuns

variable {σ ε : Type}

/-- Perform the events in order, from the first one on. -/
def exec (step : σ → ε → Option σ) : List ε → σ → Option σ
  | [], s => some s
  | e :: es, s => (step s e).bind (exec step es)

/-- `P` holds in every state of the run, the first and the last included. -/
def Always (step : σ → ε → Option σ) (P : σ → Prop) : List ε → σ → Prop
  | [], s => P s
  | e :: es, s => P s ∧ ∀ t, step s e = some t → Always step P es t

/-- Every step of the run meets `C`, a condition on its event and the state before it. -/
def Guarded (step : σ → ε → Option σ) (C : σ → ε → Prop) : List ε → σ → Prop
  | [], _ => True
  | e :: es, s => ∀ t, step s e = some t → C s e ∧ Guarded step C es t

/-- A condition that can be decided can be checked along a run. -/
instance decidableGuarded (step : σ → ε → Option σ) (C : σ → ε → Prop)
    [∀ s e, Decidable (C s e)] : (es : List ε) → (s : σ) → Decidable (Guarded step C es s)
  | [], _ => isTrue trivial
  | e :: es, s =>
    match h : step s e with
    | none => isTrue fun t ht => by rw [h] at ht; cases ht
    | some t =>
      have := decidableGuarded step C es t
      decidable_of_iff (C s e ∧ Guarded step C es t)
        ⟨fun hc t' ht => by rw [h] at ht; cases ht; exact hc, fun hc => hc t h⟩

@[simp] theorem exec_nil (step : σ → ε → Option σ) (s : σ) : exec step [] s = some s := rfl

@[simp] theorem exec_cons (step : σ → ε → Option σ) (e : ε) (es : List ε) (s : σ) :
    exec step (e :: es) s = (step s e).bind (exec step es) := rfl

/-- The first step of a nonempty run. -/
theorem exec_cons_some {step : σ → ε → Option σ} {e : ε} {es : List ε} {s u : σ} :
    exec step (e :: es) s = some u ↔ ∃ t, step s e = some t ∧ exec step es t = some u := by
  simp only [exec_cons, Option.bind_eq_some_iff]

/-- A run in two parts. -/
theorem exec_append_some {step : σ → ε → Option σ} {es fs : List ε} {s u : σ} :
    exec step (es ++ fs) s = some u ↔ ∃ t, exec step es s = some t ∧ exec step fs t = some u := by
  induction es generalizing s with
  | nil => simp
  | cons e es ih =>
    simp only [List.cons_append, exec_cons_some, ih]
    constructor
    · rintro ⟨v, hv, t, ht, hu⟩
      exact ⟨t, ⟨v, hv, ht⟩, hu⟩
    · rintro ⟨t, ⟨v, hv, ht⟩, hu⟩
      exact ⟨v, hv, t, ht, hu⟩

/-- What every step keeps, every run keeps. -/
theorem exec_invariant {step : σ → ε → Option σ} {I : σ → Prop}
    (hstep : ∀ s e t, I s → step s e = some t → I t)
    (es : List ε) {s u : σ} (hs : I s) (h : exec step es s = some u) : I u := by
  induction es generalizing s with
  | nil => exact Option.some.inj h ▸ hs
  | cons e es ih =>
    obtain ⟨t, ht, hu⟩ := exec_cons_some.mp h
    exact ih (hstep s e t hs ht) hu

theorem always_head {step : σ → ε → Option σ} {P : σ → Prop} {es : List ε} {s : σ}
    (h : Always step P es s) : P s := by
  cases es with
  | nil => exact h
  | cons e es => exact h.1

theorem always_mono {step : σ → ε → Option σ} {P Q : σ → Prop} (h : ∀ s, P s → Q s)
    (es : List ε) {s : σ} (hp : Always step P es s) : Always step Q es s := by
  induction es generalizing s with
  | nil => exact h s hp
  | cons e es ih => exact ⟨h s hp.1, fun t ht => ih (hp.2 t ht)⟩

/-- The last state of a run is one of its states. -/
theorem always_last {step : σ → ε → Option σ} {P : σ → Prop} (es : List ε) {s u : σ}
    (h : Always step P es s) (hu : exec step es s = some u) : P u := by
  induction es generalizing s with
  | nil => exact Option.some.inj hu ▸ h
  | cons e es ih =>
    obtain ⟨t, ht, hu⟩ := exec_cons_some.mp hu
    exact ih (h.2 t ht) hu

/-- If a step that meets the assumption `A` from a state with `I` and `P` ends in `P` exactly when
it meets `C`, then along a run of such steps `P` holds throughout exactly when every step of it
meets `C`. -/
theorem always_iff_guarded_of {step : σ → ε → Option σ} {A C : σ → ε → Prop} {I P : σ → Prop}
    (hkeep : ∀ s e t, I s → P s → A s e → step s e = some t → I t)
    (hexact : ∀ s e t, I s → P s → A s e → step s e = some t → (P t ↔ C s e))
    (es : List ε) {s : σ} (hi : I s) (hp : P s) (ha : Guarded step A es s) :
    Always step P es s ↔ Guarded step C es s := by
  induction es generalizing s with
  | nil => exact ⟨fun _ => trivial, fun _ => hp⟩
  | cons e es ih =>
    constructor
    · intro h t ht
      have hpt := always_head (h.2 t ht)
      have hit := hkeep s e t hi hp (ha t ht).1 ht
      have hc := (hexact s e t hi hp (ha t ht).1 ht).mp hpt
      exact ⟨hc, (ih hit hpt (ha t ht).2).mp (h.2 t ht)⟩
    · intro h
      refine ⟨hp, fun t ht => ?_⟩
      have hpt := (hexact s e t hi hp (ha t ht).1 ht).mpr (h t ht).1
      have hit := hkeep s e t hi hp (ha t ht).1 ht
      exact (ih hit hpt (ha t ht).2).mpr (h t ht).2

theorem guarded_true (step : σ → ε → Option σ) (es : List ε) (s : σ) :
    Guarded step (fun _ _ => True) es s := by
  induction es generalizing s with
  | nil => trivial
  | cons e es ih => exact fun t _ => ⟨trivial, ih t⟩

/-- The same without an assumption on the steps. -/
theorem always_iff_guarded {step : σ → ε → Option σ} {C : σ → ε → Prop} {I P : σ → Prop}
    (hkeep : ∀ s e t, I s → P s → step s e = some t → I t)
    (hexact : ∀ s e t, I s → P s → step s e = some t → (P t ↔ C s e))
    (es : List ε) {s : σ} (hi : I s) (hp : P s) :
    Always step P es s ↔ Guarded step C es s :=
  always_iff_guarded_of (fun s e t hi hp _ h => hkeep s e t hi hp h)
    (fun s e t hi hp _ h => hexact s e t hi hp h) es hi hp (guarded_true step es s)

/-- Two conditions that agree wherever the invariant holds guard the same runs. -/
theorem guarded_congr {step : σ → ε → Option σ} {C D : σ → ε → Prop} {I : σ → Prop}
    (hkeep : ∀ s e t, I s → step s e = some t → I t)
    (hiff : ∀ s e t, I s → step s e = some t → (C s e ↔ D s e))
    (es : List ε) {s : σ} (hi : I s) : Guarded step C es s ↔ Guarded step D es s := by
  induction es generalizing s with
  | nil => exact Iff.rfl
  | cons e es ih =>
    refine forall_congr' fun t => imp_congr_right fun ht => ?_
    exact and_congr (hiff s e t hi ht) (ih (hkeep s e t hi ht))

end EventRuns
