import Mathlib.Data.List.Basic

/-! Runs of a machine whose steps carry an event and may be refused. -/
namespace Runs

variable {σ ε : Type*} (step : σ → ε → Option σ)

/-- Feed the events one after the other; `none` when some event is refused. -/
def run : σ → List ε → Option σ
  | s, [] => some s
  | s, e :: es => (step s e).bind (fun t => run t es)

def Along (ok : σ → ε → Prop) : σ → List ε → Prop
  | _, [] => True
  | s, e :: es => ∀ t, step s e = some t → ok s e ∧ Along ok t es

def Visits (good : σ → Prop) : σ → List ε → Prop
  | s, [] => good s
  | s, e :: es => good s ∧ ∀ t, step s e = some t → Visits good t es

variable {step}

instance Along.decidable (ok : σ → ε → Prop) [∀ s e, Decidable (ok s e)] :
    (s : σ) → (es : List ε) → Decidable (Along step ok s es)
  | _, [] => isTrue trivial
  | s, e :: es =>
      match h : step s e with
      | none => isTrue fun _ ht => absurd (h.symm.trans ht) (by simp)
      | some u =>
          have := Along.decidable ok u es
          decidable_of_iff (ok s e ∧ Along step ok u es)
            ⟨fun hu _ ht => Option.some.inj (h.symm.trans ht) ▸ hu, fun hs => hs u h⟩

theorem run_cons_eq_some {s u : σ} {e : ε} {es : List ε} :
    run step s (e :: es) = some u ↔ ∃ t, step s e = some t ∧ run step t es = some u := by
  simp [run, Option.bind_eq_some_iff]

/-- What every step keeps under the condition, a run under the condition keeps. -/
theorem invariant_of_along (ok : σ → ε → Prop) (inv : σ → Prop)
    (hstep : ∀ s e t, inv s → ok s e → step s e = some t → inv t)
    {s u : σ} {es : List ε} (hs : inv s) (hok : Along step ok s es)
    (hr : run step s es = some u) : inv u := by
  induction es generalizing s with
  | nil => cases hr; exact hs
  | cons e es ih =>
    obtain ⟨t, ht, hr⟩ := run_cons_eq_some.mp hr
    obtain ⟨hok, hrest⟩ := hok t ht
    exact ih (hstep s e t hs hok ht) hrest hr

/-- What every step keeps, a run keeps. -/
theorem invariant_of_run (inv : σ → Prop) (hstep : ∀ s e t, inv s → step s e = some t → inv t)
    {s u : σ} {es : List ε} (hs : inv s) (hr : run step s es = some u) : inv u := by
  induction es generalizing s with
  | nil => cases hr; exact hs
  | cons e es ih =>
    obtain ⟨t, ht, hr⟩ := run_cons_eq_some.mp hr
    exact ih (hstep s e t hs ht) hr

/-- Where each step does to the abstraction what the abstract machine does, refusals included, so does
a run. -/
theorem run_refines {τ : Type*} {abstractStep : τ → ε → Option τ} (abstraction : σ → τ) (inv : σ → Prop)
    (hinv : ∀ s e t, inv s → step s e = some t → inv t)
    (hstep : ∀ s e, inv s → (step s e).map abstraction = abstractStep (abstraction s) e)
    {s : σ} (hs : inv s) (es : List ε) :
    (run step s es).map abstraction = run abstractStep (abstraction s) es := by
  induction es generalizing s with
  | nil => rfl
  | cons e es ih =>
    rw [run, run, ← hstep s e hs]
    cases ht : step s e with
    | none => rfl
    | some t => exact ih (hinv s e t hs ht)

/-- What is said of each event, in the state it is taken in; the last one may be refused. -/
def labels {β : Type*} (step : σ → ε → Option σ) (label : σ → ε → β) : σ → List ε → List β
  | _, [] => []
  | s, e :: es => label s e :: (step s e).elim [] fun t => labels step label t es

/-- The abstract machine does by the label of the event what the step does, and the invariant holds of the next
state. -/
structure Follows {τ β : Type*} (step : σ → ε → Option σ) (abstractStep : τ → β → Option τ) (label : σ → ε → β)
    (abstraction : σ → τ) (inv : σ → Prop) (s : σ) (e : ε) : Prop where
  abstract : (step s e).map abstraction = abstractStep (abstraction s) (label s e)
  inv : ∀ t, step s e = some t → inv t

section Labels

variable {τ β : Type*} {abstractStep : τ → β → Option τ} {label : σ → ε → β} {abstraction : σ → τ} {inv : σ → Prop}
  {s t : σ} {e : ε}

theorem Follows.of_taken (hstep : step s e = some t)
    (habstract : abstractStep (abstraction s) (label s e) = some (abstraction t)) (ht : inv t) :
    Follows step abstractStep label abstraction inv s e where
  abstract := by rw [hstep, habstract, Option.map_some]
  inv u hu := by
    obtain rfl := Option.some.inj (hstep.symm.trans hu)
    exact ht

theorem Follows.of_refused (hstep : step s e = none) (habstract : abstractStep (abstraction s) (label s e) = none) :
    Follows step abstractStep label abstraction inv s e where
  abstract := by rw [hstep, habstract, Option.map_none]
  inv u hu := nomatch hstep.symm.trans hu

/-- Where the abstract machine follows each step, it follows a run. -/
theorem run_follows (hstep : ∀ s e, inv s → Follows step abstractStep label abstraction inv s e) {s : σ} (hs : inv s)
    (es : List ε) :
    (run step s es).map abstraction = run abstractStep (abstraction s) (labels step label s es) := by
  induction es generalizing s with
  | nil => rfl
  | cons e es ih =>
    rw [run, labels, run, ← (hstep s e hs).abstract]
    cases ht : step s e with
    | none => rfl
    | some t => exact ih ((hstep s e hs).inv t ht)

end Labels

theorem Visits.first {good : σ → Prop} {s : σ} {es : List ε} (h : Visits step good s es) : good s := by
  cases es with
  | nil => exact h
  | cons => exact h.1

/-- An invariant that every step keeps holds of each state a run passes through, and with it what follows
from it. -/
theorem visits_of_inv (inv : σ → Prop) {good : σ → Prop} (hgood : ∀ s, inv s → good s)
    (hstep : ∀ s e t, inv s → step s e = some t → inv t) {s : σ} (es : List ε) (hs : inv s) :
    Visits step good s es := by
  induction es generalizing s with
  | nil => exact hgood s hs
  | cons e es ih => exact ⟨hgood s hs, fun t ht => ih (hstep s e t hs ht)⟩

/-- While a run is good its invariant holds. Where the next state is good only if the condition
holds, and keeps the invariant if it does, the run stays good exactly when all its steps meet the
condition. -/
theorem visits_iff_along_of_inv (inv : σ → Prop) {ok : σ → ε → Prop} {good : σ → Prop}
    (hgood : ∀ s, inv s → good s) (hkeep : ∀ s e t, inv s → ok s e → step s e = some t → inv t)
    (hneed : ∀ s e t, inv s → step s e = some t → good t → ok s e)
    {s : σ} (es : List ε) (hs : inv s) : Visits step good s es ↔ Along step ok s es := by
  induction es generalizing s with
  | nil => exact iff_of_true (hgood s hs) trivial
  | cons e es ih =>
    constructor
    · rintro ⟨_, hv⟩ t ht
      have hok := hneed s e t hs ht (hv t ht).first
      exact ⟨hok, (ih (hkeep s e t hs hok ht)).mp (hv t ht)⟩
    · intro ha
      refine ⟨hgood s hs, fun t ht => ?_⟩
      obtain ⟨hok, hrest⟩ := ha t ht
      exact (ih (hkeep s e t hs hok ht)).mpr hrest

/-- If the condition on a step decides whether the next state is good, then a run stays
good exactly when all its steps meet the condition. -/
theorem visits_iff_along (inv : σ → Prop) {ok : σ → ε → Prop} {good : σ → Prop}
    (hinv : ∀ s e t, inv s → step s e = some t → inv t)
    (hstep : ∀ s e t, inv s → good s → step s e = some t → (good t ↔ ok s e))
    {s : σ} (es : List ε) (hi : inv s) (hs : good s) :
    Visits step good s es ↔ Along step ok s es := by
  refine visits_iff_along_of_inv (fun s => inv s ∧ good s) (fun _ h => h.2) ?_ ?_ es ⟨hi, hs⟩
  · rintro s e t ⟨hi, hs⟩ hok ht
    exact ⟨hinv s e t hi ht, (hstep s e t hi hs ht).mpr hok⟩
  · rintro s e t ⟨hi, hs⟩ ht hg
    exact (hstep s e t hi hs ht).mp hg

end Runs
