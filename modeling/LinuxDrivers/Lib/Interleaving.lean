import Mathlib.Logic.Relation

/-! Processes sharing one state, each deterministic when it is its turn.
If any two processes that can both move commute, the schedule does not matter. -/
namespace Interleaving
open Relation

variable {ι σ : Type*}

def Move (step : ι → σ → Option σ) (s t : σ) : Prop := ∃ i, step i s = some t

def Halted (step : ι → σ → Option σ) (s : σ) : Prop := ∀ i, step i s = none

/-- Two processes that can both move can do so in either order, with one result. -/
def Commuting (step : ι → σ → Option σ) (inv : σ → Prop) : Prop :=
  ∀ s i j a b, inv s → i ≠ j → step i s = some a → step j s = some b →
    ∃ c, step j a = some c ∧ step i b = some c

def Preserved (step : ι → σ → Option σ) (inv : σ → Prop) : Prop :=
  ∀ s i t, inv s → step i s = some t → inv t

variable {step : ι → σ → Option σ} {inv : σ → Prop}

theorem Preserved.run (hp : Preserved step inv) {s t : σ} (hs : inv s)
    (h : ReflTransGen (Move step) s t) : inv t := by
  induction h with
  | refl => exact hs
  | tail _ hm ih =>
    obtain ⟨i, hi⟩ := hm
    exact hp _ i _ ih hi

private theorem guarded (hp : Preserved step inv) {s t : σ} (hs : inv s)
    (h : ReflTransGen (Move step) s t) :
    ReflTransGen (fun a b => inv a ∧ Move step a b) s t := by
  induction h with
  | refl => exact .refl
  | tail hr hm ih => exact ih.tail ⟨hp.run hs hr, hm⟩

private theorem diamond (hp : Preserved step inv) (hc : Commuting step inv) (s a b : σ)
    (ha : inv s ∧ Move step s a) (hb : inv s ∧ Move step s b) :
    ∃ c, ReflGen (fun x y => inv x ∧ Move step x y) a c ∧
      ReflTransGen (fun x y => inv x ∧ Move step x y) b c := by
  obtain ⟨hs, i, hi⟩ := ha
  obtain ⟨_, j, hj⟩ := hb
  by_cases hij : i = j
  · subst hij
    rw [hi] at hj
    cases hj
    exact ⟨a, .refl, .refl⟩
  · obtain ⟨c, hjc, hic⟩ := hc s i j a b hs hij hi hj
    exact ⟨c, .single ⟨hp s i a hs hi, j, hjc⟩, .single ⟨hp s j b hs hj, i, hic⟩⟩

private theorem halted_eq {s t : σ} (hs : Halted step s)
    (h : ReflTransGen (fun a b => inv a ∧ Move step a b) s t) : t = s := by
  rcases h.cases_head with rfl | ⟨c, ⟨_, i, hi⟩, _⟩
  · rfl
  · simp [hs i] at hi

/-- All complete interleavings end in one state. -/
theorem outcome_unique (hp : Preserved step inv) (hc : Commuting step inv) {s a b : σ}
    (hs : inv s) (ha : ReflTransGen (Move step) s a) (hb : ReflTransGen (Move step) s b)
    (hha : Halted step a) (hhb : Halted step b) : a = b := by
  obtain ⟨c, hac, hbc⟩ := church_rosser (diamond hp hc) (guarded hp hs ha) (guarded hp hs hb)
  exact (halted_eq hha hac).symm.trans (halted_eq hhb hbc)

end Interleaving
