import Mathlib.Computability.StateTransition

/-! Loops as deterministic machines that stop at the first state without a successor, and the
rule that finds out from which states they stop. -/
namespace Halting
open StateTransition

variable {σ : Type*} {f : σ → Option σ} {a b : σ}

theorem dom_of_none (h : f a = none) : (eval f a).Dom :=
  Part.dom_iff_mem.mpr ⟨a, mem_eval.mpr ⟨.refl, h⟩⟩

theorem dom_of_some (h : f a = some b) (hb : (eval f b).Dom) : (eval f a).Dom := by
  rw [reaches_eval (.single h)]
  exact hb

/-- A loop that can always go on within a set of states never stops there. -/
theorem not_dom_of_closed (live : σ → Prop) (hlive : ∀ x, live x → ∃ y, f x = some y ∧ live y)
    (ha : live a) : ¬ (eval f a).Dom := by
  intro h
  obtain ⟨c, hc⟩ := Part.dom_iff_mem.mp h
  refine evalInduction (C := fun x => ¬ live x) hc (fun x _ ih hx => ?_) ha
  obtain ⟨y, hy, hly⟩ := hlive x hx
  exact ih y hy hly

/-- Among the states of an invariant the loop stops exactly under a condition that holds at
the end, that no step changes, and under which each step lowers a bound. -/
theorem dom_iff (inv cond : σ → Prop) (bound : σ → Nat) (hinv : ∀ x y, inv x → f x = some y → inv y)
    (hend : ∀ x, inv x → f x = none → cond x)
    (hstep : ∀ x y, inv x → f x = some y → (cond x ↔ cond y))
    (hlow : ∀ x y, inv x → f x = some y → cond x → bound y < bound x) (ha : inv a) :
    (eval f a).Dom ↔ cond a := by
  constructor
  · intro h
    obtain ⟨c, hc⟩ := Part.dom_iff_mem.mp h
    refine evalInduction (C := fun x => inv x → cond x) hc (fun x _ ih hx => ?_) ha
    cases hf : f x with
    | none => exact hend x hx hf
    | some y => exact (hstep x y hx hf).mpr (ih y hf (hinv x y hx hf))
  · intro h
    induction hn : bound a using Nat.strong_induction_on generalizing a with
    | h n ih =>
      cases hf : f a with
      | none => exact dom_of_none hf
      | some y =>
        have hlt := hlow a y ha hf h
        exact dom_of_some hf (ih _ (hn ▸ hlt) (hinv a y ha hf) ((hstep a y ha hf).mp h) rfl)

/-- A run of the loop to its end: the states it takes a pass from, and the one it stops in. -/
inductive Passes (f : σ → Option σ) : σ → List σ → σ → Prop
  | stop {a : σ} (h : f a = none) : Passes f a [] a
  | pass {a b c : σ} {ps : List σ} (h : f a = some b) (hrest : Passes f b ps c) : Passes f a (a :: ps) c

theorem Passes.mem_eval {c : σ} {ps : List σ} (h : Passes f a ps c) : c ∈ eval f a := by
  induction h with
  | stop h => exact StateTransition.mem_eval.mpr ⟨.refl, h⟩
  | pass h _ ih =>
    rw [reaches_eval (.single h)]
    exact ih

theorem Passes.unique {c d : σ} {ps qs : List σ} (h : Passes f a ps c) (h' : Passes f a qs d) :
    ps = qs ∧ c = d := by
  induction h generalizing qs with
  | stop h =>
    cases h' with
    | stop => exact ⟨rfl, rfl⟩
    | pass hs => exact absurd (h.symm.trans hs) (by simp)
  | pass h _ ih =>
    cases h' with
    | stop hn => exact absurd (hn.symm.trans h) (by simp)
    | pass hs hrest =>
      obtain rfl := Option.some.inj (h.symm.trans hs)
      obtain ⟨rfl, rfl⟩ := ih hrest
      exact ⟨rfl, rfl⟩

end Halting
