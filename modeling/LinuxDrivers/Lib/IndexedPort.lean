import Mathlib.Computability.StateTransition
import Mathlib.Logic.Function.Basic
import LinuxDrivers.Lib.Runs

/-! Registers behind an index port: a client stores the number of a register in the port and then reads the
data port. Clients that share the port find each other's registers, unless they keep apart. -/
namespace IndexedPort
open Runs StateTransition

/-- A program that asks for one register after the other, by what it has read so far. -/
structure Client (τ κ ω : Type*) where
  /-- The register asked for next; `none` at the end. -/
  want : τ → Option κ
  take : τ → ω → τ

structure Shared (ι τ κ : Type*) where
  /-- What the index port holds. -/
  index : κ
  /-- The register that a client has stored in the index port and not yet read. -/
  pending : ι → Option κ
  progress : ι → τ

variable {ι τ κ ω : Type*}

def Shared.start (index : κ) (t : τ) : Shared ι τ κ := ⟨index, fun _ => none, fun _ => t⟩

def alone (c : Client τ κ ω) (regs : κ → ω) (t : τ) : Option τ := (c.want t).map fun k => c.take t (regs k)

section Step

variable [DecidableEq ι] (c : Client τ κ ω) (regs : κ → ω)

def step (s : Shared ι τ κ) (i : ι) : Option (Shared ι τ κ) :=
  match s.pending i with
  | none => (c.want (s.progress i)).map fun k => { s with index := k, pending := Function.update s.pending i (some k) }
  | some _ => some { s with
      pending := Function.update s.pending i none
      progress := Function.update s.progress i (c.take (s.progress i) (regs s.index)) }

end Step

/-- Nobody stores an index between another client's store and read. -/
def Undisturbed (s : Shared ι τ κ) (i : ι) : Prop := s.pending i = none → ∀ j, s.pending j = none

structure Shared.Apart (c : Client τ κ ω) (s : Shared ι τ κ) : Prop where
  wanted : ∀ i k, s.pending i = some k → c.want (s.progress i) = some k
  index : ∀ i k, s.pending i = some k → s.index = k

variable {c : Client τ κ ω} {regs : κ → ω}

theorem Shared.Apart.start (index : κ) (t : τ) : (Shared.start index t : Shared ι τ κ).Apart c :=
  ⟨nofun, nofun⟩

variable [DecidableEq ι]

/-- An access stores an index, or takes what a data port with that index yields. -/
theorem step_cases {s t : Shared ι τ κ} {i : ι} (h : step c regs s i = some t) :
    (∃ k, s.pending i = none ∧ c.want (s.progress i) = some k ∧
        t = { s with index := k, pending := Function.update s.pending i (some k) }) ∨
      ∃ k, s.pending i = some k ∧
        t = { s with
          pending := Function.update s.pending i none
          progress := Function.update s.progress i (c.take (s.progress i) (regs s.index)) } := by
  unfold step at h
  split at h
  · rename_i hidle
    obtain ⟨k, hk, rfl⟩ := Option.map_eq_some_iff.mp h
    exact .inl ⟨k, hidle, hk, rfl⟩
  · rename_i k hk
    exact .inr ⟨k, hk, (Option.some.inj h).symm⟩

theorem Shared.Apart.step {s t : Shared ι τ κ} {i : ι} (hs : s.Apart c) (hi : Undisturbed s i)
    (h : IndexedPort.step c regs s i = some t) : t.Apart c := by
  obtain ⟨k, hidle, hk, rfl⟩ | ⟨k, hpending, rfl⟩ := step_cases h
  · have honly : ∀ j l, Function.update s.pending i (some k) j = some l → j = i ∧ l = k := by
      intro j l hj
      by_cases heq : j = i
      · subst heq
        rw [Function.update_self] at hj
        exact ⟨rfl, (Option.some.inj hj).symm⟩
      · rw [Function.update_of_ne heq, hi hidle j] at hj
        cases hj
    constructor
    · intro j l hj
      obtain ⟨rfl, rfl⟩ := honly j l hj
      exact hk
    · intro j l hj
      exact (honly j l hj).2.symm
  · have hother : ∀ j l, Function.update s.pending i none j = some l → j ≠ i ∧ s.pending j = some l := by
      intro j l hj
      by_cases heq : j = i
      · subst heq
        rw [Function.update_self] at hj
        cases hj
      · rw [Function.update_of_ne heq] at hj
        exact ⟨heq, hj⟩
    constructor
    · intro j l hj
      obtain ⟨hne, hj⟩ := hother j l hj
      dsimp only
      rw [Function.update_of_ne hne]
      exact hs.wanted j l hj
    · intro j l hj
      exact hs.index j l (hother j l hj).2

/-- A step moves no client further than it would get alone. -/
theorem reaches_step {s t : Shared ι τ κ} {i : ι} (hs : s.Apart c) (h : step c regs s i = some t) (j : ι) :
    Reaches (alone c regs) (s.progress j) (t.progress j) := by
  obtain ⟨k, _, _, rfl⟩ | ⟨k, hpending, rfl⟩ := step_cases h
  · exact .refl
  · by_cases heq : j = i
    · subst heq
      dsimp only
      rw [Function.update_self, hs.index j k hpending]
      refine .single ?_
      rw [alone, hs.wanted j k hpending]
      rfl
    · dsimp only
      rw [Function.update_of_ne heq]
      exact .refl

/-- Clients that keep apart get on as if each were alone. -/
theorem reaches_of_undisturbed {s t : Shared ι τ κ} {accesses : List ι} (hs : s.Apart c)
    (hok : Along (step c regs) Undisturbed s accesses) (h : run (step c regs) s accesses = some t) (j : ι) :
    Reaches (alone c regs) (s.progress j) (t.progress j) := by
  induction accesses generalizing s with
  | nil =>
    cases h
    exact .refl
  | cons i accesses ih =>
    obtain ⟨u, hu, hrest⟩ := run_cons_eq_some.mp h
    obtain ⟨hi, hok⟩ := hok u hu
    exact (reaches_step hs hu j).trans (ih (hs.step hi hu) hok hrest)

/-- A client that is at its end is where it would end alone. -/
theorem mem_eval_of_undisturbed {index : κ} {start : τ} {t : Shared ι τ κ} {accesses : List ι}
    (hok : Along (step c regs) Undisturbed (.start index start) accesses)
    (h : run (step c regs) (.start index start) accesses = some t) {j : ι} (hend : c.want (t.progress j) = none) :
    t.progress j ∈ eval (alone c regs) start := by
  refine mem_eval.mpr ⟨reaches_of_undisturbed (Shared.Apart.start index start) hok h j, ?_⟩
  rw [alone, hend]
  rfl

/-- Clients that each read a register as soon as they have selected it are undisturbed, in whatever order they take
their turns. -/
theorem along_turns {s : Shared ι τ κ} (hidle : ∀ j, s.pending j = none) (turns : List ι) :
    Along (step c regs) Undisturbed s (turns.flatMap fun i => [i, i]) := by
  induction turns generalizing s with
  | nil => trivial
  | cons i turns ih =>
    intro t ht
    refine ⟨fun _ => hidle, fun u hu => ?_⟩
    obtain ⟨k, -, -, rfl⟩ | ⟨k, hk, -⟩ := step_cases ht
    · have hselected : Function.update s.pending i (some k) i = some k := Function.update_self _ _ _
      obtain ⟨_, hnone, -⟩ | ⟨_, -, rfl⟩ := step_cases hu
      · exact absurd (hselected.symm.trans hnone) (Option.some_ne_none k)
      · refine ⟨fun hnone => absurd (hselected.symm.trans hnone) (Option.some_ne_none k), ih fun j => ?_⟩
        by_cases hj : j = i
        · subst hj
          exact Function.update_self _ _ _
        · exact (Function.update_of_ne hj _ _).trans ((Function.update_of_ne hj _ _).trans (hidle j))
    · exact absurd (hk.symm.trans (hidle i)) (Option.some_ne_none k)

end IndexedPort
