import Mathlib.Data.List.Basic

/-! A ledger of resources: what its owner holds, and what was released without being held. -/
namespace Ledger

structure Account (ρ : Type*) where
  /-- One entry for each acquisition not yet released, the last one first. -/
  held : List ρ
  /-- The releases of a resource that was not held at that moment. -/
  strays : List ρ
  deriving DecidableEq, Repr

variable {ρ : Type*}

def Account.empty : Account ρ := ⟨[], []⟩

def Account.acquire (a : Account ρ) (r : ρ) : Account ρ := { a with held := r :: a.held }

def Account.release [DecidableEq ρ] (a : Account ρ) (r : ρ) : Account ρ :=
  if r ∈ a.held then { a with held := a.held.erase r } else { a with strays := a.strays ++ [r] }

theorem Account.eq_empty_iff {a : Account ρ} : a = .empty ↔ a.held = [] ∧ a.strays = [] := by
  cases a
  simp [empty]

@[simp] theorem Account.acquire_held (a : Account ρ) (r : ρ) : (a.acquire r).held = r :: a.held := rfl

variable [DecidableEq ρ]

theorem Account.release_of_mem {a : Account ρ} {r : ρ} (h : r ∈ a.held) :
    a.release r = { a with held := a.held.erase r } := if_pos h

theorem Account.release_of_notMem {a : Account ρ} {r : ρ} (h : r ∉ a.held) :
    a.release r = { a with strays := a.strays ++ [r] } := if_neg h

@[simp] theorem Account.release_acquire (a : Account ρ) (r : ρ) : (a.acquire r).release r = a := by
  rw [release_of_mem (by simp)]
  simp [acquire]

/-- A release passes over what was acquired after the resource it gives back. -/
theorem Account.release_acquire_of_ne {a : Account ρ} {q r : ρ} (hne : q ≠ r) :
    (a.acquire q).release r = (a.release r).acquire q := by
  by_cases hr : r ∈ a.held
  · rw [release_of_mem (by simp [hr]), release_of_mem hr]
    simp [acquire, hne]
  · rw [release_of_notMem (by simp [hr, hne.symm]), release_of_notMem hr]
    rfl

/-- A release leaves the other resources where they are. -/
theorem Account.mem_release_of_ne {a : Account ρ} {q r : ρ} (hne : q ≠ r) :
    q ∈ (a.release r).held ↔ q ∈ a.held := by
  by_cases hr : r ∈ a.held
  · rw [release_of_mem hr]
    exact List.mem_erase_of_ne hne
  · rw [release_of_notMem hr]

/-- What is held once is gone once it is released. -/
theorem Account.notMem_release {a : Account ρ} {r : ρ} (h : a.held.Nodup) : r ∉ (a.release r).held := by
  by_cases hr : r ∈ a.held
  · rw [release_of_mem hr]
    exact h.not_mem_erase
  · rwa [release_of_notMem hr]

theorem Account.nodup_release {a : Account ρ} (r : ρ) (h : a.held.Nodup) : (a.release r).held.Nodup := by
  by_cases hr : r ∈ a.held
  · rw [release_of_mem hr]
    exact h.erase r
  · rwa [release_of_notMem hr]

theorem Account.strays_release_of_mem {a : Account ρ} {r : ρ} (h : r ∈ a.held) :
    (a.release r).strays = a.strays := by
  rw [release_of_mem h]

theorem Account.mem_strays_release_of_ne {a : Account ρ} {q r : ρ} (hne : q ≠ r) :
    q ∈ (a.release r).strays ↔ q ∈ a.strays := by
  by_cases hr : r ∈ a.held
  · rw [release_of_mem hr]
  · rw [release_of_notMem hr]
    simp [hne]

/-- A stray release stays on record. -/
theorem Account.strays_ne_nil_of_release {a : Account ρ} {r : ρ} (h : a.strays ≠ []) :
    (a.release r).strays ≠ [] := by
  by_cases hr : r ∈ a.held
  · rwa [release_of_mem hr]
  · simp [release_of_notMem hr]

theorem Account.strays_of_release_notMem {a : Account ρ} {r : ρ} (h : r ∉ a.held) :
    (a.release r).strays ≠ [] := by
  simp [release_of_notMem h]

/-- Exactly these resources are held, in whatever order they came, and nothing went astray. -/
structure Account.Holds (a : Account ρ) (due : List ρ) : Prop where
  strays : a.strays = []
  held : a.held.Perm due

section Holds

omit [DecidableEq ρ]

theorem Account.Holds.empty : (Account.empty : Account ρ).Holds [] := ⟨rfl, .refl []⟩

theorem Account.Holds.perm {a : Account ρ} {due due' : List ρ} (h : a.Holds due) (hp : due.Perm due') :
    a.Holds due' :=
  ⟨h.strays, h.held.trans hp⟩

theorem Account.Holds.acquire {a : Account ρ} {due : List ρ} (h : a.Holds due) (r : ρ) :
    (a.acquire r).Holds (r :: due) :=
  ⟨h.strays, h.held.cons r⟩

end Holds

/-- A release gives back what is held, whatever went astray before. -/
theorem Account.held_release {a : Account ρ} {r : ρ} {due : List ρ} (h : a.held.Perm (r :: due)) :
    (a.release r).held.Perm due := by
  rw [release_of_mem (h.mem_iff.mpr List.mem_cons_self)]
  have herase := h.erase r
  rwa [List.erase_cons_head] at herase

theorem Account.held_foldl_release {a : Account ρ} (rs : List ρ) {due : List ρ} (h : a.held.Perm (rs ++ due)) :
    (rs.foldl Account.release a).held.Perm due := by
  induction rs generalizing a with
  | nil => exact h
  | cons r rs ih => exact ih (held_release h)

theorem Account.Holds.release {a : Account ρ} {r : ρ} {due : List ρ} (h : a.Holds (r :: due)) :
    (a.release r).Holds due := by
  have hmem : r ∈ a.held := h.held.mem_iff.mpr List.mem_cons_self
  exact ⟨(strays_release_of_mem hmem).trans h.strays, held_release h.held⟩

theorem Account.Holds.foldl_release {a : Account ρ} (rs : List ρ) {due : List ρ} (h : a.Holds (rs ++ due)) :
    (rs.foldl Account.release a).Holds due := by
  induction rs generalizing a with
  | nil => exact h
  | cons r rs ih => exact ih h.release

end Ledger
