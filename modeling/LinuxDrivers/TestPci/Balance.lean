import LinuxDrivers.Lib.Runs
import LinuxDrivers.TestPci.Driver

/-! The resources of all devices under any order of probes and removes. -/
namespace LinuxDrivers.TestPci
open Runs Ledger

variable {ι : Type*}

inductive Call (ι : Type*) where
  | probe (i : ι) (answers : Answers)
  | remove (i : ι)
  deriving DecidableEq, Repr

def initial (resources : ι → List Bar) : ι → Device := fun i => .new (resources i)

/-- The driver is probed for a device it is not bound to, and removed from one it is bound to. -/
def step [DecidableEq ι] (s : ι → Device) : Call ι → Option (ι → Device)
  | .probe i answers =>
      if (s i).bound then none
      else
        let result := myDriverProbe (s i) answers
        some (Function.update s i { result.2 with bound := result.1 = 0 })
  | .remove i =>
      if (s i).bound then some (Function.update s i { myDriverRemove (s i) with bound := false })
      else none

/-- Nothing was released that was not held, and without a successful probe in force nothing is
held. -/
def Device.Balanced (d : Device) : Prop :=
  d.account.strays = [] ∧ (d.bound = false → d.account.held = [])

def Balanced (s : ι → Device) : Prop := ∀ i, (s i).Balanced

def Answers.AllSucceed (a : Answers) : Prop :=
  a.enable = 0 ∧ a.region = 0 ∧ a.kzalloc = true ∧ a.ioremap = true ∧ 0 ≤ a.vectors ∧ a.irq = 0

/-- A probe that fails does so before it has reserved the region. -/
def CleanCall : Call ι → Prop
  | .probe _ a => a.enable ≠ 0 ∨ a.region ≠ 0 ∨ a.AllSucceed
  | .remove _ => True

def occupied (bar : Nat) (range : BitVec 64 × BitVec 64) : Account Resource :=
  (((((Account.empty.acquire .enable).acquire (.region bar)).acquire .allocation).acquire
    (.mapping range.1 range.2)).acquire .vectors).acquire (.irq 42)

def Device.Consistent (d : Device) : Prop :=
  (d.bound = false → d.account = .empty) ∧
    (d.bound = true → ∃ range, d.drvdata = some ⟨some range⟩ ∧
      d.account = occupied (d.selectBars ioresourceMem) range)

section Operations

variable (d : Device) (q r : Resource)

@[simp] theorem Device.acquire_account : (d.acquire r).account = d.account.acquire r := rfl

@[simp] theorem Device.release_account : (d.release r).account = d.account.release r := rfl

@[simp] theorem Device.acquire_selectBars (flags : BitVec 64) :
    (d.acquire r).selectBars flags = d.selectBars flags := rfl

@[simp] theorem Device.release_selectBars (flags : BitVec 64) :
    (d.release r).selectBars flags = d.selectBars flags := rfl

@[simp] theorem Device.release_acquire : (d.acquire r).release r = d := by
  cases d
  simp [acquire, release]

theorem releaseDevice_account : (releaseDevice d).account =
    ((d.account.release (.irq 42)).release (.region (d.selectBars ioresourceMem))).release .enable := rfl

theorem writeSampleData_account : (writeSampleData d).account = d.account := by
  unfold writeSampleData
  cases d.drvdata <;> rfl

theorem writeSampleData_drvdata : (writeSampleData d).drvdata = d.drvdata := by
  unfold writeSampleData
  split
  · rfl
  · next h => exact h.symm ▸ rfl

theorem writeSampleData_selectBars (flags : BitVec 64) :
    (writeSampleData d).selectBars flags = d.selectBars flags := by
  unfold writeSampleData
  cases d.drvdata <;> rfl

end Operations

theorem releaseDevice_strays {d : Device} (h : Resource.irq 42 ∉ d.account.held) :
    (releaseDevice d).account.strays ≠ [] := by
  rw [releaseDevice_account]
  apply Account.strays_ne_nil_of_release
  apply Account.strays_ne_nil_of_release
  exact Account.strays_of_release_notMem h

theorem enomem_ne : -enomem ≠ 0 := by decide

theorem eio_ne : -eio ≠ 0 := by decide

section Probe

variable {d : Device} {a : Answers}

/-- Failures of the first two calls leave the device as it was. -/
theorem myDriverProbe_of_unreserved (h : a.enable ≠ 0 ∨ a.region ≠ 0) :
    (myDriverProbe d a).1 ≠ 0 ∧ (myDriverProbe d a).2 = d := by
  unfold myDriverProbe
  by_cases he : a.enable ≠ 0
  · simp [he]
  · have hr := h.resolve_left he
    simp [he, hr]

/-- A later failure ends the probe with an error, and with an interrupt released that was not
requested or with resources kept. -/
theorem myDriverProbe_of_reserved (hd : d.account = .empty) (he : a.enable = 0) (hr : a.region = 0)
    (hn : ¬a.AllSucceed) : (myDriverProbe d a).1 ≠ 0 ∧
      ((myDriverProbe d a).2.account.strays ≠ [] ∨ (myDriverProbe d a).2.account.held ≠ []) := by
  unfold myDriverProbe
  simp only [he, hr, ne_eq, not_true_eq_false, if_false]
  by_cases hk : a.kzalloc = false
  · rw [if_pos hk]
    exact ⟨enomem_ne, .inl (releaseDevice_strays (by simp [hd, Account.empty]))⟩
  rw [if_neg hk]
  by_cases hi : a.ioremap = false
  · rw [if_pos hi]
    exact ⟨eio_ne, .inl (releaseDevice_strays (by simp [hd, Account.empty]))⟩
  rw [if_neg hi]
  unfold setInterrupts
  by_cases hv : a.vectors < 0
  · rw [if_pos hv]
    exact ⟨Int.ne_of_lt hv, .inr (by simp [writeSampleData_account])⟩
  rw [if_neg hv]
  have hq : a.irq ≠ 0 := fun hq =>
    hn ⟨he, hr, by simpa using hk, by simpa using hi, Int.not_lt.mp hv, hq⟩
  rw [if_pos hq]
  exact ⟨hq, .inr (by simp)⟩

theorem myDriverProbe_of_allSucceed (hd : d.account = .empty) (h : a.AllSucceed) :
    (myDriverProbe d a).1 = 0 ∧ ∃ range, (myDriverProbe d a).2.drvdata = some ⟨some range⟩ ∧
      (myDriverProbe d a).2.account =
        occupied ((myDriverProbe d a).2.selectBars ioresourceMem) range := by
  obtain ⟨he, hr, hk, hi, hv, hq⟩ := h
  have hv' : ¬a.vectors < 0 := Int.not_lt.mpr hv
  simp only [myDriverProbe, setInterrupts, he, hr, hk, hi, hv', hq, ne_eq, not_true_eq_false, if_false,
    Bool.true_eq_false]
  refine ⟨trivial, (d.resourceStart 0, d.resourceLen 0), writeSampleData_drvdata _, ?_⟩
  rw [Device.acquire_selectBars, Device.acquire_selectBars, writeSampleData_selectBars,
    Device.acquire_account, Device.acquire_account, writeSampleData_account]
  simp only [Device.acquire_account, hd]
  rfl

/-- The removal gives back what the probe acquired. -/
theorem myDriverRemove_account {range : BitVec 64 × BitVec 64} (hp : d.drvdata = some ⟨some range⟩)
    (hd : d.account = occupied (d.selectBars ioresourceMem) range) :
    (myDriverRemove d).account = .empty := by
  unfold myDriverRemove
  rw [hp, releaseDevice_account]
  simp only [Device.release_account, Device.release_selectBars]
  simp [hd, occupied, Account.release_acquire_of_ne]

end Probe

theorem Device.balanced_of_consistent {d : Device} (h : d.Consistent) : d.Balanced := by
  cases hb : d.bound with
  | false => exact ⟨by rw [h.1 hb]; rfl, fun _ => by rw [h.1 hb]; rfl⟩
  | true =>
    obtain ⟨range, _, hd⟩ := h.2 hb
    exact ⟨by rw [hd]; rfl, fun hf => by simp [hb] at hf⟩

variable [DecidableEq ι]

/-- A step is a probe of an unbound device or the removal of a bound one; no other device changes. -/
theorem step_cases {s t : ι → Device} {call : Call ι} (ht : step s call = some t) :
    (∃ i a, call = .probe i a ∧ (s i).bound = false ∧
        t = Function.update s i { (myDriverProbe (s i) a).2 with bound := (myDriverProbe (s i) a).1 = 0 }) ∨
      ∃ i, call = .remove i ∧ (s i).bound = true ∧
        t = Function.update s i { myDriverRemove (s i) with bound := false } := by
  cases call with
  | probe i a =>
    cases hb : (s i).bound with
    | true => simp [step, hb] at ht
    | false =>
      simp only [step, hb, Bool.false_eq_true, if_false, Option.some.injEq] at ht
      exact .inl ⟨i, a, rfl, hb, ht.symm⟩
  | remove i =>
    cases hb : (s i).bound with
    | false => simp [step, hb] at ht
    | true =>
      simp only [step, hb, if_true, Option.some.injEq] at ht
      exact .inr ⟨i, rfl, hb, ht.symm⟩

theorem consistent_step {s t : ι → Device} {call : Call ι} (hs : ∀ i, (s i).Consistent)
    (hc : CleanCall call) (ht : step s call = some t) : ∀ i, (t i).Consistent := by
  obtain ⟨i, a, rfl, hb, rfl⟩ | ⟨i, rfl, hb, rfl⟩ := step_cases ht
  · refine (Function.forall_update_iff s fun _ d => Device.Consistent d).mpr ⟨?_, fun j _ => hs j⟩
    have hd := (hs i).1 hb
    rcases or_assoc.mpr hc with hf | ha
    · obtain ⟨hne, heq⟩ := myDriverProbe_of_unreserved (d := s i) hf
      exact ⟨fun _ => by simp [heq, hd], fun h => by simp [hne] at h⟩
    · obtain ⟨hz, range, hp, hocc⟩ := myDriverProbe_of_allSucceed hd ha
      exact ⟨fun h => by simp [hz] at h, fun _ => ⟨range, hp, hocc⟩⟩
  · refine (Function.forall_update_iff s fun _ d => Device.Consistent d).mpr ⟨?_, fun j _ => hs j⟩
    obtain ⟨range, hp, hd⟩ := (hs i).2 hb
    exact ⟨fun _ => myDriverRemove_account hp hd, fun h => by simp at h⟩

theorem cleanCall_of_balanced {s t : ι → Device} {call : Call ι} (hs : ∀ i, (s i).Consistent)
    (ht : step s call = some t) (hg : Balanced t) : CleanCall call := by
  obtain ⟨i, a, rfl, hb, rfl⟩ | ⟨i, rfl, -, -⟩ := step_cases ht
  · by_contra hc
    simp only [CleanCall, not_or, not_not] at hc
    obtain ⟨he, hr, hn⟩ := hc
    obtain ⟨hne, hbad⟩ := myDriverProbe_of_reserved ((hs i).1 hb) he hr hn
    have hi := hg i
    rw [Function.update_self] at hi
    rcases hbad with hbad | hbad
    · exact hbad hi.1
    · exact hbad (hi.2 (by simp [hne]))
  · trivial

/-- The resources stay balanced exactly in the runs whose probes succeed, or fail before they have
reserved the region. -/
theorem balanced_iff_cleanCalls (resources : ι → List Bar) (calls : List (Call ι)) :
    Visits step Balanced (initial resources) calls ↔
      Along step (fun _ call => CleanCall call) (initial resources) calls := by
  refine visits_iff_along_of_inv (fun s => ∀ i, (s i).Consistent) ?_ ?_ ?_ calls ?_
  · exact fun s hs i => (s i).balanced_of_consistent (hs i)
  · exact fun s call t hs hc ht => consistent_step hs hc ht
  · exact fun s call t hs ht hg => cleanCall_of_balanced hs ht hg
  · exact fun i => ⟨fun _ => rfl, fun h => Bool.noConfusion h⟩

/-- The allocation fails: the interrupt that was never requested is released. -/
theorem balanced_fails_without_memory :
    ¬∀ (resources : Unit → List Bar) (calls : List (Call Unit)),
      Visits step Balanced (initial resources) calls := by
  intro h
  have hv := h (fun _ => []) [.probe () ⟨0, 0, false, true, 3, 0⟩]
  have hg := (hv.2 _ rfl) ()
  exact absurd hg.1 (by decide)

end LinuxDrivers.TestPci
