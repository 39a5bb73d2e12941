import LinuxDrivers.Lib.Runs
import LinuxDrivers.VmouseDriver.Worker

/-! Loading and unloading the module, step by step, while keyboard events reach the registered
filter and the scheduled work runs at any time. -/
namespace LinuxDrivers.VmouseDriver
open Runs

/-- The next statement of `vmouse_init`, or after `loaded` of `vmouse_exit`. -/
inductive Pc where
  | kzallocVms
  | initVms
  | registerHandler
  | allocateDevice
  | setUpDevice
  | registerDevice
  | createFile
  | loaded
  | unregisterDevice
  | unregisterHandler
  | kfreeVms
  | unloaded
  /-- `vmouse_init` returned an error, so `vmouse_exit` will not be called. -/
  | failed
  /-- `vmouse_init` dereferenced the null pointer of a failed `kzalloc`. -/
  | oops
  deriving DecidableEq, Repr

inductive Object where
  | null
  | live
  /-- The memory is freed, or the device unregistered. -/
  | gone
  deriving DecidableEq, Repr

structure Driver where
  pc : Pc
  /-- The object `vms` points to. -/
  vms : Object
  /-- The device `vms->dev` points to. -/
  dev : Object
  /-- `vkbd_handler` is registered with the input core. -/
  handler : Bool
  /-- The contents of `*vms`. -/
  mouse : Vmouse
  deriving DecidableEq, Repr

inductive Move where
  /-- The next statement of the module; `ok` is the outcome of a call that may fail. -/
  | module (ok : Bool)
  | event (type code : Nat) (value : Int)
  | work
  deriving DecidableEq, Repr

def Driver.initial : Driver := ⟨.kzallocVms, .null, .null, false, .initial⟩

/-- `vmouse_init` and `vmouse_exit`, one statement at a time. The results of
`input_register_device` and `sysfs_create_file` are not looked at. -/
def Driver.moduleStep (s : Driver) (ok : Bool) : Option Driver :=
  match s.pc with
  | .kzallocVms => some { s with pc := .initVms, vms := if ok then .live else .null }
  | .initVms => some (if s.vms = .null then { s with pc := .oops }
      else { s with pc := .registerHandler, mouse := .initial })
  | .registerHandler => some (if ok then { s with pc := .allocateDevice, handler := true }
      else { s with pc := .failed })
  | .allocateDevice => some (if ok then { s with pc := .setUpDevice, dev := .live }
      else { s with pc := .failed, dev := .null })
  | .setUpDevice => some { s with pc := .registerDevice }
  | .registerDevice => some { s with pc := .createFile }
  | .createFile => some { s with pc := .loaded }
  -- module exit starts with `sysfs_remove_file`
  | .loaded => some { s with pc := .unregisterDevice }
  | .unregisterDevice => some { s with
      pc := .unregisterHandler
      dev := if s.dev = .null then .null else .gone }
  | .unregisterHandler => some { s with pc := .kfreeVms, handler := false }
  | .kfreeVms => some { s with pc := .unloaded, vms := .gone }
  | .unloaded | .failed | .oops => none

def Driver.step (s : Driver) : Move → Option Driver
  | .module ok => s.moduleStep ok
  | .event type code value =>
      if s.handler then some { s with mouse := (vkbdFilter s.mouse type code value).2 } else none
  | .work =>
      if s.mouse.workPending then
        some { s with mouse := (vmsFunc { s.mouse with workPending := false }).1 }
      else none

/-- If `vms_func` can run next, it finds `vms` allocated and `vms->dev` a live device. -/
def Driver.WorkSafe (s : Driver) : Prop :=
  (s.step .work).isSome → s.vms = .live ∧ s.dev = .live

/-- No work is scheduled without a live device, and the device is not unregistered while work
is pending. -/
def Driver.Orderly (s : Driver) : Move → Prop
  | .module _ => s.pc = .unregisterDevice → s.mouse.workPending = false
  | .event type code value => Stores s.mouse type code value = true → s.dev = .live
  | .work => True

def Driver.Consistent (s : Driver) : Prop :=
  match s.pc with
  | .kzallocVms => s.dev = .null ∧ s.handler = false ∧ s.mouse.workPending = false
  | .initVms => s.vms ≠ .gone ∧ s.dev = .null ∧ s.handler = false ∧ s.mouse.workPending = false
  | .registerHandler => s.vms = .live ∧ s.dev = .null ∧ s.handler = false ∧ s.mouse.workPending = false
  | .allocateDevice => s.vms = .live ∧ s.dev = .null
  | .setUpDevice | .registerDevice | .createFile | .loaded | .unregisterDevice =>
      s.vms = .live ∧ s.dev = .live
  | .unregisterHandler => s.vms = .live ∧ s.dev = .gone
  | .kfreeVms => s.vms = .live ∧ s.dev = .gone ∧ s.handler = false
  | .unloaded => s.dev = .gone ∧ s.handler = false
  | .failed => s.vms = .live ∧ s.dev = .null
  | .oops => s.dev = .null ∧ s.handler = false ∧ s.mouse.workPending = false

theorem Driver.workSafe_iff (s : Driver) :
    s.WorkSafe ↔ (s.mouse.workPending = true → s.vms = .live ∧ s.dev = .live) := by
  simp only [WorkSafe, step]
  cases s.mouse.workPending <;> simp

theorem Driver.moduleStep_consistent {s t : Driver} {ok : Bool} (hs : s.Consistent)
    (h : s.moduleStep ok = some t) : t.Consistent := by
  unfold Consistent at hs
  cases hpc : s.pc <;> simp only [moduleStep, hpc, Option.some.injEq, reduceCtorEq] at h hs <;> subst h
  case kzallocVms => cases ok <;> simp_all [Consistent]
  case initVms => by_cases hv : s.vms = .null <;> cases hx : s.vms <;> simp_all [Consistent, Vmouse.initial]
  case registerHandler => cases ok <;> simp_all [Consistent]
  case allocateDevice => cases ok <;> simp_all [Consistent]
  all_goals simp_all [Consistent]

/-- While the handler is registered, `vms` is allocated. -/
theorem Driver.Consistent.vms_live {s : Driver} (hs : s.Consistent) (h : s.handler = true) : s.vms = .live := by
  unfold Consistent at hs
  cases hpc : s.pc <;> simp_all

/-- Consistency does not look at the contents of `*vms`, as long as no work appears before
the handler is registered. -/
theorem Driver.Consistent.with_mouse {s : Driver} (hs : s.Consistent) (v : Vmouse)
    (h : s.handler = true ∨ v.workPending = false) : ({ s with mouse := v } : Driver).Consistent := by
  unfold Consistent at hs ⊢
  cases hpc : s.pc <;> simp_all

theorem Driver.step_consistent {s t : Driver} {m : Move} (hs : s.Consistent) (h : s.step m = some t) :
    t.Consistent := by
  cases m with
  | module ok => exact Driver.moduleStep_consistent hs h
  | event type code value =>
    simp only [step] at h
    split at h
    · rename_i hh
      cases h
      exact hs.with_mouse _ (.inl hh)
    · cases h
  | work =>
    simp only [step] at h
    split at h
    · cases h
      exact hs.with_mouse _ (.inr (vmsFunc_slot _).1)
    · cases h

/-- A statement of the module keeps the work safe, unless it unregisters the device under it. -/
theorem Driver.moduleStep_safe {s t : Driver} {ok : Bool} (hs : s.Consistent) (hsafe : s.WorkSafe)
    (h : s.moduleStep ok = some t) :
    t.WorkSafe ↔ (s.pc = .unregisterDevice → s.mouse.workPending = false) := by
  rw [workSafe_iff] at hsafe ⊢
  unfold Consistent at hs
  cases hpc : s.pc <;> simp only [moduleStep, hpc, Option.some.injEq, reduceCtorEq] at h hs <;> subst h
  case initVms => by_cases hv : s.vms = .null <;> simp_all [Vmouse.initial]
  case registerHandler => cases ok <;> simp_all
  case allocateDevice => cases ok <;> simp_all
  all_goals simp_all

theorem Driver.step_safe {s t : Driver} {m : Move} (hs : s.Consistent) (hsafe : s.WorkSafe)
    (h : s.step m = some t) : t.WorkSafe ↔ s.Orderly m := by
  cases m with
  | module ok => exact Driver.moduleStep_safe hs hsafe h
  | event type code value =>
    simp only [step] at h
    split at h
    · rename_i hh
      cases h
      rw [workSafe_iff] at hsafe ⊢
      simp only [Orderly]
      rcases vkbdFilter_slot s.mouse type code value with ⟨hst, _, hw, _⟩ | ⟨hst, _, hw, _⟩
      · simp [hw, hst, hs.vms_live hh]
      · simp only [hw, hst, Bool.false_eq_true, false_imp_iff, iff_true]
        exact hsafe
    · cases h
  | work =>
    simp only [step] at h
    split at h
    · cases h
      rw [workSafe_iff]
      simp only [(vmsFunc_slot _).1, Orderly, Bool.false_eq_true, false_imp_iff]
    · cases h

/-- In every state of a run `vms_func`, should it run next, finds `vms` allocated and
`vms->dev` a live device, exactly when in the run no work was scheduled without a live device
and the device was not unregistered under pending work. -/
theorem work_safe_iff_orderly (moves : List Move) :
    Visits Driver.step Driver.WorkSafe .initial moves ↔ Along Driver.step Driver.Orderly .initial moves :=
  visits_iff_along Driver.Consistent (fun _ _ _ hs h => Driver.step_consistent hs h)
    (fun _ _ _ hs hsafe h => Driver.step_safe hs hsafe h) moves ⟨rfl, rfl, rfl⟩
    (by simp [Driver.workSafe_iff, Driver.initial, Vmouse.initial])

/-- Ctrl+Alt pressed between the registration of the handler and the allocation of the device
schedules the work, which then runs on a null device. -/
theorem work_before_device :
    ¬ ∀ (moves : List Move) (s t : Driver), run Driver.step .initial moves = some s →
      s.step .work = some t → s.vms = .live ∧ s.dev = .live := by
  intro h
  obtain ⟨s, t, hrun, hwork, hdev⟩ : ∃ s t, run Driver.step .initial
      [.module true, .module true, .module true, .event evKey keyLeftctrl 1, .event evKey keyLeftalt 1] =
        some s ∧ s.step .work = some t ∧ s.dev = .null := ⟨_, _, rfl, rfl, rfl⟩
  have hlive := (h _ s t hrun hwork).2
  rw [hdev] at hlive
  cases hlive

end LinuxDrivers.VmouseDriver
