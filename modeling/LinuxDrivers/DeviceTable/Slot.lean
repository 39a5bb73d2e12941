import Mathlib.Logic.Function.Basic
import LinuxDrivers.DeviceTable.MycharInit
import LinuxDrivers.Lib.Runs

/-! dram.c and ioctl.c on one machine, loaded and unloaded in any order: both register the major number 123 and
create devices with the same numbers. -/
namespace LinuxDrivers.DeviceTable
open Ledger Runs

inductive KernelModule where
  | dram
  | ioctl
  deriving DecidableEq, Repr

def KernelModule.driver : KernelModule → Driver
  | .dram => Dram.driver
  | .ioctl => Ioctl.driver

def KernelModule.table : KernelModule → DevnameList
  | .dram => Dram.devnameList
  | .ioctl => Ioctl.devnameList

abbrev ebusy : Int := 16

def eexist : ErrPtr := ⟨-17, by decide⟩

def Resource.usesMajor (major : Nat) : Resource → Bool
  | .chrdev n _ => n = major
  | _ => false

def Resource.usesNumber (major minor : Nat) : Resource → Bool
  | .device n k _ => n = major ∧ k = minor
  | _ => false

/-- What the functions of the kernel return with these resources in place: a major number, the name of a class or
the number of a device that is taken is refused, and any call may fail for a reason of its own. -/
def answers (held : List Resource) (drv : Driver) (faults : Answers) : Answers where
  registerChrdev := if held.any (Resource.usesMajor drv.major) then -ebusy else faults.registerChrdev
  classCreate := if .deviceClass drv.className ∈ held then some eexist else faults.classCreate
  deviceCreate minor :=
    if held.any (Resource.usesNumber drv.major minor) then some eexist else faults.deviceCreate minor

def mycharExit (drv : Driver) (table : DevnameList) (a : Account Resource) : Account Resource :=
  let a := ((named table).map fun p => Resource.device drv.major p.1 p.2).foldl Account.release (drv.lock a)
  ((drv.unlock a).release (.deviceClass drv.className)).release (.chrdev drv.major drv.devName)

structure System where
  loaded : KernelModule → Bool
  account : Account Resource

def System.initial : System := ⟨fun _ => false, .empty⟩

inductive Move where
  | load (m : KernelModule) (faults : Answers)
  | unload (m : KernelModule)

def System.after (s : System) (m : KernelModule) (result : Int × Account Resource) : System :=
  ⟨Function.update s.loaded m (result.1 = 0),
    ⟨result.2.held ++ s.account.held, s.account.strays ++ result.2.strays⟩⟩

def System.step (s : System) : Move → Option System
  | .load m faults =>
      if s.loaded m then none
      else some (s.after m (mycharInit m.driver m.table (answers s.account.held m.driver faults)))
  | .unload m =>
      if s.loaded m then some ⟨Function.update s.loaded m false, mycharExit m.driver m.table s.account⟩ else none

inductive Slot where
  | free
  | taken (m : KernelModule)
  /-- A device left behind under this name keeps its number for good. -/
  | stuck (name : String)
  deriving DecidableEq, Repr

def Answers.ReachSecond (faults : Answers) : Prop :=
  0 ≤ faults.registerChrdev ∧ faults.classCreate = none ∧ faults.deviceCreate 1 = none

instance (faults : Answers) : Decidable faults.ReachSecond := inferInstanceAs (Decidable (_ ∧ _))

/-- The device with the minor number 1. -/
def KernelModule.firstName : KernelModule → String
  | .dram => "dram"
  | .ioctl => "ioctl"

def Slot.step : Slot → Move → Option Slot
  | .free, .load m faults => some
      (if faults.ReachSecond then if faults.deviceCreate 4 = none then .taken m else .stuck m.firstName else .free)
  | .taken m, .load n _ => if n = m then none else some (.taken m)
  | .stuck name, .load _ _ => some (.stuck name)
  | .taken m, .unload n => if n = m then some .free else none
  | .free, .unload _ => none
  | .stuck _, .unload _ => none

def KernelModule.resources : KernelModule → List Resource
  | .dram => [.device 123 1 "dram", .device 123 4 "dramtest", .deviceClass "dram_classname", .chrdev 123 "devram"]
  | .ioctl => [.device 123 1 "ioctl", .device 123 4 "ioctl_test", .deviceClass "ioctl_classname",
      .chrdev 123 "ioctl_dev"]

def Slot.due : Slot → List Resource
  | .free => []
  | .taken m => m.resources
  | .stuck name => [.device 123 1 name]

def Slot.loaded : Slot → KernelModule → Bool
  | .taken m, n => n = m
  | _, _ => false

def System.slot (s : System) : Slot :=
  if s.loaded .dram then .taken .dram
  else if s.loaded .ioctl then .taken .ioctl
  else
    match s.account.held with
    | .device _ _ name :: _ => .stuck name
    | _ => .free

structure System.Represents (s : System) (slot : Slot) : Prop where
  loaded : s.loaded = slot.loaded
  held : s.account.held.Perm slot.due

theorem System.Represents.slot_eq {s : System} {slot : Slot} (h : s.Represents slot) : s.slot = slot := by
  rw [System.slot, h.loaded]
  cases slot with
  | free => rw [List.perm_nil.mp h.held]; rfl
  | taken m => cases m <;> rfl
  | stuck name => rw [List.perm_singleton.mp h.held]; rfl

/-- What `mychar_init` leaves in place, with the tables of the two files. -/
theorem mycharInit_held (m : KernelModule) (ans : Answers) :
    let result := mycharInit m.driver m.table ans
    (ans.ReachSecond → ans.deviceCreate 4 = none → result.1 = 0 ∧ result.2.held.Perm m.resources) ∧
    (ans.ReachSecond → ans.deviceCreate 4 ≠ none → result.1 ≠ 0 ∧ result.2.held = [.device 123 1 m.firstName]) ∧
    (¬ans.ReachSecond → result.1 ≠ 0 ∧ result.2.held = []) := by
  unfold mycharInit Answers.ReachSecond
  by_cases hchrdev : ans.registerChrdev < 0
  · rw [if_pos hchrdev]
    exact ⟨fun h => absurd h.1 (Int.not_le.mpr hchrdev), fun h => absurd h.1 (Int.not_le.mpr hchrdev),
      fun _ => ⟨Int.ne_of_lt hchrdev, rfl⟩⟩
  · rw [if_neg hchrdev]
    cases hclass : ans.classCreate with
    | some err =>
      refine ⟨fun h => (by cases h.2.1), fun h => (by cases h.2.1), fun _ => ⟨Int.ne_of_lt err.2.2, ?_⟩⟩
      simp [Account.empty]
    | none =>
      have hreach : (0 ≤ ans.registerChrdev ∧ none = (none : Option ErrPtr) ∧ ans.deviceCreate 1 = none) ↔
          ans.deviceCreate 1 = none := by
        simp [Int.not_lt.mp hchrdev]
      rw [hreach]
      cases hfirst : ans.deviceCreate 1 with
      | some err =>
        refine ⟨fun h => (by cases h), fun h => (by cases h), fun _ => ?_⟩
        have hneg : err.val ≠ 0 := Int.ne_of_lt err.2.2
        cases m
        all_goals
          simp only [KernelModule.driver, KernelModule.table, Dram.devnameList, Ioctl.devnameList, List.drop,
            createDevices, hfirst]
          exact ⟨hneg, by rfl⟩
      | none =>
        refine ⟨fun _ hsecond => ?_, fun _ hsecond => ?_, fun h => absurd rfl h⟩
        · cases m
          all_goals
            simp only [KernelModule.driver, KernelModule.table, Dram.devnameList, Ioctl.devnameList, List.drop,
              createDevices, hfirst, hsecond]
            exact ⟨trivial, by decide⟩
        · obtain ⟨err, herr⟩ := Option.ne_none_iff_exists'.mp hsecond
          have hneg : err.val ≠ 0 := Int.ne_of_lt err.2.2
          cases m
          all_goals
            simp only [KernelModule.driver, KernelModule.table, Dram.devnameList, Ioctl.devnameList, List.drop,
              createDevices, hfirst, herr]
            exact ⟨hneg, rfl⟩

section Step

variable {s : System} {slot : Slot}

/-- A module that takes the place of another one is refused. -/
theorem not_reachSecond_of_taken {m n : KernelModule} (h : s.account.held.Perm (Slot.taken m).due) (faults : Answers) :
    ¬(answers s.account.held n.driver faults).ReachSecond := by
  obtain ⟨name, hname⟩ : ∃ name, .chrdev 123 name ∈ m.resources := by
    cases m
    · exact ⟨"devram", by decide⟩
    · exact ⟨"ioctl_dev", by decide⟩
  have hany : s.account.held.any (Resource.usesMajor n.driver.major) = true := by
    refine List.any_eq_true.mpr ⟨_, h.mem_iff.mpr hname, ?_⟩
    cases n <;> rfl
  rintro ⟨hchrdev, -, -⟩
  simp only [answers, hany, if_true] at hchrdev
  exact absurd hchrdev (by decide)

/-- Nor does any module get past a device that was left behind. -/
theorem not_reachSecond_of_stuck {name : String} {n : KernelModule} (h : s.account.held.Perm (Slot.stuck name).due)
    (faults : Answers) : ¬(answers s.account.held n.driver faults).ReachSecond := by
  have hany : s.account.held.any (Resource.usesNumber n.driver.major 1) = true := by
    refine List.any_eq_true.mpr ⟨_, h.mem_iff.mpr List.mem_cons_self, ?_⟩
    cases n <;> rfl
  rintro ⟨-, -, hfirst⟩
  simp only [answers, hany, if_true] at hfirst
  cases hfirst

/-- `mychar_exit` gives back all that the module has in place. -/
theorem mycharExit_held {m : KernelModule} {a : Account Resource} (h : a.held.Perm m.resources) :
    (mycharExit m.driver m.table a).held = [] := by
  cases m with
  | dram =>
    have hlocked : (a.acquire .miscMtx).held.Perm
        ([.device 123 1 "dram", .device 123 4 "dramtest", .miscMtx, .deviceClass "dram_classname",
          .chrdev 123 "devram"] ++ []) := (h.cons _).trans (by decide)
    exact List.perm_nil.mp (Account.held_foldl_release _ hlocked)
  | ioctl =>
    have hheld : a.held.Perm (KernelModule.ioctl.resources ++ []) := h
    exact List.perm_nil.mp (Account.held_foldl_release _ hheld)

theorem after_of_refused (h : s.Represents slot) {m : KernelModule} (hm : s.loaded m = false)
    {result : Int × Account Resource} (hret : result.1 ≠ 0) (hheld : result.2.held = []) :
    (s.after m result).Represents slot := by
  refine ⟨?_, ?_⟩
  · rw [System.after, decide_eq_false hret, ← hm, Function.update_eq_self]
    exact h.loaded
  · rw [System.after, hheld]
    exact h.held

theorem after_of_stuck (h : s.Represents .free) {m : KernelModule} {result : Int × Account Resource}
    (hret : result.1 ≠ 0) (hheld : result.2.held = [.device 123 1 m.firstName]) :
    (s.after m result).Represents (.stuck m.firstName) := by
  refine ⟨?_, ?_⟩
  · rw [System.after, decide_eq_false hret, h.loaded]
    exact Function.update_eq_self m _
  · rw [System.after, hheld, List.perm_nil.mp h.held]
    exact .refl _

theorem after_of_taken (h : s.Represents .free) {m : KernelModule} {result : Int × Account Resource}
    (hret : result.1 = 0) (hheld : result.2.held.Perm m.resources) : (s.after m result).Represents (.taken m) := by
  refine ⟨?_, ?_⟩
  · rw [System.after, decide_eq_true hret, h.loaded]
    funext n
    by_cases hn : n = m
    · subst hn
      simp [Slot.loaded]
    · exact (Function.update_of_ne hn _ _).trans (decide_eq_false hn).symm
  · rw [System.after, List.perm_nil.mp h.held, List.append_nil]
    exact hheld

/-- A load that is not refused as such does to the slot what it does to the system. -/
theorem load_represents (h : s.Represents slot) {m : KernelModule} (hm : s.loaded m = false) (faults : Answers) :
    ∃ slot', slot.step (.load m faults) = some slot' ∧
      (s.after m (mycharInit m.driver m.table (answers s.account.held m.driver faults))).Represents slot' := by
  obtain ⟨hall, hsecond, hnone⟩ := mycharInit_held m (answers s.account.held m.driver faults)
  cases slot with
  | free =>
    have hanswers : answers s.account.held m.driver faults = faults := by
      rw [List.perm_nil.mp h.held]
      rfl
    rw [hanswers] at hall hsecond hnone ⊢
    refine ⟨_, rfl, ?_⟩
    split
    · rename_i hreach
      split
      · rename_i hlast
        exact after_of_taken h (hall hreach hlast).1 (hall hreach hlast).2
      · rename_i hlast
        exact after_of_stuck h (hsecond hreach hlast).1 (hsecond hreach hlast).2
    · rename_i hreach
      exact after_of_refused h hm (hnone hreach).1 (hnone hreach).2
  | taken n =>
    have hne : m ≠ n := by
      rintro rfl
      rw [h.loaded] at hm
      simp [Slot.loaded] at hm
    have hrefused := hnone (not_reachSecond_of_taken h.held faults)
    exact ⟨_, if_neg hne, after_of_refused h hm hrefused.1 hrefused.2⟩
  | stuck name =>
    have hrefused := hnone (not_reachSecond_of_stuck h.held faults)
    exact ⟨_, rfl, after_of_refused h hm hrefused.1 hrefused.2⟩

theorem unload_represents {m : KernelModule} (h : s.Represents (.taken m)) :
    System.Represents ⟨Function.update s.loaded m false, mycharExit m.driver m.table s.account⟩ .free := by
  refine ⟨?_, ?_⟩
  · rw [h.loaded]
    funext n
    by_cases hn : n = m
    · subst hn
      exact Function.update_self _ _ _
    · exact (Function.update_of_ne hn _ _).trans (decide_eq_false hn)
  · rw [mycharExit_held h.held]
    exact .refl _

/-- Each move does to the slot what it does to the system, or is possible on neither. -/
theorem step_represents (h : s.Represents slot) (move : Move) :
    match s.step move with
    | some t => ∃ slot', slot.step move = some slot' ∧ t.Represents slot'
    | none => slot.step move = none := by
  cases move with
  | load m faults =>
    rw [System.step]
    cases hm : s.loaded m with
    | true =>
      rw [h.loaded] at hm
      cases slot with
      | taken n => exact if_pos (of_decide_eq_true hm)
      | free => cases hm
      | stuck name => cases hm
    | false => exact load_represents h hm faults
  | unload m =>
    rw [System.step]
    cases hm : s.loaded m with
    | true =>
      rw [h.loaded] at hm
      cases slot with
      | taken n =>
        obtain rfl : m = n := of_decide_eq_true hm
        exact ⟨.free, if_pos rfl, unload_represents h⟩
      | free => cases hm
      | stuck name => cases hm
    | false =>
      rw [h.loaded] at hm
      cases slot with
      | taken n => exact if_neg (of_decide_eq_false hm)
      | free => rfl
      | stuck name => rfl

end Step

theorem System.initial_represents : System.initial.Represents .free := ⟨rfl, .refl _⟩

theorem step_slot {s : System} (h : s.Represents s.slot) (move : Move) :
    (s.step move).map System.slot = s.slot.step move ∧
      ∀ t, s.step move = some t → t.Represents t.slot := by
  have hstep := step_represents h move
  cases ht : s.step move with
  | none =>
    rw [ht] at hstep
    exact ⟨hstep.symm, fun t h => (by cases h)⟩
  | some t =>
    rw [ht] at hstep
    obtain ⟨slot', hslot, ht'⟩ := hstep
    have heq := ht'.slot_eq
    refine ⟨?_, fun u hu => ?_⟩
    · rw [hslot, Option.map_some, heq]
    · obtain rfl := Option.some.inj hu
      rwa [heq]

/-- dram.c and ioctl.c share the major number like one slot: at most one of them is loaded, the other one is
refused and leaves no trace, an unloaded module leaves nothing in place, and a load that fails at its second device
locks both out for good. -/
theorem modules_share_slot (moves : List Move) :
    (run System.step .initial moves).map System.slot = run Slot.step .free moves ∧
      ∀ s, run System.step .initial moves = some s → s.account.held.Perm s.slot.due := by
  have hinitial : System.initial.Represents System.initial.slot := System.initial_represents
  constructor
  · exact run_refines System.slot (fun s => System.Represents s s.slot) (fun s m t h => (step_slot h m).2 t)
      (fun s m h => (step_slot h m).1) hinitial moves
  · intro s hs
    have hkeep : ∀ s m t, System.Represents s s.slot → s.step m = some t → t.Represents t.slot :=
      fun s m t h => (step_slot h m).2 t
    exact (invariant_of_run (fun s => System.Represents s s.slot) hkeep hinitial hs).held

end LinuxDrivers.DeviceTable
