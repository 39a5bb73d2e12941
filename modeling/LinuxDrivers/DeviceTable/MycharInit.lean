import LinuxDrivers.Lib.Ledger

/-! `mychar_init` of dram.c and of ioctl.c: the devices of a table are created one after the other. -/
namespace LinuxDrivers.DeviceTable
open Ledger

/-- What is in place between two calls; `misc_mtx` is while it is locked. -/
inductive Resource where
  | chrdev (major : Nat) (name : String)
  | deviceClass (name : String)
  | device (major minor : Nat) (name : String)
  | miscMtx
  deriving DecidableEq, Repr

abbrev ErrPtr := { err : Int // -4095 ≤ err ∧ err < 0 }

/-- What the functions of the kernel return; a pointer that is no error is `none`. -/
structure Answers where
  registerChrdev : Int
  classCreate : Option ErrPtr
  /-- For each minor number. -/
  deviceCreate : Nat → Option ErrPtr

structure Driver where
  devName : String
  className : String
  major : Nat
  /-- The devices are created under `misc_mtx`. -/
  guarded : Bool

abbrev DevnameList := List (Option String)

def Driver.lock (drv : Driver) (a : Account Resource) : Account Resource :=
  if drv.guarded then a.acquire .miscMtx else a

def Driver.unlock (drv : Driver) (a : Account Resource) : Account Resource :=
  if drv.guarded then a.release .miscMtx else a

def createDevices (drv : Driver) (ans : Answers) (minor : Nat) :
    DevnameList → Account Resource → Option ErrPtr × Account Resource
  | [], a => (none, a)
  | none :: entries, a => createDevices drv ans (minor + 1) entries a
  | some name :: entries, a =>
      match ans.deviceCreate minor with
      | none =>
          -- what was locked in front of the loop is unlocked once for each device
          createDevices drv ans (minor + 1) entries (drv.unlock (a.acquire (.device drv.major minor name)))
      | some err =>
          -- the devices created so far stay
          (some err, ((drv.unlock a).release (.deviceClass drv.className)).release (.chrdev drv.major drv.devName))

/-- `mychar_init()`: its result, and what it leaves in place. The loop starts at the minor number 1. -/
def mycharInit (drv : Driver) (table : DevnameList) (ans : Answers) : Int × Account Resource :=
  if ans.registerChrdev < 0 then (ans.registerChrdev, .empty)
  else
    let registered := Account.empty.acquire (.chrdev drv.major drv.devName)
    match ans.classCreate with
    | some err => (err, registered.release (.chrdev drv.major drv.devName))
    | none =>
        let registered := registered.acquire (.deviceClass drv.className)
        match createDevices drv ans 1 (table.drop 1) (drv.lock registered) with
        | (some err, a) => (err, a)
        | (none, a) => (0, a)

end LinuxDrivers.DeviceTable

namespace LinuxDrivers.Dram
open DeviceTable Ledger

def driver : Driver := ⟨"devram", "dram_classname", 123, true⟩

def mycharInit (table : DevnameList) (ans : Answers) : Int × Account Resource :=
  DeviceTable.mycharInit driver table ans

def devnameList : DevnameList := [none, some "dram", none, none, some "dramtest"]

end LinuxDrivers.Dram

namespace LinuxDrivers.Ioctl
open DeviceTable Ledger

def driver : Driver := ⟨"ioctl_dev", "ioctl_classname", 123, false⟩

def mycharInit (table : DevnameList) (ans : Answers) : Int × Account Resource :=
  DeviceTable.mycharInit driver table ans

def devnameList : DevnameList := [none, some "ioctl", none, none, some "ioctl_test"]

end LinuxDrivers.Ioctl

namespace LinuxDrivers.DeviceTable
open Ledger

def namedFrom (minor : Nat) : DevnameList → List (Nat × String)
  | [] => []
  | none :: entries => namedFrom (minor + 1) entries
  | some name :: entries => (minor, name) :: namedFrom (minor + 1) entries

def named (table : DevnameList) : List (Nat × String) := namedFrom 1 (table.drop 1)

theorem mem_namedFrom {minor k : Nat} {name : String} {entries : DevnameList} :
    (k, name) ∈ namedFrom minor entries ↔ ∃ i, k = minor + i ∧ entries[i]? = some (some name) := by
  induction entries generalizing minor with
  | nil => simp [namedFrom]
  | cons entry entries ih =>
    have htail : (k, name) ∈ namedFrom (minor + 1) entries ↔
        ∃ i, k = minor + (i + 1) ∧ (entry :: entries)[i + 1]? = some (some name) := by
      rw [ih]
      simp only [Nat.add_assoc, Nat.add_comm 1, List.getElem?_cons_succ]
    have hsplit : (∃ i, k = minor + i ∧ (entry :: entries)[i]? = some (some name)) ↔
        (k = minor ∧ entry = some name) ∨
          ∃ i, k = minor + (i + 1) ∧ (entry :: entries)[i + 1]? = some (some name) := by
      rw [← Nat.or_exists_add_one]
      simp
    rw [hsplit, ← htail]
    cases entry with
    | none => simp [namedFrom]
    | some first => simp [namedFrom, eq_comm]

theorem mem_named {k : Nat} {name : String} {table : DevnameList} :
    (k, name) ∈ named table ↔ 1 ≤ k ∧ table[k]? = some (some name) := by
  rw [named, mem_namedFrom]
  constructor
  · rintro ⟨i, rfl, hi⟩
    rw [List.getElem?_drop] at hi
    exact ⟨Nat.le_add_right 1 i, hi⟩
  · rintro ⟨hk, hname⟩
    obtain ⟨i, rfl⟩ := Nat.exists_eq_add_of_le hk
    exact ⟨i, rfl, by rw [List.getElem?_drop]; exact hname⟩

section Loop

variable {drv : Driver} {ans : Answers} {minor : Nat} {entries : DevnameList} {a : Account Resource}

theorem device_mem_lock {major k : Nat} {name : String} :
    .device major k name ∈ (drv.lock a).held ↔ .device major k name ∈ a.held := by
  unfold Driver.lock
  split
  · simp
  · rfl

theorem device_mem_unlock {major k : Nat} {name : String} :
    .device major k name ∈ (drv.unlock a).held ↔ .device major k name ∈ a.held := by
  unfold Driver.unlock
  split
  · exact Account.mem_release_of_ne (by simp)
  · rfl

theorem createDevices_nil (drv : Driver) (ans : Answers) (a : Account Resource)
    (h : namedFrom minor entries = []) : createDevices drv ans minor entries a = (none, a) := by
  induction entries generalizing minor with
  | nil => rfl
  | cons entry entries ih =>
    cases entry with
    | none => exact ih h
    | some name => exact absurd h (by simp [namedFrom])

/-- The loop up to its first device; the entries before it are skipped. -/
theorem createDevices_cons (drv : Driver) (ans : Answers) (a : Account Resource) {p : Nat × String}
    {ps : List (Nat × String)} (h : namedFrom minor entries = p :: ps) :
    ∃ rest, namedFrom (p.1 + 1) rest = ps ∧ createDevices drv ans minor entries a =
      match ans.deviceCreate p.1 with
      | none => createDevices drv ans (p.1 + 1) rest (drv.unlock (a.acquire (.device drv.major p.1 p.2)))
      | some err =>
          (some err,
            ((drv.unlock a).release (.deviceClass drv.className)).release (.chrdev drv.major drv.devName)) := by
  induction entries generalizing minor with
  | nil => exact absurd h (by simp [namedFrom])
  | cons entry entries ih =>
    cases entry with
    | none => exact ih h
    | some name =>
      obtain ⟨rfl, rfl⟩ := List.cons.inj h
      exact ⟨entries, rfl, rfl⟩

/-- What acquisitions keep, and releases of anything but devices, every way through the loop keeps. -/
theorem createDevices_keeps {P : Account Resource → Prop} (hacquire : ∀ a r, P a → P (a.acquire r))
    (hrelease : ∀ a r, (∀ major k name, r ≠ .device major k name) → P a → P (a.release r)) (h : P a) :
    P (createDevices drv ans minor entries a).2 := by
  have hunlock : ∀ a, P a → P (drv.unlock a) := by
    intro a ha
    unfold Driver.unlock
    split
    · exact hrelease a _ (by simp) ha
    · exact ha
  induction entries generalizing minor a with
  | nil => exact h
  | cons entry entries ih =>
    cases entry with
    | none => exact ih h
    | some first =>
      rw [createDevices]
      cases ans.deviceCreate minor with
      | none => exact ih (hunlock _ (hacquire a _ h))
      | some err => exact hrelease _ _ (by simp) (hrelease _ _ (by simp) (hunlock a h))

/-- No way through the loop destroys a device. -/
theorem device_mem_createDevices {major k : Nat} {name : String} (h : .device major k name ∈ a.held) :
    .device major k name ∈ (createDevices drv ans minor entries a).2.held := by
  apply createDevices_keeps (P := fun a => .device major k name ∈ a.held) _ _ h
  · exact fun a r ha => List.mem_cons_of_mem r ha
  · exact fun a r hr ha => (Account.mem_release_of_ne (hr major k name).symm).mpr ha

theorem createDevices_strays (h : a.strays ≠ []) : (createDevices drv ans minor entries a).2.strays ≠ [] := by
  apply createDevices_keeps (P := fun a => a.strays ≠ []) _ _ h
  · exact fun _ _ ha => ha
  · exact fun _ _ _ ha => Account.strays_ne_nil_of_release ha

theorem createDevices_fst_eq_none_iff :
    (createDevices drv ans minor entries a).1 = none ↔
      ∀ p ∈ namedFrom minor entries, ans.deviceCreate p.1 = none := by
  induction entries generalizing minor a with
  | nil => simp [createDevices, namedFrom]
  | cons entry entries ih =>
    cases entry with
    | none => exact ih
    | some first =>
      rw [createDevices, namedFrom, List.forall_mem_cons]
      cases hfirst : ans.deviceCreate minor with
      | none => simpa [hfirst] using ih
      | some err => simp

/-- If no device is refused, each entry that is not skipped has one in the end. -/
theorem device_mem_createDevices_iff (h : ∀ p ∈ namedFrom minor entries, ans.deviceCreate p.1 = none)
    {k : Nat} {name : String} :
    .device drv.major k name ∈ (createDevices drv ans minor entries a).2.held ↔
      .device drv.major k name ∈ a.held ∨ (k, name) ∈ namedFrom minor entries := by
  induction entries generalizing minor a with
  | nil => simp [createDevices, namedFrom]
  | cons entry entries ih =>
    cases entry with
    | none => exact ih h
    | some first =>
      obtain ⟨hfirst, hrest⟩ := List.forall_mem_cons.mp h
      rw [createDevices, hfirst, namedFrom]
      dsimp only
      rw [ih hrest, device_mem_unlock, Account.acquire_held, List.mem_cons, List.mem_cons]
      simp only [Resource.device.injEq, Prod.mk.injEq, true_and]
      rw [or_assoc, or_left_comm]

end Loop

end LinuxDrivers.DeviceTable
