import Mathlib.Data.List.Basic

/-! `struct vmouse` and `vkbd_filter`, which hands keyboard events to the worker. -/
namespace LinuxDrivers.VmouseDriver

/-! Codes of linux/input-event-codes.h. -/
@[match_pattern] abbrev evKey : Nat := 1
@[match_pattern] abbrev keyU : Nat := 22
@[match_pattern] abbrev keyP : Nat := 25
@[match_pattern] abbrev keyLeftctrl : Nat := 29
@[match_pattern] abbrev keyF : Nat := 33
@[match_pattern] abbrev keyV : Nat := 47
@[match_pattern] abbrev keyB : Nat := 48
@[match_pattern] abbrev keyN : Nat := 49
@[match_pattern] abbrev keyM : Nat := 50
@[match_pattern] abbrev keyLeftalt : Nat := 56
@[match_pattern] abbrev keySpace : Nat := 57
@[match_pattern] abbrev keyCapslock : Nat := 58

/-! The enumeration of key values. -/
@[match_pattern] abbrev keyValUp : Int := 0
@[match_pattern] abbrev keyValDown : Int := 1
@[match_pattern] abbrev keyValPress : Int := 2

structure KeyStatus where
  ctrlKeyDown : Int
  altKeyDown : Int
  capslockKeyDown : Int
  deriving DecidableEq, Repr

structure GearStatics where
  count : Int
  step : Int
  deriving DecidableEq, Repr

/-- `struct vmouse`, less its pointers and its lock, with the statics of `gearbox`.
`workPending` is the state of `work`: queued and not yet run. -/
structure Vmouse where
  workPending : Bool
  value : Int
  eventCode : Nat
  moveSpeed : BitVec 32
  wheelSpeed : BitVec 32
  keepSpeed : Bool
  keyStatus : KeyStatus
  gear : GearStatics
  deriving DecidableEq, Repr

def Vmouse.initial : Vmouse where
  workPending := false
  value := 0
  eventCode := 0
  moveSpeed := 2
  wheelSpeed := 5
  keepSpeed := false
  keyStatus := ⟨0, 0, 0⟩
  gear := ⟨0, 1⟩

def mouseKey : Nat → Bool
  | keyP | keyN | keyB | keyF | keySpace | keyM | keyV | keyU => true
  | _ => false

/-- `schedule_work(&vms->work)`: nothing happens when the work is already pending. -/
def Vmouse.scheduleWork (vms : Vmouse) : Vmouse := { vms with workPending := true }

/-- The first `switch` of the filter; `true` when it returns there. -/
def trackModifiers (vms : Vmouse) (code : Nat) (value : Int) : Bool × Vmouse :=
  match code with
  | keyLeftctrl => (vms.keepSpeed, { vms with keyStatus.ctrlKeyDown := value })
  | keyLeftalt => (vms.keepSpeed, { vms with keyStatus.altKeyDown := value })
  | keyCapslock =>
      let down := vms.keyStatus.capslockKeyDown
      let down := if value = keyValDown then (if down ≠ 0 then 0 else 1) else down
      (false, { vms with keyStatus.capslockKeyDown := down, keepSpeed := decide (down ≠ 0) })
  | _ => (false, vms)

def Vmouse.modifiersDown (vms : Vmouse) : Bool :=
  decide (vms.keyStatus.ctrlKeyDown ≠ 0) && decide (vms.keyStatus.altKeyDown ≠ 0)

/-- `vkbd_filter(handle, type, code, value)`: whether the event is swallowed. -/
def vkbdFilter (vms : Vmouse) (type code : Nat) (value : Int) : Bool × Vmouse :=
  if type = evKey then
    match trackModifiers vms code value with
    | (true, vms) => (true, vms)
    | (false, vms) =>
        if vms.modifiersDown then
          (mouseKey code, { vms with eventCode := code, value := value }.scheduleWork)
        else (false, vms)
  else (false, vms)

def Stores (vms : Vmouse) (type code : Nat) (value : Int) : Bool :=
  decide (type = evKey) && !(trackModifiers vms code value).1 &&
    (trackModifiers vms code value).2.modifiersDown

theorem mouseKey_cases {code : Nat} (h : mouseKey code = true) :
    code = keyP ∨ code = keyN ∨ code = keyB ∨ code = keyF ∨ code = keySpace ∨ code = keyM ∨
      code = keyV ∨ code = keyU := by
  unfold mouseKey at h
  split at h <;> simp_all

theorem trackModifiers_mouseKey {code : Nat} (h : mouseKey code = true) (vms : Vmouse) (value : Int) :
    trackModifiers vms code value = (false, vms) := by
  obtain rfl | rfl | rfl | rfl | rfl | rfl | rfl | rfl := mouseKey_cases h <;> rfl

theorem trackModifiers_slot (vms : Vmouse) (code : Nat) (value : Int) :
    (trackModifiers vms code value).2.workPending = vms.workPending ∧
      (trackModifiers vms code value).2.eventCode = vms.eventCode ∧
      (trackModifiers vms code value).2.value = vms.value := by
  unfold trackModifiers
  split <;> exact ⟨rfl, rfl, rfl⟩

/-- What the first `switch` does to each flag. -/
theorem trackModifiers_status (vms : Vmouse) (code : Nat) (value : Int) :
    let vms' := (trackModifiers vms code value).2
    vms'.keyStatus.ctrlKeyDown = (if code = keyLeftctrl then value else vms.keyStatus.ctrlKeyDown) ∧
      vms'.keyStatus.altKeyDown = (if code = keyLeftalt then value else vms.keyStatus.altKeyDown) ∧
      vms'.keyStatus.capslockKeyDown =
        (if code = keyCapslock ∧ value = keyValDown then
          (if vms.keyStatus.capslockKeyDown ≠ 0 then 0 else 1) else vms.keyStatus.capslockKeyDown) ∧
      vms'.keepSpeed = (if code = keyCapslock then decide (vms'.keyStatus.capslockKeyDown ≠ 0)
        else vms.keepSpeed) := by
  unfold trackModifiers
  split <;> simp_all [keyLeftctrl, keyLeftalt, keyCapslock]

/-- The filter returns early for Ctrl and Alt while `keep_speed` is set. -/
theorem trackModifiers_early (vms : Vmouse) (code : Nat) (value : Int) :
    (trackModifiers vms code value).1 =
      if code = keyLeftctrl ∨ code = keyLeftalt then vms.keepSpeed else false := by
  unfold trackModifiers
  split <;> simp_all [keyLeftctrl, keyLeftalt]

theorem vkbdFilter_ret (vms : Vmouse) (code : Nat) (value : Int) :
    (vkbdFilter vms evKey code value).1 =
      ((trackModifiers vms code value).1 ||
        ((trackModifiers vms code value).2.modifiersDown && mouseKey code)) := by
  simp only [vkbdFilter, if_true]
  rcases trackModifiers vms code value with ⟨_ | _, vms'⟩
  · cases hd : vms'.modifiersDown <;> simp [hd]
  · rfl

/-- Storing the event changes neither the modifiers nor `keep_speed`. -/
theorem vkbdFilter_status (vms : Vmouse) (code : Nat) (value : Int) :
    (vkbdFilter vms evKey code value).2.keyStatus = (trackModifiers vms code value).2.keyStatus ∧
      (vkbdFilter vms evKey code value).2.keepSpeed = (trackModifiers vms code value).2.keepSpeed := by
  simp only [vkbdFilter, if_true]
  rcases trackModifiers vms code value with ⟨_ | _, vms'⟩
  · cases hd : vms'.modifiersDown <;> simp [hd, Vmouse.scheduleWork]
  · exact ⟨rfl, rfl⟩

/-- An event either stores itself in the slot and queues the work, or leaves both alone and
is no swallowed mouse key. -/
theorem vkbdFilter_slot (vms : Vmouse) (type code : Nat) (value : Int) :
    (Stores vms type code value = true ∧
      (vkbdFilter vms type code value).1 = mouseKey code ∧
      (vkbdFilter vms type code value).2.workPending = true ∧
      (vkbdFilter vms type code value).2.eventCode = code ∧
      (vkbdFilter vms type code value).2.value = value) ∨
    (Stores vms type code value = false ∧
      ((vkbdFilter vms type code value).1 && mouseKey code) = false ∧
      (vkbdFilter vms type code value).2.workPending = vms.workPending ∧
      (vkbdFilter vms type code value).2.eventCode = vms.eventCode ∧
      (vkbdFilter vms type code value).2.value = vms.value) := by
  have hslot := trackModifiers_slot vms code value
  by_cases ht : type = evKey
  · cases hmod : trackModifiers vms code value with
    | mk early vms' =>
      rw [hmod] at hslot
      cases early with
      | true =>
        -- the modifier keys themselves are no mouse keys
        have hkey : mouseKey code = false := by
          cases hm : mouseKey code with
          | false => rfl
          | true => rw [trackModifiers_mouseKey hm] at hmod; cases hmod
        right
        simpa [Stores, vkbdFilter, ht, hmod, hkey] using hslot
      | false =>
        by_cases hd : vms'.modifiersDown = true
        · left
          simp [Stores, vkbdFilter, ht, hmod, hd, Vmouse.scheduleWork]
        · right
          simpa [Stores, vkbdFilter, ht, hmod, hd] using hslot
  · right
    simp [Stores, vkbdFilter, ht]

end LinuxDrivers.VmouseDriver
