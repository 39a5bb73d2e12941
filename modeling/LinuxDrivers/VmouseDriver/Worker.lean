import LinuxDrivers.VmouseDriver.Filter

/-! `vms_func`, the scheduled work: it turns the slot into reports of the virtual mouse. -/
namespace LinuxDrivers.VmouseDriver

/-- `gearbox(key_value, speed, keep_speed)`, returning `*speed` and its statics. -/
def gearbox (keyValue : Int) (speed : BitVec 32) (keepSpeed : Bool) (g : GearStatics) :
    BitVec 32 × GearStatics :=
  match keyValue with
  | keyValUp => (speed, { g with count := 0 })
  | keyValDown =>
      if keepSpeed then (speed, { g with count := 0 })
      else (2, { count := 0, step := 1 })
  | keyValPress =>
      if keepSpeed then (speed, g)
      else
        let count := g.count + 1
        if count = g.step then
          if speed < 64 then (speed <<< 1, { count := 0, step := g.step + 2 })
          else (speed, { g with count := 0 })
        else (speed, { g with count := count })
  | _ => (speed, g)

inductive Axis where
  | x
  | y
  | wheel
  deriving DecidableEq, Repr

inductive Button where
  | left
  | right
  deriving DecidableEq, Repr

inductive Report where
  | rel (axis : Axis) (value : Int)
  | key (button : Button) (value : Int)
  | sync
  deriving DecidableEq, Repr

def reportMove (vms : Vmouse) (dx dy : BitVec 32 → BitVec 32) : Vmouse × List Report :=
  let (speed, gear) := gearbox vms.value vms.moveSpeed vms.keepSpeed vms.gear
  ({ vms with moveSpeed := speed, gear := gear },
    [.rel .x (dx speed).toInt, .rel .y (dy speed).toInt, .sync])

/-- `vms_func(work)`: the new state and what is reported. Unsigned speeds become the `int`
arguments of the report calls. -/
def vmsFunc (vms : Vmouse) : Vmouse × List Report :=
  match vms.eventCode with
  | keyP => reportMove vms (fun _ => 0) (fun speed => -speed)
  | keyN => reportMove vms (fun _ => 0) (fun speed => speed)
  | keyB => reportMove vms (fun speed => -speed) (fun _ => 0)
  | keyF => reportMove vms (fun speed => speed) (fun _ => 0)
  | keyV => (vms, [.rel .wheel (-vms.wheelSpeed).toInt, .sync])
  | keyU => (vms, [.rel .wheel vms.wheelSpeed.toInt, .sync])
  | keySpace => (vms, [.key .left vms.value, .sync])
  | keyM => (vms, [.key .right vms.value, .sync])
  | _ => (vms, [])

/-- The worker reports something exactly for the mouse keys. -/
theorem vmsFunc_acts (vms : Vmouse) : (vmsFunc vms).2.isEmpty = !mouseKey vms.eventCode := by
  unfold vmsFunc mouseKey
  split <;> simp_all [reportMove]

/-- The worker leaves the slot, the modifiers and the pending flag alone. -/
theorem vmsFunc_slot (vms : Vmouse) :
    (vmsFunc vms).1.workPending = vms.workPending ∧ (vmsFunc vms).1.eventCode = vms.eventCode ∧
      (vmsFunc vms).1.value = vms.value ∧ (vmsFunc vms).1.keyStatus = vms.keyStatus ∧
      (vmsFunc vms).1.keepSpeed = vms.keepSpeed := by
  unfold vmsFunc
  split <;> simp [reportMove]

end LinuxDrivers.VmouseDriver
