import LinuxDrivers.VmouseDriver.Gearbox
import LinuxDrivers.VmouseDriver.WheelSpeed

/-! The packets the virtual mouse reports while keyboard events, runs of the worker and writes to
`wheel_speed` come in any order, against what the events ask for. -/
namespace LinuxDrivers.VmouseDriver
open Runs

inductive Input where
  | event (type code : Nat) (value : Int)
  | worker
  | store (s : Store)

structure Mouse where
  vms : Vmouse
  packets : List (List Report)

def Mouse.initial : Mouse := ⟨.initial, []⟩

def Mouse.step (m : Mouse) : Input → Option Mouse
  | .event type code value => some { m with vms := (vkbdFilter m.vms type code value).2 }
  | .worker =>
      if m.vms.workPending then
        let (vms, reports) := vmsFunc { m.vms with workPending := false }
        some ⟨vms, if reports.isEmpty then m.packets else m.packets ++ [reports]⟩
      else none
  | .store s => some { m with vms := (vmouseWheelSpeedStore m.vms s).2 }

/-- What an event of a mouse key asks for: a step in one of four directions by the speed of some gear, a
turn of the wheel, or the state of a button. -/
def Asks (e : Nat × Int) (packet : List Report) : Prop :=
  let speed (d : Int) := ∃ k, 1 ≤ k ∧ k ≤ 6 ∧ d = 2^k
  let wheel (d : Int) := wheelMinSpeed ≤ d ∧ d ≤ wheelMaxSpeed
  match e.1 with
  | keyP => ∃ d, speed d ∧ packet = [.rel .x 0, .rel .y (-d), .sync]
  | keyN => ∃ d, speed d ∧ packet = [.rel .x 0, .rel .y d, .sync]
  | keyB => ∃ d, speed d ∧ packet = [.rel .x (-d), .rel .y 0, .sync]
  | keyF => ∃ d, speed d ∧ packet = [.rel .x d, .rel .y 0, .sync]
  | keyV => ∃ d, wheel d ∧ packet = [.rel .wheel (-d), .sync]
  | keyU => ∃ d, wheel d ∧ packet = [.rel .wheel d, .sync]
  | keySpace => packet = [.key .left e.2, .sync]
  | keyM => packet = [.key .right e.2, .sync]
  | _ => False

def keyEvents : List Input → List (Nat × Int)
  | [] => []
  | .event type code value :: inputs => if type = evKey then (code, value) :: keyEvents inputs else keyEvents inputs
  | _ :: inputs => keyEvents inputs

def Vmouse.waiting (vms : Vmouse) : List (Nat × Int) :=
  if vms.workPending && mouseKey vms.eventCode then [(vms.eventCode, vms.value)] else []

/-- The speeds are such as `gearbox` and the attribute leave. -/
structure Vmouse.Tuned (vms : Vmouse) : Prop where
  gear : vms.InGear
  wheel : wheelMinSpeed ≤ vms.wheelSpeed.toInt ∧ vms.wheelSpeed.toInt ≤ wheelMaxSpeed

theorem Vmouse.Tuned.initial : Vmouse.initial.Tuned := ⟨⟨1, .first⟩, by decide⟩

theorem trackModifiers_wheel (vms : Vmouse) (code : Nat) (value : Int) :
    (trackModifiers vms code value).2.wheelSpeed = vms.wheelSpeed := by
  unfold trackModifiers
  split <;> rfl

theorem vkbdFilter_wheel (vms : Vmouse) (type code : Nat) (value : Int) :
    (vkbdFilter vms type code value).2.wheelSpeed = vms.wheelSpeed := by
  have hmod := trackModifiers_wheel vms code value
  unfold vkbdFilter
  split
  · split
    · rename_i vms' heq
      rwa [heq] at hmod
    · rename_i vms' heq
      rw [heq] at hmod
      split <;> exact hmod
  · rfl

theorem vmsFunc_wheel (vms : Vmouse) : (vmsFunc vms).1.wheelSpeed = vms.wheelSpeed := by
  unfold vmsFunc
  split <;> rfl

theorem Vmouse.Tuned.event {vms : Vmouse} (h : vms.Tuned) (type code : Nat) (value : Int) :
    (vkbdFilter vms type code value).2.Tuned := by
  obtain ⟨⟨k, hk⟩, hwheel⟩ := h
  obtain ⟨hspeed, hgear⟩ := vkbdFilter_gear vms type code value
  exact ⟨⟨k, by rwa [hspeed, hgear]⟩, by rwa [vkbdFilter_wheel]⟩

theorem Vmouse.Tuned.work {vms : Vmouse} (h : vms.Tuned) : (vmsFunc vms).1.Tuned :=
  ⟨vmsFunc_inGear h.gear, by rw [vmsFunc_wheel]; exact h.wheel⟩

theorem Vmouse.Tuned.store {vms : Vmouse} (h : vms.Tuned) (s : Store) : (vmouseWheelSpeedStore vms s).2.Tuned :=
  ⟨h.gear, store_in_range⟩

section Packet

variable {vms : Vmouse}

/-- What `gearbox` leaves is the speed of a gear. -/
theorem reportMove_speed (h : vms.Tuned) (dx dy : BitVec 32 → BitVec 32) :
    ∃ speed d, (reportMove vms dx dy).2 = [.rel .x (dx speed).toInt, .rel .y (dy speed).toInt, .sync] ∧
      (∃ k, 1 ≤ k ∧ k ≤ 6 ∧ d = (2^k : Int)) ∧ speed.toInt = d ∧ (-speed).toInt = -d := by
  obtain ⟨k, hk⟩ := h.gear
  obtain ⟨k', hk'⟩ := gearbox_inGear hk vms.value vms.keepSpeed
  obtain ⟨hpos, hneg⟩ := hk'.toInt
  exact ⟨_, 2^k', rfl, ⟨k', hk'.low, hk'.high, rfl⟩, hpos, hneg⟩

theorem neg_toInt_of_wheel {speed : BitVec 32} (hlow : wheelMinSpeed ≤ speed.toInt)
    (hhigh : speed.toInt ≤ wheelMaxSpeed) : (-speed).toInt = -speed.toInt := by
  have hlow : 1 ≤ speed.toInt := hlow
  have hhigh : speed.toInt ≤ 7 := hhigh
  rw [BitVec.toInt_neg]
  exact Int.bmod_eq_of_le (by omega) (by omega)

/-- The worker reports what the event in the slot asks for. -/
theorem vmsFunc_asks (h : vms.Tuned) (hkey : mouseKey vms.eventCode = true) :
    Asks (vms.eventCode, vms.value) (vmsFunc vms).2 := by
  have hzero : (0 : BitVec 32).toInt = 0 := rfl
  have hneg := neg_toInt_of_wheel h.wheel.1 h.wheel.2
  unfold vmsFunc Asks
  obtain hcode | hcode | hcode | hcode | hcode | hcode | hcode | hcode := mouseKey_cases hkey <;> rw [hcode]
  · obtain ⟨speed, d, hreport, hd, _, hneg⟩ := reportMove_speed h (fun _ => 0) (fun speed => -speed)
    exact ⟨d, hd, hreport.trans (by rw [hneg, hzero])⟩
  · obtain ⟨speed, d, hreport, hd, hpos, _⟩ := reportMove_speed h (fun _ => 0) (fun speed => speed)
    exact ⟨d, hd, hreport.trans (by rw [hpos, hzero])⟩
  · obtain ⟨speed, d, hreport, hd, _, hneg⟩ := reportMove_speed h (fun speed => -speed) (fun _ => 0)
    exact ⟨d, hd, hreport.trans (by rw [hneg, hzero])⟩
  · obtain ⟨speed, d, hreport, hd, hpos, _⟩ := reportMove_speed h (fun speed => speed) (fun _ => 0)
    exact ⟨d, hd, hreport.trans (by rw [hpos, hzero])⟩
  · rfl
  · rfl
  · exact ⟨vms.wheelSpeed.toInt, h.wheel, congrArg (fun d => [Report.rel .wheel d, .sync]) hneg⟩
  · exact ⟨vms.wheelSpeed.toInt, h.wheel, rfl⟩

/-- A run of the worker empties the slot, and reports what is asked for there. -/
theorem work_asks (h : vms.Tuned) (hw : vms.workPending = false) (packets : List (List Report)) :
    (vmsFunc vms).1.Tuned ∧ (vmsFunc vms).1.waiting = [] ∧
      ∃ causes new, (if (vmsFunc vms).2.isEmpty then packets else packets ++ [(vmsFunc vms).2]) = packets ++ new ∧
        List.Forall₂ Asks causes new ∧
        causes = if mouseKey vms.eventCode then [(vms.eventCode, vms.value)] else [] := by
  refine ⟨h.work, by rw [Vmouse.waiting, (vmsFunc_slot vms).1, hw]; rfl, ?_⟩
  rw [vmsFunc_acts]
  cases hkey : mouseKey vms.eventCode with
  | true => exact ⟨[(vms.eventCode, vms.value)], [(vmsFunc vms).2], rfl, .cons (vmsFunc_asks h hkey) .nil, rfl⟩
  | false => exact ⟨[], [], (List.append_nil _).symm, .nil, rfl⟩

end Packet

theorem keyEvents_singleton (i : Input) (inputs : List Input) :
    keyEvents (i :: inputs) = keyEvents [i] ++ keyEvents inputs := by
  cases i with
  | event type code value =>
    rw [keyEvents, keyEvents]
    split <;> rfl
  | worker => rfl
  | store s => rfl

/-- An input keeps the speeds; and what it makes the worker report, followed by what is then waiting, is
asked for by what was waiting, followed by the event that came. -/
theorem Mouse.step_asks {m n : Mouse} {i : Input} (hm : m.vms.Tuned) (h : m.step i = some n) :
    n.vms.Tuned ∧ ∃ causes packets, n.packets = m.packets ++ packets ∧ List.Forall₂ Asks causes packets ∧
      (causes ++ n.vms.waiting).Sublist (m.vms.waiting ++ keyEvents [i]) := by
  cases i with
  | event type code value =>
    cases h
    refine ⟨hm.event type code value, [], [], (List.append_nil _).symm, .nil, ?_⟩
    rw [List.nil_append]
    rcases vkbdFilter_slot m.vms type code value with ⟨hstores, _, hw, hc, hv⟩ | ⟨_, _, hw, hc, hv⟩
    · have htype : type = evKey := by
        simp only [Stores, Bool.and_eq_true, decide_eq_true_eq] at hstores
        exact hstores.1.1
      subst htype
      refine List.Sublist.trans ?_ (List.sublist_append_right _ _)
      rw [Vmouse.waiting, hw, hc, hv, Bool.true_and, keyEvents, if_pos rfl, keyEvents]
      split
      · exact .refl _
      · exact List.nil_sublist _
    · rw [Vmouse.waiting, hw, hc, hv]
      exact List.sublist_append_left _ _
  | worker =>
    rw [step] at h
    split at h
    · rename_i hpending
      have htuned : Vmouse.Tuned { m.vms with workPending := false } := ⟨hm.gear, hm.wheel⟩
      obtain ⟨hafter, hidle, causes, packets, hpackets, hasks, hcauses⟩ := work_asks htuned rfl m.packets
      have hwaiting : m.vms.waiting = causes := by rw [Vmouse.waiting, hpending, Bool.true_and, hcauses]
      have hvms : n.vms = (vmsFunc { m.vms with workPending := false }).1 :=
        (congrArg Mouse.vms (Option.some.inj h)).symm
      have hreported : n.packets = m.packets ++ packets :=
        (congrArg Mouse.packets (Option.some.inj h)).symm.trans hpackets
      refine ⟨by rw [hvms]; exact hafter, causes, packets, hreported, hasks, ?_⟩
      rw [hwaiting, hvms, hidle, List.append_nil]
      exact List.sublist_append_left _ _
    · cases h
  | store s =>
    cases h
    exact ⟨hm.store s, [], [], (List.append_nil _).symm, .nil, List.sublist_append_left _ _⟩

theorem Mouse.run_asks {m n : Mouse} {inputs : List Input} (hm : m.vms.Tuned)
    (h : run Mouse.step m inputs = some n) :
    ∃ causes packets, n.packets = m.packets ++ packets ∧ List.Forall₂ Asks causes packets ∧
      (causes ++ n.vms.waiting).Sublist (m.vms.waiting ++ keyEvents inputs) := by
  induction inputs generalizing m with
  | nil =>
    cases h
    exact ⟨[], [], (List.append_nil _).symm, .nil, List.sublist_append_left _ _⟩
  | cons i inputs ih =>
    obtain ⟨t, ht, hrest⟩ := run_cons_eq_some.mp h
    obtain ⟨htuned, causes, packets, hpackets, hasks, hsub⟩ := Mouse.step_asks hm ht
    obtain ⟨causes', packets', hpackets', hasks', hsub'⟩ := ih htuned hrest
    refine ⟨causes ++ causes', packets ++ packets', ?_, List.rel_append hasks hasks', ?_⟩
    · rw [hpackets', hpackets, List.append_assoc]
    · rw [keyEvents_singleton, ← List.append_assoc, List.append_assoc]
      refine (hsub'.append_left causes).trans ?_
      rw [← List.append_assoc]
      exact hsub.append_right _

/-- Whatever reaches the driver in whatever order, its packets are, one after the other, what some of the key
events ask for: none is made up, doubled or out of order, and no write to the attribute makes the wheel turn
by more than it may or not at all. -/
theorem packets_asked_for {inputs : List Input} {m : Mouse} (h : run Mouse.step .initial inputs = some m) :
    ∃ causes, causes.Sublist (keyEvents inputs) ∧ List.Forall₂ Asks causes m.packets := by
  obtain ⟨causes, packets, hpackets, hasks, hsub⟩ := Mouse.run_asks .initial h
  refine ⟨causes, (List.sublist_append_left _ _).trans hsub, ?_⟩
  rw [hpackets]
  exact hasks

/-- Ctrl and Alt held, `KEY_U` pressed, a text that is no number written, and the worker run: the wheel
turns by 1, once. -/
theorem packets_asked_for_wheel :
    let inputs : List Input := [.event 1 29 1, .event 1 56 1, .event 1 22 1, .store ⟨[], 0, 0⟩, .worker]
    ∃ m, run Mouse.step .initial inputs = some m ∧ m.packets = [[.rel .wheel 1, .sync]] ∧
      ∃ causes, causes.Sublist (keyEvents inputs) ∧ List.Forall₂ Asks causes m.packets := by
  intro inputs
  exact ⟨_, rfl, by decide, packets_asked_for (show run Mouse.step .initial inputs = some _ from rfl)⟩

/-- In every state a run leads to, what is read from the attribute sets the wheel to the speed it has: written back,
with anything in the local of that call, it changes nothing. -/
theorem shown_speed_written_back {inputs : List Input} {m : Mouse} (h : run Mouse.step .initial inputs = some m)
    (count : Nat) (uninit : BitVec 32) :
    m.step (.store ⟨vmouseWheelSpeedShow m.vms, count, uninit⟩) = some m := by
  have htuned : m.vms.Tuned :=
    invariant_of_run (fun m => m.vms.Tuned) (fun _ _ _ hm hstep => (Mouse.step_asks hm hstep).1) .initial h
  have hsame : (vmouseWheelSpeedStore m.vms ⟨vmouseWheelSpeedShow m.vms, count, uninit⟩).2 = m.vms :=
    store_show htuned.wheel rfl
  rw [Mouse.step, hsame]

/-- After a write of 9, the speed read is 7. -/
theorem shown_speed_written_back_clamped :
    let inputs : List Input := [.store ⟨[57], 1, 0⟩]
    ∃ m, run Mouse.step .initial inputs = some m ∧ vmouseWheelSpeedShow m.vms = [55] ∧
      m.step (.store ⟨vmouseWheelSpeedShow m.vms, 1, 5⟩) = some m := by
  intro inputs
  refine ⟨_, rfl, by decide, shown_speed_written_back (show run Mouse.step .initial inputs = some _ from rfl) 1 5⟩

end LinuxDrivers.VmouseDriver
