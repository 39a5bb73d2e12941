import LinuxDrivers.Lib.UserCopy
import LinuxDrivers.MessageDevice.Message

/-! Writes and reads of the message by any number of open files: a mailbox for one message. -/
namespace LinuxDrivers.MessageDevice
open ByteMemory CString UserCopy

/-- `dev_read(filep, buffer, len, offset)` of the driver `name`, with the bytes that reached the
user. `len` is not looked at. -/
def devRead (name : String) (dev : Device) (_len : BitVec 64) (accepts : Nat) : Int × List UInt8 × Device :=
  let (uncopied, delivered) :=
    copyToUser (read dev.message 0 (dev.sizeOfMessage.signExtend 64).toNat) accepts
  let errorCount := BitVec.ofNat 32 uncopied
  if errorCount = 0 then
    let log := name ++ ": Sent " ++ toString dev.sizeOfMessage.toInt ++ " characters to the user"
    (0, delivered, { dev with sizeOfMessage := 0, log := dev.log ++ [log] })
  else
    let log := name ++ ": Failed to send " ++ toString errorCount.toInt ++ " characters to the user"
    (-efault, delivered, { dev with log := dev.log ++ [log] })

def Mychar.devRead := MessageDevice.devRead "MyChar"

def Ioctl.devRead := MessageDevice.devRead "ioctl_dev"

structure Driver where
  write : Device → List UInt8 → BitVec 64 → Option (Int × Device)
  read : Device → BitVec 64 → Nat → Int × List UInt8 × Device

def mychar : Driver := ⟨Mychar.devWrite, Mychar.devRead⟩

def ioctl : Driver := ⟨Ioctl.devWrite, Ioctl.devRead⟩

inductive Call where
  | write (file : Nat) (buffer : List UInt8) (len : BitVec 64)
  | read (file : Nat) (len : BitVec 64) (accepts : Nat)

structure Done where
  call : Call
  ret : Int
  delivered : List UInt8

def Driver.call (drv : Driver) (dev : Device) : Call → Option (Done × Device)
  | .write file buffer len =>
    (drv.write dev buffer len).map fun (ret, dev) => (⟨.write file buffer len, ret, []⟩, dev)
  | .read file len accepts =>
    let (ret, delivered, dev) := drv.read dev len accepts
    some (⟨.read file len accepts, ret, delivered⟩, dev)

def Driver.run (drv : Driver) (dev : Device) : List Call → Option (List Done × Device)
  | [] => some ([], dev)
  | call :: calls => do
    let (d, dev) ← drv.call dev call
    let (done, dev) ← drv.run dev calls
    some (d :: done, dev)

/-- The formatted message of a write has at most 255 bytes. -/
def Call.Fits : Call → Prop
  | .write _ buffer len => ∃ s, cString buffer = some s ∧ (letters s len).length ≤ 255
  | .read .. => True

def owe (text : List UInt8) (d : Done) : List UInt8 :=
  match d.call with
  | .write _ buffer len => (cString buffer).elim [] (letters · len)
  | .read .. => if d.ret = 0 then [] else text

def owed (history : List Done) : List UInt8 := history.foldl owe []

structure Holds (dev : Device) (text : List UInt8) : Prop where
  small : text.length ≤ 255
  size : dev.sizeOfMessage.toInt = text.length
  message : read dev.message 0 text.length = text

/-- A read delivers the message owed where the memory of the user takes it, and fails where it does not. -/
def Delivers (text : List UInt8) (d : Done) : Prop :=
  match d.call with
  | .write .. => True
  | .read _ _ accepts =>
      if text.length ≤ accepts then d.ret = 0 ∧ d.delivered = text
      else d.ret = -efault ∧ d.delivered = text.take accepts

theorem Holds.initial : Holds .initial [] := ⟨by decide, by decide, rfl⟩

/-- A `short` that is not negative keeps its value as an `unsigned long`. -/
theorem Holds.bytes {dev : Device} {text : List UInt8} (h : Holds dev text) :
    read dev.message 0 (dev.sizeOfMessage.signExtend 64).toNat = text := by
  have hext : (dev.sizeOfMessage.signExtend 64).toInt = text.length := by
    rw [BitVec.toInt_signExtend_of_le (by decide), h.size]
  have hcond := BitVec.toInt_eq_toNat_cond (dev.sizeOfMessage.signExtend 64)
  have hsmall := h.small
  have hlt := (dev.sizeOfMessage.signExtend 64).isLt
  have hn : (dev.sizeOfMessage.signExtend 64).toNat = text.length := by
    split at hcond <;> omega
  rw [hn, h.message]

/-- A read that the user buffer takes delivers the message and clears it; one that faults leaves it. -/
theorem devRead_holds {dev : Device} {text : List UInt8} (h : Holds dev text) (name : String) (len : BitVec 64)
    (accepts : Nat) :
    (text.length ≤ accepts ∧ (devRead name dev len accepts).1 = 0 ∧ (devRead name dev len accepts).2.1 = text ∧
      Holds (devRead name dev len accepts).2.2 []) ∨
    (accepts < text.length ∧ (devRead name dev len accepts).1 = -efault ∧
      (devRead name dev len accepts).2.1 = text.take accepts ∧ Holds (devRead name dev len accepts).2.2 text) := by
  have hsmall := h.small
  have hzero : BitVec.ofNat 32 (text.length - accepts) = 0 ↔ text.length ≤ accepts := by
    have hof : (BitVec.ofNat 32 (text.length - accepts)).toNat = text.length - accepts := by
      rw [BitVec.toNat_ofNat, Nat.mod_eq_of_lt (by omega)]
    rw [← BitVec.toNat_inj, hof]
    exact Nat.sub_eq_zero_iff_le
  simp only [devRead, copyToUser, h.bytes]
  by_cases hall : text.length ≤ accepts
  · left
    rw [if_pos (hzero.mpr hall)]
    exact ⟨hall, rfl, List.take_of_length_le hall, by decide, rfl, rfl⟩
  · right
    rw [if_neg (fun hz => hall (hzero.mp hz))]
    exact ⟨Nat.lt_of_not_le hall, rfl, rfl, h.small, h.size, h.message⟩

/-- A failed read leaves the message for the next one. -/
theorem devRead_failed (name : String) (dev : Device) (len : BitVec 64) (accepts : Nat)
    (h : (devRead name dev len accepts).1 ≠ 0) :
    (devRead name dev len accepts).2.2.message = dev.message ∧
      (devRead name dev len accepts).2.2.sizeOfMessage = dev.sizeOfMessage := by
  simp only [devRead] at h ⊢
  split
  · rename_i hz
    rw [if_pos hz] at h
    exact absurd rfl h
  · exact ⟨rfl, rfl⟩

def Driver.named (name : String) : Driver := ⟨MessageDevice.devWrite name, MessageDevice.devRead name⟩

theorem devWrite_holds {name : String} {dev dev' : Device} {buffer : List UInt8} {len : BitVec 64} {ret : Int}
    (h : devWrite name dev buffer len = some (ret, dev')) :
    Holds dev' ((cString buffer).elim [] (letters · len)) := by
  obtain ⟨s, hs, hsmall, _, hmessage, hsize⟩ := devWrite_eq_some h
  rw [hs]
  exact ⟨hsmall, hsize, hmessage⟩

theorem call_holds (name : String) {dev : Device} {text : List UInt8} (h : Holds dev text) {call : Call}
    (hfits : call.Fits) :
    ∃ d dev', (Driver.named name).call dev call = some (d, dev') ∧ d.call = call ∧ Delivers text d ∧
      Holds dev' (owe text d) := by
  cases call with
  | write file buffer len =>
    obtain ⟨s, hs, hle⟩ := hfits
    obtain ⟨dev', hrun⟩ := devWrite_isSome hs hle name dev
    refine ⟨⟨.write file buffer len, len.toInt, []⟩, dev', ?_, rfl, trivial, devWrite_holds hrun⟩
    simp only [Driver.call, Driver.named, hrun]
    rfl
  | read file len accepts =>
    generalize hr : devRead name dev len accepts = r
    have hread := devRead_holds h name len accepts
    rw [hr] at hread
    refine ⟨⟨.read file len accepts, r.1, r.2.1⟩, r.2.2, ?_, rfl, ?_⟩
    · simp only [Driver.call, Driver.named, hr]
    · rcases hread with ⟨htakes, hret, hbytes, hdev⟩ | ⟨hfaults, hret, hbytes, hdev⟩
      · rw [owe, if_pos hret]
        refine ⟨?_, hdev⟩
        simp only [Delivers, if_pos htakes]
        exact ⟨hret, hbytes⟩
      · have hne : r.1 ≠ 0 := by rw [hret]; decide
        rw [owe, if_neg hne]
        refine ⟨?_, hdev⟩
        simp only [Delivers, if_neg (Nat.not_le_of_lt hfaults)]
        exact ⟨hret, hbytes⟩

/-- From a device that holds a message, every read of a run delivers what is owed when it comes. -/
theorem run_holds (name : String) {calls : List Call} (hfits : ∀ call ∈ calls, call.Fits) {dev : Device}
    {text : List UInt8} (h : Holds dev text) :
    ∃ done dev', (Driver.named name).run dev calls = some (done, dev') ∧ done.map Done.call = calls ∧
      Holds dev' (done.foldl owe text) ∧
      ∀ before d after, done = before ++ d :: after → Delivers (before.foldl owe text) d := by
  induction calls generalizing dev text with
  | nil => exact ⟨[], dev, rfl, rfl, h, fun before d after hd => by simp at hd⟩
  | cons call calls ih =>
    obtain ⟨d, dev₁, hcall, hsame, hdel, hdev₁⟩ := call_holds name h (hfits call List.mem_cons_self)
    obtain ⟨done, dev', hrun, hcalls, hdev', hall⟩ :=
      ih (fun c hc => hfits c (List.mem_cons_of_mem call hc)) hdev₁
    refine ⟨d :: done, dev', ?_, by rw [List.map_cons, hsame, hcalls], hdev', ?_⟩
    · rw [Driver.run, hcall]
      simp only [Option.bind_eq_bind, Option.bind_some, hrun]
    · intro before d' after hd
      cases before with
      | nil =>
        obtain ⟨rfl, rfl⟩ := List.cons.inj hd
        exact hdel
      | cons d₀ before =>
        obtain ⟨rfl, hrest⟩ := List.cons.inj hd
        exact hall before d' after hrest

/-- From load on, a read delivers exactly the message of the last write when no read has succeeded
since then, and nothing otherwise, unless the memory of its user does not take it; then it fails, and
changes neither the message nor its length. -/
theorem mailbox_consumes_once (calls : List Call) (hfits : ∀ call ∈ calls, call.Fits) :
    ∀ drv ∈ [mychar, ioctl],
      (∃ done dev, drv.run .initial calls = some (done, dev) ∧ done.map Done.call = calls ∧
        ∀ before d after, done = before ++ d :: after → Delivers (owed before) d) ∧
      ∀ dev len accepts, (drv.read dev len accepts).1 ≠ 0 →
        (drv.read dev len accepts).2.2.message = dev.message ∧
          (drv.read dev len accepts).2.2.sizeOfMessage = dev.sizeOfMessage := by
  intro drv hdrv
  obtain ⟨name, rfl⟩ : ∃ name, drv = Driver.named name := by
    simp only [List.mem_cons, List.not_mem_nil, or_false] at hdrv
    rcases hdrv with rfl | rfl
    · exact ⟨"MyChar", rfl⟩
    · exact ⟨"ioctl_dev", rfl⟩
  obtain ⟨done, dev, hrun, hcalls, _, hall⟩ := run_holds name hfits Holds.initial
  exact ⟨⟨done, dev, hrun, hcalls, hall⟩, devRead_failed name⟩

/-- A message, a shorter one over it, a read that faults and two that do not. -/
theorem mailbox_consumes_once_overwritten :
    let calls : List Call := [.write 0 [104, 101, 108, 108, 111, 0] 5, .write 1 [104, 105, 0] 2, .read 0 256 3,
      .read 1 256 256, .read 0 256 256]
    (∀ call ∈ calls, call.Fits) ∧ ∃ done dev, mychar.run .initial calls = some (done, dev) ∧
      ∀ before d after, done = before ++ d :: after → Delivers (owed before) d := by
  intro calls
  have hfits : ∀ call ∈ calls, call.Fits := by
    intro call hc
    simp only [calls, List.mem_cons, List.not_mem_nil, or_false] at hc
    rcases hc with rfl | rfl | rfl | rfl | rfl
    · exact ⟨[104, 101, 108, 108, 111], by decide, by decide⟩
    · exact ⟨[104, 105], by decide, by decide⟩
    all_goals trivial
  obtain ⟨⟨done, dev, hrun, _, hall⟩, _⟩ := mailbox_consumes_once calls hfits mychar List.mem_cons_self
  exact ⟨hfits, done, dev, hrun, hall⟩

end LinuxDrivers.MessageDevice
