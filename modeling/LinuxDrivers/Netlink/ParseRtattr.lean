import Mathlib.Logic.Function.Basic
import LinuxDrivers.Netlink.Wire

/-! `parseRtattr` of netmon: the table of the attributes found in a stretch of memory. -/
namespace LinuxDrivers.Netlink
open ByteMemory

structure Parsed where
  tb : Nat → Option Nat
  headers : List Nat

def Parsed.empty : Parsed := ⟨fun _ => none, []⟩

/-- `RTA_OK` reads the header as soon as the length covers one. -/
def Parsed.look (p : Parsed) (rta : Nat) (len : BitVec 32) : Parsed :=
  if (sizeofRtattr : Int) ≤ len.toInt then { p with headers := p.headers ++ [rta] } else p

def Parsed.store (p : Parsed) (m : Memory UInt8) (max rta : Nat) : Parsed :=
  if rtaType m rta ≤ max then { p with tb := Function.update p.tb (rtaType m rta) (some rta) } else p

def parseLoop (m : Memory UInt8) (max : Nat) (p : Parsed) (rta : Nat) (len : BitVec 32) : Parsed :=
  if RtaOk m rta len then
    parseLoop m max ((p.look rta len).store m max rta)
      (rta + (rtaStride m rta).toNat) (len - rtaStride m rta)
  else p.look rta len
termination_by len.toInt.toNat
decreasing_by
  rename_i h
  exact rtaNext_lt h

def parseRtattr (m : Memory UInt8) (max rta : Nat) (len : BitVec 32) : Parsed :=
  parseLoop m max .empty rta len

theorem parseLoop_ok {m : Memory UInt8} {max rta : Nat} {p : Parsed} {len : BitVec 32} (h : RtaOk m rta len) :
    parseLoop m max p rta len = parseLoop m max ((p.look rta len).store m max rta)
      (rta + roundUp (rtaLen m rta)) (len - rtaStride m rta) := by
  rw [parseLoop, if_pos h, rtaStride_toNat]

theorem parseLoop_stop {m : Memory UInt8} {max rta : Nat} {p : Parsed} {len : BitVec 32}
    (h : ¬ RtaOk m rta len) : parseLoop m max p rta len = p.look rta len := by
  rw [parseLoop, if_neg h]

theorem Parsed.look_headers (p : Parsed) (rta : Nat) {len : BitVec 32} (h : 4 ≤ len.toInt) :
    (p.look rta len).headers = p.headers ++ [rta] := by
  rw [look, if_pos (show (sizeofRtattr : Int) ≤ len.toInt from h)]

theorem Parsed.headers_subset_look (p : Parsed) (rta : Nat) (len : BitVec 32) :
    p.headers ⊆ (p.look rta len).headers := by
  unfold look
  split <;> simp

@[simp] theorem Parsed.store_headers (p : Parsed) (m : Memory UInt8) (max rta : Nat) :
    (p.store m max rta).headers = p.headers := by
  unfold store
  split <;> rfl

/-- A header once looked at stays in the list. -/
theorem headers_subset_parseLoop (m : Memory UInt8) (max : Nat) (p : Parsed) (rta : Nat) (len : BitVec 32) :
    (p.look rta len).headers ⊆ (parseLoop m max p rta len).headers := by
  induction p, rta, len using parseLoop.induct m max with
  | case1 p rta len h ih =>
    rw [parseLoop, if_pos h]
    have hlook := Parsed.headers_subset_look ((p.look rta len).store m max rta)
      (rta + (rtaStride m rta).toNat) (len - rtaStride m rta)
    rw [Parsed.store_headers] at hlook
    exact List.Subset.trans hlook ih
  | case2 p rta len h => rw [parseLoop_stop h]; exact List.Subset.refl _

end LinuxDrivers.Netlink
