import LinuxDrivers.Lib.Halting
import LinuxDrivers.Netlink.ParseRtattr

/-! netmon's walk over the messages of one received datagram, one pass of the `for` loop a step. -/
namespace LinuxDrivers.Netlink
open ByteMemory LittleEndian StateTransition

abbrev iflaIfname : Nat := 3
abbrev iflaMax : Nat := 64
abbrev ifaLocal : Nat := 2
abbrev ifaMax : Nat := 11

abbrev iffUp : Nat := 0x1
abbrev iffRunning : Nat := 0x40

def iflaRta (ifi : Nat) : Nat := ifi + 16

def ifaRta (ifa : Nat) : Nat := ifa + 8

def ifiFlags (m : Memory UInt8) (ifi : Nat) : Nat := load m (ifi+8) 4

/-- What is printed. A name is the place of its first character, an address the place of the
bytes it was formatted from; `none` is a variable that was never set. -/
inductive Line where
  | invalidLength (len : Int)
  | routingTableChanged
  | addressRemoved (ifName : Option Nat)
  | interfaceRemoved (ifName : Option Nat)
  | newInterface (ifName : Option Nat) (ifUpp ifRunn : String)
  | addressAssigned (ifName ifAddress : Option Nat)
  deriving DecidableEq, Repr

/-- The variables of the loop. `ifName` and `ifAddress` have no initializer and no pass clears
them: each keeps the value that the last pass to set it left behind. -/
structure Walk where
  h : Nat
  status : Int
  ifName : Option Nat
  ifAddress : Option Nat
  printed : List Line
  deriving DecidableEq, Repr

def Walk.start (status : Int) (ifName ifAddress : Option Nat) : Walk := ⟨0, status, ifName, ifAddress, []⟩

def linkAttrs (m : Memory UInt8) (h : Nat) : Parsed :=
  parseRtattr m iflaMax (iflaRta (nlmsgData h)) (nlmsgLen m h)

def addrAttrs (m : Memory UInt8) (h : Nat) : Parsed :=
  parseRtattr m ifaMax (ifaRta (nlmsgData h)) (nlmsgLen m h)

def Line.ofType (type : Nat) (ifName ifAddress : Option Nat) (ifUpp ifRunn : String) : Option Line :=
  match type with
  | rtmDeladdr => some (.addressRemoved ifName)
  | rtmDellink => some (.interfaceRemoved ifName)
  | rtmNewlink => some (.newInterface ifName ifUpp ifRunn)
  | rtmNewaddr => some (.addressAssigned ifName ifAddress)
  | _ => none

def Walk.goDeeper (m : Memory UInt8) (w : Walk) : Walk :=
  let ifi := nlmsgData w.h
  let ifName := ((linkAttrs m w.h).tb iflaIfname).map rtaData <|> w.ifName
  let ifUpp := if ifiFlags m ifi &&& iffUp ≠ 0 then "UP" else "DOWN"
  let ifRunn := if ifiFlags m ifi &&& iffRunning ≠ 0 then "RUNNING" else "NOT RUNNING"
  let ifAddress := ((addrAttrs m w.h).tb ifaLocal).map rtaData <|> w.ifAddress
  { w with
    ifName := ifName
    ifAddress := ifAddress
    printed := w.printed ++ (Line.ofType (nlmsgType m w.h) ifName ifAddress ifUpp ifRunn).toList }

def Walk.report (m : Memory UInt8) (w : Walk) : Walk :=
  if nlmsgType m w.h = rtmNewroute ∨ nlmsgType m w.h = rtmDelroute then
    { w with printed := w.printed ++ [.routingTableChanged] }
  else w.goDeeper m

/-- `int l = len - sizeof(*h)`, computed as a `size_t`. -/
def bodyLen (len : BitVec 32) : BitVec 32 := (len.signExtend 64 - 16).setWidth 32

def InvalidLength (len : BitVec 32) (status : Int) : Prop :=
  (bodyLen len).toInt < 0 ∨ status < len.toInt

instance (len : BitVec 32) (status : Int) : Decidable (InvalidLength len status) :=
  inferInstanceAs (Decidable (_ ∨ _))

/-- One pass of the loop, `none` once its condition is false. The `continue` of an invalid
length comes before `status` and `h` are advanced. -/
def Walk.step (m : Memory UInt8) (w : Walk) : Option Walk :=
  if (sizeofNlmsghdr : Int) ≤ w.status then
    let len := nlmsgLen m w.h
    if InvalidLength len w.status then
      some { w with printed := w.printed ++ [.invalidLength len.toInt] }
    else
      some { w.report m with
        status := w.status - (align len).toNat
        h := w.h + (align len).toNat }
  else none

theorem bodyLen_toNat (len : BitVec 32) : (bodyLen len).toNat = (len.toNat + (2^32 - 16)) % 2^32 := by
  have hlt := len.isLt
  rw [bodyLen, BitVec.toNat_setWidth, BitVec.toNat_sub, BitVec.toNat_signExtend,
    BitVec.toNat_setWidth_of_le (by decide)]
  cases len.msb <;> simp <;> omega

/-- The lengths the check lets through: those from the header's size up to what remains, and the
sixteen from `2^31` on, which are negative as an `int` while their body length is not. -/
theorem valid_iff (len : BitVec 32) (status : Int) :
    ¬ InvalidLength len status ↔
      (16 ≤ len.toNat ∧ len.toNat < 2^31 ∧ (len.toNat : Int) ≤ status) ∨
      (2^31 ≤ len.toNat ∧ len.toNat < 2^31 + 16 ∧ (len.toNat : Int) - 2^32 ≤ status) := by
  have hlt := len.isLt
  rw [InvalidLength, BitVec.toInt_eq_toNat_cond, BitVec.toInt_eq_toNat_cond, bodyLen_toNat]
  omega

def nextMsg (m : Memory UInt8) (h : Nat) : Nat := h + roundUp (nlmsgLen m h).toNat

theorem step_eq_none_iff {m : Memory UInt8} {w : Walk} : w.step m = none ↔ w.status < 16 := by
  rw [Walk.step]
  by_cases hs : (sizeofNlmsghdr : Int) ≤ w.status
  · have hle : (16 : Int) ≤ w.status := hs
    rw [if_pos hs]
    by_cases hv : InvalidLength (nlmsgLen m w.h) w.status <;> simp [hv, hle]
  · have hlt : ¬ (16 : Int) ≤ w.status := hs
    rw [if_neg hs]
    simp
    omega

/-- Everything one pass does: it prints about an invalid length and stays where it is, or it
reports on the message and goes to the next one. -/
theorem step_cases {m : Memory UInt8} {w w' : Walk} (h : w.step m = some w') :
    16 ≤ w.status ∧
      ((InvalidLength (nlmsgLen m w.h) w.status ∧
        w' = { w with printed := w.printed ++ [.invalidLength (nlmsgLen m w.h).toInt] }) ∨
      (¬ InvalidLength (nlmsgLen m w.h) w.status ∧
        w' = { w.report m with
          status := w.status - (roundUp (nlmsgLen m w.h).toNat : Nat)
          h := nextMsg m w.h })) := by
  rw [Walk.step] at h
  split at h
  · rename_i hs
    refine ⟨hs, ?_⟩
    dsimp only at h
    split at h
    · rename_i hv
      exact .inl ⟨hv, (Option.some.inj h).symm⟩
    · rename_i hv
      have hlen : (nlmsgLen m w.h).toNat + 3 < 2^32 := by
        have := (valid_iff _ _).mp hv
        omega
      rw [align_toNat hlen] at h
      exact .inr ⟨hv, (Option.some.inj h).symm⟩
  · cases h

/-- The pass over a message of valid length. -/
theorem step_message {m : Memory UInt8} {w : Walk} (hs : 16 ≤ w.status) (hlen : 16 ≤ (nlmsgLen m w.h).toNat)
    (hle : ((nlmsgLen m w.h).toNat : Int) ≤ w.status) (hd : w.status < 2^31) :
    w.step m = some { w.report m with
      status := w.status - (roundUp (nlmsgLen m w.h).toNat : Nat)
      h := nextMsg m w.h } := by
  have hv : ¬ InvalidLength (nlmsgLen m w.h) w.status :=
    (valid_iff _ _).mpr (.inl ⟨hlen, by omega, hle⟩)
  cases h : w.step m with
  | none => exact absurd (step_eq_none_iff.mp h) (by omega)
  | some w' =>
    obtain ⟨_, ⟨hinv, _⟩ | ⟨_, rfl⟩⟩ := step_cases h
    · exact absurd hinv hv
    · rfl

end LinuxDrivers.Netlink
