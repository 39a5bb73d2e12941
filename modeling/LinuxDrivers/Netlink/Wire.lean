import LinuxDrivers.Lib.LittleEndian

/-! The message and attribute headers of `linux/netlink.h` and `linux/rtnetlink.h` in a
little-endian memory, and the macros that step over them. A pointer is an offset into the
memory; `int` and `unsigned int` are 32 bits wide. -/
namespace LinuxDrivers.Netlink
open ByteMemory LittleEndian

@[match_pattern] abbrev rtmNewlink : Nat := 16
@[match_pattern] abbrev rtmDellink : Nat := 17
@[match_pattern] abbrev rtmNewaddr : Nat := 20
@[match_pattern] abbrev rtmDeladdr : Nat := 21
abbrev rtmNewroute : Nat := 24
abbrev rtmDelroute : Nat := 25

/-- `NLMSG_ALIGN` and `RTA_ALIGN`: both round an `unsigned int` up to a multiple of 4. -/
def align (len : BitVec 32) : BitVec 32 := (len + 3) &&& ~~~3#32

abbrev sizeofNlmsghdr : Nat := 16

abbrev sizeofRtattr : Nat := 4

def nlmsgLen (m : Memory UInt8) (h : Nat) : BitVec 32 := BitVec.ofNat 32 (load m h 4)

def nlmsgType (m : Memory UInt8) (h : Nat) : Nat := load m (h+4) 2

def nlmsgData (h : Nat) : Nat := h + sizeofNlmsghdr

def rtaLen (m : Memory UInt8) (rta : Nat) : Nat := load m rta 2

def rtaType (m : Memory UInt8) (rta : Nat) : Nat := load m (rta+2) 2

def rtaData (rta : Nat) : Nat := rta + sizeofRtattr

/-- `RTA_OK(rta, len)`: the header is read once `len` covers it. -/
def RtaOk (m : Memory UInt8) (rta : Nat) (len : BitVec 32) : Prop :=
  (sizeofRtattr : Int) ≤ len.toInt ∧ sizeofRtattr ≤ rtaLen m rta ∧ (rtaLen m rta : Int) ≤ len.toInt

instance (m : Memory UInt8) (rta : Nat) (len : BitVec 32) : Decidable (RtaOk m rta len) :=
  inferInstanceAs (Decidable (_ ∧ _))

def rtaStride (m : Memory UInt8) (rta : Nat) : BitVec 32 := align (BitVec.ofNat 32 (rtaLen m rta))

def roundUp (n : Nat) : Nat := (n+3)/4*4

theorem roundUp_le (n : Nat) : roundUp n ≤ n + 3 := by
  unfold roundUp
  omega

theorem le_roundUp (n : Nat) : n ≤ roundUp n := by
  unfold roundUp
  omega

theorem four_le_roundUp {n : Nat} (h : 0 < n) : 4 ≤ roundUp n := by
  unfold roundUp
  omega

private theorem testBit_three (i : Nat) : Nat.testBit 3 i = decide (i < 2) := by
  rw [show 3 = 2^2 - 1 by rfl, Nat.testBit_two_pow_sub_one]

private theorem and_not_three (x : BitVec 32) : x &&& ~~~3#32 = (x >>> 2) <<< 2 := by
  apply BitVec.eq_of_getLsbD_eq
  intro i hi
  simp only [BitVec.getLsbD_and, BitVec.getLsbD_not, BitVec.getLsbD_ofNat, testBit_three,
    BitVec.getLsbD_shiftLeft, BitVec.getLsbD_ushiftRight]
  by_cases h : i < 2
  · simp [h, hi]
  · rw [show 2 + (i-2) = i by omega]
    simp [h, hi]

/-- Below the top of the range `align` is rounding up. -/
theorem align_toNat {len : BitVec 32} (h : len.toNat + 3 < 2^32) : (align len).toNat = roundUp len.toNat := by
  have hsum : (len + 3).toNat = len.toNat + 3 := by
    rw [BitVec.toNat_add]
    exact Nat.mod_eq_of_lt h
  rw [align, and_not_three]
  simp only [BitVec.toNat_shiftLeft, BitVec.toNat_ushiftRight, hsum, Nat.shiftRight_eq_div_pow,
    Nat.shiftLeft_eq, roundUp]
  omega

theorem nlmsgLen_toNat (m : Memory UInt8) (h : Nat) : (nlmsgLen m h).toNat = load m h 4 := by
  have hlt := load_lt m h 4
  rw [nlmsgLen, BitVec.toNat_ofNat, Nat.mod_eq_of_lt (by omega)]

theorem rtaLen_lt (m : Memory UInt8) (rta : Nat) : rtaLen m rta < 65536 := load_lt m rta 2

theorem rtaStride_toNat (m : Memory UInt8) (rta : Nat) :
    (rtaStride m rta).toNat = roundUp (rtaLen m rta) := by
  have hlt := rtaLen_lt m rta
  have hof : (BitVec.ofNat 32 (rtaLen m rta)).toNat = rtaLen m rta := by
    rw [BitVec.toNat_ofNat, Nat.mod_eq_of_lt (by omega)]
  rw [rtaStride, align_toNat (by omega), hof]

theorem toInt_of_nonneg {x : BitVec 32} (h : 0 ≤ x.toInt) : x.toInt = x.toNat := by
  rw [BitVec.toInt_eq_toNat_cond] at h ⊢
  split at h <;> simp_all
  omega

theorem rtaOk_iff {m : Memory UInt8} {rta : Nat} {len : BitVec 32} :
    RtaOk m rta len ↔ 4 ≤ len.toInt ∧ 4 ≤ rtaLen m rta ∧ (rtaLen m rta : Int) ≤ len.toInt := Iff.rfl

/-- After `RTA_OK` the rounded length is subtracted without wrapping; the result falls below
zero by at most three. -/
theorem rtaNext_toInt {m : Memory UInt8} {rta : Nat} {len : BitVec 32} (h : RtaOk m rta len) :
    (len - rtaStride m rta).toInt = len.toInt - roundUp (rtaLen m rta) := by
  obtain ⟨hlen, _, hle⟩ := rtaOk_iff.mp h
  have hs := rtaStride_toNat m rta
  have hr := roundUp_le (rtaLen m rta)
  have hlt := rtaLen_lt m rta
  have hpos := toInt_of_nonneg (x := len) (by omega)
  have hbound := BitVec.toInt_lt (x := len)
  have hstride : (rtaStride m rta).toInt = roundUp (rtaLen m rta) := by
    rw [BitVec.toInt_eq_toNat_of_lt (by omega), hs]
  rw [BitVec.toInt_sub, hstride, Int.bmod_eq_of_le (by omega) (by omega)]

/-- Each step over an accepted attribute leaves less to read. -/
theorem rtaNext_lt {m : Memory UInt8} {rta : Nat} {len : BitVec 32} (h : RtaOk m rta len) :
    (len - rtaStride m rta).toInt.toNat < len.toInt.toNat := by
  have hle := le_roundUp (rtaLen m rta)
  have hfour := rtaOk_iff.mp h
  rw [rtaNext_toInt h]
  omega

end LinuxDrivers.Netlink
