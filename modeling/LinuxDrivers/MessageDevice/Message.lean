import LinuxDrivers.Lib.CString

/-! The message of the drivers mychar, ioctl and dram: `dev_write` formats it into a static buffer,
`dev_read` hands it over. -/
namespace LinuxDrivers.MessageDevice
open ByteMemory CString

abbrev sizeofMessage : Nat := 256

structure Device where
  message : Memory UInt8
  sizeOfMessage : BitVec 16
  log : List String

def Device.initial : Device := ⟨fun _ => 0, 0, []⟩

def letters (s : List UInt8) (len : BitVec 64) : List UInt8 :=
  s ++ ascii ['('] ++ decimal len.toNat ++ ascii [' ', 'l', 'e', 't', 't', 'e', 'r', 's', ')']

/-- `dev_write(filep, buffer, len, offset)` of the driver `name`; `buffer` holds the bytes that can
be read at the pointer of the caller. There is no result when `sprintf` leaves `message` or the
bytes end without a NUL. -/
def devWrite (name : String) (dev : Device) (buffer : List UInt8) (len : BitVec 64) : Option (Int × Device) := do
  let s ← cString buffer
  let message ← storeString sizeofMessage dev.message (letters s len)
  some (len.toInt, {
    message := message
    sizeOfMessage := BitVec.ofNat 16 (strlen message 0 sizeofMessage)
    log := dev.log ++ [name ++ ": Received " ++ toString len.toNat ++ " characters from the user"] })

def Mychar.devWrite := MessageDevice.devWrite "MyChar"

def Ioctl.devWrite := MessageDevice.devWrite "ioctl_dev"

def Dram.devWrite := MessageDevice.devWrite "devram"

def Contained (write : Device → List UInt8 → BitVec 64 → Option (Int × Device)) (dev : Device)
    (buffer : List UInt8) (len : BitVec 64) : Prop :=
  ∃ s ret dev', cString buffer = some s ∧ write dev buffer len = some (ret, dev') ∧
    dev'.sizeOfMessage.toInt = (letters s len).length

theorem letters_length (s : List UInt8) (len : BitVec 64) :
    (letters s len).length = s.length + (Nat.toDigits 10 len.toNat).length + 10 := by
  simp only [letters, decimal, ascii, List.length_append, List.length_map, List.length_cons, List.length_nil]
  omega

theorem zero_notMem_letters {buffer s : List UInt8} (h : cString buffer = some s) (len : BitVec 64) :
    0 ∉ letters s len := by
  have hs := zero_notMem_of_cString h
  have hd := zero_notMem_decimal len.toNat
  simp only [letters, List.mem_append, not_or]
  exact ⟨⟨⟨hs, by decide⟩, hd⟩, by decide⟩

theorem devWrite_eq_some {name : String} {dev dev' : Device} {buffer : List UInt8} {len : BitVec 64} {ret : Int}
    (h : devWrite name dev buffer len = some (ret, dev')) :
    ∃ s, cString buffer = some s ∧ (letters s len).length ≤ 255 ∧ ret = len.toInt ∧
      read dev'.message 0 (letters s len).length = letters s len ∧
      dev'.sizeOfMessage.toInt = (letters s len).length := by
  simp only [devWrite, Option.bind_eq_bind, Option.bind_eq_some_iff, Option.some.injEq, Prod.mk.injEq] at h
  obtain ⟨s, hs, message, hstore, rfl, rfl⟩ := h
  have hread := read_storeString hstore
  rw [storeString] at hstore
  split at hstore
  · rename_i hroom
    obtain rfl := Option.some.inj hstore
    have hsize : sizeofMessage = 256 := rfl
    refine ⟨s, hs, by omega, rfl, hread, ?_⟩
    have hsmall : (BitVec.ofNat 16 (letters s len).length).toNat = (letters s len).length := by
      rw [BitVec.toNat_ofNat, Nat.mod_eq_of_lt (by omega)]
    dsimp only
    rw [strlen_write _ (zero_notMem_letters hs len) hroom, BitVec.toInt_eq_toNat_of_lt (by omega), hsmall]
  · cases hstore

theorem devWrite_isSome {buffer s : List UInt8} {len : BitVec 64} (hs : cString buffer = some s)
    (hfits : (letters s len).length ≤ 255) (name : String) (dev : Device) :
    ∃ dev', devWrite name dev buffer len = some (len.toInt, dev') := by
  have hroom : (letters s len).length + 1 ≤ sizeofMessage := Nat.succ_le_succ hfits
  cases hrun : devWrite name dev buffer len with
  | none =>
    simp only [devWrite, hs, storeString, if_pos hroom, Option.bind_eq_bind, Option.bind_some] at hrun
    cases hrun
  | some r =>
    obtain ⟨s', _, _, hret, _⟩ := devWrite_eq_some hrun
    exact ⟨r.2, by rw [← hret]⟩

/-- The write of each of the drivers is contained exactly when the string and the digits of its
length take at most 245 bytes. -/
theorem devWrite_contained_iff (dev : Device) (buffer : List UInt8) (len : BitVec 64) :
    ∀ write ∈ [Mychar.devWrite, Ioctl.devWrite, Dram.devWrite], Contained write dev buffer len ↔
      ∃ s, cString buffer = some s ∧ s.length + (Nat.toDigits 10 len.toNat).length ≤ 245 := by
  have hname : ∀ name, Contained (devWrite name) dev buffer len ↔
      ∃ s, cString buffer = some s ∧ s.length + (Nat.toDigits 10 len.toNat).length ≤ 245 := by
    intro name
    constructor
    · rintro ⟨s, ret, dev', hs, hrun, _⟩
      obtain ⟨s', hs', hfits, _⟩ := devWrite_eq_some hrun
      rw [letters_length] at hfits
      exact ⟨s', hs', by omega⟩
    · rintro ⟨s, hs, hfits⟩
      have hlen : (letters s len).length ≤ 255 := by rw [letters_length]; omega
      obtain ⟨dev', hrun⟩ := devWrite_isSome hs hlen name dev
      obtain ⟨s', hs', _, _, _, hsize⟩ := devWrite_eq_some hrun
      obtain rfl : s = s' := Option.some.inj (hs.symm.trans hs')
      exact ⟨s, _, dev', hs, hrun, hsize⟩
  intro write hw
  simp only [List.mem_cons, List.not_mem_nil, or_false] at hw
  rcases hw with rfl | rfl | rfl
  · exact hname "MyChar"
  · exact hname "ioctl_dev"
  · exact hname "devram"

/-- The write of "hi". -/
theorem devWrite_contained_iff_hi : Contained Mychar.devWrite .initial (ascii ['h', 'i'] ++ [0]) 2 :=
  (devWrite_contained_iff .initial (ascii ['h', 'i'] ++ [0]) 2 Mychar.devWrite List.mem_cons_self).mpr
    ⟨ascii ['h', 'i'], by decide, by decide⟩

/-- A string of 250 letters, which the test program of mychar accepts, leaves `message`. -/
theorem devWrite_overruns :
    ¬ ∀ (dev : Device) (buffer : List UInt8) (len : BitVec 64), 0 ∈ buffer →
      ∀ write ∈ [Mychar.devWrite, Ioctl.devWrite, Dram.devWrite], Contained write dev buffer len := by
  intro h
  obtain ⟨_, _, _, _, hrun, _⟩ := h .initial (List.replicate 250 97 ++ [0]) 250 (by decide +kernel)
    Mychar.devWrite List.mem_cons_self
  have hnone : (Mychar.devWrite .initial (List.replicate 250 97 ++ [0]) 250).isNone := by decide +kernel
  rw [hrun] at hnone
  cases hnone

end LinuxDrivers.MessageDevice
