import LinuxDrivers.MessageDevice.Mailbox

/-! What a caller may expect of `write` and `read`: that the bytes handed over are stored, and that a
read reports what it delivers. -/
namespace LinuxDrivers.MessageDevice
open ByteMemory CString UserCopy

/-- A read of the reader: the size asked for, and how many bytes its memory takes from `buffer` on. -/
structure Ask where
  len : BitVec 64
  accepts : Nat
  deriving DecidableEq, Repr

structure Answer where
  ask : Ask
  ret : Int
  delivered : List UInt8
  deriving DecidableEq, Repr

def Driver.reads (drv : Driver) (dev : Device) : List Ask → List Answer
  | [] => []
  | ask :: asks =>
    let (ret, delivered, dev) := drv.read dev ask.len ask.accepts
    ⟨ask, ret, delivered⟩ :: drv.reads dev asks

/-- No more is delivered than was asked for, and the result counts what is delivered. -/
def Answer.Honoured (a : Answer) : Prop :=
  a.delivered.length ≤ a.ask.len.toNat ∧ (0 ≤ a.ret → a.ret = a.delivered.length)

/-- What a reader has once a call returns 0; a call that fails is repeated. -/
def received : List Answer → Option (List UInt8)
  | [] => none
  | a :: answers =>
      if a.ret = 0 then some [] else (received answers).map (a.delivered.take a.ret.toNat ++ ·)

/-- Each read honours the contract, and a reader that comes to a 0 has the whole text. -/
def Driver.HonoursReads (drv : Driver) (dev : Device) (text : List UInt8) (asks : List Ask) : Prop :=
  (∀ a ∈ drv.reads dev asks, a.Honoured) ∧ ∀ got ∈ received (drv.reads dev asks), got = text

/-- The message stored by a write is the bytes handed over, with their number. -/
def StoresExactly (write : Device → List UInt8 → BitVec 64 → Option (Int × Device)) (dev : Device)
    (buffer : List UInt8) (len : BitVec 64) : Prop :=
  ∃ ret dev', write dev buffer len = some (ret, dev') ∧ Holds dev' (letters (buffer.take len.toNat) len)

theorem letters_inj {s t : List UInt8} {len : BitVec 64} : letters s len = letters t len ↔ s = t := by
  simp only [letters, List.append_assoc, List.append_cancel_right_eq]

theorem Holds.eq {dev : Device} {s t : List UInt8} (hs : Holds dev s) (ht : Holds dev t) : s = t := by
  have hlen : s.length = t.length := by exact_mod_cast hs.size.symm.trans ht.size
  rw [← hs.message, ← ht.message, hlen]

/-- A string in front of the `len` first bytes of some memory ends exactly there. -/
theorem length_of_cString_take {buffer : List UInt8} {n : Nat} (h : cString buffer = some (buffer.take n)) :
    (buffer.take n).length = n := by
  by_contra hne
  have hshort : buffer.length ≤ n := by
    rw [List.length_take] at hne
    omega
  have hzero := zero_notMem_of_cString h
  rw [List.take_of_length_le hshort] at hzero
  rw [cString, if_neg hzero] at h
  cases h

/-- A number and its digits take at most 245 places together up to 242. -/
theorem add_digits_le_iff {n : Nat} : n + (Nat.toDigits 10 n).length ≤ 245 ↔ n ≤ 242 := by
  have htwo := Nat.length_toDigits_le_iff (b := 10) (k := 2) (n := n) (by decide) (by decide)
  have hthree := Nat.length_toDigits_le_iff (b := 10) (k := 3) (n := n) (by decide) (by decide)
  omega

theorem devWrite_storesExactly_iff (name : String) (dev : Device) (buffer : List UInt8) (len : BitVec 64) :
    StoresExactly (devWrite name) dev buffer len ↔
      cString buffer = some (buffer.take len.toNat) ∧ len.toNat ≤ 242 := by
  constructor
  · rintro ⟨ret, dev', hrun, hholds⟩
    have hwritten := devWrite_holds hrun
    obtain ⟨s, hs, hsmall, _⟩ := devWrite_eq_some hrun
    rw [hs] at hwritten
    obtain rfl : s = buffer.take len.toNat := letters_inj.mp (hwritten.eq hholds)
    rw [letters_length, length_of_cString_take hs] at hsmall
    exact ⟨hs, add_digits_le_iff.mp (by omega)⟩
  · rintro ⟨hs, hlen⟩
    have hdigits := add_digits_le_iff.mpr hlen
    have hfits : (letters (buffer.take len.toNat) len).length ≤ 255 := by
      rw [letters_length, length_of_cString_take hs]
      omega
    obtain ⟨dev', hrun⟩ := devWrite_isSome hs hfits name dev
    have hholds := devWrite_holds hrun
    rw [hs] at hholds
    exact ⟨_, dev', hrun, hholds⟩

/-- A write stores the bytes handed over exactly if the first NUL of the caller's memory comes right
behind them and they are at most 242. -/
theorem storesExactly_iff (dev : Device) (buffer : List UInt8) (len : BitVec 64) :
    ∀ write ∈ [Mychar.devWrite, Ioctl.devWrite, Dram.devWrite], StoresExactly write dev buffer len ↔
      cString buffer = some (buffer.take len.toNat) ∧ len.toNat ≤ 242 := by
  intro write hw
  simp only [List.mem_cons, List.not_mem_nil, or_false] at hw
  rcases hw with rfl | rfl | rfl
  · exact devWrite_storesExactly_iff "MyChar" dev buffer len
  · exact devWrite_storesExactly_iff "ioctl_dev" dev buffer len
  · exact devWrite_storesExactly_iff "devram" dev buffer len

/-- The two bytes of "hi", with a NUL behind them. -/
theorem storesExactly_hi : StoresExactly Mychar.devWrite .initial [104, 105, 0] 2 :=
  (storesExactly_iff .initial [104, 105, 0] 2 Mychar.devWrite List.mem_cons_self).mpr ⟨by decide, by decide⟩

/-- Of three bytes with a NUL in the middle only the first is stored. -/
theorem write_loses_embedded_nul :
    ¬∀ (dev : Device) (buffer : List UInt8) (len : BitVec 64), len.toNat ≤ buffer.length →
      ∀ write ∈ [Mychar.devWrite, Ioctl.devWrite, Dram.devWrite], StoresExactly write dev buffer len := by
  intro h
  have hstores := h .initial [97, 0, 98, 0] 3 (by decide) Mychar.devWrite List.mem_cons_self
  exact absurd ((devWrite_storesExactly_iff _ _ _ _).mp hstores).1 (by decide)

section Reads

variable (name : String) {dev : Device} {text : List UInt8}

/-- The first of some reads delivers the text and returns 0, or it faults and leaves the text. -/
theorem reads_cons (h : Holds dev text) (ask : Ask) (asks : List Ask) :
    (text.length ≤ ask.accepts ∧ ∃ dev', Holds dev' [] ∧
      (Driver.named name).reads dev (ask :: asks) = ⟨ask, 0, text⟩ :: (Driver.named name).reads dev' asks) ∨
    (ask.accepts < text.length ∧ ∃ dev', Holds dev' text ∧
      (Driver.named name).reads dev (ask :: asks) =
        ⟨ask, -efault, text.take ask.accepts⟩ :: (Driver.named name).reads dev' asks) := by
  have hcons : (Driver.named name).reads dev (ask :: asks) =
      ⟨ask, (devRead name dev ask.len ask.accepts).1, (devRead name dev ask.len ask.accepts).2.1⟩ ::
        (Driver.named name).reads (devRead name dev ask.len ask.accepts).2.2 asks := rfl
  obtain ⟨hall, hret, hdelivered, hrest⟩ | ⟨hfault, hret, hdelivered, hrest⟩ :=
    devRead_holds h name ask.len ask.accepts
  · left
    exact ⟨hall, _, hrest, by rw [hcons, hret, hdelivered]⟩
  · right
    exact ⟨hfault, _, hrest, by rw [hcons, hret, hdelivered]⟩

/-- With nothing stored every read delivers nothing and returns 0. -/
theorem honoursReads_nil (h : Holds dev []) (asks : List Ask) :
    (Driver.named name).HonoursReads dev [] asks := by
  induction asks generalizing dev with
  | nil => exact ⟨fun a ha => absurd ha List.not_mem_nil, fun got hgot => by cases hgot⟩
  | cons ask asks ih =>
    obtain ⟨_, dev', hrest, hreads⟩ | ⟨hfault, _⟩ := reads_cons name h ask asks
    · rw [Driver.HonoursReads, hreads, List.forall_mem_cons]
      exact ⟨⟨⟨Nat.zero_le _, fun _ => rfl⟩, (ih hrest).1⟩, fun got hgot => (Option.some.inj hgot).symm⟩
    · exact absurd hfault (Nat.not_lt_zero _)

/-- A stored text is never reported: the reads honour the contract only while all of them fault. -/
theorem honoursReads_text (h : Holds dev text) (htext : text ≠ []) (asks : List Ask) :
    (Driver.named name).HonoursReads dev text asks ↔
      ∀ ask ∈ asks, ask.accepts < text.length ∧ ask.accepts ≤ ask.len.toNat := by
  induction asks generalizing dev with
  | nil => exact iff_of_true ⟨fun a ha => absurd ha List.not_mem_nil, fun got hgot => by cases hgot⟩ (by simp)
  | cons ask asks ih =>
    rw [List.forall_mem_cons]
    obtain ⟨hall, dev', _, hreads⟩ | ⟨hfault, dev', hrest, hreads⟩ := reads_cons name h ask asks
    · -- the call returns 0 although it has delivered the text
      refine iff_of_false (fun hkept => ?_) (fun hask => absurd hask.1.1 (Nat.not_lt.mpr hall))
      rw [Driver.HonoursReads, hreads, List.forall_mem_cons] at hkept
      have hcount : (0 : Int) = text.length := hkept.1.1.2 (Int.le_refl 0)
      exact htext (List.length_eq_zero_iff.mp (by omega))
    · have hlen : (text.take ask.accepts).length = ask.accepts := by
        rw [List.length_take]
        omega
      have hreceived : received (⟨ask, -efault, text.take ask.accepts⟩ :: (Driver.named name).reads dev' asks) =
          received ((Driver.named name).reads dev' asks) := by
        rw [received, if_neg efault_ne]
        exact Option.map_id'
      have hfirst : (⟨ask, -efault, text.take ask.accepts⟩ : Answer).Honoured ↔ ask.accepts ≤ ask.len.toNat := by
        refine ⟨fun hh => hlen ▸ hh.1, fun hh => ⟨hlen.symm ▸ hh, fun hret => absurd hret efault_neg⟩⟩
      rw [← ih hrest, Driver.HonoursReads, hreads, hreceived, List.forall_mem_cons, hfirst]
      constructor
      · rintro ⟨⟨hle, hkept⟩, hgot⟩
        exact ⟨⟨hfault, hle⟩, hkept, hgot⟩
      · rintro ⟨⟨_, hle⟩, hkept, hgot⟩
        exact ⟨⟨hle, hkept⟩, hgot⟩

theorem named_honoursReads_iff (h : Holds dev text) (asks : List Ask) :
    (Driver.named name).HonoursReads dev text asks ↔
      text = [] ∨ ∀ ask ∈ asks, ask.accepts < text.length ∧ ask.accepts ≤ ask.len.toNat := by
  by_cases htext : text = []
  · subst htext
    exact iff_of_true (honoursReads_nil name h asks) (.inl rfl)
  · rw [honoursReads_text name h htext]
    exact (or_iff_right htext).symm

end Reads

/-- The reads of a stored message honour the contract exactly if there is none, or each of them
faults, on memory that takes no more than was asked for. -/
theorem honoursReads_iff {dev : Device} {text : List UInt8} (h : Holds dev text) (asks : List Ask) :
    ∀ drv ∈ [mychar, ioctl], drv.HonoursReads dev text asks ↔
      text = [] ∨ ∀ ask ∈ asks, ask.accepts < text.length ∧ ask.accepts ≤ ask.len.toNat := by
  intro drv hdrv
  simp only [List.mem_cons, List.not_mem_nil, or_false] at hdrv
  rcases hdrv with rfl | rfl
  · exact named_honoursReads_iff "MyChar" h asks
  · exact named_honoursReads_iff "ioctl_dev" h asks

/-- Two reads of one byte of the message "hi(2 letters)", into memory that takes no more than that. -/
theorem honoursReads_faulting :
    let text := letters [104, 105] 2
    let dev : Device := ⟨write (fun _ => 0) 0 text, 13, []⟩
    Holds dev text ∧ mychar.HonoursReads dev text [⟨1, 1⟩, ⟨1, 1⟩] := by
  intro text dev
  have hholds : Holds dev text := ⟨by decide, by decide, by decide⟩
  have hfaults : ∀ ask ∈ [(⟨1, 1⟩ : Ask), ⟨1, 1⟩], ask.accepts < text.length ∧ ask.accepts ≤ ask.len.toNat := by
    decide
  exact ⟨hholds, (honoursReads_iff hholds _ mychar List.mem_cons_self).mpr (.inr hfaults)⟩

/-- The message "hi(2 letters)" is delivered to a reader that asked for one byte, and counted as
nothing. -/
theorem read_reports_nothing :
    ¬∀ (dev : Device) (text : List UInt8) (asks : List Ask), Holds dev text →
      ∀ drv ∈ [mychar, ioctl], drv.HonoursReads dev text asks := by
  intro h
  let text : List UInt8 := letters [104, 105] 2
  let dev : Device := ⟨write (fun _ => 0) 0 text, 13, []⟩
  have hholds : Holds dev text := ⟨by decide, by decide, by decide⟩
  have hkept := h dev text [⟨1, 256⟩] hholds mychar List.mem_cons_self
  obtain hnil | hfault := (named_honoursReads_iff _ hholds _).mp hkept
  · exact absurd hnil (by decide)
  · exact absurd (hfault ⟨1, 256⟩ List.mem_cons_self).1 (by decide)

end LinuxDrivers.MessageDevice
