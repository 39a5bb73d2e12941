import LinuxDrivers.Lib.PrefixCode
import LinuxDrivers.Smpinfo.Table

/-! What can be told from the text of `/proc/smpinfo`: every byte that it was made of. -/
namespace LinuxDrivers.Smpinfo
open ByteMemory CString Printf Records PrefixCode

def showFound (phys : Memory UInt8) (found : Found) : Shown :=
  myProcShow (fun x => phys (found.mpfp + x)) (fun x => phys (found.mpct + x)) found.baselen

/-- What a reader of `/proc/smpinfo` gets; `none` if there is no such file. -/
def procSmpinfo (phys : Memory UInt8) : Option (List UInt8) :=
  (myProcInit phys).map fun found => (showFound phys found).text

def dumped (phys : Memory UInt8) (found : Found) : List UInt8 × List UInt8 :=
  (read phys found.mpfp 16, read phys found.mpct (showFound phys found).stop)

theorem byteText_nat : ∀ n < 256,
    (byteText (UInt8.ofNat n)).length = 3 ∧
      ((byteText (UInt8.ofNat n)).drop 1).foldl (fun v b => 16 * v + (if b < 65 then b.toNat - 48 else b.toNat - 55)) 0 =
        n := by
  decide +kernel

theorem byteText_length (b : UInt8) : (byteText b).length = 3 := by
  rw [← UInt8.ofNat_toNat (x := b)]
  exact (byteText_nat b.toNat b.toNat_lt).1

theorem byteText_injective : Function.Injective byteText := by
  intro b c h
  have hb := (byteText_nat b.toNat b.toNat_lt).2
  have hc := (byteText_nat c.toNat c.toNat_lt).2
  rw [UInt8.ofNat_toNat] at hb hc
  rw [h] at hb
  exact UInt8.toNat_inj.mp (hb.symm.trans hc)

theorem byteText_readable : Readable byteText := readable_of_length byteText_length byteText_injective

theorem byteText_blank (b : UInt8) : ∃ c s, byteText b = c :: s ∧ c ≠ 10 := ⟨32, _, rfl, by decide⟩

theorem entryLine_readable : Readable fun e : Entry => entryLine e.bytes := by
  intro e f s t h
  simp only [entryLine, List.append_assoc] at h
  obtain ⟨hbytes, hrest⟩ := byteText_readable.flatMap_closed byteText_blank h
  refine ⟨?_, hrest⟩
  cases e
  cases f
  cases hbytes
  rfl

theorem entryLine_blank (e : Entry) : ∃ c s, entryLine e.bytes = c :: s ∧ c ≠ 10 := by
  have hlen := e.length_eq
  cases hbytes : e.bytes with
  | nil =>
    rw [hbytes] at hlen
    cases hlen
  | cons b bytes => exact ⟨32, _, rfl, by decide⟩

/-- The line ends stand at the same places for every table. -/
theorem headerBytes_inj {mpct mpct' : Memory UInt8} (is : List Nat) {s t : List UInt8}
    (h : is.flatMap (headerByte mpct) ++ s = is.flatMap (headerByte mpct') ++ t) :
    (∀ i ∈ is, mpct i = mpct' i) ∧ s = t := by
  induction is with
  | nil => exact ⟨fun i hi => absurd hi List.not_mem_nil, h⟩
  | cons i is ih =>
    simp only [List.flatMap_cons, headerByte, List.append_assoc] at h
    obtain ⟨hbyte, hrest⟩ := byteText_readable (List.append_cancel_left h)
    obtain ⟨hbytes, hend⟩ := ih hrest
    exact ⟨List.forall_mem_cons.mpr ⟨hbyte, hbytes⟩, hend⟩

theorem read_of_placed {mpct : Memory UInt8} {base : Nat} {entries : List Entry} (h : Placed mpct base entries) :
    read mpct base (total entries) = entries.flatMap Entry.bytes := by
  induction entries generalizing base with
  | nil => rfl
  | cons e entries ih =>
    obtain ⟨hread, hrest⟩ := h
    rw [total_cons, read_add, hread, ih hrest, List.flatMap_cons]

theorem placed_congr {mpct mpct' : Memory UInt8} {base : Nat} {entries : List Entry}
    (h : read mpct base (total entries) = read mpct' base (total entries)) (hplaced : Placed mpct base entries) :
    Placed mpct' base entries := by
  induction entries generalizing base with
  | nil => trivial
  | cons e entries ih =>
    obtain ⟨hread, hrest⟩ := hplaced
    rw [total_cons, read_add, read_add] at h
    obtain ⟨hfirst, hothers⟩ := List.append_inj h (by rw [read_length, read_length])
    exact ⟨hfirst ▸ hread, ih hothers hrest⟩

theorem read_behind (phys : Memory UInt8) (base off n : Nat) :
    read (fun x => phys (base + x)) off n = read phys (base + off) n := by
  simp only [ByteMemory.read, Nat.add_assoc]

section Shown

variable {mpfp mpfp' mpct mpct' : Memory UInt8} {baselen baselen' : BitVec 16}

/-- The entries that end where the loop ends are the ones shown. -/
theorem lines_of_stop {entries : List Entry} (hplaced : Placed mpct 44 entries)
    (hstop : (myProcShow mpfp mpct baselen).stop = 44 + total entries) :
    (myProcShow mpfp mpct baselen).lines = entries.map fun e => entryLine e.bytes := by
  have htiles := (entrySize mpct).tiles_walk baselen.toNat 44
  rw [show ((entrySize mpct).walk baselen.toNat 44).2 = 44 + total entries from hstop] at htiles
  have hstarts := (Sizing.walk_of_tiles htiles).symm.trans (Sizing.walk_of_tiles (tiles_of_placed hplaced))
  have hlines := lines_of_placed hplaced
  rw [← (Prod.mk.inj hstarts).1] at hlines
  exact hlines

/-- Whatever the length of the table, there are such entries. -/
theorem entries_shown (mpfp mpct : Memory UInt8) (baselen : BitVec 16) : ∃ entries : List Entry,
    Placed mpct 44 entries ∧ (myProcShow mpfp mpct baselen).stop = 44 + total entries :=
  placed_of_tiles ((entrySize mpct).tiles_walk baselen.toNat 44)

theorem text_eq {entries : List Entry} (hplaced : Placed mpct 44 entries)
    (hstop : (myProcShow mpfp mpct baselen).stop = 44 + total entries) :
    (myProcShow mpfp mpct baselen).text =
      ascii "\n MP Floating Pointer structure\n".toList ++ ((read mpfp 0 16).flatMap byteText ++
        (ascii "\n\n MP Configuration Table Header ".toList ++ ((List.range 44).flatMap (headerByte mpct) ++
          (ascii "\n\n Base Configuration Table entries \n".toList ++
            (entries.flatMap (fun e => entryLine e.bytes) ++ ascii ['\n']))))) := by
  have hlines : (myProcShow mpfp mpct baselen).lines.flatten = entries.flatMap fun e => entryLine e.bytes := by
    rw [lines_of_stop hplaced hstop]
    rfl
  rw [← hlines]
  simp only [Shown.text, myProcShow, List.append_assoc]
  rfl

/-- Two texts are the same exactly if they are made of the same bytes. -/
theorem text_eq_iff : (myProcShow mpfp mpct baselen).text = (myProcShow mpfp' mpct' baselen').text ↔
    read mpfp 0 16 = read mpfp' 0 16 ∧
      read mpct 0 (myProcShow mpfp mpct baselen).stop = read mpct' 0 (myProcShow mpfp' mpct' baselen').stop := by
  obtain ⟨entries, hplaced, hstop⟩ := entries_shown mpfp mpct baselen
  constructor
  · intro htext
    obtain ⟨entries', hplaced', hstop'⟩ := entries_shown mpfp' mpct' baselen'
    rw [text_eq hplaced hstop, text_eq hplaced' hstop'] at htext
    obtain ⟨hpointer, hrest⟩ :=
      byteText_readable.flatMap (by rw [read_length, read_length]) (List.append_cancel_left htext)
    obtain ⟨hheader, hrest⟩ := headerBytes_inj _ (List.append_cancel_left hrest)
    obtain ⟨rfl, _⟩ := entryLine_readable.flatMap_closed entryLine_blank (List.append_cancel_left hrest)
    refine ⟨hpointer, ?_⟩
    rw [hstop, hstop', read_add, read_add, Nat.zero_add, read_of_placed hplaced, read_of_placed hplaced']
    congr 1
    exact read_congr fun i _ hi => hheader i (List.mem_range.mpr (by omega))
  · rintro ⟨hpointer, htable⟩
    have hlen := congrArg List.length htable
    rw [read_length, read_length, hstop] at hlen
    rw [hstop, ← hlen] at htable
    have hbytes : ∀ i, i < 44 + total entries → mpct i = mpct' i :=
      fun i hi => read_inj htable (Nat.zero_le i) (by omega)
    have hplaced' : Placed mpct' 44 entries := placed_congr (read_congr fun i _ hi => hbytes i hi) hplaced
    have hheader : (List.range 44).flatMap (headerByte mpct) = (List.range 44).flatMap (headerByte mpct') := by
      refine List.flatMap_congr fun i hi => ?_
      rw [headerByte, headerByte, hbytes i (by have := List.mem_range.mp hi; omega)]
    rw [text_eq hplaced hstop, text_eq hplaced' hlen.symm, hpointer, hheader]

end Shown

/-- Two machines show the same `/proc/smpinfo`, or none at all, exactly if the tables found, or not found, have
the same bytes. -/
theorem procSmpinfo_eq_iff (phys phys' : Memory UInt8) :
    procSmpinfo phys = procSmpinfo phys' ↔
      (myProcInit phys).map (dumped phys) = (myProcInit phys').map (dumped phys') := by
  unfold procSmpinfo
  cases myProcInit phys with
  | none => cases myProcInit phys' <;> simp
  | some found =>
    cases myProcInit phys' with
    | none => simp
    | some found' =>
      rw [Option.map_some, Option.map_some, Option.map_some, Option.map_some, Option.some_inj, Option.some_inj,
        showFound, showFound, text_eq_iff, dumped, dumped, Prod.mk.injEq, read_behind, read_behind, read_behind,
        read_behind]
      rfl

end LinuxDrivers.Smpinfo
