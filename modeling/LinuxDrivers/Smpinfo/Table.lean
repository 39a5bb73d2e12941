import LinuxDrivers.Lib.LittleEndian
import LinuxDrivers.Lib.Printf
import LinuxDrivers.Lib.Records

/-! The module `smpinfo`: what `/proc/smpinfo` shows of the MP configuration table, and which bytes
of the table it reads. -/
namespace LinuxDrivers.Smpinfo
open ByteMemory LittleEndian CString Printf Records

/-- What `my_proc_init` finds: the addresses of the floating pointer and of the table, and the
length kept in `baselen`. -/
structure Found where
  mpfp : Nat
  mpct : Nat
  baselen : BitVec 16
  deriving DecidableEq, Repr

/-- `*(int*)(mpct+4)`, as it is stored in an `unsigned short`. -/
def baseLength (mpct : Memory UInt8) : BitVec 16 := BitVec.ofNat 16 (load mpct 4 4)

/-- The addresses searched, `0xF0000` to `0xFFFF0`. -/
def searched : List Nat := (List.range 4096).map fun i => 0xF0000 + 16 * i

/-- `my_proc_init()`; `none` is `-ENODEV`. -/
def myProcInit (phys : Memory UInt8) : Option Found :=
  (searched.find? fun place => read phys place 4 = ascii ['_', 'M', 'P', '_']).map fun place =>
    let mpct := load phys (place + 4) 4
    ⟨place, mpct, baseLength fun x => phys (mpct + x)⟩

def byteText (b : UInt8) : List UInt8 := ascii [' '] ++ pad '0' 2 (upperHex b.toNat)

def entryLine (bytes : List UInt8) : List UInt8 := bytes.flatMap byteText ++ ascii ['\n']

def entrySize (mpct : Memory UInt8) : Sizing where
  size i := if mpct i ≠ 0 then 8 else 20
  size_pos i := by split <;> decide

/-- What `my_proc_show` writes, and the `x` of each `mpct[x]` it reads, in turn. -/
structure Shown where
  header : List UInt8
  lines : List (List UInt8)
  /-- `i` after the loop over the entries. -/
  stop : Nat
  reads : List Nat

/-- A byte of the header, with a line end in front of every sixteenth. -/
def headerByte (mpct : Memory UInt8) (i : Nat) : List UInt8 :=
  (if i % 16 = 0 then ascii ['\n'] else []) ++ byteText (mpct i)

def myProcShow (mpfp mpct : Memory UInt8) (baselen : BitVec 16) : Shown :=
  let (starts, stop) := (entrySize mpct).walk baselen.toNat 44
  { header := ascii "\n MP Floating Pointer structure\n".toList ++ (read mpfp 0 16).flatMap byteText ++ ascii ['\n'] ++
      ascii "\n MP Configuration Table Header ".toList ++ (List.range 44).flatMap (headerByte mpct) ++ ascii ['\n'] ++
      ascii "\n Base Configuration Table entries \n".toList
    lines := starts.map fun i => entryLine (read mpct i ((entrySize mpct).size i))
    stop := stop
    -- the byte at `i` is read to tell the size, and again with the others of its entry
    reads := List.range 44 ++
      starts.flatMap fun i => i :: (List.range ((entrySize mpct).size i)).map (i + ·) }

def Shown.text (s : Shown) : List UInt8 := s.header ++ s.lines.flatten ++ ascii ['\n']

/-- The bytes of an entry: 20 if the first one is 0, else 8. -/
structure Entry where
  bytes : List UInt8
  length_eq : bytes.length = if bytes.head? = some 0 then 20 else 8

def Placed (mpct : Memory UInt8) : Nat → List Entry → Prop
  | _, [] => True
  | base, e :: entries => read mpct base e.bytes.length = e.bytes ∧ Placed mpct (base + e.bytes.length) entries

def total (entries : List Entry) : Nat := (entries.flatMap Entry.bytes).length

def starts : Nat → List Entry → List Nat
  | _, [] => []
  | base, e :: entries => base :: starts (base + e.bytes.length) entries

theorem total_cons (e : Entry) (entries : List Entry) : total (e :: entries) = e.bytes.length + total entries := by
  rw [total, List.flatMap_cons, List.length_append, total]

section Placed

variable {mpct : Memory UInt8} {base : Nat}

/-- The byte found at the start of an entry tells its size. -/
theorem size_of_read {e : Entry} (h : read mpct base e.bytes.length = e.bytes) :
    (entrySize mpct).size base = e.bytes.length := by
  have hlen := e.length_eq
  have hpos : 0 < e.bytes.length := by
    rw [hlen]
    split <;> decide
  have hhead := head?_read mpct base hpos
  rw [h] at hhead
  rw [hhead] at hlen
  rw [hlen]
  by_cases hz : mpct base = 0 <;> simp [entrySize, hz]

theorem tiles_of_placed {entries : List Entry} (h : Placed mpct base entries) :
    (entrySize mpct).Tiles base (starts base entries) (base + total entries) := by
  induction entries generalizing base with
  | nil => exact .nil base
  | cons e entries ih =>
    obtain ⟨hread, hrest⟩ := h
    have hsize := size_of_read hread
    refine .cons ?_
    rw [hsize, total_cons, ← Nat.add_assoc]
    exact ih hrest

/-- What tiles the table are entries. -/
theorem placed_of_tiles {limit : Nat} {positions : List Nat} (h : (entrySize mpct).Tiles base positions limit) :
    ∃ entries, Placed mpct base entries ∧ limit = base + total entries := by
  induction h with
  | nil base => exact ⟨[], trivial, rfl⟩
  | @cons base limit positions _ ih =>
    obtain ⟨entries, hplaced, hlimit⟩ := ih
    have hlen : (read mpct base ((entrySize mpct).size base)).length =
        if (read mpct base ((entrySize mpct).size base)).head? = some 0 then 20 else 8 := by
      rw [read_length, head?_read mpct base ((entrySize mpct).size_pos base)]
      by_cases hz : mpct base = 0 <;> simp [entrySize, hz]
    let e : Entry := ⟨read mpct base ((entrySize mpct).size base), hlen⟩
    have hsize : e.bytes.length = (entrySize mpct).size base := read_length _ _ _
    refine ⟨e :: entries, ⟨by rw [hsize], by rwa [hsize]⟩, ?_⟩
    rw [total_cons, hlimit, hsize, Nat.add_assoc]

theorem lines_of_placed {entries : List Entry} (h : Placed mpct base entries) :
    ((starts base entries).map fun i => entryLine (read mpct i ((entrySize mpct).size i))) =
      entries.map fun e => entryLine e.bytes := by
  induction entries generalizing base with
  | nil => rfl
  | cons e entries ih =>
    obtain ⟨hread, hrest⟩ := h
    rw [starts, List.map_cons, List.map_cons, size_of_read hread, hread, ih hrest]

end Placed

theorem baseLength_toNat (mpct : Memory UInt8) : (baseLength mpct).toNat = load mpct 4 2 := by
  rw [baseLength, BitVec.toNat_ofNat]
  exact load_add_mod mpct 4 2 2

/-- Of a table whose length is that of its header and of the entries placed behind it, one line is
shown for each entry, in order and with its bytes, and the loop ends at the length. -/
theorem shows_entries {mpct : Memory UInt8} {entries : List Entry} (hlen : load mpct 4 2 = 44 + total entries)
    (hplaced : Placed mpct 44 entries) (mpfp : Memory UInt8) :
    let shown := myProcShow mpfp mpct (baseLength mpct)
    shown.lines = entries.map (fun e => entryLine e.bytes) ∧ shown.stop = load mpct 4 2 := by
  have hbase := baseLength_toNat mpct
  have htiles := tiles_of_placed hplaced
  rw [← hlen, ← hbase] at htiles
  have hwalk := Sizing.walk_of_tiles htiles
  simp only [myProcShow]
  rw [hwalk]
  exact ⟨lines_of_placed hplaced, hbase⟩

/-- A table with a processor entry and a bus entry behind its header. -/
theorem shows_entries_two :
    let processor : Entry := ⟨List.replicate 20 0, by decide⟩
    let bus : Entry := ⟨[1, 0, 80, 67, 73, 32, 32, 32], by decide⟩
    let mpct := write (write (store (fun _ => 0) 4 2 72) 44 (List.replicate 20 0)) 64 [1, 0, 80, 67, 73, 32, 32, 32]
    (myProcShow (fun _ => 0) mpct (baseLength mpct)).lines = [processor, bus].map (fun e => entryLine e.bytes) ∧
      (myProcShow (fun _ => 0) mpct (baseLength mpct)).stop = load mpct 4 2 := by
  intro processor bus mpct
  have hplaced : Placed mpct 44 [processor, bus] := ⟨by decide, by decide, trivial⟩
  exact shows_entries (show load mpct 4 2 = 44 + total [processor, bus] by decide) hplaced (fun _ => 0)

section Reads

variable {mpfp mpct : Memory UInt8} {baselen : BitVec 16}

theorem mem_reads {x : Nat} : x ∈ (myProcShow mpfp mpct baselen).reads ↔
    x < 44 ∨ ∃ start ∈ ((entrySize mpct).walk baselen.toNat 44).1,
      start ≤ x ∧ x < start + (entrySize mpct).size start := by
  have hentry : ∀ start, x ∈ start :: (List.range ((entrySize mpct).size start)).map (start + ·) ↔
      start ≤ x ∧ x < start + (entrySize mpct).size start := by
    intro start
    have hpos := (entrySize mpct).size_pos start
    rw [List.mem_cons, List.mem_map]
    constructor
    · rintro (rfl | ⟨j, hj, rfl⟩)
      · omega
      · have hlt := List.mem_range.mp hj
        omega
    · rintro ⟨hle, hlt⟩
      exact .inr ⟨x - start, List.mem_range.mpr (by omega), by omega⟩
  simp only [myProcShow, List.mem_append, List.mem_range, List.mem_flatMap, hentry]

/-- The reads stay in the table exactly if it holds a header, and the loop ends at its length. -/
theorem reads_lt_iff_walk : (∀ x ∈ (myProcShow mpfp mpct baselen).reads, x < baselen.toNat) ↔
    44 ≤ baselen.toNat ∧ ((entrySize mpct).walk baselen.toNat 44).2 = baselen.toNat := by
  simp only [mem_reads]
  constructor
  · intro h
    have hheader : 44 ≤ baselen.toNat := h 43 (.inl (by decide))
    refine ⟨hheader, (Sizing.walk_inside_iff hheader).mp fun start hstart => ?_⟩
    have hpos := (entrySize mpct).size_pos start
    have hlast := h (start + (entrySize mpct).size start - 1) (.inr ⟨start, hstart, by omega, by omega⟩)
    omega
  · rintro ⟨hheader, hstop⟩ x (hx | ⟨start, hstart, _, hx⟩)
    · omega
    · have hinside := (Sizing.walk_inside_iff hheader).mpr hstop start hstart
      omega

end Reads

/-- Every byte read is a byte of the table exactly if the table is its header and whole entries. -/
theorem reads_lt_iff (mpfp mpct : Memory UInt8) (baselen : BitVec 16) :
    (∀ x ∈ (myProcShow mpfp mpct baselen).reads, x < baselen.toNat) ↔
      ∃ entries, Placed mpct 44 entries ∧ baselen.toNat = 44 + total entries := by
  rw [reads_lt_iff_walk]
  constructor
  · rintro ⟨_, hstop⟩
    have htiles := (entrySize mpct).tiles_walk baselen.toNat 44
    rw [hstop] at htiles
    exact placed_of_tiles htiles
  · rintro ⟨entries, hplaced, hlen⟩
    have htiles := tiles_of_placed hplaced
    rw [← hlen] at htiles
    exact ⟨by omega, congrArg Prod.snd (Sizing.walk_of_tiles htiles)⟩

/-- Of a processor entry cut off after 8 bytes the other 12 are read as well. -/
theorem show_reads_behind_table :
    ¬∀ (mpfp mpct : Memory UInt8) (baselen : BitVec 16),
      ∀ x ∈ (myProcShow mpfp mpct baselen).reads, x < baselen.toNat := by
  intro h
  let mpct : Memory UInt8 := store (fun _ => 0) 4 2 52
  obtain ⟨_, hstop⟩ := reads_lt_iff_walk.mp (h (fun _ => 0) mpct 52)
  rw [Sizing.walk_of_lt (by decide), Sizing.walk_of_le (by decide)] at hstop
  exact absurd hstop (by decide)

end LinuxDrivers.Smpinfo
