import LinuxDrivers.Lib.ByteMemory
import LinuxDrivers.Blockdev.Clamp

/-! `do_request`: the segment loop over the RAM buffer of the device. -/
namespace LinuxDrivers.Blockdev
open ByteMemory

/-- The internal representation of the block device. `data` was allocated with
`capacity << 9` bytes, which no kernel object reaches beyond the signed range. -/
structure BlockDev where
  capacity : Sector
  data : Memory UInt8
  allocated : capacity.toNat * 512 < 2^63

/-- The device of `myblock_driver_init`: `(112 * PAGE_SIZE) >> 9` sectors, with whatever
`kmalloc` left in the buffer. -/
def createdDev (data : Memory UInt8) : BlockDev where
  capacity := (112 * 4096) >>> 9
  data := data
  allocated := by decide

inductive Dir where
  | read
  | write
  deriving DecidableEq, Repr

/-- The memory a `bio_vec` points to; `bv_len` is an `unsigned int`. -/
structure Segment where
  bytes : List UInt8
  fits : bytes.length < 2^32

def Segment.bvLen (seg : Segment) : BitVec 32 := BitVec.ofNat 32 seg.bytes.length

structure Request where
  dir : Dir
  /-- `blk_rq_pos(rq)`. -/
  sector : Sector
  segs : List Segment

/-- The locals of the segment loop, with the device buffer and the segments passed. -/
structure Loop where
  data : Memory UInt8
  pos : BitVec 64
  nrBytes : BitVec 32
  done : List (List UInt8)

/-- The body of `rq_for_each_segment`. A copy that leaves `dev->data` has no result. -/
def copySegment (size : BitVec 64) (dir : Dir) (st : Loop) (seg : Segment) : Option Loop :=
  let bLen := clampLen st.pos size (seg.bvLen.setWidth 64)
  if (⟨st.pos, bLen⟩ : Copy).InBounds size then
    let off := st.pos.toNat
    let n := bLen.toNat
    match dir with
    | .write => some
        { data := write st.data off (seg.bytes.take n)
          pos := st.pos + bLen
          nrBytes := st.nrBytes + bLen.setWidth 32
          done := st.done ++ [seg.bytes] }
    | .read => some
        { data := st.data
          pos := st.pos + bLen
          nrBytes := st.nrBytes + bLen.setWidth 32
          done := st.done ++ [read st.data off n ++ seg.bytes.drop n] }
  else none

def segmentLoop (size : BitVec 64) (dir : Dir) (st : Loop) (segs : List Segment) : Option Loop :=
  segs.foldlM (copySegment size dir) st

def doRequest (dev : BlockDev) (rq : Request) (nrBytes : BitVec 32) : Option (Int × Loop) :=
  let ret := 0
  (segmentLoop (devSize dev.capacity) rq.dir ⟨dev.data, startPos rq.sector, nrBytes, []⟩ rq.segs).map
    (fun st => (ret, st))

def content (segs : List Segment) : List UInt8 := segs.flatMap Segment.bytes

def Request.total (rq : Request) : Nat := (content rq.segs).length

def Request.start (rq : Request) : Nat := rq.sector.toNat * 512

/-- The request lies inside the device, as the block layer guarantees after `set_capacity`. -/
def Request.InRange (rq : Request) (capacity : Sector) : Prop :=
  rq.start + rq.total ≤ capacity.toNat * 512

theorem BlockDev.devSize_toNat (dev : BlockDev) : (devSize dev.capacity).toNat = dev.capacity.toNat * 512 := by
  have := dev.allocated
  rw [Blockdev.devSize_toNat, Nat.mod_eq_of_lt (by omega)]

theorem Segment.bvLen_toNat (seg : Segment) : seg.bvLen.toNat = seg.bytes.length := by
  rw [Segment.bvLen, BitVec.toNat_ofNat, Nat.mod_eq_of_lt seg.fits]

@[simp] theorem content_nil : content [] = [] := rfl

@[simp] theorem content_cons (seg : Segment) (segs : List Segment) :
    content (seg :: segs) = seg.bytes ++ content segs := rfl

@[simp] theorem segmentLoop_nil (size : BitVec 64) (dir : Dir) (st : Loop) :
    segmentLoop size dir st [] = some st := rfl

theorem segmentLoop_cons (size : BitVec 64) (dir : Dir) (st : Loop) (seg : Segment) (segs : List Segment) :
    segmentLoop size dir st (seg :: segs) =
      (copySegment size dir st seg).bind (fun st' => segmentLoop size dir st' segs) := by
  simp [segmentLoop, List.foldlM_cons, Option.bind_eq_bind]

def Loop.copied (dir : Dir) (st : Loop) (seg : Segment) (bLen : BitVec 64) : Loop :=
  { data := match dir with
      | .write => write st.data st.pos.toNat (seg.bytes.take bLen.toNat)
      | .read => st.data
    pos := st.pos + bLen
    nrBytes := st.nrBytes + bLen.setWidth 32
    done := st.done ++ [match dir with
      | .write => seg.bytes
      | .read => read st.data st.pos.toNat bLen.toNat ++ seg.bytes.drop bLen.toNat] }

theorem copySegment_eq (size : BitVec 64) (dir : Dir) (st : Loop) (seg : Segment) :
    copySegment size dir st seg =
      let bLen := clampLen st.pos size (seg.bvLen.setWidth 64)
      if (⟨st.pos, bLen⟩ : Copy).InBounds size then some (st.copied dir seg bLen) else none := by
  cases dir <;> rfl

theorem copySegment_within {size : BitVec 64} (dir : Dir) (st : Loop) (h : Within size st.pos) (seg : Segment) :
    copySegment size dir st seg =
      some (st.copied dir seg (clampLen st.pos size (seg.bvLen.setWidth 64))) := by
  rw [copySegment_eq]
  exact if_pos (copy_inBounds h _)

/-- The loop runs to its end exactly when all copies it makes are in bounds. -/
theorem segmentLoop_isSome_iff (size : BitVec 64) (dir : Dir) (st : Loop) (segs : List Segment) :
    (segmentLoop size dir st segs).isSome ↔
      ∀ c ∈ copiesFrom size st.pos (segs.map Segment.bvLen), c.InBounds size := by
  induction segs generalizing st with
  | nil => simp [copiesFrom, segmentLoop_nil]
  | cons seg segs ih =>
    simp only [segmentLoop_cons, copySegment_eq, List.map_cons, copiesFrom, List.mem_cons,
      forall_eq_or_imp]
    split
    · rename_i hin
      simp only [Option.bind_some, ih, hin, true_and]
      rfl
    · rename_i hin
      simp [hin]

/-- `do_request` faults exactly when one of the copies of `copies` leaves the buffer. -/
theorem doRequest_isSome_iff (dev : BlockDev) (rq : Request) (nr : BitVec 32) :
    (doRequest dev rq nr).isSome ↔
      ∀ c ∈ copies rq.sector dev.capacity (rq.segs.map Segment.bvLen),
        c.InBounds (devSize dev.capacity) := by
  rw [doRequest, Option.isSome_map]
  exact segmentLoop_isSome_iff _ _ _ _

/-- The abstract effect of a request: one flat copy of its first `n` bytes. -/
structure FlatCopy (dir : Dir) (st st' : Loop) (segs : List Segment) (n : Nat) : Prop where
  pos : st'.pos.toNat = st.pos.toNat + n
  nrBytes : st'.nrBytes = st.nrBytes + BitVec.ofNat 32 n
  write_data : dir = .write → st'.data = write st.data st.pos.toNat ((content segs).take n)
  read_data : dir = .read → st'.data = st.data
  write_done : dir = .write → st'.done = st.done ++ segs.map Segment.bytes
  read_done : dir = .read → ∃ filled : List (List UInt8), st'.done = st.done ++ filled ∧
    filled.map List.length = segs.map (fun seg => seg.bytes.length) ∧
    filled.flatten = read st.data st.pos.toNat n ++ (content segs).drop n

theorem FlatCopy.nil (dir : Dir) (st : Loop) : FlatCopy dir st st [] 0 where
  pos := rfl
  nrBytes := by simp
  write_data _ := by simp
  read_data _ := rfl
  write_done _ := by simp
  read_done _ := ⟨[], by simp⟩

section Cut

variable {xs ys : List UInt8} {m k : Nat}

/-- A part of `m` bytes that ends in front of `ys`, or is cut before that and has nothing of `ys`. -/
theorem take_append_of_cut (h : m = xs.length ∨ m < xs.length ∧ k = 0) :
    (xs ++ ys).take (m + k) = xs.take m ++ ys.take k := by
  rw [List.take_append]
  rcases h with hwhole | ⟨hcut, hnone⟩
  · rw [List.take_of_length_le (by omega), hwhole, Nat.add_sub_cancel_left, List.take_length]
  · rw [hnone, Nat.add_zero, Nat.sub_eq_zero_of_le hcut.le]

theorem drop_append_of_cut (h : m = xs.length ∨ m < xs.length ∧ k = 0) :
    (xs ++ ys).drop (m + k) = xs.drop m ++ ys.drop k := by
  rw [List.drop_append]
  rcases h with hwhole | ⟨hcut, hnone⟩
  · rw [List.drop_of_length_le (by omega), hwhole, Nat.add_sub_cancel_left, List.drop_length]
  · rw [hnone, Nat.add_zero, Nat.sub_eq_zero_of_le hcut.le]

/-- Both parts filled from a memory: a cut part keeps its tail, and then nothing is read for the other. -/
theorem filled_append_of_cut (data : Memory UInt8) (pos : Nat) (h : m = xs.length ∨ m < xs.length ∧ k = 0) :
    read data pos m ++ xs.drop m ++ (read data (pos + m) k ++ ys.drop k) =
      read data pos (m + k) ++ (xs ++ ys).drop (m + k) := by
  rw [drop_append_of_cut h, read_add]
  rcases h with hwhole | ⟨-, hnone⟩
  · rw [hwhole]
    simp
  · simp [hnone, read_zero]

end Cut

/-- One segment in front of a flat copy. A cut segment ends the copy: what follows it moves
no byte. -/
theorem FlatCopy.cons {size : BitVec 64} {dir : Dir} {st st' : Loop} {seg : Segment} {segs : List Segment}
    (h : Within size st.pos)
    (hrest : FlatCopy dir (st.copied dir seg (clampLen st.pos size (seg.bvLen.setWidth 64))) st' segs
      (min (content segs).length
        (size.toNat - (st.pos + clampLen st.pos size (seg.bvLen.setWidth 64)).toNat))) :
    FlatCopy dir st st' (seg :: segs)
      (min (content (seg :: segs)).length (size.toNat - st.pos.toNat)) := by
  have hlen := clampLen_toNat h seg.bvLen
  have hpos := advance_toNat h seg.bvLen
  rw [seg.bvLen_toNat] at hlen hpos
  rw [hpos] at hrest
  generalize hb : clampLen st.pos size (seg.bvLen.setWidth 64) = bLen at hrest hlen hpos
  obtain ⟨hle, hlt⟩ := h
  set m := min seg.bytes.length (size.toNat - st.pos.toNat) with hm
  set k := min (content segs).length (size.toNat - (st.pos.toNat + m)) with hk
  have hn : min (content (seg :: segs)).length (size.toNat - st.pos.toNat) = m + k := by
    simp only [content_cons, List.length_append]
    omega
  have hcut : m = seg.bytes.length ∨ (m < seg.bytes.length ∧ k = 0) := by omega
  have htake : (content (seg :: segs)).take (m + k) = seg.bytes.take m ++ (content segs).take k :=
    take_append_of_cut hcut
  have htlen : (seg.bytes.take m).length = m := by rw [List.length_take]; omega
  rw [hn]
  constructor
  · have := hrest.pos
    simp only [Loop.copied, hpos] at this
    omega
  · rw [hrest.nrBytes]
    simp only [Loop.copied, ← BitVec.ofNat_toNat, hlen]
    rw [BitVec.ofNat_add, BitVec.add_assoc]
  · intro hdir
    subst hdir
    rw [hrest.write_data rfl, htake, write_append, htlen]
    simp only [Loop.copied, hlen, hpos]
  · intro hdir
    subst hdir
    exact hrest.read_data rfl
  · intro hdir
    subst hdir
    rw [hrest.write_done rfl]
    simp [Loop.copied]
  · intro hdir
    subst hdir
    obtain ⟨filled, hdone, hlens, hflat⟩ := hrest.read_done rfl
    refine ⟨(read st.data st.pos.toNat m ++ seg.bytes.drop m) :: filled, ?_, ?_, ?_⟩
    · rw [hdone]
      simp [Loop.copied, hlen]
    · simp only [List.map_cons, hlens, List.length_append, read_length, List.length_drop]
      congr 1
      omega
    · simp only [Loop.copied, hpos] at hflat
      rw [List.flatten_cons, hflat]
      exact filled_append_of_cut st.data st.pos.toNat hcut

/-- Started within the device, the loop is one flat copy clamped at its end. -/
theorem segmentLoop_flat {size : BitVec 64} (dir : Dir) (st : Loop) (h : Within size st.pos)
    (segs : List Segment) :
    ∃ st', segmentLoop size dir st segs = some st' ∧
      FlatCopy dir st st' segs (min (content segs).length (size.toNat - st.pos.toNat)) := by
  induction segs generalizing st with
  | nil => exact ⟨st, rfl, by simpa [content_nil] using FlatCopy.nil dir st⟩
  | cons seg segs ih =>
    rw [segmentLoop_cons, copySegment_within dir st h]
    obtain ⟨st', hrun, hflat⟩ :=
      ih (st.copied dir seg (clampLen st.pos size (seg.bvLen.setWidth 64))) (advance_within h _)
    exact ⟨st', hrun, hflat.cons h⟩

/-- A request that starts on the device, or at its end, is one flat copy cut at the end of the device:
a write replaces the bytes from its start on, a read fills the front of its segments, and nothing
else changes. -/
theorem doRequest_flat {dev : BlockDev} {rq : Request}
    (hstart : (startPos rq.sector).toNat ≤ (devSize dev.capacity).toNat) (htotal : rq.total < 2^32) :
    ∃ st, doRequest dev rq 0 = some (0, st) ∧
      let pos := (startPos rq.sector).toNat
      let n := min rq.total ((devSize dev.capacity).toNat - pos)
      st.nrBytes.toNat = n ∧
      (rq.dir = .write → read st.data pos n = (content rq.segs).take n ∧
        (∀ o, o < pos ∨ pos + n ≤ o → st.data o = dev.data o) ∧ st.done = rq.segs.map Segment.bytes) ∧
      (rq.dir = .read → st.data = dev.data ∧
        st.done.map List.length = rq.segs.map (fun seg => seg.bytes.length) ∧
        st.done.flatten = read dev.data pos n ++ (content rq.segs).drop n) := by
  have hwithin : Within (devSize dev.capacity) (startPos rq.sector) :=
    ⟨hstart, by rw [dev.devSize_toNat]; exact dev.allocated⟩
  obtain ⟨st, hrun, hflat⟩ := segmentLoop_flat rq.dir ⟨dev.data, startPos rq.sector, 0, []⟩ hwithin rq.segs
  refine ⟨st, by rw [doRequest, hrun]; rfl, ?_⟩
  intro pos n
  change FlatCopy rq.dir ⟨dev.data, startPos rq.sector, 0, []⟩ st rq.segs n at hflat
  have hlen : ((content rq.segs).take n).length = n := by
    rw [List.length_take]
    exact min_eq_left (min_le_left _ _)
  refine ⟨?_, fun hdir => ⟨?_, fun o ho => ?_, hflat.write_done hdir⟩, fun hdir => ⟨hflat.read_data hdir, ?_⟩⟩
  · have hn : n < 2^32 := lt_of_le_of_lt (min_le_left _ _) htotal
    have hnr : st.nrBytes = BitVec.ofNat 32 n := hflat.nrBytes.trans (BitVec.zero_add _)
    rw [hnr, BitVec.toNat_ofNat]
    exact Nat.mod_eq_of_lt hn
  · have hread := read_write_self dev.data pos ((content rq.segs).take n)
    rw [hlen] at hread
    rw [hflat.write_data hdir]
    exact hread
  · have houtside : o < pos ∨ pos + ((content rq.segs).take n).length ≤ o := by rwa [hlen]
    rw [hflat.write_data hdir]
    exact write_outside _ houtside
  · obtain ⟨filled, hdone, hlens, hbytes⟩ := hflat.read_done hdir
    rw [hdone, List.nil_append]
    exact ⟨hlens, hbytes⟩

/-- A write of 8 bytes in two segments, from the last sector of a device of 2 sectors on. -/
theorem doRequest_flat_write :
    let dev : BlockDev := ⟨2, fun _ => 0, by decide⟩
    let rq : Request := ⟨.write, 1, [⟨[1, 2, 3], by decide⟩, ⟨[4, 5, 6, 7, 8], by decide⟩]⟩
    ∃ st, doRequest dev rq 0 = some (0, st) ∧ st.nrBytes = 8 ∧
      read st.data 512 8 = [1, 2, 3, 4, 5, 6, 7, 8] ∧ st.data 520 = 0 := by
  intro dev rq
  have hpos : (startPos rq.sector).toNat = 512 := by decide
  have hn : min rq.total ((devSize dev.capacity).toNat - 512) = 8 := by decide
  have hstart : (startPos rq.sector).toNat ≤ (devSize dev.capacity).toNat := by decide
  have htotal : rq.total < 2^32 := by decide
  obtain ⟨st, hrun, hnr, hwrite, _⟩ := doRequest_flat hstart htotal
  obtain ⟨hread, hrest, _⟩ := hwrite rfl
  rw [hpos, hn] at hnr hread
  rw [hpos, hn] at hrest
  exact ⟨st, hrun, BitVec.eq_of_toNat_eq hnr, hread, hrest 520 (.inr (by decide))⟩

end LinuxDrivers.Blockdev
