import LinuxDrivers.Blockdev.Disk

/-! `queue_rq`: serve a request, then tell the block layer how many bytes were moved. -/
namespace LinuxDrivers.Blockdev
open ByteMemory

inductive BlkStatus where
  | ok
  | ioerr
  deriving DecidableEq, Repr

inductive Outcome where
  /-- A copy of `do_request` left the device buffer. -/
  | fault
  /-- `blk_update_request` reported bytes still to be completed. -/
  | bug
  /-- `__blk_mq_end_request` was reached. -/
  | completed (status : BlkStatus) (st : Loop)

def Outcome.Completes : Outcome → Prop
  | .completed _ _ => True
  | _ => False

/-- `queue_rq`, with the kernel's `blk_update_request` as a parameter. -/
def queueRq (blkUpdateRequest : Request → BlkStatus → BitVec 32 → Bool)
    (dev : BlockDev) (rq : Request) : Outcome :=
  match doRequest dev rq 0 with
  | none => .fault
  | some (ret, st) =>
      let status := if ret ≠ 0 then BlkStatus.ioerr else .ok
      if blkUpdateRequest rq status st.nrBytes then .bug else .completed status st

def UpdatesByCount (blkUpdateRequest : Request → BlkStatus → BitVec 32 → Bool) : Prop :=
  ∀ rq status n, blkUpdateRequest rq status n = true ↔ n.toNat < rq.total

/-- A request whose shifted start lies within the device moves the bytes up to its end. -/
theorem doRequest_clamped (dev : BlockDev) (rq : Request)
    (h : Within (devSize dev.capacity) (startPos rq.sector)) :
    ∃ st, doRequest dev rq 0 = some (0, st) ∧
      st.nrBytes.toNat =
        min rq.total (dev.capacity.toNat * 512 - rq.start % 2^64) % 2^32 := by
  obtain ⟨st, hrun, hflat⟩ := segmentLoop_flat rq.dir ⟨dev.data, startPos rq.sector, 0, []⟩ h rq.segs
  refine ⟨st, by rw [doRequest, hrun]; rfl, ?_⟩
  have hnr : st.nrBytes = BitVec.ofNat 32
      (min rq.total ((devSize dev.capacity).toNat - (startPos rq.sector).toNat)) :=
    hflat.nrBytes.trans (BitVec.zero_add _)
  rw [hnr, dev.devSize_toNat, startPos_toNat, BitVec.toNat_ofNat]
  rfl

/-- Started anywhere else, the first copy already leaves the buffer. -/
theorem doRequest_outside {dev : BlockDev} {rq : Request} (hsegs : rq.segs ≠ [])
    (h : ¬ Within (devSize dev.capacity) (startPos rq.sector)) : doRequest dev rq 0 = none := by
  rw [← Option.not_isSome_iff_eq_none, doRequest_isSome_iff]
  intro hall
  obtain ⟨seg, segs, hs⟩ := List.exists_cons_of_ne_nil hsegs
  rw [hs] at hall
  exact h (within_of_inBounds (hall _ List.mem_cons_self))

/-- After a served request only the byte count decides about `BUG`. -/
theorem queueRq_completes_of_run {blkUpdateRequest : Request → BlkStatus → BitVec 32 → Bool}
    (hupd : UpdatesByCount blkUpdateRequest) {dev : BlockDev} {rq : Request} {st : Loop}
    (hrun : doRequest dev rq 0 = some (0, st)) :
    (queueRq blkUpdateRequest dev rq).Completes ↔ rq.total ≤ st.nrBytes.toNat := by
  have h := hupd rq .ok st.nrBytes
  simp only [queueRq, hrun, ne_eq, not_true_eq_false, if_false]
  cases hb : blkUpdateRequest rq .ok st.nrBytes with
  | true => simpa [Outcome.Completes] using h.mp hb
  | false => simpa [Outcome.Completes, hb] using h

/-- `queue_rq` completes a request exactly when it has no segment, or all its bytes lie inside
the device from its (64-bit) start on and their number fits `nr_bytes`. Otherwise the clamp
leaves `nr_bytes` short of the request and `BUG` is reached, or a copy faults. -/
theorem queueRq_completes_iff (blkUpdateRequest : Request → BlkStatus → BitVec 32 → Bool)
    (hupd : UpdatesByCount blkUpdateRequest) (dev : BlockDev) (rq : Request) :
    (queueRq blkUpdateRequest dev rq).Completes ↔
      rq.segs = [] ∨
        (rq.start % 2^64 + rq.total ≤ dev.capacity.toNat * 512 ∧ rq.total < 2^32) := by
  by_cases hsegs : rq.segs = []
  · have hrun : doRequest dev rq 0 = some (0, ⟨dev.data, startPos rq.sector, 0, []⟩) := by
      rw [doRequest, hsegs]
      rfl
    rw [queueRq_completes_of_run hupd hrun]
    simp [Request.total, hsegs]
  · by_cases hw : Within (devSize dev.capacity) (startPos rq.sector)
    · obtain ⟨st, hrun, hnr⟩ := doRequest_clamped dev rq hw
      have hle : rq.start % 2^64 ≤ dev.capacity.toNat * 512 := by
        have := hw.1
        rwa [startPos_toNat, dev.devSize_toNat] at this
      simp only [queueRq_completes_of_run hupd hrun, hnr, hsegs, false_or]
      omega
    · rw [queueRq, doRequest_outside hsegs hw]
      simp only [Outcome.Completes, hsegs, false_or, false_iff]
      rintro ⟨hin, _⟩
      apply hw
      refine ⟨?_, by rw [dev.devSize_toNat]; exact dev.allocated⟩
      rw [startPos_toNat, dev.devSize_toNat]
      exact le_trans (Nat.le_add_right _ _) hin

def countingUpdate (rq : Request) (_ : BlkStatus) (n : BitVec 32) : Bool := decide (n.toNat < rq.total)

/-- A request at the start of the device completes. -/
theorem queueRq_completes_at_start :
    (queueRq countingUpdate (createdDev (fun _ => 0)) ⟨.read, 0, [⟨[0, 0, 0, 0], by decide⟩]⟩).Completes :=
  (queueRq_completes_iff countingUpdate (fun _ _ _ => decide_eq_true_iff) _ _).mpr
    (.inr ⟨by decide, by decide⟩)

/-- A read that starts in the last sector and runs one sector past the end is cut back to 512
bytes by `do_request`; `queue_rq` then reports 512 of 1024 bytes and reaches `BUG`. -/
theorem queueRq_bug_past_end :
    ¬ ∀ (blkUpdateRequest : Request → BlkStatus → BitVec 32 → Bool) (dev : BlockDev) (rq : Request),
      UpdatesByCount blkUpdateRequest → (queueRq blkUpdateRequest dev rq).Completes := by
  intro h
  obtain ⟨seg, hseg⟩ : ∃ seg : Segment, seg.bytes.length = 1024 :=
    ⟨⟨List.replicate 1024 0, by rw [List.length_replicate]; decide⟩, List.length_replicate⟩
  have htotal : (⟨.read, 895, [seg]⟩ : Request).total = 1024 := by simp [Request.total, hseg]
  have hupd : UpdatesByCount countingUpdate := fun _ _ _ => decide_eq_true_iff
  have hwithin : Within (devSize (createdDev (fun _ => 0)).capacity) (startPos 895) := by decide
  obtain ⟨st, hrun, hnr⟩ := doRequest_clamped (createdDev (fun _ => 0)) ⟨.read, 895, [seg]⟩ hwithin
  have hcomplete := (queueRq_completes_of_run hupd hrun).mp (h _ _ _ hupd)
  have hcut : min 1024 (896 * 512 - 895 * 512 % 2^64) % 2^32 = 512 := by decide
  rw [htotal, hnr, htotal] at hcomplete
  exact absurd (hcomplete.trans_eq hcut) (by decide)

end LinuxDrivers.Blockdev
