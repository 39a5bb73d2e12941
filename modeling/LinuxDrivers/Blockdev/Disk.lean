import LinuxDrivers.Blockdev.Request

/-! The RAM disk: a sequence of requests against the last-write semantics of a byte map. -/
namespace LinuxDrivers.Blockdev
open ByteMemory

/-- Serve one request, with `nr_bytes` starting at zero as in `queue_rq`. The segments come
back as the request leaves them. -/
def serve (dev : BlockDev) (rq : Request) : Option (BlockDev × List (List UInt8)) :=
  (doRequest dev rq 0).map (fun r => ({ dev with data := r.2.data }, r.2.done))

def serveAll (dev : BlockDev) : List Request → Option (BlockDev × List (List (List UInt8)))
  | [] => some (dev, [])
  | rq :: rqs => do
      let (dev₁, segs) ← serve dev rq
      let (dev₂, rest) ← serveAll dev₁ rqs
      pure (dev₂, segs :: rest)

def Request.written (rq : Request) (o : Nat) : Option UInt8 :=
  match rq.dir with
  | .read => none
  | .write => if rq.start ≤ o then (content rq.segs)[o - rq.start]? else none

/-- The byte most recently written at an offset, or the initial one. -/
def lastWritten (initial : Memory UInt8) (history : List Request) (o : Nat) : UInt8 :=
  (history.reverse.findSome? (fun w => w.written o)).getD (initial o)

/-- Two requests for the same bytes, possibly cut into different segments. -/
structure Recut (a b : Request) : Prop where
  dir : a.dir = b.dir
  sector : a.sector = b.sector
  total : a.total = b.total
  bytes : a.dir = .write → content a.segs = content b.segs

theorem lastWritten_cons (initial : Memory UInt8) (rq : Request) (history : List Request) :
    lastWritten initial (rq :: history) = lastWritten (lastWritten initial [rq]) history := by
  funext o
  simp only [lastWritten, List.reverse_cons, List.findSome?_append, List.reverse_nil, List.nil_append]
  cases history.reverse.findSome? (fun w => w.written o) <;> rfl

theorem lastWritten_recut {initial : Memory UInt8} {as bs : List Request}
    (h : List.Forall₂ Recut as bs) : lastWritten initial as = lastWritten initial bs := by
  induction h generalizing initial with
  | nil => rfl
  | @cons a b as bs hab _ ih =>
    have hw (o : Nat) : a.written o = b.written o := by
      have hstart : a.start = b.start := by simp only [Request.start, hab.sector]
      unfold Request.written
      rw [hstart]
      cases hd : a.dir with
      | read => rw [← hab.dir, hd]
      | write => rw [← hab.dir, hd, hab.bytes hd]
    rw [lastWritten_cons, lastWritten_cons initial b, ih]
    congr 1
    funext o
    simp [lastWritten, hw]

instance (rq : Request) (capacity : Sector) : Decidable (rq.InRange capacity) :=
  inferInstanceAs (Decidable (_ ≤ _))

theorem Request.InRange.within {dev : BlockDev} {rq : Request} (h : rq.InRange dev.capacity) :
    (startPos rq.sector).toNat = rq.start ∧ Within (devSize dev.capacity) (startPos rq.sector) := by
  have ha := dev.allocated
  have hs : (startPos rq.sector).toNat = rq.start := by
    have hle : rq.start + rq.total ≤ dev.capacity.toNat * 512 := h
    have hlt : rq.start < 2^64 := by omega
    rw [startPos_toNat]
    exact Nat.mod_eq_of_lt hlt
  refine ⟨hs, ?_, ?_⟩
  · rw [hs, dev.devSize_toNat]
    exact le_trans (Nat.le_add_right _ _) h
  · rw [dev.devSize_toNat]
    exact ha

/-- A request inside the device is one flat copy of all its bytes. -/
theorem doRequest_inRange (dev : BlockDev) {rq : Request} (h : rq.InRange dev.capacity) (nr : BitVec 32) :
    ∃ st, doRequest dev rq nr = some (0, st) ∧
      FlatCopy rq.dir ⟨dev.data, startPos rq.sector, nr, []⟩ st rq.segs rq.total := by
  obtain ⟨hs, hw⟩ := h.within
  obtain ⟨st, hrun, hflat⟩ := segmentLoop_flat rq.dir ⟨dev.data, startPos rq.sector, nr, []⟩ hw rq.segs
  refine ⟨st, by rw [doRequest, hrun]; rfl, ?_⟩
  have hmin : min (content rq.segs).length ((devSize dev.capacity).toNat - (startPos rq.sector).toNat) =
      rq.total := by
    rw [hs, dev.devSize_toNat]
    simp only [Request.InRange, Request.total] at h ⊢
    omega
  rwa [hmin] at hflat

/-- What serving one request inside the device does: the data follows the last-write map, and
a read fills its segments, of unchanged lengths, from the data. -/
theorem serve_inRange {dev : BlockDev} {rq : Request} (h : rq.InRange dev.capacity) :
    ∃ segs, serve dev rq = some ({ dev with data := lastWritten dev.data [rq] }, segs) ∧
      (rq.dir = .read → segs.map List.length = rq.segs.map (fun seg => seg.bytes.length) ∧
        segs.flatten = read dev.data rq.start rq.total) := by
  obtain ⟨st, hrun, hflat⟩ := doRequest_inRange dev h 0
  obtain ⟨hs, _⟩ := h.within
  have hdata : st.data = lastWritten dev.data [rq] := by
    funext o
    simp only [lastWritten, List.reverse_singleton, List.findSome?_singleton]
    cases hd : rq.dir with
    | read => simp only [Request.written, hd, hflat.read_data hd, Option.getD_none]
    | write =>
      rw [hflat.write_data hd, hs, Request.total, List.take_length]
      simp only [Request.written, hd, write]
      split <;> rfl
  refine ⟨st.done, by rw [serve, hrun, Option.map_some, ← hdata], fun hd => ?_⟩
  obtain ⟨filled, hdone, hlens, hbytes⟩ := hflat.read_done hd
  rw [hdone, List.nil_append]
  refine ⟨hlens, ?_⟩
  rw [hbytes, hs, Request.total, List.drop_length, List.append_nil]

/-- The RAM disk simulates the byte map: every read of the sequence delivers the map's bytes. -/
theorem serveAll_inRange (rqs : List Request) (dev : BlockDev) (h : ∀ rq ∈ rqs, rq.InRange dev.capacity) :
    ∃ delivered, serveAll dev rqs = some ({ dev with data := lastWritten dev.data rqs }, delivered) ∧
      delivered.length = rqs.length ∧
      ∀ (i : Nat) (rq : Request) (segs : List (List UInt8)), rqs[i]? = some rq →
        delivered[i]? = some segs → rq.dir = .read →
        segs.map List.length = rq.segs.map (fun seg => seg.bytes.length) ∧
        segs.flatten = read (lastWritten dev.data (rqs.take i)) rq.start rq.total := by
  induction rqs generalizing dev with
  | nil => exact ⟨[], rfl, rfl, by simp⟩
  | cons rq rqs ih =>
    obtain ⟨segs, hserve, hread⟩ := serve_inRange (h rq List.mem_cons_self)
    obtain ⟨rest, hrest, hlen, hreads⟩ := ih { dev with data := lastWritten dev.data [rq] }
      (fun r hr => h r (List.mem_cons_of_mem _ hr))
    refine ⟨segs :: rest, ?_, by simp [hlen], ?_⟩
    · simp only [serveAll, hserve, Option.bind_eq_bind, Option.bind_some, hrest,
        ← lastWritten_cons, Option.pure_def]
    · intro i r ss hr hss hd
      cases i with
      | zero =>
        cases hr
        cases hss
        exact hread hd
      | succ i =>
        rw [List.take_succ_cons, lastWritten_cons]
        exact hreads i r ss hr hss hd

/-- Requests cut another way stay on the device. -/
theorem inRange_recut {capacity : Sector} {rqs recut : List Request} (hcut : List.Forall₂ Recut rqs recut)
    (h : ∀ rq ∈ rqs, rq.InRange capacity) : ∀ rq ∈ recut, rq.InRange capacity := by
  induction hcut with
  | nil => exact h
  | cons hab _ ih =>
    obtain ⟨hfirst, hrest⟩ := List.forall_mem_cons.mp h
    refine List.forall_mem_cons.mpr ⟨?_, ih hrest⟩
    simpa only [Request.InRange, Request.start, hab.sector, hab.total] using hfirst

/-- RAM-disk semantics. Every read of a sequence of requests inside the device delivers, byte
for byte, what was last written before it, into segments of unchanged lengths; and the bytes
are the same for every other way of cutting the requests into segments. -/
theorem reads_deliver_last_written (dev : BlockDev) (rqs : List Request)
    (h : ∀ rq ∈ rqs, rq.InRange dev.capacity) :
    ∃ dev' delivered, serveAll dev rqs = some (dev', delivered) ∧ delivered.length = rqs.length ∧
      (∀ (i : Nat) (rq : Request) (segs : List (List UInt8)), rqs[i]? = some rq →
        delivered[i]? = some segs → rq.dir = .read →
        segs.map List.length = rq.segs.map (fun seg => seg.bytes.length) ∧
        ∀ k < rq.total,
          segs.flatten[k]? = some (lastWritten dev.data (rqs.take i) (rq.start + k))) ∧
      ∀ recut, List.Forall₂ Recut rqs recut →
        ∃ dev'' delivered', serveAll dev recut = some (dev'', delivered') ∧
          dev''.data = dev'.data ∧
          ∀ (i : Nat) (rq : Request) (segs segs' : List (List UInt8)), rqs[i]? = some rq →
            delivered[i]? = some segs → delivered'[i]? = some segs' →
            rq.dir = .read → segs.flatten = segs'.flatten := by
  obtain ⟨delivered, hrun, hlen, hreads⟩ := serveAll_inRange rqs dev h
  refine ⟨_, delivered, hrun, hlen, ?_, ?_⟩
  · intro i rq segs hr hs hd
    obtain ⟨hlens, hbytes⟩ := hreads i rq segs hr hs hd
    refine ⟨hlens, fun k hk => ?_⟩
    rw [hbytes, List.getElem?_eq_getElem (by simpa using hk), read_getElem]
  · intro recut hcut
    obtain ⟨delivered', hrun', _, hreads'⟩ := serveAll_inRange recut dev (inRange_recut hcut h)
    refine ⟨_, delivered', hrun', by rw [lastWritten_recut hcut], ?_⟩
    intro i rq segs segs' hr hs hs' hd
    obtain ⟨hi, hget⟩ := List.getElem?_eq_some_iff.mp hr
    have hi' : i < recut.length := by rw [← hcut.length_eq]; exact hi
    have hab := hcut.get hi hi'
    simp only [List.get_eq_getElem, hget] at hab
    rw [(hreads i rq segs hr hs hd).2,
      (hreads' i recut[i] segs' (List.getElem?_eq_getElem hi') hs' (hab.dir ▸ hd)).2,
      lastWritten_recut (List.forall₂_take i hcut)]
    simp only [Request.start, hab.sector, hab.total]

/-- Three bytes written in two segments are read back through one. -/
theorem reads_deliver_last_written_example :
    let w : Request := ⟨.write, 1, [⟨[7, 8], by decide⟩, ⟨[9], by decide⟩]⟩
    let r : Request := ⟨.read, 1, [⟨[0, 0, 0], by decide⟩]⟩
    ∃ dev' delivered, serveAll (createdDev (fun _ => 0)) [w, r] = some (dev', delivered) ∧
      ∀ segs, delivered[1]? = some segs → segs.flatten[2]? = some 9 := by
  intro w r
  obtain ⟨dev', delivered, hrun, _, hreads, _⟩ :=
    reads_deliver_last_written (createdDev (fun _ => 0)) [w, r] (by decide)
  refine ⟨dev', delivered, hrun, fun segs hs => ?_⟩
  have hlast : lastWritten (fun _ => 0) [w] (r.start + 2) = 9 := by decide +kernel
  have hbyte := (hreads 1 r segs rfl hs rfl).2 2 (by decide)
  exact hbyte.trans (congrArg some hlast)

end LinuxDrivers.Blockdev
