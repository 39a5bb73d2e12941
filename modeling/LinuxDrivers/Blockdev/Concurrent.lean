import Mathlib.Logic.Function.Basic
import LinuxDrivers.Lib.Interleaving
import LinuxDrivers.Blockdev.Disk

/-! Several hardware queues serve requests at once: activations of `do_request`, each with its
own locals and segment buffers, share `dev->data` without a lock. One step is one `memcpy`. -/
namespace LinuxDrivers.Blockdev
open ByteMemory Relation Interleaving

structure Activation where
  dir : Dir
  todo : List Segment
  pos : BitVec 64
  nrBytes : BitVec 32
  done : List (List UInt8)

structure System (ι : Type*) where
  data : Memory UInt8
  act : ι → Activation

variable {ι : Type*}

def Activation.enter (rq : Request) : Activation := ⟨rq.dir, rq.segs, startPos rq.sector, 0, []⟩

def Activation.loop (a : Activation) (data : Memory UInt8) : Loop := ⟨data, a.pos, a.nrBytes, a.done⟩

def Activation.leave (a : Activation) (todo : List Segment) (st : Loop) : Activation :=
  ⟨a.dir, todo, st.pos, st.nrBytes, st.done⟩

def System.start (dev : BlockDev) (reqs : ι → Request) : System ι :=
  ⟨dev.data, fun i => .enter (reqs i)⟩

def Overlap (a b : Request) : Prop :=
  ∃ o, (a.start ≤ o ∧ o < a.start + a.total) ∧ (b.start ≤ o ∧ o < b.start + b.total)

/-- Overlapping requests only read. -/
def Independent (reqs : ι → Request) : Prop :=
  ∀ i j, i ≠ j → Overlap (reqs i) (reqs j) → (reqs i).dir = .read ∧ (reqs j).dir = .read

/-- Where an activation stands: it has come from the start of its request and has the rest of
the request's range ahead. -/
structure OnTrack (rq : Request) (a : Activation) : Prop where
  dir : a.dir = rq.dir
  started : rq.start ≤ a.pos.toNat
  ahead : a.pos.toNat + (content a.todo).length = rq.start + rq.total

def AllOnTrack (reqs : ι → Request) (s : System ι) : Prop := ∀ i, OnTrack (reqs i) (s.act i)

theorem OnTrack.within {dev : BlockDev} {rq : Request} (hin : rq.InRange dev.capacity) {a : Activation}
    (h : OnTrack rq a) : Within (devSize dev.capacity) a.pos := by
  have hah := h.ahead
  have hle : rq.start + rq.total ≤ dev.capacity.toNat * 512 := hin
  refine ⟨?_, by rw [dev.devSize_toNat]; exact dev.allocated⟩
  rw [dev.devSize_toNat]
  omega

/-- On track nothing is clamped. -/
theorem OnTrack.clampLen_toNat {dev : BlockDev} {rq : Request} (hin : rq.InRange dev.capacity)
    {a : Activation} (h : OnTrack rq a) {seg : Segment} {rest : List Segment} (ht : a.todo = seg :: rest) :
    (clampLen a.pos (devSize dev.capacity) (seg.bvLen.setWidth 64)).toNat = seg.bytes.length := by
  have hah := h.ahead
  have hle : rq.start + rq.total ≤ dev.capacity.toNat * 512 := hin
  rw [ht, content_cons, List.length_append] at hah
  rw [Blockdev.clampLen_toNat (h.within hin), seg.bvLen_toNat, dev.devSize_toNat]
  omega

theorem enter_onTrack {dev : BlockDev} {rq : Request} (hin : rq.InRange dev.capacity) :
    OnTrack rq (.enter rq) := by
  obtain ⟨hs, _⟩ := hin.within
  exact ⟨rfl, hs.ge, by rw [← hs]; rfl⟩

/-- The next ranges of two different activations are apart, or both are only read. -/
theorem next_ranges_apart {reqs : ι → Request} (hind : Independent reqs) {s : System ι}
    (hs : AllOnTrack reqs s) {i j : ι} (hij : i ≠ j) {a b : Segment} {as bs : List Segment}
    (hi : (s.act i).todo = a :: as) (hj : (s.act j).todo = b :: bs) :
    ((s.act i).dir = .read ∧ (s.act j).dir = .read) ∨
      ((s.act i).pos.toNat + a.bytes.length ≤ (s.act j).pos.toNat ∨
        (s.act j).pos.toNat + b.bytes.length ≤ (s.act i).pos.toNat ∨ a.bytes = [] ∨ b.bytes = []) := by
  have hai := (hs i).ahead
  have haj := (hs j).ahead
  have hsi := (hs i).started
  have hsj := (hs j).started
  rw [hi, content_cons, List.length_append] at hai
  rw [hj, content_cons, List.length_append] at haj
  rw [(hs i).dir, (hs j).dir]
  by_cases hover : Overlap (reqs i) (reqs j)
  · exact .inl (hind i j hij hover)
  · right
    by_contra hclash
    simp only [not_or, ← List.length_eq_zero_iff] at hclash
    -- the later of the two positions is an offset of both requests
    exact hover ⟨max (s.act i).pos.toNat (s.act j).pos.toNat, by omega, by omega⟩

/-- Two copies to and from ranges that are apart do not see each other. -/
theorem copied_comm {p q : Activation} {a b : Segment} {la lb : BitVec 64} (data : Memory UInt8)
    (hla : la.toNat = a.bytes.length) (hlb : lb.toNat = b.bytes.length)
    (h : (p.dir = .read ∧ q.dir = .read) ∨ (p.pos.toNat + a.bytes.length ≤ q.pos.toNat ∨
      q.pos.toNat + b.bytes.length ≤ p.pos.toNat ∨ a.bytes = [] ∨ b.bytes = [])) :
    ((q.loop ((p.loop data).copied p.dir a la).data).copied q.dir b lb).done =
        ((q.loop data).copied q.dir b lb).done ∧
      ((q.loop ((p.loop data).copied p.dir a la).data).copied q.dir b lb).data =
        ((p.loop ((q.loop data).copied q.dir b lb).data).copied p.dir a la).data := by
  have hta : a.bytes.take la.toNat = a.bytes := List.take_of_length_le hla.ge
  have htb : b.bytes.take lb.toNat = b.bytes := List.take_of_length_le hlb.ge
  cases hp : p.dir with
  | read => cases q.dir <;> simp [Loop.copied, Activation.loop]
  | write =>
    have hapart := h.resolve_left (by simp [hp])
    cases q.dir with
    | read =>
      have hread : read (write data p.pos.toNat a.bytes) q.pos.toNat b.bytes.length =
          read data q.pos.toNat b.bytes.length :=
        read_write_disjoint _ (by simpa [List.length_eq_zero_iff] using hapart)
      simp [Loop.copied, Activation.loop, hta, hlb, hread]
    | write =>
      have hcomm := write_comm data hapart
      simp [Loop.copied, Activation.loop, hta, htb, hcomm]

section
variable [DecidableEq ι]

def System.put (s : System ι) (i : ι) (todo : List Segment) (st : Loop) : System ι :=
  ⟨st.data, Function.update s.act i ((s.act i).leave todo st)⟩

def copyStep (size : BitVec 64) (i : ι) (s : System ι) : Option (System ι) :=
  match (s.act i).todo with
  | [] => none
  | seg :: rest => (copySegment size (s.act i).dir ((s.act i).loop s.data) seg).map (s.put i rest)

def serveOne (dev : BlockDev) (reqs : ι → Request) (s : System ι) (i : ι) : Option (System ι) :=
  (doRequest { dev with data := s.data } (reqs i) 0).map (fun r => s.put i [] r.2)

def serveInOrder (dev : BlockDev) (reqs : ι → Request) (order : List ι) : Option (System ι) :=
  order.foldlM (serveOne dev reqs) (System.start dev reqs)

@[simp] theorem System.put_act_self (s : System ι) (i : ι) (todo : List Segment) (st : Loop) :
    (s.put i todo st).act i = (s.act i).leave todo st := by
  simp [System.put]

theorem System.put_act_ne (s : System ι) {i j : ι} (h : j ≠ i) (todo : List Segment) (st : Loop) :
    (s.put i todo st).act j = s.act j := by
  simp [System.put, h]

theorem System.put_put (s : System ι) (i : ι) (todo todo' : List Segment) (st st' : Loop) :
    (s.put i todo st).put i todo' st' = s.put i todo' st' := by
  simp [System.put, Activation.leave]

theorem copyStep_eq {dev : BlockDev} {rq : Request} (hin : rq.InRange dev.capacity) {s : System ι} {i : ι}
    (hs : OnTrack rq (s.act i)) {seg : Segment} {rest : List Segment} (ht : (s.act i).todo = seg :: rest) :
    copyStep (devSize dev.capacity) i s = some (s.put i rest (((s.act i).loop s.data).copied
      (s.act i).dir seg (clampLen (s.act i).pos (devSize dev.capacity) (seg.bvLen.setWidth 64)))) := by
  unfold copyStep
  rw [ht]
  simp only [copySegment_within _ ((s.act i).loop s.data) (hs.within hin), Option.map_some]
  rfl

theorem copyStep_cases {dev : BlockDev} {rq : Request} (hin : rq.InRange dev.capacity) {s : System ι} {i : ι}
    (hs : OnTrack rq (s.act i)) {t : System ι} (h : copyStep (devSize dev.capacity) i s = some t) :
    ∃ seg rest bLen, (s.act i).todo = seg :: rest ∧ bLen.toNat = seg.bytes.length ∧
      bLen = clampLen (s.act i).pos (devSize dev.capacity) (seg.bvLen.setWidth 64) ∧
      t = s.put i rest (((s.act i).loop s.data).copied (s.act i).dir seg bLen) := by
  cases ht : (s.act i).todo with
  | nil => simp [copyStep, ht] at h
  | cons seg rest =>
    rw [copyStep_eq hin hs ht, Option.some.injEq] at h
    exact ⟨seg, rest, _, rfl, hs.clampLen_toNat hin ht, rfl, h.symm⟩

theorem copyStep_onTrack {dev : BlockDev} {reqs : ι → Request} (hin : ∀ i, (reqs i).InRange dev.capacity) :
    Preserved (copyStep (devSize dev.capacity)) (AllOnTrack reqs) := by
  intro s i t hs h j
  obtain ⟨seg, rest, bLen, ht, hlen, hb, rfl⟩ := copyStep_cases (hin i) (hs i) h
  by_cases hj : j = i
  · subst hj
    have hah := (hs j).ahead
    have hst := (hs j).started
    have hw := (hs j).within (hin j)
    have hpos : ((s.act j).pos + bLen).toNat = (s.act j).pos.toNat + seg.bytes.length := by
      rw [hb, advance_toNat hw, ← clampLen_toNat hw, ← hb, hlen]
    rw [ht, content_cons, List.length_append] at hah
    rw [System.put_act_self]
    refine ⟨(hs j).dir, ?_, ?_⟩
    · simp only [Activation.leave, Loop.copied, Activation.loop, hpos]
      omega
    · simp only [Activation.leave, Loop.copied, Activation.loop, hpos]
      omega
  · rw [System.put_act_ne s hj]
    exact hs j

theorem copyStep_commuting {dev : BlockDev} {reqs : ι → Request} (hin : ∀ i, (reqs i).InRange dev.capacity)
    (hind : Independent reqs) : Commuting (copyStep (ι := ι) (devSize dev.capacity)) (AllOnTrack reqs) := by
  intro s i j t u hs hij hi hj
  have ht := copyStep_onTrack hin s i t hs hi
  have hu := copyStep_onTrack hin s j u hs hj
  obtain ⟨a, as, la, hta, hla, hlae, rfl⟩ := copyStep_cases (hin i) (hs i) hi
  obtain ⟨b, bs, lb, htb, hlb, hlbe, rfl⟩ := copyStep_cases (hin j) (hs j) hj
  have hapart := next_ranges_apart hind hs hij hta htb
  obtain ⟨hdone_j, hdata⟩ := copied_comm s.data hla hlb hapart
  have hapart' := hapart.imp And.symm fun h => or_left_comm.mp (h.imp_right (Or.imp_right Or.symm))
  obtain ⟨hdone_i, _⟩ := copied_comm s.data hlb hla hapart'
  have hj' := copyStep_eq (hin j) (ht j) (by rw [System.put_act_ne s hij.symm]; exact htb)
  have hi' := copyStep_eq (hin i) (hu i) (by rw [System.put_act_ne s hij]; exact hta)
  rw [System.put_act_ne s hij.symm, ← hlbe] at hj'
  rw [System.put_act_ne s hij, ← hlae] at hi'
  refine ⟨_, hj', hi'.trans (congrArg some ?_)⟩
  simp only [System.put, System.mk.injEq, Function.update_of_ne hij, Function.update_of_ne hij.symm]
  refine ⟨hdata.symm, ?_⟩
  rw [Function.update_comm hij]
  simp only [Activation.leave]
  rw [hdone_i, hdone_j]
  rfl

/-- A whole `do_request` is a run of steps of its activation. -/
theorem segmentLoop_steps (size : BitVec 64) (s : System ι) (i : ι) (st : Loop)
    (h : segmentLoop size (s.act i).dir ((s.act i).loop s.data) (s.act i).todo = some st) :
    ReflTransGen (Move (copyStep size)) s (s.put i [] st) := by
  generalize ht : (s.act i).todo = todo at h
  induction todo generalizing s with
  | nil =>
    cases h
    have hsame : s.put i [] ((s.act i).loop s.data) = s := by
      simp only [System.put, Activation.leave, Activation.loop, ← ht, Function.update_eq_self]
    rw [hsame]
  | cons seg rest ih =>
    rw [segmentLoop_cons] at h
    obtain ⟨mid, hmid, hrest⟩ := Option.bind_eq_some_iff.mp h
    have hstep : copyStep size i s = some (s.put i rest mid) := by
      rw [copyStep, ht]
      simp only [hmid, Option.map_some]
    have hrun := ih (s.put i rest mid)
      (by rw [System.put_act_self]; rfl) (by rw [System.put_act_self]; exact hrest)
    rw [System.put_put] at hrun
    exact .head ⟨i, hstep⟩ hrun

/-- Serving requests in any order is one of the interleavings, and a complete one. -/
theorem serveInOrder_steps {dev : BlockDev} {reqs : ι → Request} (hin : ∀ i, (reqs i).InRange dev.capacity)
    (order : List ι) (hnodup : order.Nodup) {s : System ι} (hs : ∀ i ∈ order, s.act i = .enter (reqs i)) :
    ∃ t, order.foldlM (serveOne dev reqs) s = some t ∧
      ReflTransGen (Move (copyStep (devSize dev.capacity))) s t ∧
      (∀ i ∈ order, (t.act i).todo = []) ∧ ∀ i, i ∉ order → t.act i = s.act i := by
  induction order generalizing s with
  | nil => exact ⟨s, rfl, .refl, by simp, fun _ _ => rfl⟩
  | cons i order ih =>
    obtain ⟨hi, hnodup⟩ := List.nodup_cons.mp hnodup
    have hent := hs i List.mem_cons_self
    obtain ⟨st, hrun, _⟩ := doRequest_inRange { dev with data := s.data } (hin i) 0
    obtain ⟨_, hloop, hst⟩ := Option.map_eq_some_iff.mp hrun
    cases hst
    have hsteps := segmentLoop_steps (devSize dev.capacity) s i st
      (by rw [hent]; exact hloop)
    obtain ⟨t, hfold, hrest, hdone, hkept⟩ := ih hnodup (s := s.put i [] st) (by
      intro j hj
      rw [System.put_act_ne s (by rintro rfl; exact hi hj)]
      exact hs j (List.mem_cons_of_mem _ hj))
    refine ⟨t, ?_, hsteps.trans hrest, ?_, ?_⟩
    · rw [List.foldlM_cons]
      simp only [serveOne, hrun, Option.map_some, Option.bind_eq_bind, Option.bind_some]
      exact hfold
    · intro j hj
      rcases List.mem_cons.mp hj with rfl | hj
      · rw [hkept j hi, System.put_act_self]
        rfl
      · exact hdone j hj
    · intro j hj
      rw [List.mem_cons, not_or] at hj
      rw [hkept j hj.2, System.put_act_ne s hj.1]

/-- Concurrent service of independent requests: every interleaving of their segment copies
that cannot be continued has copied all segments, and leaves the data, the segments and the
byte counts that serving the requests one after another leaves, in whichever order. -/
theorem concurrent_service_eq_serial (dev : BlockDev) (reqs : ι → Request)
    (hin : ∀ i, (reqs i).InRange dev.capacity) (hind : Independent reqs) (final : System ι)
    (hrun : ReflTransGen (Move (copyStep (devSize dev.capacity))) (System.start dev reqs) final)
    (hhalt : Halted (copyStep (devSize dev.capacity)) final)
    (order : List ι) (hnodup : order.Nodup) (hall : ∀ i, i ∈ order) :
    serveInOrder dev reqs order = some final ∧ ∀ i, (final.act i).todo = [] := by
  obtain ⟨t, hfold, hsteps, hdone, _⟩ := serveInOrder_steps hin order hnodup
    (s := System.start dev reqs) (fun _ _ => rfl)
  have hthalt : Halted (copyStep (devSize dev.capacity)) t := by
    intro i
    rw [copyStep, hdone i (hall i)]
  have hstart : AllOnTrack reqs (System.start dev reqs) := fun i => enter_onTrack (hin i)
  have hsame : t = final := outcome_unique (copyStep_onTrack hin) (copyStep_commuting hin hind) hstart
    hsteps hrun hthalt hhalt
  subst hsame
  exact ⟨hfold, fun i => hdone i (hall i)⟩

end

/-- A write to the first sector and a read of the second one may be served either way round. -/
theorem concurrent_service_two_requests :
    let reqs : Bool → Request := fun b =>
      if b then ⟨.write, 0, [⟨[1], by decide⟩, ⟨[2], by decide⟩]⟩ else ⟨.read, 1, [⟨[0, 0, 0], by decide⟩]⟩
    ∃ final, serveInOrder (createdDev (fun _ => 5)) reqs [true, false] = some final ∧
      serveInOrder (createdDev (fun _ => 5)) reqs [false, true] = some final := by
  intro reqs
  have hin : ∀ i, (reqs i).InRange (createdDev (fun _ => 5)).capacity := by decide
  have hind : Independent reqs := by
    rintro i j hij ⟨o, hi, hj⟩
    cases i <;> cases j <;> simp [reqs, Request.start, Request.total] at hij hi hj ⊢ <;> omega
  obtain ⟨final, hfold, hsteps, hdone, _⟩ := serveInOrder_steps hin [true, false] (by decide)
    (s := System.start (createdDev (fun _ => 5)) reqs) (fun _ _ => rfl)
  have hhalt : Halted (copyStep (devSize (createdDev (fun _ => 5)).capacity)) final := by
    intro i
    rw [copyStep, hdone i (by cases i <;> decide)]
  exact ⟨final, hfold, (concurrent_service_eq_serial _ reqs hin hind final hsteps hhalt [false, true]
    (by decide) (by decide)).1⟩

end LinuxDrivers.Blockdev
