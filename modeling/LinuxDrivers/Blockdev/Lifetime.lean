import LinuxDrivers.Blockdev.Queue
import LinuxDrivers.Lib.Ledger
import LinuxDrivers.Lib.Runs

/-! Loading and unloading the RAM disk, statement by statement and again and again, while requests come in. -/
namespace LinuxDrivers.Blockdev
open ByteMemory Ledger Runs

/-- The next statement of `myblock_driver_init`, or from `loaded` on of `myblock_driver_exit`. -/
inductive Pc where
  /-- The first one; the module is not loaded. -/
  | registerBlkdev
  | kmallocDevice
  | kmallocData
  | allocTagSet
  | allocDisk
  | setUp
  /-- `add_disk`, which reads the disk itself before it returns. -/
  | addDisk
  | putFailedDisk
  /-- `del_gendisk`, the first one of the exit. -/
  | loaded
  | putDisk
  | destroyQueue
  | kfreeData
  | unregisterBlkdev
  | kfreeDevice
  /-- The error pointer of a failed `blk_mq_alloc_disk` was dereferenced. -/
  | oops
  /-- A request found its device freed, or a copy left the buffer. -/
  | fault
  /-- `queue_rq` reached `BUG()`. -/
  | bug
  deriving DecidableEq, Repr

inductive Kind where
  /-- The major number of `register_blkdev`. -/
  | major
  | device
  | data
  | tagSet
  | disk
  | queue
  deriving DecidableEq, Repr

/-- Each load has resources of its own. -/
structure Resource where
  kind : Kind
  load : Nat
  deriving DecidableEq, Repr

inductive Ending where
  | noDevice
  | noData
  | noTagSet
  | notAdded
  | unloaded
  deriving DecidableEq, Repr

structure Load where
  registered : Bool
  ending : Ending
  deriving DecidableEq, Repr

structure Driver where
  pc : Pc
  /-- The loads that came to their end, the last one first. -/
  ended : List Load
  /-- Whether `register_blkdev` succeeded, which nobody looks at. -/
  registered : Bool
  /-- `*block_device`, from the allocation of its buffer on and until that is freed. -/
  dev : Option BlockDev
  /-- The capacity the block layer was told. -/
  diskCapacity : Sector
  /-- What `kmalloc` left in the buffer. -/
  fresh : Memory UInt8
  /-- The requests since then, with their segments as `queue_rq` left them. -/
  served : List (Request × List (List UInt8))
  account : Account Resource

def Driver.initial : Driver := ⟨.registerBlkdev, [], false, none, 0, fun _ => 0, [], .empty⟩

inductive Move where
  /-- The next statement; `ok` is the outcome of a call that may fail, `memory` the content of what it allocates. -/
  | module (ok : Bool) (memory : Memory UInt8)
  | request (rq : Request)

def Driver.resource (s : Driver) (k : Kind) : Resource := ⟨k, s.ended.length⟩

def Driver.acquire (s : Driver) (k : Kind) : Driver := { s with account := s.account.acquire (s.resource k) }

def Driver.release (s : Driver) (k : Kind) : Driver := { s with account := s.account.release (s.resource k) }

def Driver.finish (s : Driver) (ending : Ending) : Driver :=
  { s with pc := .registerBlkdev, ended := ⟨s.registered, ending⟩ :: s.ended, dev := none }

/-- `put_disk`: the disk goes, with the queue it was allocated with. -/
def Driver.putDisk (s : Driver) : Driver := (s.release .queue).release .disk

/-- `myblock_driver_init` and `myblock_driver_exit`, one statement at a time. The test for a null queue
comes behind the accesses to it and is never met. -/
def Driver.moduleStep (s : Driver) (ok : Bool) (memory : Memory UInt8) : Option Driver :=
  match s.pc with
  | .registerBlkdev =>
      some { (if ok then s.acquire .major else s) with pc := .kmallocDevice, registered := ok }
  | .kmallocDevice => some (if ok then { s.acquire .device with pc := .kmallocData }
      else (s.release .major).finish .noDevice)
  | .kmallocData => some (if ok then
        { s.acquire .data with
          pc := .allocTagSet, dev := some (createdDev memory), fresh := memory, served := [] }
      else ((s.release .major).release .device).finish .noData)
  | .allocTagSet => some (if ok then { s.acquire .tagSet with pc := .allocDisk } else s.finish .noTagSet)
  | .allocDisk => some (if ok then { (s.acquire .disk).acquire .queue with pc := .setUp }
      else { s with pc := .oops })
  | .setUp => some { s with pc := .addDisk, diskCapacity := (s.dev.map BlockDev.capacity).getD 0 }
  | .addDisk => some { s with pc := if ok then .loaded else .putFailedDisk }
  | .putFailedDisk => some (s.putDisk.finish .notAdded)
  | .loaded => some { s with pc := .putDisk }
  | .putDisk => some { s.putDisk with pc := .destroyQueue }
  | .destroyQueue => some { s.release .queue with pc := .kfreeData }
  | .kfreeData => some { s.release .data with pc := .unregisterBlkdev, dev := none }
  | .unregisterBlkdev => some { s.release .major with pc := .kfreeDevice }
  | .kfreeDevice => some ((s.release .device).finish .unloaded)
  | .oops | .fault | .bug => none

def Driver.request (s : Driver) (rq : Request) : Driver :=
  match s.dev with
  | none => { s with pc := .fault }
  | some dev =>
      match queueRq countingUpdate dev rq with
      | .fault => { s with pc := .fault }
      | .bug => { s with pc := .bug }
      | .completed _ st =>
          { s with dev := some { dev with data := st.data }, served := s.served ++ [(rq, st.done)] }

/-- Requests come while the disk is being added or is there. The block layer lets those through that lie
inside the capacity it was told. -/
def Driver.step (s : Driver) : Move → Option Driver
  | .module ok memory => s.moduleStep ok memory
  | .request rq =>
      if (s.pc = .addDisk ∨ s.pc = .loaded) ∧ rq.InRange s.diskCapacity then some (s.request rq) else none

section Accounts

def majorIf (registered : Bool) : List Kind := if registered then [.major] else []

def strayMajor (registered : Bool) : List Kind := if registered then [] else [.major]

def Pc.inUse (registered : Bool) : Pc → List Kind
  | .registerBlkdev => []
  | .kmallocDevice => majorIf registered
  | .kmallocData => .device :: majorIf registered
  | .allocTagSet => .data :: .device :: majorIf registered
  | .allocDisk | .oops | .destroyQueue | .kfreeData => .tagSet :: .data :: .device :: majorIf registered
  | .setUp | .addDisk | .putFailedDisk | .loaded | .putDisk | .fault | .bug =>
      .queue :: .disk :: .tagSet :: .data :: .device :: majorIf registered
  | .unregisterBlkdev => .tagSet :: .device :: majorIf registered
  | .kfreeDevice => [.tagSet, .device]

def Pc.strays (registered : Bool) : Pc → List Kind
  | .kfreeData | .unregisterBlkdev => [.queue]
  | .kfreeDevice => .queue :: strayMajor registered
  | _ => []

def Load.left (l : Load) : List Kind :=
  match l.ending with
  | .noDevice | .noData => []
  | .noTagSet => .data :: .device :: majorIf l.registered
  | .notAdded => .tagSet :: .data :: .device :: majorIf l.registered
  | .unloaded => [.tagSet]

def Load.strays (l : Load) : List Kind :=
  match l.ending with
  | .noDevice | .noData => strayMajor l.registered
  | .noTagSet | .notAdded => []
  | .unloaded => .queue :: strayMajor l.registered

def tagged (load : Nat) (kinds : List Kind) : List Resource := kinds.map fun k => ⟨k, load⟩

def leftBehind : List Load → List Resource
  | [] => []
  | l :: older => tagged older.length l.left ++ leftBehind older

def lost : List Load → List Resource
  | [] => []
  | l :: older => lost older ++ tagged older.length l.strays

/-- What is held is in use by the running load or was left behind by one before it, and nothing else went
astray than what these loads released without holding it. -/
structure Owes (a : Account Resource) (ended : List Load) (inUse strays : List Kind) : Prop where
  held : a.held.Perm (tagged ended.length inUse ++ leftBehind ended)
  strays : a.strays = lost ended ++ tagged ended.length strays

variable {a : Account Resource} {ended : List Load} {inUse strays : List Kind} {k : Kind}

theorem load_lt_of_mem_leftBehind {r : Resource} (h : r ∈ leftBehind ended) : r.load < ended.length := by
  induction ended with
  | nil => cases h
  | cons l older ih =>
    rw [List.length_cons]
    rcases List.mem_append.mp h with hl | hold
    · obtain ⟨k, _, rfl⟩ := List.mem_map.mp hl
      exact Nat.lt_succ_self _
    · exact (ih hold).trans (Nat.lt_succ_self _)

theorem Owes.perm (h : Owes a ended inUse strays) (inUse' : List Kind) (hp : inUse.Perm inUse') : Owes a ended inUse' strays :=
  ⟨h.held.trans ((hp.map _).append_right _), h.strays⟩

theorem Owes.acquire (h : Owes a ended inUse strays) (k : Kind) :
    Owes (a.acquire ⟨k, ended.length⟩) ended (k :: inUse) strays :=
  ⟨h.held.cons _, h.strays⟩

theorem Owes.release (h : Owes a ended (k :: inUse) strays) :
    Owes (a.release ⟨k, ended.length⟩) ended inUse strays := by
  have hmem : (⟨k, ended.length⟩ : Resource) ∈ a.held := h.held.mem_iff.mpr List.mem_cons_self
  exact ⟨Account.held_release h.held, (Account.strays_release_of_mem hmem).trans h.strays⟩

theorem Owes.stray (h : Owes a ended inUse strays) (hk : k ∉ inUse) :
    Owes (a.release ⟨k, ended.length⟩) ended inUse (strays ++ [k]) := by
  have hnot : (⟨k, ended.length⟩ : Resource) ∉ a.held := by
    intro hmem
    rcases List.mem_append.mp (h.held.mem_iff.mp hmem) with huse | hold
    · obtain ⟨k', hk', heq⟩ := List.mem_map.mp huse
      cases heq
      exact hk hk'
    · exact Nat.lt_irrefl _ (load_lt_of_mem_leftBehind hold)
  rw [Account.release_of_notMem hnot]
  refine ⟨h.held, ?_⟩
  simp only [h.strays, tagged, List.map_append, List.append_assoc, List.map_cons, List.map_nil]

/-- `unregister_blkdev`, whether or not there is something to unregister. -/
theorem Owes.releaseMajor {registered : Bool} (h : Owes a ended (majorIf registered ++ inUse) strays)
    (hk : .major ∉ inUse) :
    Owes (a.release ⟨.major, ended.length⟩) ended inUse (strays ++ strayMajor registered) := by
  cases registered with
  | true =>
    rw [strayMajor, if_pos rfl, List.append_nil]
    exact h.release
  | false => exact h.stray hk

theorem Owes.finish {l : Load} (h : Owes a ended l.left l.strays) : Owes a (l :: ended) [] [] :=
  ⟨h.held, by rw [h.strays]; exact (List.append_nil _).symm⟩

def Driver.Accounted (s : Driver) : Prop :=
  Owes s.account s.ended (s.pc.inUse s.registered) (s.pc.strays s.registered)

/-- The statements of the module keep the accounts. -/
theorem Driver.moduleStep_accounted {s t : Driver} {ok : Bool} {memory : Memory UInt8} (h : s.Accounted)
    (hstep : s.moduleStep ok memory = some t) : t.Accounted := by
  rw [Accounted] at h
  cases hpc : s.pc <;> rw [hpc] at h <;>
    simp only [moduleStep, hpc, Option.some.injEq, reduceCtorEq] at hstep <;> subst hstep
  case registerBlkdev =>
    cases ok with
    | true => exact h.acquire .major
    | false => exact h
  case kmallocDevice =>
    cases ok with
    | true => exact h.acquire .device
    | false =>
      have hheld : Owes s.account s.ended (majorIf s.registered ++ []) [] := by rwa [List.append_nil]
      exact (hheld.releaseMajor (by simp)).finish
  case kmallocData =>
    cases ok with
    | true => exact h.acquire .data
    | false =>
      have hheld := h.perm (majorIf s.registered ++ [.device]) (by cases s.registered <;> decide)
      exact (hheld.releaseMajor (by decide)).release.finish
  case allocTagSet =>
    cases ok with
    | true => exact h.acquire .tagSet
    | false => exact h.finish
  case allocDisk =>
    cases ok with
    | true => exact (h.acquire .disk).acquire .queue
    | false => exact h
  case setUp => exact h
  case addDisk => cases ok <;> exact h
  case putFailedDisk => exact h.release.release.finish
  case loaded => exact h
  case putDisk => exact h.release.release
  case destroyQueue => exact h.stray (by cases s.registered <;> decide)
  case kfreeData =>
    have hheld := h.perm (.data :: .tagSet :: .device :: majorIf s.registered) (.swap _ _ _)
    exact hheld.release
  case unregisterBlkdev =>
    have hheld := h.perm (majorIf s.registered ++ [.tagSet, .device])
      (by cases s.registered <;> decide)
    exact hheld.releaseMajor (by decide)
  case kfreeDevice =>
    have hheld := h.perm [.device, .tagSet] (.swap _ _ _)
    exact hheld.release.finish

end Accounts

section Requests

/-- A request inside the device completes, and does what `serve` says. -/
theorem queueRq_inRange (dev : BlockDev) {rq : Request} (h : rq.InRange dev.capacity) (htotal : rq.total < 2^32) :
    ∃ st, queueRq countingUpdate dev rq = .completed .ok st ∧
      serve dev rq = some ({ dev with data := st.data }, st.done) := by
  obtain ⟨st, hrun, hflat⟩ := doRequest_inRange dev h 0
  have hnr : st.nrBytes.toNat = rq.total := by
    have hcount : st.nrBytes = BitVec.ofNat 32 rq.total := hflat.nrBytes.trans (BitVec.zero_add _)
    rw [hcount, BitVec.toNat_ofNat]
    exact Nat.mod_eq_of_lt htotal
  refine ⟨st, ?_, by rw [serve, hrun]; rfl⟩
  rw [queueRq, hrun]
  simp [countingUpdate, hnr]

theorem lastWritten_append (initial : Memory UInt8) (history : List Request) (rq : Request) :
    lastWritten initial (history ++ [rq]) = lastWritten (lastWritten initial history) [rq] := by
  induction history generalizing initial with
  | nil => rfl
  | cons first rest ih => rw [List.cons_append, lastWritten_cons, ih, ← lastWritten_cons]

def Pc.allocated : Pc → Bool
  | .registerBlkdev | .kmallocDevice | .kmallocData | .unregisterBlkdev | .kfreeDevice => false
  | _ => true

/-- Each read was answered, segment by segment, with what was last written before it. -/
def ReadsLastWritten (fresh : Memory UInt8) (served : List (Request × List (List UInt8))) : Prop :=
  ∀ (i : Nat) (rq : Request) (segs : List (List UInt8)), served[i]? = some (rq, segs) → rq.dir = .read →
    segs.map List.length = rq.segs.map (fun seg => seg.bytes.length) ∧
      segs.flatten = read (lastWritten fresh ((served.take i).map Prod.fst)) rq.start rq.total

theorem ReadsLastWritten.append {fresh : Memory UInt8} {served : List (Request × List (List UInt8))}
    (h : ReadsLastWritten fresh served) {rq : Request} {segs : List (List UInt8)}
    (hnew : rq.dir = .read → segs.map List.length = rq.segs.map (fun seg => seg.bytes.length) ∧
      segs.flatten = read (lastWritten fresh (served.map Prod.fst)) rq.start rq.total) :
    ReadsLastWritten fresh (served ++ [(rq, segs)]) := by
  intro i r ss hi hdir
  have hlen := (List.getElem?_eq_some_iff.mp hi).1
  rw [List.length_append, List.length_singleton] at hlen
  rcases Nat.lt_or_eq_of_le (Nat.le_of_lt_succ hlen) with hold | rfl
  · rw [List.getElem?_append_left hold] at hi
    rw [List.take_append_of_le_length (Nat.le_of_lt hold)]
    exact h i r ss hi hdir
  · rw [List.getElem?_append_right (Nat.le_refl _), Nat.sub_self] at hi
    cases hi
    rw [List.take_left' rfl]
    exact hnew hdir

structure Driver.Consistent (s : Driver) : Prop where
  accounted : s.Accounted
  running : s.pc ≠ .fault ∧ s.pc ≠ .bug
  dev : s.pc.allocated →
    s.dev = some { createdDev s.fresh with data := lastWritten s.fresh (s.served.map Prod.fst) }
  told : s.pc = .addDisk ∨ s.pc = .loaded → s.diskCapacity = (createdDev s.fresh).capacity
  reads : ReadsLastWritten s.fresh s.served

theorem Driver.moduleStep_consistent {s t : Driver} {ok : Bool} {memory : Memory UInt8} (h : s.Consistent)
    (hstep : s.moduleStep ok memory = some t) : t.Consistent := by
  have haccounted := moduleStep_accounted h.accounted hstep
  obtain ⟨-, -, hdev, htold, hreads⟩ := h
  cases hpc : s.pc <;> rw [hpc] at hdev htold <;>
    simp only [moduleStep, hpc, Option.some.injEq, reduceCtorEq] at hstep <;> subst hstep
  case registerBlkdev => exact ⟨haccounted, by simp, by simp [Pc.allocated], by simp, by cases ok <;> exact hreads⟩
  case kmallocDevice =>
    cases ok with
    | true => exact ⟨haccounted, by simp, by simp [Pc.allocated], by simp, hreads⟩
    | false => exact ⟨haccounted, by simp [finish], by simp [finish, Pc.allocated], by simp [finish], hreads⟩
  case kmallocData =>
    cases ok with
    | true => exact ⟨haccounted, by simp, fun _ => rfl, by simp, by intro i; simp⟩
    | false => exact ⟨haccounted, by simp [finish], by simp [finish, Pc.allocated], by simp [finish], hreads⟩
  case setUp =>
    refine ⟨haccounted, by simp, hdev, fun _ => ?_, hreads⟩
    simp [hdev rfl]
  case allocTagSet =>
    cases ok with
    | true => exact ⟨haccounted, by simp, fun _ => hdev rfl, by simp, hreads⟩
    | false => exact ⟨haccounted, by simp [finish], by simp [finish, Pc.allocated], by simp [finish], hreads⟩
  case allocDisk => cases ok <;> exact ⟨haccounted, by simp, fun _ => hdev rfl, by simp, hreads⟩
  case addDisk =>
    cases ok with
    | true => exact ⟨haccounted, by simp, fun _ => hdev rfl, fun _ => htold (.inl rfl), hreads⟩
    | false => exact ⟨haccounted, by simp, fun _ => hdev rfl, by simp, hreads⟩
  case loaded | putDisk | destroyQueue => exact ⟨haccounted, by simp, fun _ => hdev rfl, by simp, hreads⟩
  case putFailedDisk | kfreeDevice =>
    exact ⟨haccounted, by simp [finish], by simp [finish, Pc.allocated], by simp [finish], hreads⟩
  case kfreeData | unregisterBlkdev => exact ⟨haccounted, by simp, by simp [Pc.allocated], by simp, hreads⟩

theorem Driver.request_consistent {s : Driver} (h : s.Consistent) (hpc : s.pc = .addDisk ∨ s.pc = .loaded)
    {rq : Request} (hin : rq.InRange s.diskCapacity) : (s.request rq).Consistent := by
  obtain ⟨haccounted, hrunning, hdev, htold, hreads⟩ := h
  have hallocated : s.pc.allocated := by rcases hpc with hpc | hpc <;> rw [hpc] <;> rfl
  rw [htold hpc] at hin
  have htotal : rq.total < 2^32 := by
    have hsize : (createdDev s.fresh).capacity.toNat * 512 = 458752 :=
      show ((112 * 4096 : Sector) >>> 9).toNat * 512 = 458752 by decide
    rw [Request.InRange, hsize] at hin
    omega
  set dev : BlockDev := { createdDev s.fresh with data := lastWritten s.fresh (s.served.map Prod.fst) }
  obtain ⟨st, hcompleted, hserve⟩ := queueRq_inRange dev hin htotal
  obtain ⟨segs, hserve', hread⟩ := @serve_inRange dev rq hin
  rw [hserve, Option.some.injEq, Prod.mk.injEq] at hserve'
  obtain ⟨hdata, rfl⟩ := hserve'
  have hrequest : s.request rq =
      { s with dev := some { dev with data := st.data }, served := s.served ++ [(rq, st.done)] } := by
    rw [request, hdev hallocated]
    simp only [hcompleted]
  rw [hrequest]
  refine ⟨haccounted, hrunning, fun _ => ?_, htold, hreads.append hread⟩
  simp only [hdata, List.map_append, List.map_cons, List.map_nil, lastWritten_append]
  rfl

theorem Driver.step_consistent {s t : Driver} {move : Move} (h : s.Consistent) (hstep : s.step move = some t) :
    t.Consistent := by
  cases move with
  | module ok memory => exact moduleStep_consistent h hstep
  | request rq =>
    rw [step] at hstep
    split at hstep
    · rename_i hcome
      obtain rfl := Option.some.inj hstep
      exact request_consistent h hcome.1 hcome.2
    · cases hstep

theorem Driver.initial_consistent : Driver.initial.Consistent where
  accounted := ⟨.refl _, rfl⟩
  running := by decide
  dev := by simp [initial, Pc.allocated]
  told := by simp [initial]
  reads := by intro i; simp [initial]

structure Driver.Serves (s : Driver) : Prop where
  completed : s.pc ≠ .fault ∧ s.pc ≠ .bug
  reads : ReadsLastWritten s.fresh s.served
  /-- Where a request can come, the device and its buffer are held. -/
  held : s.pc = .addDisk ∨ s.pc = .loaded →
    s.resource .device ∈ s.account.held ∧ s.resource .data ∈ s.account.held

theorem Owes.mem_held {a : Account Resource} {ended : List Load} {inUse strays : List Kind} {k : Kind}
    (h : Owes a ended inUse strays) (hk : k ∈ inUse) : ⟨k, ended.length⟩ ∈ a.held :=
  h.held.mem_iff.mpr (List.mem_append_left _ (List.mem_map_of_mem hk))

theorem Driver.Consistent.serves {s : Driver} (h : s.Consistent) : s.Serves where
  completed := h.running
  reads := h.reads
  held hpc := by
    have haccounted := h.accounted
    rw [Accounted] at haccounted
    rcases hpc with hpc | hpc <;> rw [hpc] at haccounted <;>
      exact ⟨haccounted.mem_held (by simp [Pc.inUse]), haccounted.mem_held (by simp [Pc.inUse])⟩

/-- Over every run of loads, requests and unloads, with any failures: each request that comes, those of
`add_disk` itself included, finds its device and completes, and each read delivers what was last written since
the buffer was allocated. -/
theorem loads_serve_last_written (moves : List Move) : Visits Driver.step Driver.Serves .initial moves :=
  visits_of_inv Driver.Consistent (fun _ h => h.serves) (fun _ _ _ h ht => Driver.step_consistent h ht) moves
    Driver.initial_consistent

end Requests

section Leaks

/-- The load failed at one of its first two allocations, with a major number to give back. -/
def Load.Clean (l : Load) : Prop := l.registered ∧ (l.ending = .noDevice ∨ l.ending = .noData)

theorem Load.clean_iff (l : Load) : l.Clean ↔ l.left = [] ∧ l.strays = [] := by
  obtain ⟨registered, ending⟩ := l
  cases registered <;> cases ending <;> simp [Clean, left, strays, majorIf, strayMajor]

theorem tagged_eq_nil {load : Nat} {kinds : List Kind} : tagged load kinds = [] ↔ kinds = [] := List.map_eq_nil_iff

/-- No load left anything or released too much exactly if all of them are clean. -/
theorem clean_iff_nothing_left (ended : List Load) :
    leftBehind ended = [] ∧ lost ended = [] ↔ ∀ l ∈ ended, l.Clean := by
  induction ended with
  | nil => simp [leftBehind, lost]
  | cons l older ih =>
    simp only [leftBehind, lost, List.append_eq_nil_iff, tagged_eq_nil, List.forall_mem_cons, ← ih, l.clean_iff]
    tauto

/-- Over every run of loads, requests and unloads, with any failures: what is in place is in use by the running
load or left behind by an earlier one, in each case just what its ending says, and so are the releases of what was
not held. With the module unloaded nothing is left and nothing went astray only if no load came past the
allocation of the buffer or failed to register. -/
theorem loads_leave (moves : List Move) :
    Visits Driver.step (fun s => s.Accounted ∧
      (s.pc = .registerBlkdev → (s.account = .empty ↔ ∀ l ∈ s.ended, l.Clean))) .initial moves := by
  refine visits_of_inv Driver.Consistent ?_ (fun _ _ _ h ht => Driver.step_consistent h ht) moves
    Driver.initial_consistent
  refine fun s h => ⟨h.accounted, fun hpc => ?_⟩
  obtain ⟨hheld, hstrays⟩ := h.accounted
  rw [hpc] at hheld hstrays
  have hleft : s.account.held.Perm (leftBehind s.ended) := hheld
  have hlost : s.account.strays = lost s.ended := hstrays.trans (List.append_nil _)
  have hnone : s.account.held = [] ↔ leftBehind s.ended = [] :=
    ⟨fun hh => List.nil_perm.mp (hh ▸ hleft), fun hl => List.perm_nil.mp (hl ▸ hleft)⟩
  rw [Account.eq_empty_iff, hnone, hlost]
  exact clean_iff_nothing_left s.ended

end Leaks

end LinuxDrivers.Blockdev
