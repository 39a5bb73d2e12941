import LinuxDrivers.Lib.Ledger
import LinuxDrivers.Lib.Runs

/-! What the module of the virtual mouse holds while it is loaded and unloaded and input devices come and
go: each device that can type gets a handle of its own. -/
namespace LinuxDrivers.VmouseDriver
open Runs Ledger

abbrev keyReserved : Nat := 0
abbrev btnMisc : Nat := 0x100

abbrev enodev : Int := 19
abbrev enomem : Int := 12

structure InputDev where
  keybit : Nat → Bool
  evSnd : Bool

inductive Resource (ι : Type*) where
  | vms
  | handler
  | dev
  /-- The virtual mouse is registered with the input core. -/
  | registered
  | file
  | handle (i : ι)
  | registration (i : ι)
  | opened (i : ι)
  deriving DecidableEq

structure ConnectAnswers where
  kzalloc : Bool
  registerHandle : Int
  openDevice : Int

structure InitAnswers where
  kzalloc : Bool
  registerHandler : Int
  allocateDevice : Bool
  registerDevice : Int
  createFile : Int

variable {ι : Type*}

def firstKey (dev : InputDev) (i : Nat) : Nat :=
  if i < btnMisc then if dev.keybit i then i else firstKey dev (i+1) else i
termination_by btnMisc - i

structure Module (ι : Type*) where
  loaded : Bool
  /-- `vmouse_init` dereferenced the null pointer of a failed `kzalloc`. -/
  oops : Bool
  connected : List ι
  account : Account (Resource ι)

def Module.initial : Module ι := ⟨false, false, [], .empty⟩

section Functions

variable [DecidableEq ι]

/-- `vkbd_connect(handler, dev, id)` for the device `i`. The pointer left in `vms->handle` is read nowhere. -/
def vkbdConnect (account : Account (Resource ι)) (i : ι) (dev : InputDev) (a : ConnectAnswers) :
    Int × Account (Resource ι) :=
  if firstKey dev keyReserved = btnMisc ∧ dev.evSnd = false then (-enodev, account)
  else if a.kzalloc = false then (-enomem, account)
  else
    let account := account.acquire (.handle i)
    if a.registerHandle ≠ 0 then (a.registerHandle, account.release (.handle i))
    else
      let account := account.acquire (.registration i)
      if a.openDevice ≠ 0 then (a.openDevice, (account.release (.registration i)).release (.handle i))
      else (0, account.acquire (.opened i))

def handleResources (i : ι) : List (Resource ι) := [.opened i, .registration i, .handle i]

def vkbdDisconnect (account : Account (Resource ι)) (i : ι) : Account (Resource ι) :=
  (handleResources i).foldl Account.release account

/-- `vmouse_init()`; it returns 0 if the module is then loaded. The results of the last two calls are not
looked at. -/
def vmouseInit (m : Module ι) (a : InitAnswers) : Module ι :=
  if a.kzalloc = false then { m with oops := true }
  else
    let account := m.account.acquire .vms
    if a.registerHandler ≠ 0 then { m with account := account }
    else
      let account := account.acquire .handler
      if a.allocateDevice = false then { m with account := account }
      else
        let account := account.acquire .dev
        let account := if a.registerDevice = 0 then account.acquire .registered else account
        let account := if a.createFile = 0 then account.acquire .file else account
        { m with loaded := true, account := account }

/-- `vmouse_exit()`, whose `input_unregister_handler` disconnects what is still connected. -/
def vmouseExit (m : Module ι) : Module ι :=
  let account := ((m.account.release .file).release .registered).release .dev
  let account := (m.connected.foldl vkbdDisconnect account).release .handler
  ⟨false, m.oops, [], account.release .vms⟩

/-- The devices that are there when the module is loaded are attached right behind. -/
inductive Plug (ι : Type*) where
  | load (answers : InitAnswers)
  | attach (i : ι) (dev : InputDev) (answers : ConnectAnswers)
  | detach (i : ι)
  | unload

def Module.step (m : Module ι) : Plug ι → Option (Module ι)
  | .load answers => if m.loaded ∨ m.oops then none else some (vmouseInit m answers)
  | .attach i dev answers =>
      if .handler ∈ m.account.held ∧ i ∉ m.connected then
        let result := vkbdConnect m.account i dev answers
        some { m with
          account := result.2
          connected := if result.1 = 0 then i :: m.connected else m.connected }
      else none
  | .detach i =>
      if i ∈ m.connected then
        some { m with account := vkbdDisconnect m.account i, connected := m.connected.erase i }
      else none
  | .unload => if m.loaded then some (vmouseExit m) else none

end Functions

def ownResources : List (Resource ι) := [.file, .registered, .dev, .handler, .vms]

/-- What is to be held: nothing unless the module is loaded, and then what belongs to the mouse and, for
each device connected, what belongs to its handle. -/
def Module.due (m : Module ι) : List (Resource ι) :=
  if m.loaded then ownResources ++ m.connected.flatMap handleResources else []

structure Module.Balanced (m : Module ι) : Prop where
  alive : m.oops = false
  holds : m.account.Holds m.due

def InitAnswers.AllSucceed (a : InitAnswers) : Prop :=
  a.kzalloc = true ∧ a.registerHandler = 0 ∧ a.allocateDevice = true ∧ a.registerDevice = 0 ∧ a.createFile = 0

/-- The condition is on loads alone: devices come and go as they like, and any call of `vkbd_connect` may
fail. -/
def CleanPlug : Plug ι → Prop
  | .load answers => answers.AllSucceed
  | _ => True

structure Module.Consistent (m : Module ι) : Prop where
  balanced : m.Balanced
  unloaded : m.loaded = false → m.connected = []

section Balance

variable [DecidableEq ι] {account : Account (Resource ι)} {due : List (Resource ι)}

/-- A connection that fails leaves nothing behind, wherever it fails. -/
theorem vkbdConnect_holds (h : account.Holds due) (i : ι) (dev : InputDev) (a : ConnectAnswers) :
    (vkbdConnect account i dev a).2.Holds
      (if (vkbdConnect account i dev a).1 = 0 then handleResources i ++ due else due) := by
  unfold vkbdConnect
  split
  · exact h
  · split
    · exact h
    · dsimp only
      split
      · rw [Account.release_acquire]
        exact h
      · split
        · rw [Account.release_acquire, Account.release_acquire]
          exact h
        · exact ((h.acquire (.handle i)).acquire (.registration i)).acquire (.opened i)

theorem vkbdDisconnect_holds {i : ι} (h : account.Holds (handleResources i ++ due)) :
    (vkbdDisconnect account i).Holds due :=
  Account.Holds.foldl_release _ h

theorem foldl_vkbdDisconnect (connected : List ι) (h : account.Holds (connected.flatMap handleResources ++ due)) :
    (connected.foldl vkbdDisconnect account).Holds due := by
  induction connected generalizing account with
  | nil => exact h
  | cons i connected ih =>
    rw [List.flatMap_cons, List.append_assoc] at h
    exact ih (vkbdDisconnect_holds h)

variable {m n : Module ι}

omit [DecidableEq ι] in
theorem Module.due_of_loaded (h : m.loaded = true) :
    m.due = ownResources ++ m.connected.flatMap handleResources := if_pos h

omit [DecidableEq ι] in
theorem Module.due_of_unloaded (h : m.loaded = false) : m.due = [] := by
  rw [Module.due, h]
  rfl

omit [DecidableEq ι] in
/-- The handler is registered only while the module is loaded. -/
theorem Module.Balanced.loaded_of_handler (hm : m.Balanced) (h : .handler ∈ m.account.held) : m.loaded = true := by
  by_contra hunloaded
  rw [Bool.not_eq_true] at hunloaded
  have hmem := hm.holds.held.mem_iff.mp h
  rw [Module.due_of_unloaded hunloaded] at hmem
  cases hmem

omit [DecidableEq ι] in
theorem vmouseInit_consistent (hm : m.Consistent) (hl : m.loaded = false) {a : InitAnswers} (ha : a.AllSucceed) :
    (vmouseInit m a).Consistent := by
  obtain ⟨hk, hh, hd, hr, hc⟩ := ha
  have hholds := hm.balanced.holds
  rw [Module.due_of_unloaded hl] at hholds
  have hinit : vmouseInit m a =
      { m with
        loaded := true
        account := ((((m.account.acquire .vms).acquire .handler).acquire .dev).acquire .registered).acquire .file } := by
    simp only [vmouseInit, hk, hh, hd, hr, hc, Bool.true_eq_false, ne_eq, not_true_eq_false, if_true, if_false]
  rw [hinit]
  refine ⟨⟨hm.balanced.alive, ?_⟩, fun h => by cases h⟩
  have hdue := ((((hholds.acquire .vms).acquire .handler).acquire .dev).acquire .registered).acquire .file
  rw [Module.due_of_loaded rfl, hm.unloaded hl]
  exact hdue

omit [DecidableEq ι] in
/-- A load that meets a failure leaves the module less than it is to hold, or something held that will not be
given back, or does not survive. -/
theorem vmouseInit_not_balanced (hm : m.Consistent) (hl : m.loaded = false) {a : InitAnswers}
    (hbad : (vmouseInit m a).Balanced) : a.AllSucceed := by
  have hheld : ∀ r, r ∉ m.account.held := by
    have hholds := hm.balanced.holds.held
    rw [Module.due_of_unloaded hl] at hholds
    intro r hr
    cases hholds.mem_iff.mp hr
  have hmem : ∀ r, r ∈ (vmouseInit m a).account.held ↔ r ∈ (vmouseInit m a).due :=
    fun _ => hbad.holds.held.mem_iff
  have halive := hbad.alive
  unfold vmouseInit at hmem halive
  split at halive
  · cases halive
  · rename_i hk
    rw [if_neg hk] at hmem
    dsimp only at hmem
    split at hmem
    · have hvms := (hmem .vms).mp List.mem_cons_self
      simp [Module.due, hl] at hvms
    · rename_i hh
      split at hmem
      · have hhandler := (hmem .handler).mp List.mem_cons_self
        simp [Module.due, hl] at hhandler
      · rename_i hd
        have hregistered := (hmem .registered).mpr (List.mem_append_left _ (by simp [ownResources]))
        have hfile := (hmem .file).mpr (List.mem_append_left _ (by simp [ownResources]))
        refine ⟨by simpa using hk, by simpa using hh, by simpa using hd, ?_, ?_⟩
        · by_contra hr
          rw [if_neg hr] at hregistered
          split at hregistered <;> simp [hheld] at hregistered
        · by_contra hc
          rw [if_neg hc] at hfile
          split at hfile <;> simp [hheld] at hfile

theorem vmouseExit_consistent (hm : m.Consistent) (hl : m.loaded = true) : (vmouseExit m).Consistent := by
  have hholds := hm.balanced.holds
  rw [Module.due_of_loaded hl] at hholds
  refine ⟨⟨hm.balanced.alive, ?_⟩, fun _ => rfl⟩
  have hown : (((m.account.release .file).release .registered).release .dev).Holds
      (m.connected.flatMap handleResources ++ [.handler, .vms]) := by
    have hthree := Account.Holds.foldl_release [Resource.file, .registered, .dev] hholds
    have hswap : ([Resource.handler, .vms] ++ m.connected.flatMap handleResources).Perm
        (m.connected.flatMap handleResources ++ [Resource.handler, .vms]) := List.perm_append_comm
    exact hthree.perm hswap
  exact (foldl_vkbdDisconnect m.connected hown).release.release

theorem Module.step_consistent {p : Plug ι} (hm : m.Consistent) (hp : CleanPlug p) (h : m.step p = some n) :
    n.Consistent := by
  cases p with
  | load answers =>
    rw [step] at h
    split at h
    · cases h
    · rename_i hidle
      obtain rfl := Option.some.inj h
      exact vmouseInit_consistent hm (by simpa using mt .inl hidle) hp
  | attach i dev answers =>
    rw [step] at h
    split at h
    · rename_i hattach
      have hl := hm.balanced.loaded_of_handler hattach.1
      obtain rfl := Option.some.inj h
      have hholds := vkbdConnect_holds hm.balanced.holds i dev answers
      refine ⟨⟨hm.balanced.alive, ?_⟩, fun hf => absurd (hl.symm.trans hf) (by decide)⟩
      unfold Module.due at hholds ⊢
      dsimp only
      rw [if_pos hl] at hholds ⊢
      split
      · rename_i hz
        rw [if_pos hz] at hholds
        refine hholds.perm ?_
        rw [List.flatMap_cons, ← List.append_assoc, ← List.append_assoc]
        exact List.perm_append_comm.append_right _
      · rename_i hz
        rwa [if_neg hz] at hholds
    · cases h
  | detach i =>
    rw [step] at h
    split at h
    · rename_i hi
      obtain rfl := Option.some.inj h
      have hl : m.loaded = true := by
        by_contra hf
        rw [hm.unloaded (Bool.not_eq_true _ ▸ hf)] at hi
        cases hi
      refine ⟨⟨hm.balanced.alive, ?_⟩, fun hf => absurd (hl.symm.trans hf) (by decide)⟩
      have hholds := hm.balanced.holds
      unfold Module.due at hholds ⊢
      dsimp only
      rw [if_pos hl] at hholds ⊢
      apply vkbdDisconnect_holds
      refine hholds.perm ?_
      have herase := (List.perm_cons_erase hi).flatMap_right (handleResources (ι := ι))
      rw [List.flatMap_cons] at herase
      refine (herase.append_left _).trans ?_
      rw [← List.append_assoc, ← List.append_assoc]
      exact List.perm_append_comm.append_right _
    · cases h
  | unload =>
    rw [step] at h
    split at h
    · rename_i hl
      obtain rfl := Option.some.inj h
      exact vmouseExit_consistent hm hl
    · cases h

end Balance

/-- However input devices come and go, and whichever calls of `vkbd_connect` fail, the module holds what it is
to hold after each step, nothing once it is unloaded, exactly in the runs in which no call of `vmouse_init`
fails. -/
theorem balanced_iff_cleanPlugs [DecidableEq ι] (plugs : List (Plug ι)) :
    Visits Module.step Module.Balanced .initial plugs ↔
      Along Module.step (fun _ p => CleanPlug p) .initial plugs := by
  refine visits_iff_along_of_inv Module.Consistent ?_ ?_ ?_ plugs ?_
  · exact fun m hm => hm.balanced
  · exact fun m p n hm hp h => Module.step_consistent hm hp h
  · intro m p n hm h hn
    cases p with
    | load answers =>
      rw [Module.step] at h
      split at h
      · cases h
      · rename_i hidle
        obtain rfl := Option.some.inj h
        exact vmouseInit_not_balanced hm (by simpa using mt .inl hidle) hn
    | attach i dev answers => trivial
    | detach i => trivial
    | unload => trivial
  · exact ⟨⟨rfl, .empty⟩, fun _ => rfl⟩

end LinuxDrivers.VmouseDriver
