import LinuxDrivers.Lib.Runs

/-! The module `ftrace-direct`: two trampolines that a thread of the module exchanges at the entry of `schedule`,
and the loads and unloads around it. -/
namespace LinuxDrivers.Ftrace
open Runs

inductive Tramp where
  | tramp1
  | tramp2
  deriving DecidableEq, Repr

def Tramp.other : Tramp → Tramp
  | .tramp1 => .tramp2
  | .tramp2 => .tramp1

def tramps : List Tramp := [.tramp1, .tramp2]

structure Api (κ : Type*) where
  registerFtraceDirect : κ → Tramp → Int × κ
  modifyFtraceDirect : κ → Tramp → Tramp → Int × κ
  unregisterFtraceDirect : κ → Tramp → Int × κ

variable {κ : Type*}

/-- What is documented of them, with `direct` for the trampoline that the kernel calls at `my_ip`. -/
structure Api.Documented (api : Api κ) (direct : κ → Option Tramp) : Prop where
  /-- There can be only one. -/
  register : ∀ k addr, (api.registerFtraceDirect k addr).1 = 0 →
    direct k = none ∧ direct (api.registerFtraceDirect k addr).2 = some addr
  register_failed : ∀ k addr, (api.registerFtraceDirect k addr).1 ≠ 0 →
    direct (api.registerFtraceDirect k addr).2 = direct k
  /-- The old trampoline has to be the one that is called. -/
  modify : ∀ k oldAddr newAddr, (api.modifyFtraceDirect k oldAddr newAddr).1 = 0 →
    direct k = some oldAddr ∧ direct (api.modifyFtraceDirect k oldAddr newAddr).2 = some newAddr
  modify_failed : ∀ k oldAddr newAddr, (api.modifyFtraceDirect k oldAddr newAddr).1 ≠ 0 →
    direct (api.modifyFtraceDirect k oldAddr newAddr).2 = direct k
  /-- Nothing more is promised than the removal of what is called. -/
  unregister : ∀ k addr, direct k = some addr → direct (api.unregisterFtraceDirect k addr).2 = none

inductive Pc where
  /-- In front of `kthread_should_stop`. -/
  | test
  /-- In `schedule_timeout`. -/
  | sleep
  /-- `modify_ftrace_direct` returned 0, and `my_tramp` is not yet set. -/
  | assign
  | returned
  deriving DecidableEq, Repr

inductive Phase where
  | unloaded
  | loaded
  /-- `ftrace_direct_exit` waits in `kthread_stop`. -/
  | stopping
  /-- An access to `tramps` out of bounds, or to a task that is not there. -/
  | oops
  deriving DecidableEq, Repr

structure Module (κ : Type*) where
  phase : Phase
  myTramp : Tramp
  t : Nat
  ret : Int
  /-- The thread `simple_tsk` points to. -/
  thread : Option Pc
  kernel : κ

def Module.initial (kernel : κ) : Module κ := ⟨.unloaded, .tramp1, 0, 0, none, kernel⟩

inductive Move where
  /-- `ftrace_direct_init`, with the success of `kthread_run`. -/
  | load (kthreadRun : Bool)
  /-- The next statements of the thread. -/
  | thread
  | exit
  /-- The rest of `ftrace_direct_exit`, once the thread has returned. -/
  | unregister
  deriving DecidableEq, Repr

section Functions

variable (api : Api κ)

/-- `ftrace_direct_init()`; whether there is a thread is not looked at. -/
def ftraceDirectInit (m : Module κ) (kthreadRun : Bool) : Module κ :=
  let (ret, kernel) := api.registerFtraceDirect m.kernel .tramp1
  if ret ≠ 0 then { m with kernel := kernel }
  else ⟨.loaded, .tramp1, 0, 0, if kthreadRun then some .test else none, kernel⟩

/-- `simple_thread(arg)`, up to where the others can see a difference. -/
def simpleThread (m : Module κ) : Option (Module κ) :=
  match m.thread with
  | some .test => some { m with thread := some (if m.phase = .stopping then .returned else .sleep) }
  | some .sleep =>
      if m.ret ≠ 0 then some { m with thread := some .test }
      else
        let t := m.t ^^^ 1
        match tramps[t]? with
        | none => some { m with phase := .oops }
        | some newAddr =>
            let (ret, kernel) := api.modifyFtraceDirect m.kernel m.myTramp newAddr
            some { m with
              t := t
              ret := ret
              kernel := kernel
              thread := some (if ret = 0 then .assign else .test) }
  | some .assign =>
      match tramps[m.t]? with
      | none => some { m with phase := .oops }
      | some tramp => some { m with myTramp := tramp, thread := some .test }
  | some .returned | none => none

def Module.step (m : Module κ) : Move → Option (Module κ)
  | .load kthreadRun => if m.phase = .unloaded then some (ftraceDirectInit api m kthreadRun) else none
  | .thread => if m.phase = .loaded ∨ m.phase = .stopping then simpleThread api m else none
  | .exit =>
      if m.phase = .loaded then some { m with phase := if m.thread = none then .oops else .stopping } else none
  | .unregister =>
      if m.phase = .stopping ∧ m.thread = some .returned then
        some { m with
          phase := .unloaded
          thread := none
          kernel := (api.unregisterFtraceDirect m.kernel m.myTramp).2 }
      else none

/-- A load that registers its trampoline gets its thread. -/
def Threaded (m : Module κ) : Move → Prop
  | .load kthreadRun => (api.registerFtraceDirect m.kernel .tramp1).1 = 0 → kthreadRun = true
  | _ => True

end Functions

def Module.due (m : Module κ) : Option Tramp :=
  if m.phase = .unloaded then none
  else if m.thread = some .assign then tramps[m.t]?
  else some m.myTramp

section Installed

variable (direct : κ → Option Tramp)

structure Module.Good (m : Module κ) : Prop where
  alive : m.phase ≠ .oops
  threaded : m.phase ≠ .unloaded → m.thread ≠ none
  installed : direct m.kernel = m.due
  /-- The next exchange, if there is one, asks for the other trampoline in place of the installed one. -/
  exchanges : m.thread = some .sleep → m.ret = 0 →
    direct m.kernel = some m.myTramp ∧ tramps[m.t ^^^ 1]? = some m.myTramp.other

structure Module.Running (m : Module κ) : Prop where
  bound : m.t < 2
  installed : direct m.kernel = m.due
  threaded : m.thread ≠ none
  /-- Between two exchanges `my_tramp` is the entry of `tramps` that `t` tells, until one has failed. -/
  current : m.ret = 0 → m.thread ≠ some .assign → tramps[m.t]? = some m.myTramp

structure Module.Consistent (m : Module κ) : Prop where
  alive : m.phase ≠ .oops
  unloaded : m.phase = .unloaded → direct m.kernel = none ∧ m.thread = none
  running : m.phase ≠ .unloaded → m.Running direct

end Installed

/-- `t ^= 1` stays in the bounds of `tramps` and leads to the other entry. -/
theorem tramps_xor : ∀ t < 2, t ^^^ 1 < 2 ∧ ∀ tramp, tramps[t]? = some tramp → tramps[t ^^^ 1]? = some tramp.other := by
  intro t ht
  obtain rfl | rfl : t = 0 ∨ t = 1 := by omega
  · exact ⟨by decide, fun tramp h => by cases h; rfl⟩
  · exact ⟨by decide, fun tramp h => by cases h; rfl⟩

section Step

variable {api : Api κ} {direct : κ → Option Tramp} {m n : Module κ}

theorem Module.due_of_loaded (h : m.phase ≠ .unloaded) (hpc : m.thread ≠ some .assign) : m.due = some m.myTramp := by
  rw [due, if_neg h, if_neg hpc]

theorem Module.due_of_assign (h : m.phase ≠ .unloaded) (hpc : m.thread = some .assign) : m.due = tramps[m.t]? := by
  rw [due, if_neg h, if_pos hpc]

theorem Module.Running.between {pc : Pc} (hphase : m.phase ≠ .unloaded) (hpc : m.thread = some pc) (hne : pc ≠ .assign)
    (hbound : m.t < 2) (hdirect : direct m.kernel = some m.myTramp)
    (hcurrent : m.ret = 0 → tramps[m.t]? = some m.myTramp) : m.Running direct := by
  have hassign : m.thread ≠ some .assign := fun h => hne (Option.some.inj (hpc.symm.trans h))
  refine ⟨hbound, hdirect.trans (due_of_loaded hphase hassign).symm, ?_, fun hret _ => hcurrent hret⟩
  rw [hpc]
  exact Option.some_ne_none pc

theorem Module.Running.direct_eq {pc : Pc} (h : m.Running direct) (hphase : m.phase ≠ .unloaded)
    (hpc : m.thread = some pc) (hne : pc ≠ .assign) :
    direct m.kernel = some m.myTramp ∧ (m.ret = 0 → tramps[m.t]? = some m.myTramp) := by
  have hassign : m.thread ≠ some .assign := fun h => hne (Option.some.inj (hpc.symm.trans h))
  exact ⟨h.installed.trans (due_of_loaded hphase hassign), fun hret => h.current hret hassign⟩

/-- In front of an exchange the installed trampoline is `my_tramp`, and the other one is next. -/
theorem Module.Running.next (h : m.Running direct) (hphase : m.phase ≠ .unloaded) (hpc : m.thread = some .sleep)
    (hret : m.ret = 0) : direct m.kernel = some m.myTramp ∧ tramps[m.t ^^^ 1]? = some m.myTramp.other := by
  obtain ⟨hdirect, hcurrent⟩ := h.direct_eq hphase hpc (by decide)
  exact ⟨hdirect, (tramps_xor m.t h.bound).2 _ (hcurrent hret)⟩

theorem Module.Consistent.good (h : m.Consistent direct) : m.Good direct where
  alive := h.alive
  threaded hphase := (h.running hphase).threaded
  installed := by
    by_cases hphase : m.phase = .unloaded
    · rw [(h.unloaded hphase).1, due, if_pos hphase]
    · exact (h.running hphase).installed
  exchanges hpc hret := by
    have hphase : m.phase ≠ .unloaded := by
      intro hphase
      rw [(h.unloaded hphase).2] at hpc
      cases hpc
    exact (h.running hphase).next hphase hpc hret

/-- A load installs the first trampoline, or fails and leaves all as it was. -/
theorem ftraceDirectInit_cases (api : Api κ) (m : Module κ) (kthreadRun : Bool) :
    ((api.registerFtraceDirect m.kernel .tramp1).1 = 0 ∧ ftraceDirectInit api m kthreadRun =
      ⟨.loaded, .tramp1, 0, 0, if kthreadRun then some .test else none,
        (api.registerFtraceDirect m.kernel .tramp1).2⟩) ∨
    ((api.registerFtraceDirect m.kernel .tramp1).1 ≠ 0 ∧
      ftraceDirectInit api m kthreadRun = { m with kernel := (api.registerFtraceDirect m.kernel .tramp1).2 }) := by
  by_cases hret : (api.registerFtraceDirect m.kernel .tramp1).1 = 0
  · exact .inl ⟨hret, if_neg (not_not.mpr hret)⟩
  · exact .inr ⟨hret, if_pos hret⟩

/-- What the thread does next, wherever it is. -/
theorem simpleThread_cases (h : m.Running direct) (hphase : m.phase ≠ .unloaded)
    (hstep : simpleThread api m = some n) :
    (m.thread = some .test ∧
      n = { m with thread := some (if m.phase = .stopping then .returned else .sleep) }) ∨
    (m.thread = some .sleep ∧ m.ret ≠ 0 ∧ n = { m with thread := some .test }) ∨
    (m.thread = some .sleep ∧ m.ret = 0 ∧
      n = { m with
        t := m.t ^^^ 1
        ret := (api.modifyFtraceDirect m.kernel m.myTramp m.myTramp.other).1
        kernel := (api.modifyFtraceDirect m.kernel m.myTramp m.myTramp.other).2
        thread := some
          (if (api.modifyFtraceDirect m.kernel m.myTramp m.myTramp.other).1 = 0 then .assign else .test) }) ∨
    ∃ tramp, m.thread = some .assign ∧ tramps[m.t]? = some tramp ∧
      n = { m with myTramp := tramp, thread := some .test } := by
  unfold simpleThread at hstep
  split at hstep
  · rename_i hpc
    exact .inl ⟨hpc, (Option.some.inj hstep).symm⟩
  · rename_i hpc
    by_cases hret : m.ret = 0
    · have hnext := (h.next hphase hpc hret).2
      rw [if_neg (not_not.mpr hret)] at hstep
      dsimp only at hstep
      rw [hnext] at hstep
      exact .inr (.inr (.inl ⟨hpc, hret, (Option.some.inj hstep).symm⟩))
    · rw [if_pos hret] at hstep
      exact .inr (.inl ⟨hpc, hret, (Option.some.inj hstep).symm⟩)
  · rename_i hpc
    split at hstep
    · rename_i hnone
      have hlt : m.t < tramps.length := h.bound
      rw [List.getElem?_eq_getElem hlt] at hnone
      cases hnone
    · rename_i tramp htramp
      exact .inr (.inr (.inr ⟨tramp, hpc, htramp, (Option.some.inj hstep).symm⟩))
  · cases hstep
  · cases hstep

/-- The thread leaves a running module running, in the phase it is in. -/
theorem simpleThread_running (hapi : api.Documented direct) (h : m.Running direct) (hphase : m.phase ≠ .unloaded)
    (hstep : simpleThread api m = some n) : n.phase = m.phase ∧ n.Running direct := by
  rcases simpleThread_cases h hphase hstep with ⟨hpc, rfl⟩ | ⟨hpc, hret, rfl⟩ | ⟨hpc, hret, rfl⟩ |
    ⟨tramp, hpc, htramp, rfl⟩
  · obtain ⟨hdirect, hcurrent⟩ := h.direct_eq hphase hpc (by decide)
    refine ⟨rfl, .between hphase rfl ?_ h.bound hdirect hcurrent⟩
    split <;> decide
  · obtain ⟨hdirect, hcurrent⟩ := h.direct_eq hphase hpc (by decide)
    exact ⟨rfl, .between hphase rfl (by decide) h.bound hdirect hcurrent⟩
  · obtain ⟨hdirect, hnext⟩ := h.next hphase hpc hret
    by_cases hmodify : (api.modifyFtraceDirect m.kernel m.myTramp m.myTramp.other).1 = 0
    · rw [if_pos hmodify]
      refine ⟨rfl, (tramps_xor m.t h.bound).1, ?_, Option.some_ne_none _, fun _ hne => absurd rfl hne⟩
      rw [Module.due_of_assign (by exact hphase) rfl]
      exact (hapi.modify _ _ _ hmodify).2.trans hnext.symm
    · rw [if_neg hmodify]
      exact ⟨rfl, .between hphase rfl (by decide) (tramps_xor m.t h.bound).1
        ((hapi.modify_failed _ _ _ hmodify).trans hdirect) fun hzero => absurd hzero hmodify⟩
  · have hdirect := h.installed.trans ((Module.due_of_assign hphase hpc).trans htramp)
    exact ⟨rfl, .between hphase rfl (by decide) h.bound hdirect fun _ => htramp⟩

theorem Module.step_consistent (hapi : api.Documented direct) (h : m.Consistent direct) {a : Move}
    (hok : Threaded api m a) (hstep : m.step api a = some n) : n.Consistent direct := by
  cases a with
  | load kthreadRun =>
    rw [step] at hstep
    split at hstep
    · rename_i hphase
      obtain rfl := Option.some.inj hstep
      rcases ftraceDirectInit_cases api m kthreadRun with ⟨hret, heq⟩ | ⟨hret, heq⟩
      · rw [heq, hok hret]
        exact ⟨nofun, nofun,
          fun _ => ⟨Nat.zero_lt_two, (hapi.register _ _ hret).2, Option.some_ne_none _, fun _ _ => rfl⟩⟩
      · obtain ⟨hdirect, hthread⟩ := h.unloaded hphase
        rw [heq]
        exact ⟨h.alive, fun _ => ⟨(hapi.register_failed _ _ hret).trans hdirect, hthread⟩,
          fun hf => absurd hphase hf⟩
    · cases hstep
  | thread =>
    rw [step] at hstep
    split at hstep
    · rename_i hphase
      have hloaded : m.phase ≠ .unloaded := by
        rcases hphase with hphase | hphase <;> rw [hphase] <;> decide
      obtain ⟨hsame, hrunning⟩ := simpleThread_running hapi (h.running hloaded) hloaded hstep
      exact ⟨hsame ▸ h.alive, fun hf => absurd (hsame ▸ hf) hloaded, fun _ => hrunning⟩
    · cases hstep
  | exit =>
    rw [step] at hstep
    split at hstep
    · rename_i hphase
      have hloaded : m.phase ≠ .unloaded := by
        rw [hphase]
        decide
      have hrunning := h.running hloaded
      obtain rfl := Option.some.inj hstep
      rw [if_neg hrunning.threaded]
      refine ⟨by simp, fun hf => (by cases hf), fun _ => ⟨hrunning.bound, ?_, hrunning.threaded, hrunning.current⟩⟩
      have hinstalled := hrunning.installed
      rw [Module.due, if_neg hloaded] at hinstalled
      exact hinstalled
    · cases hstep
  | unregister =>
    rw [step] at hstep
    split at hstep
    · rename_i hphase
      have hloaded : m.phase ≠ .unloaded := by
        rw [hphase.1]
        decide
      have hinstalled := (h.running hloaded).installed
      rw [Module.due_of_loaded hloaded (by rw [hphase.2]; decide)] at hinstalled
      obtain rfl := Option.some.inj hstep
      exact ⟨by simp, fun _ => ⟨hapi.unregister _ _ hinstalled, rfl⟩, fun hf => absurd rfl hf⟩
    · cases hstep

end Step

abbrev enodev : Int := 19
abbrev ebusy : Int := 16
abbrev einval : Int := 22

end LinuxDrivers.Ftrace
