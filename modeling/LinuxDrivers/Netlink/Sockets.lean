import Mathlib.Logic.Function.Basic
import LinuxDrivers.Lib.ByteMemory

/-! The netlink sockets of one protocol, as the module of the protocol and the processes use them. The calls are
functions of the kernel, of which only what is documented is known. -/
namespace LinuxDrivers.Netlink.Sockets
open ByteMemory

/-- The id of a process; 0 is the port of the kernel. -/
abbrev Pid := { p : BitVec 32 // 0 < p.toInt }

structure Socket where
  port : Option (BitVec 32)
  groups : Nat → Bool
  queue : List (List UInt8)
  /-- Messages are lost, until there is room again. -/
  congested : Bool
  /-- The next `recvmsg` fails with `ENOBUFS`. -/
  overrun : Bool

def Socket.fresh : Socket := ⟨none, fun _ => false, [], false, false⟩

def Socket.push (s : Socket) (msg : List UInt8) : Socket := { s with queue := s.queue ++ [msg] }

/-- A message that there is no room for; of several in a row the first one is reported. -/
def Socket.lose (s : Socket) : Socket := { s with congested := true, overrun := s.overrun || !s.congested }

/-- The groups after `bind`, which takes `nl_groups` as a mask of the first 32. -/
def maskGroups (nlGroups : BitVec 32) (groups : Nat → Bool) : Nat → Bool := fun group =>
  if 0 < group ∧ group ≤ 32 then nlGroups.getLsbD (group - 1) else groups group

/-- The port of a socket after `sendmsg`: one that has none gets the id of its process, or a number that no process
has. -/
def Assigned (pid : Pid) (port port' : Option (BitVec 32)) : Prop :=
  port' = port ∨ port = none ∧ (port' = some pid.val ∨ ∃ a : BitVec 32, a.toInt < 0 ∧ port' = some a)

structure Api (κ : Type*) where
  bind : κ → Pid → BitVec 32 → BitVec 32 → Int × κ
  /-- `setsockopt` with `NETLINK_ADD_MEMBERSHIP`. -/
  addMembership : κ → Pid → Nat → Int × κ
  /-- `sendmsg` to the kernel, up to where the module is given the `sk_buff`, if it comes to that. -/
  sendmsg : κ → Pid → List UInt8 → Option (Memory UInt8) × κ
  nlmsgUnicast : κ → List UInt8 → BitVec 32 → Int × κ
  nlmsgMulticast : κ → List UInt8 → Nat → Int × κ
  /-- There is no result while it waits, and no message if it fails. -/
  recvmsg : κ → Pid → Option (Option (List UInt8) × κ)
  close : κ → Pid → κ

variable {κ : Type*}

/-- What is documented of the calls, with the sockets that the kernel has. -/
structure Api.Documented (api : Api κ) (socket : κ → Pid → Socket) : Prop where
  bind : ∀ k pid nlPid nlGroups, (api.bind k pid nlPid nlGroups).1 = 0 →
    socket (api.bind k pid nlPid nlGroups).2 = Function.update (socket k) pid
      { socket k pid with port := some nlPid, groups := maskGroups nlGroups (socket k pid).groups }
  bind_failed : ∀ k pid nlPid nlGroups, (api.bind k pid nlPid nlGroups).1 ≠ 0 →
    (api.bind k pid nlPid nlGroups).1 = -1 ∧ socket (api.bind k pid nlPid nlGroups).2 = socket k
  addMembership : ∀ k pid group, (api.addMembership k pid group).1 = 0 →
    socket (api.addMembership k pid group).2 = Function.update (socket k) pid
      { socket k pid with groups := Function.update (socket k pid).groups group true }
  addMembership_failed : ∀ k pid group, (api.addMembership k pid group).1 ≠ 0 →
    (api.addMembership k pid group).1 = -1 ∧ socket (api.addMembership k pid group).2 = socket k
  sendmsg : ∀ k pid msg, ∃ port, Assigned pid (socket k pid).port port ∧
    socket (api.sendmsg k pid msg).2 = Function.update (socket k) pid { socket k pid with port := port }
  /-- The `sk_buff` is a copy. -/
  sendmsg_skb : ∀ k pid msg skb, (api.sendmsg k pid msg).1 = some skb → read skb 0 msg.length = msg
  nlmsgUnicast : ∀ k msg portid, (api.nlmsgUnicast k msg portid).1 = 0 → ∀ pid,
    socket (api.nlmsgUnicast k msg portid).2 pid =
      if (socket k pid).port = some portid then (socket k pid).push msg else socket k pid
  nlmsgUnicast_failed : ∀ k msg portid, (api.nlmsgUnicast k msg portid).1 ≠ 0 → ∀ pid,
    socket (api.nlmsgUnicast k msg portid).2 pid = socket k pid ∨
      (socket k pid).port = some portid ∧ socket (api.nlmsgUnicast k msg portid).2 pid = (socket k pid).lose
  /-- Nobody has set `NETLINK_BROADCAST_ERROR`: it is a success if one of them gets the message. -/
  nlmsgMulticast : ∀ k msg group pid, (socket k pid).groups group = true →
    (api.nlmsgMulticast k msg group).1 = 0 ∧
        socket (api.nlmsgMulticast k msg group).2 pid = (socket k pid).push msg ∨
      socket (api.nlmsgMulticast k msg group).2 pid = (socket k pid).lose
  nlmsgMulticast_other : ∀ k msg group pid, (socket k pid).groups group = false →
    socket (api.nlmsgMulticast k msg group).2 pid = socket k pid
  recvmsg : ∀ k pid msg k', api.recvmsg k pid = some (some msg, k') →
    (socket k pid).overrun = false ∧ ∃ msgs, (socket k pid).queue = msg :: msgs
  recvmsg_waits : ∀ k pid, api.recvmsg k pid = none →
    (socket k pid).overrun = false ∧ (socket k pid).queue = []
  /-- What it leaves of the queue is of no interest here. -/
  recvmsg_frame : ∀ k pid msg k', api.recvmsg k pid = some (msg, k') → ∃ s : Socket,
    socket k' = Function.update (socket k) pid s ∧ s.port = (socket k pid).port ∧ s.groups = (socket k pid).groups
  close : ∀ k pid, socket (api.close k pid) = Function.update (socket k) pid .fresh

structure Takes {α : Type*} (proc proc' : Pid → α) (sockets sockets' : Pid → Socket) (pid : Pid) (x : α) (s : Socket) :
    Prop where
  proc : proc' = Function.update proc pid x
  sockets : sockets' = Function.update sockets pid s

section Takes

variable {α : Type*} {proc proc' : Pid → α} {sockets sockets' : Pid → Socket} {pid : Pid} {x : α} {s : Socket}

theorem Takes.look {β : Type*} (look : α → Socket → β) (h : Takes proc proc' sockets sockets' pid x s) :
    (fun q => look (proc' q) (sockets' q)) = Function.update (fun q => look (proc q) (sockets q)) pid (look x s) := by
  funext q
  rw [h.proc, h.sockets]
  exact Function.apply_update₂ (fun _ => look) proc sockets pid x s q

theorem Takes.forall {ready : Pid → α → Socket → Prop} (h : Takes proc proc' sockets sockets' pid x s)
    (hs : ∀ q, ready q (proc q) (sockets q)) (hx : ready pid x s) (q : Pid) : ready q (proc' q) (sockets' q) := by
  rw [h.proc, h.sockets]
  by_cases hq : q = pid
  · subst hq
    simpa only [Function.update_self] using hx
  · simpa only [Function.update_of_ne hq] using hs q

end Takes

abbrev econnrefused : Int := 111
abbrev esrch : Int := 3

/-- A kernel that is no more than its sockets, and which of the next calls of `bind` fail. -/
structure Kernel where
  socket : Pid → Socket
  faults : List Bool

def Kernel.set (k : Kernel) (pid : Pid) (s : Socket) : Kernel := { k with socket := Function.update k.socket pid s }

/-- A member gets the message while at most `spare` others wait. -/
def Socket.deliver (s : Socket) (spare group : Nat) (msg : List UInt8) : Socket :=
  if s.groups group = false then s
  else if s.congested = false ∧ s.queue.length ≤ spare then s.push msg else s.lose

noncomputable def Kernel.api (spare : Nat) : Api Kernel where
  bind k pid nlPid nlGroups :=
    let s := { k.socket pid with port := some nlPid, groups := maskGroups nlGroups (k.socket pid).groups }
    if k.faults.head? = some true then (-1, { k with faults := k.faults.tail })
    else (0, { k.set pid s with faults := k.faults.tail })
  addMembership k pid group :=
    (0, k.set pid { k.socket pid with groups := Function.update (k.socket pid).groups group true })
  sendmsg k pid msg :=
    (some (write (fun _ => 0) 0 msg), k.set pid { k.socket pid with port := (k.socket pid).port.getD pid.val })
  nlmsgUnicast k msg portid :=
    @ite _ (∃ pid, (k.socket pid).port = some portid) (Classical.propDecidable _)
      (0, { k with socket := fun pid =>
        if (k.socket pid).port = some portid then (k.socket pid).push msg else k.socket pid })
      (-econnrefused, k)
  nlmsgMulticast k msg group :=
    (@ite _ (∃ pid, (k.socket pid).deliver spare group msg = (k.socket pid).push msg) (Classical.propDecidable _)
      0 (-esrch), { k with socket := fun pid => (k.socket pid).deliver spare group msg })
  recvmsg k pid :=
    let s := k.socket pid
    if s.overrun then some (none, k.set pid { s with overrun := false })
    else match s.queue with
      | msg :: msgs => some (some msg, k.set pid { s with queue := msgs, congested := s.congested && !msgs.isEmpty })
      | [] => none
  close k pid := k.set pid .fresh

theorem Kernel.api_documented (spare : Nat) : (Kernel.api spare).Documented Kernel.socket where
  bind k pid nlPid nlGroups h := by
    by_cases hfault : k.faults.head? = some true
    · simp [Kernel.api, hfault] at h
    · simp only [Kernel.api, if_neg hfault]
      rfl
  bind_failed k pid nlPid nlGroups h := by
    by_cases hfault : k.faults.head? = some true
    · simp [Kernel.api, hfault]
    · simp [Kernel.api, hfault] at h
  addMembership _ _ _ _ := rfl
  addMembership_failed _ _ _ h := absurd rfl h
  sendmsg k pid msg := by
    refine ⟨(k.socket pid).port.getD pid.val, ?_, rfl⟩
    cases hport : (k.socket pid).port with
    | none => exact .inr ⟨rfl, .inl rfl⟩
    | some a => exact .inl rfl
  sendmsg_skb k pid msg skb h := by
    obtain rfl := Option.some.inj h
    exact read_write_self _ _ _
  nlmsgUnicast k msg portid h pid := by
    by_cases hport : ∃ pid, (k.socket pid).port = some portid
    · simp only [Kernel.api, if_pos hport]
    · have hret : (Kernel.api spare).nlmsgUnicast k msg portid = (-econnrefused, k) := if_neg hport
      simp [hret, econnrefused] at h
  nlmsgUnicast_failed k msg portid h pid := by
    by_cases hport : ∃ pid, (k.socket pid).port = some portid
    · simp only [Kernel.api, if_pos hport] at h
      exact absurd rfl h
    · have hret : (Kernel.api spare).nlmsgUnicast k msg portid = (-econnrefused, k) := if_neg hport
      rw [hret]
      exact .inl rfl
  nlmsgMulticast k msg group pid h := by
    have hdeliver : (k.socket pid).deliver spare group msg =
        if (k.socket pid).congested = false ∧ (k.socket pid).queue.length ≤ spare then (k.socket pid).push msg
        else (k.socket pid).lose := if_neg (by rw [h]; decide)
    by_cases hroom : (k.socket pid).congested = false ∧ (k.socket pid).queue.length ≤ spare
    · rw [if_pos hroom] at hdeliver
      exact .inl ⟨if_pos ⟨pid, hdeliver⟩, hdeliver⟩
    · rw [if_neg hroom] at hdeliver
      exact .inr hdeliver
  nlmsgMulticast_other _ _ _ _ h := if_pos h
  recvmsg k pid msg k' h := by
    simp only [Kernel.api] at h
    split at h
    · simp at h
    · rename_i hoverrun
      refine ⟨Bool.eq_false_iff.mpr hoverrun, ?_⟩
      split at h
      · rename_i msg' msgs hqueue
        obtain ⟨rfl, -⟩ : msg' = msg ∧ _ := by simpa using h
        exact ⟨msgs, hqueue⟩
      · cases h
  recvmsg_waits k pid h := by
    simp only [Kernel.api] at h
    split at h
    · cases h
    · rename_i hoverrun
      refine ⟨Bool.eq_false_iff.mpr hoverrun, ?_⟩
      split at h
      · cases h
      · assumption
  recvmsg_frame k pid msg k' h := by
    simp only [Kernel.api] at h
    split at h
    · obtain ⟨-, rfl⟩ := Prod.mk.inj (Option.some.inj h)
      exact ⟨_, rfl, rfl, rfl⟩
    · split at h
      · obtain ⟨-, rfl⟩ := Prod.mk.inj (Option.some.inj h)
        exact ⟨_, rfl, rfl, rfl⟩
      · cases h
  close _ _ := rfl

end LinuxDrivers.Netlink.Sockets
