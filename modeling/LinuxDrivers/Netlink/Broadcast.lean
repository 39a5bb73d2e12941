import LinuxDrivers.Netlink.Unicast

/-! The kernel module `netlink_multicast`, any number of processes that run `netlink_multicast_recv`, and whoever
sends the module something: each `sk_buff` is answered with one reply to the group. -/
namespace LinuxDrivers.Netlink.Broadcast
open ByteMemory LittleEndian CString Runs Sockets
open Unicast (nlmsgPut nlmsgSpace)

abbrev mcastGroupId : Nat := 16
abbrev replyMsgSize : Nat := 32
abbrev maxPayload : Nat := 1024

def message : List UInt8 := ascii "This is Multicast reply".toList

/-- The reply, in an `sk_buff` of the memory `skb`; what the payload holds behind the text is not written. -/
def reply (skb : Memory UInt8) : List UInt8 :=
  nlmsgPut 0 1 nlmsgDone (message ++ 0 :: read skb (nlmsgData 0 + 24) (replyMsgSize + 1 - 24)) 0

structure Output where
  payload : Option (List UInt8)
  rc : Int
  deriving DecidableEq, Repr

/-- The lines printed about the buffer of `netlink_multicast_recv`, from `calloc`, with a message received or
without one. -/
def output : Option (List UInt8) → Output
  | some msg =>
      let msg := msg.take (nlmsgSpace maxPayload)
      ⟨cString (read (write (fun _ => 0) 0 msg) (nlmsgData 0) (nlmsgSpace maxPayload)), msg.length⟩
  | none => ⟨cString (read (fun _ => 0) (nlmsgData 0) (nlmsgSpace maxPayload)), -1⟩

inductive Line where
  /-- Of the module: the messages it dumps, and the result of `nlmsg_multicast` unless `nlmsg_new` failed. -/
  | answered (dumps : List Dump) (res : Option Int)
  | received (pid : Pid) (out : Output)

inductive Proc where
  | start
  | bound
  | joined
  | printed
  | closed
  deriving DecidableEq, Repr

structure System (κ : Type*) where
  proc : Pid → Proc
  kernel : κ
  log : List Line

variable {κ : Type*}

def System.initial (kernel : κ) : System κ := ⟨fun _ => .start, kernel, []⟩

inductive Move where
  | bind (pid : Pid)
  | join (pid : Pid)
  | recv (pid : Pid)
  | close (pid : Pid)
  /-- Somebody sends the module `len` bytes; with the outcome of `nlmsg_new` and the memory it returns. -/
  | send (skb : Memory UInt8) (len : BitVec 32) (alloc : Bool) (skbOut : Memory UInt8)

def System.leave (api : Api κ) (s : System κ) (pid : Pid) (kernel : κ) : System κ :=
  { s with proc := Function.update s.proc pid .closed, kernel := api.close kernel pid }

/-- What the module does with an `sk_buff` happens within `sendmsg`. -/
def System.step (api : Api κ) (s : System κ) : Move → Option (System κ)
  | .bind pid =>
      if s.proc pid = .start then
        -- the group is given as a mask
        let (ret, kernel) := api.bind s.kernel pid pid.val (BitVec.ofNat 32 mcastGroupId)
        some (if ret = -1 then s.leave api pid kernel
          else { s with proc := Function.update s.proc pid .bound, kernel := kernel })
      else none
  | .join pid =>
      if s.proc pid = .bound then
        let (ret, kernel) := api.addMembership s.kernel pid mcastGroupId
        some (if ret < 0 then s.leave api pid kernel
          else { s with proc := Function.update s.proc pid .joined, kernel := kernel })
      else none
  | .recv pid =>
      if s.proc pid = .joined then
        (api.recvmsg s.kernel pid).map fun result =>
          { proc := Function.update s.proc pid .printed
            kernel := result.2
            log := s.log ++ [.received pid (output result.1)] }
      else none
  | .close pid => if s.proc pid = .printed then some (s.leave api pid s.kernel) else none
  | .send skb len alloc skbOut =>
      let dumps := (netlinkRecvMsgFn skb len).dumps
      some (if alloc then
        let (res, kernel) := api.nlmsgMulticast s.kernel (reply skbOut) mcastGroupId
        { s with kernel := kernel, log := s.log ++ [.answered dumps (some res)] }
      else { s with log := s.log ++ [.answered dumps none] })

structure Delivery where
  res : Int
  delivered : Pid → Bool

inductive Event where
  | bind (pid : Pid) (ok : Bool)
  | join (pid : Pid) (ok : Bool)
  | recv (pid : Pid) (failed : Bool)
  | close (pid : Pid)
  /-- There is no reply if `nlmsg_new` fails. -/
  | send (dumps : List Dump) (delivery : Option Delivery)

section Functions

variable (api : Api κ) (socket : κ → Pid → Socket)

def System.event (s : System κ) : Move → Event
  | .bind pid => .bind pid ((api.bind s.kernel pid pid.val (BitVec.ofNat 32 mcastGroupId)).1 = 0)
  | .join pid => .join pid ((api.addMembership s.kernel pid mcastGroupId).1 = 0)
  | .recv pid => .recv pid ((api.recvmsg s.kernel pid).any (·.1.isNone))
  | .close pid => .close pid
  | .send skb len alloc skbOut =>
      let (res, kernel) := api.nlmsgMulticast s.kernel (reply skbOut) mcastGroupId
      .send (netlinkRecvMsgFn skb len).dumps (if alloc then
        some ⟨res, fun pid => (socket kernel pid).queue = (socket s.kernel pid).queue ++ [reply skbOut]⟩ else none)

end Functions

/-- What the protocol is for: whoever has joined gets the first reply sent from then on. -/
inductive Seat where
  | away
  | bound
  /-- Joined, and nothing has been sent since. -/
  | quiet
  /-- All replies sent since are there. -/
  | waiting
  /-- One of them did not fit. -/
  | deaf
  | served
  | left
  deriving DecidableEq, Repr

structure Audience where
  seat : Pid → Seat
  log : List Line

def Audience.initial : Audience := ⟨fun _ => .away, []⟩

def Seat.hear : Seat → Bool → Seat
  | .quiet, delivered | .waiting, delivered => if delivered then .waiting else .deaf
  | seat, _ => seat

def Seat.Member : Seat → Prop
  | .quiet | .waiting | .deaf | .served => True
  | .away | .bound | .left => False

noncomputable def Audience.res (a : Audience) (delivery : Delivery) : Int :=
  @ite Int (∃ pid, (a.seat pid).Member ∧ delivery.delivered pid = true) (Classical.propDecidable _) 0 delivery.res

noncomputable def Audience.step (a : Audience) : Event → Option Audience
  | .bind pid ok =>
      if a.seat pid = .away then
        some { a with seat := Function.update a.seat pid (if ok then .bound else .left) }
      else none
  | .join pid ok =>
      if a.seat pid = .bound then
        some { a with seat := Function.update a.seat pid (if ok then .quiet else .left) }
      else none
  | .recv pid failed =>
      let served (out : Output) : Audience :=
        { seat := Function.update a.seat pid .served, log := a.log ++ [.received pid out] }
      match a.seat pid, failed with
      | .quiet, true | .waiting, true | .deaf, _ => some (served ⟨some [], -1⟩)
      | .waiting, false => some (served ⟨some message, 52⟩)
      | _, _ => none
  | .close pid =>
      if a.seat pid = .served then some { a with seat := Function.update a.seat pid .left } else none
  | .send dumps (some delivery) => some
      { seat := fun pid => (a.seat pid).hear (delivery.delivered pid)
        log := a.log ++ [.answered dumps (some (a.res delivery))] }
  | .send dumps none => some { a with log := a.log ++ [.answered dumps none] }

def look : Proc → Socket → Seat
  | .start, _ => .away
  | .bound, _ => .bound
  | .joined, s => if s.overrun then .deaf else if s.queue.isEmpty then .quiet else .waiting
  | .printed, _ => .served
  | .closed, _ => .left

/-- All that waits at a socket of the group are replies, and what was lost is going to be reported. -/
structure Listens (s : Socket) : Prop where
  member : s.groups mcastGroupId = true
  replies : ∀ msg ∈ s.queue, output (some msg) = ⟨some message, 52⟩
  reported : s.congested = true → s.overrun = true

def Ready : Proc → Socket → Prop
  | .start, s => s = .fresh
  | .bound, s => s.groups mcastGroupId = false ∧ s.queue = [] ∧ s.congested = false ∧ s.overrun = false
  | .joined, s => Listens s
  | .printed, s => s.groups mcastGroupId = true
  | .closed, _ => True

section Consistent

variable (socket : κ → Pid → Socket)

def System.audience (s : System κ) : Audience := ⟨fun pid => look (s.proc pid) (socket s.kernel pid), s.log⟩

def System.Consistent (s : System κ) : Prop := ∀ pid, Ready (s.proc pid) (socket s.kernel pid)

end Consistent

/-- Whatever the memory of the `sk_buff` held, the text ends before it. -/
theorem output_reply (skb : Memory UInt8) : output (some (reply skb)) = ⟨some message, 52⟩ := by
  have hlen : (reply skb).length = 52 := by
    simp only [reply, nlmsgPut, List.length_append, List.length_cons, read_length, List.length_replicate, bytes_length]
    decide
  have hread : ∀ m : Memory UInt8, read (write m 0 (reply skb)) 16 24 = message ++ [0] := by
    intro m
    have hself := read_write_self m 0 (reply skb)
    have hpart := take_drop_read (write m 0 (reply skb)) 0 (show 16 + 24 ≤ (reply skb).length by omega)
    rw [hself] at hpart
    exact hpart.symm.trans rfl
  have hspace : nlmsgSpace maxPayload = 24 + 1016 := rfl
  have hstring : cString (read (write (fun _ => 0) 0 (reply skb)) (nlmsgData 0) (24 + 1016)) = some message := by
    rw [read_add, show nlmsgData 0 = 16 from rfl, hread, List.append_assoc]
    exact cString_append (by decide) _
  simp only [output]
  rw [List.take_of_length_le (by omega), hlen, hspace, hstring]
  rfl

theorem output_none : output none = ⟨some [], -1⟩ := by
  have hspace : nlmsgSpace maxPayload = 1 + 1039 := rfl
  have hstring : cString (read (fun _ => 0) (nlmsgData 0) (1 + 1039)) = some [] := by
    rw [read_add]
    exact cString_append List.not_mem_nil _
  simp only [output]
  rw [hspace, hstring]

section Look

variable {p : Proc} {sock : Socket}

theorem look_joined (sock : Socket) :
    look .joined sock ≠ .away ∧ look .joined sock ≠ .bound ∧ look .joined sock ≠ .served := by
  rw [look]
  split_ifs <;> decide

theorem look_eq_away : look p sock = .away ↔ p = .start := by
  cases p with
  | joined => exact iff_of_false (look_joined sock).1 (by decide)
  | _ => simp [look]

theorem look_eq_bound : look p sock = .bound ↔ p = .bound := by
  cases p with
  | joined => exact iff_of_false (look_joined sock).2.1 (by decide)
  | _ => simp [look]

theorem look_eq_served : look p sock = .served ↔ p = .printed := by
  cases p with
  | joined => exact iff_of_false (look_joined sock).2.2 (by decide)
  | _ => simp [look]

end Look

section Hearing

variable {p : Proc} {sock : Socket} {skb : Memory UInt8}

theorem Listens.push (h : Listens sock) (skb : Memory UInt8) :
    Listens (sock.push (reply skb)) ∧ look .joined (sock.push (reply skb)) = (look .joined sock).hear true := by
  refine ⟨⟨h.member, fun msg hmsg => ?_, h.reported⟩, ?_⟩
  · rcases List.mem_append.mp hmsg with hmsg | hmsg
    · exact h.replies msg hmsg
    · rw [List.mem_singleton.mp hmsg]
      exact output_reply skb
  · have hqueue : (sock.queue ++ [reply skb]).isEmpty = false := by simp
    by_cases hoverrun : sock.overrun = true
    · simp [look, Socket.push, hoverrun, Seat.hear]
    · cases hempty : sock.queue.isEmpty <;> simp [look, Socket.push, hoverrun, hqueue, hempty, Seat.hear]

theorem Listens.lose (h : Listens sock) : Listens sock.lose ∧ look .joined sock.lose = (look .joined sock).hear false := by
  have hoverrun : sock.lose.overrun = true := by
    cases hcongested : sock.congested with
    | false => simp [Socket.lose, hcongested]
    | true => simp [Socket.lose, h.reported hcongested]
  refine ⟨⟨h.member, h.replies, fun _ => hoverrun⟩, ?_⟩
  by_cases hold : sock.overrun = true
  · simp [look, hoverrun, hold, Seat.hear]
  · cases hempty : sock.queue.isEmpty <;> simp [look, hoverrun, hold, hempty, Seat.hear]

/-- A reply is sent: the socket of a member gets it or loses it, and that of another is as it was. -/
theorem Ready.hear {sock' : Socket} (h : Ready p sock) (skb : Memory UInt8)
    (hmember : sock.groups mcastGroupId = true → sock' = sock.push (reply skb) ∨ sock' = sock.lose)
    (hother : sock.groups mcastGroupId = false → sock' = sock) :
    Ready p sock' ∧ look p sock' = (look p sock).hear (decide (sock'.queue = sock.queue ++ [reply skb])) := by
  cases p with
  | start =>
    obtain rfl : sock = .fresh := h
    obtain rfl := hother rfl
    exact ⟨rfl, rfl⟩
  | bound =>
    obtain rfl := hother h.1
    exact ⟨h, rfl⟩
  | joined =>
    rcases hmember h.member with rfl | rfl
    · have hqueue : (sock.push (reply skb)).queue = sock.queue ++ [reply skb] := rfl
      rw [decide_eq_true hqueue]
      exact Listens.push h skb
    · have hqueue : sock.lose.queue ≠ sock.queue ++ [reply skb] := by simp [Socket.lose]
      rw [decide_eq_false hqueue]
      exact Listens.lose h
  | printed =>
    rcases hmember h with rfl | rfl
    · exact ⟨h, rfl⟩
    · exact ⟨h, rfl⟩
  | closed => exact ⟨trivial, rfl⟩

theorem Ready.member (h : Ready p sock) (hseat : (look p sock).Member) : sock.groups mcastGroupId = true := by
  cases p with
  | joined => exact h.member
  | printed => exact h
  | _ => exact hseat.elim

end Hearing

abbrev StepFollows (api : Api κ) (socket : κ → Pid → Socket) : System κ → Move → Prop :=
  Follows (System.step api) Audience.step (System.event api socket) (System.audience socket) (System.Consistent socket)

section Steps

variable {api : Api κ} {socket : κ → Pid → Socket} {s n : System κ} {pid : Pid} {x : Proc} {sock : Socket} {m : Move}

theorem Takes.follows (h : Takes s.proc n.proc (socket s.kernel) (socket n.kernel) pid x sock)
    (hs : s.Consistent socket) (hready : Ready x sock) (hstep : s.step api m = some n)
    (haudience : (s.audience socket).step (s.event api socket m) =
      some ⟨Function.update (s.audience socket).seat pid (look x sock), n.log⟩) : StepFollows api socket s m := by
  refine .of_taken hstep (haudience.trans ?_) (h.forall hs hready)
  exact congrArg (fun seat => some (Audience.mk seat n.log)) (h.look look).symm

theorem leave_takes (hapi : api.Documented socket) (pid : Pid) {kernel : κ} (hkernel : socket kernel = socket s.kernel) :
    Takes s.proc (s.leave api pid kernel).proc (socket s.kernel) (socket (s.leave api pid kernel).kernel) pid .closed
      .fresh :=
  ⟨rfl, hkernel ▸ hapi.close kernel pid⟩

theorem bind_follows (hapi : api.Documented socket) (hs : s.Consistent socket) (pid : Pid) :
    StepFollows api socket s (.bind pid) := by
  have hbind := hapi.bind s.kernel pid pid.val (BitVec.ofNat 32 mcastGroupId)
  have hfailed := hapi.bind_failed s.kernel pid pid.val (BitVec.ofNat 32 mcastGroupId)
  rcases hcall : api.bind s.kernel pid pid.val (BitVec.ofNat 32 mcastGroupId) with ⟨ret, kernel⟩
  rw [hcall] at hbind hfailed
  by_cases hproc : s.proc pid = .start
  · have hseat : (s.audience socket).seat pid = .away := congrArg (look · _) hproc
    have hfresh : Ready .start (socket s.kernel pid) := hproc ▸ hs pid
    by_cases hret : ret = 0
    · subst hret
      -- the mask names another group
      have hready : Ready .bound { socket s.kernel pid with
          port := some pid.val
          groups := maskGroups (BitVec.ofNat 32 mcastGroupId) (socket s.kernel pid).groups } := by
        rw [show socket s.kernel pid = .fresh from hfresh]
        exact ⟨show maskGroups (BitVec.ofNat 32 mcastGroupId) Socket.fresh.groups mcastGroupId = false by decide,
          rfl, rfl, rfl⟩
      refine Takes.follows (n := { s with proc := Function.update s.proc pid .bound, kernel := kernel })
        ⟨rfl, hbind rfl⟩ hs hready ?_ ?_
      · simp [System.step, hproc, hcall]
      · simp only [System.event, hcall, Audience.step, if_pos hseat]
        rfl
    · obtain ⟨hminus, hsame⟩ := hfailed hret
      refine Takes.follows (leave_takes hapi pid hsame) hs trivial ?_ ?_
      · simp [System.step, hproc, hcall, show ret = -1 from hminus]
      · simp only [System.event, hcall, Audience.step, if_pos hseat, decide_eq_false hret]
        rfl
  · refine .of_refused ?_ ?_
    · simp [System.step, hproc]
    · have hseat : (s.audience socket).seat pid ≠ .away := mt look_eq_away.mp hproc
      simp only [System.event, Audience.step, if_neg hseat]

theorem join_follows (hapi : api.Documented socket) (hs : s.Consistent socket) (pid : Pid) :
    StepFollows api socket s (.join pid) := by
  have hjoin := hapi.addMembership s.kernel pid mcastGroupId
  have hfailed := hapi.addMembership_failed s.kernel pid mcastGroupId
  rcases hcall : api.addMembership s.kernel pid mcastGroupId with ⟨ret, kernel⟩
  rw [hcall] at hjoin hfailed
  by_cases hproc : s.proc pid = .bound
  · have hseat : (s.audience socket).seat pid = .bound := congrArg (look · _) hproc
    obtain ⟨-, hqueue, hcongested, hoverrun⟩ : Ready .bound (socket s.kernel pid) := hproc ▸ hs pid
    by_cases hret : ret = 0
    · subst hret
      have hmember : Function.update (socket s.kernel pid).groups mcastGroupId true mcastGroupId = true :=
        Function.update_self _ _ _
      have hready : Ready .joined { socket s.kernel pid with
          groups := Function.update (socket s.kernel pid).groups mcastGroupId true } := by
        refine ⟨hmember, fun msg hmsg => ?_, fun hset => ?_⟩
        · rw [hqueue] at hmsg
          cases hmsg
        · rw [hcongested] at hset
          cases hset
      refine Takes.follows (n := { s with proc := Function.update s.proc pid .joined, kernel := kernel })
        ⟨rfl, hjoin rfl⟩ hs hready ?_ ?_
      · simp [System.step, hproc, hcall]
      · simp only [System.event, hcall, Audience.step, if_pos hseat, look, hqueue, hoverrun]
        rfl
    · obtain ⟨hminus, hsame⟩ := hfailed hret
      refine Takes.follows (leave_takes hapi pid hsame) hs trivial ?_ ?_
      · simp [System.step, hproc, hcall, show ret = -1 from hminus]
      · simp only [System.event, hcall, Audience.step, if_pos hseat, decide_eq_false hret]
        rfl
  · refine .of_refused ?_ ?_
    · simp [System.step, hproc]
    · have hseat : (s.audience socket).seat pid ≠ .bound := mt look_eq_bound.mp hproc
      simp only [System.event, Audience.step, if_neg hseat]

theorem recv_follows (hapi : api.Documented socket) (hs : s.Consistent socket) (pid : Pid) :
    StepFollows api socket s (.recv pid) := by
  by_cases hproc : s.proc pid = .joined
  · have hseat : (s.audience socket).seat pid = look .joined (socket s.kernel pid) := congrArg (look · _) hproc
    have hready : Listens (socket s.kernel pid) := by
      have hready := hs pid
      rwa [hproc] at hready
    rcases hcall : api.recvmsg s.kernel pid with _ | ⟨msg, kernel⟩
    · obtain ⟨hoverrun, hqueue⟩ := hapi.recvmsg_waits _ _ hcall
      refine .of_refused ?_ ?_
      · simp [System.step, hproc, hcall]
      · simp [System.event, hcall, Audience.step, hseat, look, hoverrun, hqueue]
    · obtain ⟨sock, hsock, -, hgroups⟩ := hapi.recvmsg_frame _ _ _ _ hcall
      have hmember : Ready .printed sock := by
        rw [Ready, hgroups]
        exact hready.member
      refine Takes.follows (n := ⟨Function.update s.proc pid .printed, kernel, s.log ++ [.received pid (output msg)]⟩)
        ⟨rfl, hsock⟩ hs hmember ?_ ?_
      · simp [System.step, hproc, hcall]
      · cases msg with
        | none =>
          simp only [System.event, hcall, Audience.step, hseat, output_none, look]
          cases (socket s.kernel pid).overrun <;> cases (socket s.kernel pid).queue.isEmpty <;> rfl
        | some msg =>
          obtain ⟨hoverrun, msgs, hqueue⟩ := hapi.recvmsg _ _ _ _ hcall
          have hout := hready.replies msg (hqueue ▸ List.mem_cons_self)
          simp only [System.event, hcall, Audience.step, hseat, hout, look, hoverrun, hqueue]
          rfl
  · refine .of_refused ?_ ?_
    · simp [System.step, hproc]
    · cases hp : s.proc pid with
      | joined => exact absurd hp hproc
      | _ => simp [System.event, Audience.step, System.audience, hp, look]

theorem close_follows (hapi : api.Documented socket) (hs : s.Consistent socket) (pid : Pid) :
    StepFollows api socket s (.close pid) := by
  by_cases hproc : s.proc pid = .printed
  · have hseat : (s.audience socket).seat pid = .served := congrArg (look · _) hproc
    refine Takes.follows (leave_takes hapi pid rfl) hs trivial ?_ ?_
    · simp [System.step, hproc]
    · simp only [System.event, Audience.step, if_pos hseat]
      rfl
  · refine .of_refused ?_ ?_
    · simp [System.step, hproc]
    · have hseat : (s.audience socket).seat pid ≠ .served := mt look_eq_served.mp hproc
      simp only [System.event, Audience.step, if_neg hseat]

/-- The reply reaches the members, or is lost to them, and nobody else. -/
theorem send_follows (hapi : api.Documented socket) (hs : s.Consistent socket) (skb : Memory UInt8) (len : BitVec 32)
    (alloc : Bool) (skbOut : Memory UInt8) : StepFollows api socket s (.send skb len alloc skbOut) := by
  have hmember := hapi.nlmsgMulticast s.kernel (reply skbOut) mcastGroupId
  have hother := hapi.nlmsgMulticast_other s.kernel (reply skbOut) mcastGroupId
  rcases hcall : api.nlmsgMulticast s.kernel (reply skbOut) mcastGroupId with ⟨res, kernel⟩
  rw [hcall] at hmember hother
  cases alloc with
  | false =>
    refine ⟨by simp [System.step, System.event, Audience.step, System.audience], fun n hn => ?_⟩
    obtain rfl : _ = n := by simpa [System.step] using hn
    exact hs
  | true =>
    have hhear : ∀ pid, Ready (s.proc pid) (socket kernel pid) ∧ look (s.proc pid) (socket kernel pid) =
        (look (s.proc pid) (socket s.kernel pid)).hear
          (decide ((socket kernel pid).queue = (socket s.kernel pid).queue ++ [reply skbOut])) := by
      intro pid
      exact (hs pid).hear skbOut (fun h => (hmember pid h).imp_left And.right) (hother pid)
    have hstep : s.step api (.send skb len true skbOut) = some
        { s with kernel := kernel, log := s.log ++ [.answered (netlinkRecvMsgFn skb len).dumps (some res)] } := by
      simp [System.step, hcall]
    have hres : (s.audience socket).res ⟨res, fun pid =>
        (socket kernel pid).queue = (socket s.kernel pid).queue ++ [reply skbOut]⟩ = res := by
      rw [Audience.res]
      by_cases hsome : ∃ pid, ((s.audience socket).seat pid).Member ∧
          decide ((socket kernel pid).queue = (socket s.kernel pid).queue ++ [reply skbOut]) = true
      · obtain ⟨pid, hseat, hqueue⟩ := hsome
        rw [if_pos ⟨pid, hseat, hqueue⟩]
        rcases hmember pid ((hs pid).member hseat) with ⟨hzero, -⟩ | hlost
        · exact hzero.symm
        · have hkept : (socket kernel pid).queue = (socket s.kernel pid).queue := by
            rw [show socket kernel pid = (socket s.kernel pid).lose from hlost]
            rfl
          rw [hkept] at hqueue
          simp at hqueue
      · exact if_neg hsome
    constructor
    · rw [hstep, Option.map_some]
      simp only [System.event, hcall, Audience.step, if_true, hres]
      exact congrArg (fun seat => some (Audience.mk seat _)) (funext fun pid => (hhear pid).2)
    · intro t ht
      obtain rfl := Option.some.inj (hstep.symm.trans ht)
      exact fun pid => (hhear pid).1

/-- Each step of the system is the step of the audience, refusals included. -/
theorem step_follows (hapi : api.Documented socket) (hs : s.Consistent socket) (m : Move) : StepFollows api socket s m := by
  cases m with
  | bind pid => exact bind_follows hapi hs pid
  | join pid => exact join_follows hapi hs pid
  | recv pid => exact recv_follows hapi hs pid
  | close pid => exact close_follows hapi hs pid
  | send skb len alloc skbOut => exact send_follows hapi hs skb len alloc skbOut

end Steps

end LinuxDrivers.Netlink.Broadcast
