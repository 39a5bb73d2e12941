import LinuxDrivers.Lib.CString
import LinuxDrivers.Lib.Runs
import LinuxDrivers.Netlink.Multicast
import LinuxDrivers.Netlink.Sockets

/-! The kernel module `netlink_unicast`, and any number of processes that run `um_unicast`: each sends it one
message and waits for the answer. -/
namespace LinuxDrivers.Netlink.Unicast
open ByteMemory LittleEndian CString Runs Sockets

abbrev payloadSize : Nat := 1024

def nlmsgSpace (len : Nat) : Nat := roundUp (len + sizeofNlmsghdr)

def message : List UInt8 := ascii "Hello from kernel unicast".toList

/-- The bytes of an `sk_buff` after `nlmsg_put(skb, portid, seq, type, .., flags)` and a copy of the payload. -/
def nlmsgPut (portid seq type : Nat) (payload : List UInt8) (flags : Nat) : List UInt8 :=
  bytes 4 (sizeofNlmsghdr + payload.length) ++ bytes 2 type ++ bytes 2 flags ++ bytes 4 seq ++ bytes 4 portid ++
    payload ++ List.replicate (roundUp payload.length - payload.length) 0

def reply : List UInt8 := nlmsgPut 0 0 nlmsgDone (message ++ [0]) 0

structure Line where
  pid : Int
  msg : List UInt8
  len : Int
  deriving DecidableEq, Repr

structure Handled where
  line : Option Line
  sent : Option (BitVec 32 × List UInt8)
  deriving DecidableEq, Repr

/-- `test_nl_receive_message(skb)` for an `sk_buff` of `len` bytes; `alloc` tells whether `nlmsg_new` succeeds.
There is no result where it reads behind them. -/
def testNlReceiveMessage (skb : Memory UInt8) (len : Nat) (alloc : Bool) : Option Handled :=
  if len < sizeofNlmsghdr then none
  else if alloc = false then some ⟨none, none⟩
  else
    (cString (read skb (nlmsgData 0) (len - sizeofNlmsghdr))).map fun msg =>
      -- `msg_len` is a `char`
      { line := some ⟨(nlmsgPid skb 0).toInt, msg, (BitVec.ofNat 8 msg.length).toInt⟩
        sent := some (nlmsgPid skb 0, reply) }

def packet (nlh : Memory UInt8) (pid : Pid) : Memory UInt8 :=
  let nlh := write nlh 0 (List.replicate (nlmsgSpace payloadSize) 0)
  let nlh := store nlh 0 4 (nlmsgSpace payloadSize)
  let nlh := store nlh 12 4 pid.val.toNat
  let nlh := store nlh 6 2 0
  write nlh (nlmsgData 0) (ascii "Hello World!".toList ++ [0])

/-- What `um_unicast` prints of its cleared packet, after `recvmsg` with a message or without one. There is no result
where the string does not end in the packet. -/
def received (nlh : Memory UInt8) (msg : Option (List UInt8)) : Option (List UInt8) :=
  let nlh := write nlh 0 (List.replicate (nlmsgSpace payloadSize) 0)
  let nlh := write nlh 0 ((msg.getD []).take (nlmsgSpace payloadSize))
  cString (read nlh (nlmsgData 0) payloadSize)

inductive Proc where
  | start
  /-- Whether `bind` succeeded is not looked at. -/
  | bound (ok : Bool)
  | receiving (nlh : Memory UInt8)
  | printed (text : Option (List UInt8))

structure System (κ : Type*) where
  proc : Pid → Proc
  kernel : κ
  /-- What the module has printed. -/
  log : List Line

inductive Move where
  | bind (pid : Pid)
  /-- `sendmsg`, with the memory that `malloc` returned and the outcome of `nlmsg_new`. -/
  | send (pid : Pid) (nlh : Memory UInt8) (alloc : Bool)
  | recv (pid : Pid)

variable {κ : Type*}

def System.initial (kernel : κ) : System κ := ⟨fun _ => .start, kernel, []⟩

/-- What the module does with an `sk_buff` happens within `sendmsg`. -/
def System.step (api : Api κ) (s : System κ) : Move → Option (System κ)
  | .bind pid =>
      match s.proc pid with
      | .start =>
          let (ret, kernel) := api.bind s.kernel pid pid.val 0
          some { s with proc := Function.update s.proc pid (.bound (ret = 0)), kernel := kernel }
      | _ => none
  | .send pid nlh alloc =>
      match s.proc pid with
      | .bound _ =>
          let nlh := packet nlh pid
          let size := nlmsgSpace payloadSize
          let (skb, kernel) := api.sendmsg s.kernel pid (read nlh 0 size)
          match skb with
          | none => some { s with proc := Function.update s.proc pid (.receiving nlh), kernel := kernel }
          | some skb => (testNlReceiveMessage skb size alloc).map fun handled =>
              { proc := Function.update s.proc pid (.receiving nlh)
                kernel := handled.sent.elim kernel fun sent => (api.nlmsgUnicast kernel sent.2 sent.1).2
                log := s.log ++ handled.line.toList }
      | _ => none
  | .recv pid =>
      match s.proc pid with
      | .receiving nlh => (api.recvmsg s.kernel pid).map fun result =>
          { s with proc := Function.update s.proc pid (.printed (received nlh result.1)), kernel := result.2 }
      | _ => none

structure Answer where
  accepted : Bool
  /-- The socket of the process has the id of the process for its port. -/
  ownPort : Bool

inductive Event where
  | bind (pid : Pid) (ok : Bool)
  /-- There is no answer if `sendmsg` fails, or `nlmsg_new`. -/
  | send (pid : Pid) (answer : Option Answer)
  | recv (pid : Pid) (failed : Bool)

section Functions

variable (api : Api κ) (socket : κ → Pid → Socket)

def System.event (s : System κ) : Move → Event
  | .bind pid => .bind pid ((api.bind s.kernel pid pid.val 0).1 = 0)
  | .send pid nlh alloc =>
      let (skb, kernel) := api.sendmsg s.kernel pid (read (packet nlh pid) 0 (nlmsgSpace payloadSize))
      .send pid (if skb.isSome ∧ alloc then
        some ⟨(api.nlmsgUnicast kernel reply pid).1 = 0, (socket kernel pid).port = some pid.val⟩ else none)
  | .recv pid => .recv pid ((api.recvmsg s.kernel pid).any (·.1.isNone))

end Functions

/-- What the protocol is for: each process hands over one text and is given one. -/
inductive Exchange where
  | start
  | bound (ok : Bool)
  /-- An answer that could not be made or delivered will never come. -/
  | waiting (answered : Bool)
  | printed (text : Option (List UInt8))
  deriving DecidableEq, Repr

structure Exchanges where
  exchange : Pid → Exchange
  log : List Line

def Exchanges.initial : Exchanges := ⟨fun _ => .start, []⟩

/-- An answer reaches the process where `bind` has succeeded, and else by the port that the kernel chose. -/
def Answer.arrives (answer : Answer) (ok : Bool) : Bool := answer.accepted && (ok || answer.ownPort)

def Exchanges.step (e : Exchanges) : Event → Option Exchanges
  | .bind pid ok =>
      if e.exchange pid = .start then some { e with exchange := Function.update e.exchange pid (.bound ok) } else none
  | .send pid answer =>
      match e.exchange pid with
      | .bound ok => some
          { exchange := Function.update e.exchange pid (.waiting (answer.any (·.arrives ok)))
            log := e.log ++ if answer.isSome then [⟨pid.val.toInt, ascii "Hello World!".toList, 12⟩] else [] }
      | _ => none
  | .recv pid failed =>
      match e.exchange pid, failed with
      | .waiting _, true => some { e with exchange := Function.update e.exchange pid (.printed (some [])) }
      | .waiting true, false => some { e with exchange := Function.update e.exchange pid (.printed (some message)) }
      | _, _ => none

theorem Exchanges.step_send {e : Exchanges} {pid : Pid} {ok : Bool} (h : e.exchange pid = .bound ok)
    (answer : Option Answer) : e.step (.send pid answer) = some
      { exchange := Function.update e.exchange pid (.waiting (answer.any (·.arrives ok)))
        log := e.log ++ if answer.isSome then [⟨pid.val.toInt, ascii "Hello World!".toList, 12⟩] else [] } := by
  simp only [step, h]

def look : Proc → Socket → Exchange
  | .start, _ => .start
  | .bound ok, _ => .bound ok
  | .receiving _, s => .waiting (!s.queue.isEmpty)
  | .printed text, _ => .printed text

section Consistent

variable (socket : κ → Pid → Socket)

def System.exchanges (s : System κ) : Exchanges := ⟨fun pid => look (s.proc pid) (socket s.kernel pid), s.log⟩

def Awaits (pid : Pid) : Proc → Socket → Prop
  | .start, s => s.queue = []
  | .bound ok, s => s.queue = [] ∧ (ok = true → s.port = some pid.val)
  | .receiving _, s => s.queue = [] ∨ s.queue = [reply]
  | .printed _, _ => True

/-- A port that is the id of a process is the port of its own socket. -/
def Owned (pid : Pid) (port : Option (BitVec 32)) : Prop := ∀ q : Pid, port = some q.val → q = pid

structure Ready (pid : Pid) (p : Proc) (s : Socket) : Prop where
  awaits : Awaits pid p s
  owned : Owned pid s.port

def System.Consistent (s : System κ) : Prop := ∀ pid, Ready pid (s.proc pid) (socket s.kernel pid)

end Consistent

section Packet

variable (nlh skb : Memory UInt8) (pid : Pid)

theorem nlmsgPid_packet : nlmsgPid (packet nlh pid) 0 = pid.val := by
  have hload : load (packet nlh pid) 12 4 = pid.val.toNat % 256 ^ 4 := by
    simp only [packet]
    rw [load_write_disjoint _ (by decide), load_store_disjoint _ (by decide), load_store]
  rw [nlmsgPid, hload]
  apply BitVec.eq_of_toNat_eq
  rw [BitVec.toNat_ofNat]
  omega

theorem cString_packet :
    cString (read (packet nlh pid) (nlmsgData 0) payloadSize) = some (ascii "Hello World!".toList) := by
  have hread : read (packet nlh pid) (nlmsgData 0) 13 = ascii "Hello World!".toList ++ [0] := read_write_self _ _ _
  rw [show payloadSize = 13 + 1011 from rfl, read_add, hread, List.append_assoc]
  exact cString_append (by decide) _

/-- The module reads the packet as it was sent, and answers its sender. -/
theorem testNlReceiveMessage_packet
    (h : read skb 0 (nlmsgSpace payloadSize) = read (packet nlh pid) 0 (nlmsgSpace payloadSize)) (alloc : Bool) :
    testNlReceiveMessage skb (nlmsgSpace payloadSize) alloc =
      some (if alloc then ⟨some ⟨pid.val.toInt, ascii "Hello World!".toList, 12⟩, some (pid.val, reply)⟩
        else ⟨none, none⟩) := by
  have hpart : ∀ off n, off + n ≤ nlmsgSpace payloadSize → read skb off n = read (packet nlh pid) off n := by
    intro off n hle
    exact read_congr fun o _ ho => read_inj h (Nat.zero_le o) (by omega)
  have hpid : nlmsgPid skb 0 = pid.val := by
    rw [← nlmsgPid_packet nlh pid, nlmsgPid, nlmsgPid, load, load, hpart _ _ (by decide)]
  have hmsg : read skb (nlmsgData 0) payloadSize = read (packet nlh pid) (nlmsgData 0) payloadSize :=
    hpart _ _ (by decide)
  rw [testNlReceiveMessage, if_neg (by decide)]
  cases alloc with
  | false => rfl
  | true =>
    rw [if_neg (by decide), show nlmsgSpace payloadSize - sizeofNlmsghdr = payloadSize from rfl, hmsg, cString_packet,
      hpid]
    rfl

/-- The answer is printed as the module wrote it. -/
theorem received_reply : received nlh (some reply) = some message := by
  have hlen : reply.length = 44 := by decide
  have hread : ∀ m : Memory UInt8, read (write m 0 reply) 16 26 = message ++ [0] := by
    intro m
    have hself := read_write_self m 0 reply
    have hpart := take_drop_read (write m 0 reply) 0 (show 16 + 26 ≤ reply.length by decide)
    rw [hself] at hpart
    exact hpart.symm.trans (by decide)
  rw [received, Option.getD_some, List.take_of_length_le (by decide)]
  change cString (read _ 16 (26 + 998)) = some message
  rw [read_add, hread, List.append_assoc]
  exact cString_append (by decide) _

theorem received_none : received nlh none = some [] := by
  have hcleared : ∀ n, read (write nlh 0 (List.replicate (16 + (1 + n)) 0)) 16 1 = [0] := by
    intro n
    have hself := read_write_self nlh 0 (List.replicate (16 + (1 + n)) 0)
    rw [List.length_replicate] at hself
    have hpart := take_drop_read (write nlh 0 (List.replicate (16 + (1 + n)) 0)) 0 (show 16 + 1 ≤ 16 + (1 + n) by omega)
    rw [hself, List.drop_replicate, Nat.add_sub_cancel_left, List.take_replicate, Nat.min_eq_left (by omega)] at hpart
    exact hpart.symm
  rw [received, Option.getD_none, List.take_nil, write_nil]
  change cString (read (write nlh 0 (List.replicate (16 + (1 + 1023)) 0)) 16 (1 + 1023)) = some []
  rw [read_add, hcleared, List.singleton_append, ← List.nil_append (0 :: _)]
  exact cString_append List.not_mem_nil _

end Packet

abbrev StepFollows (api : Api κ) (socket : κ → Pid → Socket) : System κ → Move → Prop :=
  Follows (System.step api) Exchanges.step (System.event api socket) (System.exchanges socket)
    (System.Consistent socket)

section Steps

variable {api : Api κ} {socket : κ → Pid → Socket} {s n : System κ} {pid : Pid} {x : Proc} {sock : Socket} {m : Move}

theorem Takes.follows (h : Takes s.proc n.proc (socket s.kernel) (socket n.kernel) pid x sock)
    (hs : s.Consistent socket) (hready : Ready pid x sock) (hstep : s.step api m = some n)
    (hexchange : (s.exchanges socket).step (s.event api socket m) =
      some ⟨Function.update (s.exchanges socket).exchange pid (look x sock), n.log⟩) : StepFollows api socket s m := by
  refine .of_taken hstep (hexchange.trans ?_) (h.forall hs hready)
  exact congrArg (fun exchange => some (Exchanges.mk exchange n.log)) (h.look look).symm

theorem Owned.of_assigned {port port' : Option (BitVec 32)} (h : Owned pid port) (hport : Assigned pid port port') :
    Owned pid port' := by
  rcases hport with rfl | ⟨-, rfl | ⟨a, ha, rfl⟩⟩
  · exact h
  · exact fun q hq => Subtype.ext (Option.some.inj hq).symm
  · intro q hq
    have hpos := q.property
    rw [← Option.some.inj hq] at hpos
    omega

theorem bind_follows (hapi : api.Documented socket) (hs : s.Consistent socket) (pid : Pid) :
    StepFollows api socket s (.bind pid) := by
  cases hproc : s.proc pid with
  | start =>
    have hlook : (s.exchanges socket).exchange pid = .start := congrArg (look · _) hproc
    obtain ⟨hawaits, howned⟩ : Ready pid .start (socket s.kernel pid) := hproc ▸ hs pid
    have hbind := hapi.bind s.kernel pid pid.val 0
    have hfailed := hapi.bind_failed s.kernel pid pid.val 0
    rcases hcall : api.bind s.kernel pid pid.val 0 with ⟨ret, kernel⟩
    rw [hcall] at hbind hfailed
    have hstep : s.step api (.bind pid) =
        some ⟨Function.update s.proc pid (.bound (ret = 0)), kernel, s.log⟩ := by
      simp only [System.step, hproc, hcall]
    have hexchange : (s.exchanges socket).step (s.event api socket (.bind pid)) =
        some ⟨Function.update (s.exchanges socket).exchange pid (.bound (ret = 0)), s.log⟩ := by
      simp only [System.event, hcall, Exchanges.step, if_pos hlook]
      rfl
    by_cases hret : ret = 0
    · have hready : Ready pid (.bound (ret = 0)) { socket s.kernel pid with
          port := some pid.val
          groups := maskGroups 0 (socket s.kernel pid).groups } :=
        ⟨⟨hawaits, fun _ => rfl⟩, fun q hq => Subtype.ext (Option.some.inj hq).symm⟩
      exact Takes.follows ⟨rfl, hbind hret⟩ hs hready hstep hexchange
    · have hsame : socket kernel = Function.update (socket s.kernel) pid (socket s.kernel pid) := by
        rw [Function.update_eq_self]
        exact (hfailed hret).2
      have hready : Ready pid (.bound (ret = 0)) (socket s.kernel pid) :=
        ⟨⟨hawaits, fun hok => absurd (of_decide_eq_true hok) hret⟩, howned⟩
      exact Takes.follows ⟨rfl, hsame⟩ hs hready hstep hexchange
  | _ =>
    refine .of_refused ?_ ?_
    · simp [System.step, hproc]
    · simp [System.event, Exchanges.step, System.exchanges, hproc, look]

/-- An answer goes to the socket that has the id of the process for its port, if it goes anywhere. -/
theorem unicast_socket (hapi : api.Documented socket) {k : κ} (howned : ∀ q, Owned q (socket k q).port) (pid : Pid) :
    ∃ sock, socket (api.nlmsgUnicast k reply pid).2 = Function.update (socket k) pid sock ∧
      sock.port = (socket k pid).port ∧ sock.queue = (socket k pid).queue ++
        if (api.nlmsgUnicast k reply pid).1 = 0 ∧ (socket k pid).port = some pid.val then [reply] else [] := by
  have hother : ∀ q ≠ pid, socket (api.nlmsgUnicast k reply pid).2 q = socket k q := by
    intro q hq
    have hport : (socket k q).port ≠ some pid.val := fun hport => hq (howned q pid hport).symm
    by_cases hret : (api.nlmsgUnicast k reply pid).1 = 0
    · rw [hapi.nlmsgUnicast _ _ _ hret, if_neg hport]
    · exact (hapi.nlmsgUnicast_failed _ _ _ hret q).resolve_right fun h => hport h.1
  refine ⟨socket (api.nlmsgUnicast k reply pid).2 pid, ?_, ?_⟩
  · funext q
    by_cases hq : q = pid
    · rw [hq, Function.update_self]
    · rw [Function.update_of_ne hq, hother q hq]
  · by_cases hret : (api.nlmsgUnicast k reply pid).1 = 0
    · rw [hapi.nlmsgUnicast _ _ _ hret]
      by_cases hport : (socket k pid).port = some pid.val
      · rw [if_pos hport, if_pos ⟨hret, hport⟩]
        exact ⟨rfl, rfl⟩
      · rw [if_neg hport, if_neg fun h => hport h.2, List.append_nil]
        exact ⟨rfl, rfl⟩
    · rw [if_neg fun h => hret h.1, List.append_nil]
      rcases hapi.nlmsgUnicast_failed _ _ _ hret pid with h | ⟨-, h⟩
      · rw [h]
        exact ⟨rfl, rfl⟩
      · rw [h]
        exact ⟨rfl, rfl⟩

theorem send_follows (hapi : api.Documented socket) (hs : s.Consistent socket) (pid : Pid) (nlh : Memory UInt8)
    (alloc : Bool) : StepFollows api socket s (.send pid nlh alloc) := by
  cases hproc : s.proc pid with
  | bound ok =>
    have hlook : (s.exchanges socket).exchange pid = .bound ok := congrArg (look · _) hproc
    obtain ⟨⟨hqueue, hok⟩, howned⟩ : Ready pid (.bound ok) (socket s.kernel pid) := hproc ▸ hs pid
    obtain ⟨port, hport, hsocket⟩ := hapi.sendmsg s.kernel pid (read (packet nlh pid) 0 (nlmsgSpace payloadSize))
    have hskb := hapi.sendmsg_skb s.kernel pid (read (packet nlh pid) 0 (nlmsgSpace payloadSize))
    rw [read_length] at hskb
    rcases hcall : api.sendmsg s.kernel pid (read (packet nlh pid) 0 (nlmsgSpace payloadSize)) with ⟨skb, kernel⟩
    rw [hcall] at hsocket hskb
    have howned' : Owned pid port := howned.of_assigned hport
    have hready : Ready pid (.receiving (packet nlh pid)) { socket s.kernel pid with port := port } :=
      ⟨.inl hqueue, howned'⟩
    have htakes : Takes s.proc (Function.update s.proc pid (.receiving (packet nlh pid))) (socket s.kernel)
        (socket kernel) pid (.receiving (packet nlh pid)) { socket s.kernel pid with port := port } := ⟨rfl, hsocket⟩
    have hunanswered : s.step api (.send pid nlh alloc) =
          some ⟨Function.update s.proc pid (.receiving (packet nlh pid)), kernel, s.log⟩ →
        s.event api socket (.send pid nlh alloc) = .send pid none → StepFollows api socket s (.send pid nlh alloc) := by
      intro hstep hevent
      refine Takes.follows htakes hs hready hstep ?_
      rw [hevent, Exchanges.step_send hlook]
      simp only [look, hqueue, Option.isSome_none, Bool.false_eq_true, if_false, List.append_nil]
      rfl
    cases skb with
    | none =>
      refine hunanswered ?_ ?_
      · simp only [System.step, hproc, hcall]
      · simp [System.event, hcall]
    | some skb =>
      have hmessage := testNlReceiveMessage_packet nlh skb pid (hskb skb rfl) alloc
      cases alloc with
      | false =>
        refine hunanswered ?_ ?_
        · simp [System.step, hproc, hcall, hmessage]
        · simp [System.event, hcall]
      | true =>
        have hsame : socket kernel pid = { socket s.kernel pid with port := port } := by
          rw [hsocket, Function.update_self]
        have hall : ∀ q, Ready q (Function.update s.proc pid (.receiving (packet nlh pid)) q) (socket kernel q) :=
          htakes.forall hs hready
        obtain ⟨sock, hsock, hsockport, hsockqueue⟩ := unicast_socket hapi (fun q => (hall q).owned) pid
        rw [hsame] at hsockport hsockqueue
        rw [hqueue, List.nil_append] at hsockqueue
        rw [hsocket, Function.update_idem] at hsock
        have hready' : Ready pid (.receiving (packet nlh pid)) sock := by
          refine ⟨?_, hsockport ▸ howned'⟩
          change sock.queue = [] ∨ sock.queue = [reply]
          rw [hsockqueue]
          split
          · exact .inr rfl
          · exact .inl rfl
        have hbound : ok = true → port = some pid.val := by
          intro hset
          rcases hport with rfl | ⟨hnone, -⟩
          · exact hok hset
          · rw [hok hset] at hnone
            cases hnone
        have hlooks : (!sock.queue.isEmpty) =
            (Answer.mk ((api.nlmsgUnicast kernel reply pid).1 = 0) (port = some pid.val)).arrives ok := by
          rw [hsockqueue, Answer.arrives]
          by_cases hown : port = some pid.val
          · by_cases hret : (api.nlmsgUnicast kernel reply pid).1 = 0
            · simp [hown, hret]
            · simp [hret]
          · have hnotok : ok = false := Bool.eq_false_iff.mpr fun hset => hown (hbound hset)
            simp [hown, hnotok]
        refine Takes.follows (n := ⟨_, (api.nlmsgUnicast kernel reply pid).2,
          s.log ++ [⟨pid.val.toInt, ascii "Hello World!".toList, 12⟩]⟩) ⟨rfl, hsock⟩ hs hready' ?_ ?_
        · simp only [System.step, hproc, hcall, hmessage]
          rfl
        · have hevent : s.event api socket (.send pid nlh true) = .send pid
              (some ⟨(api.nlmsgUnicast kernel reply pid).1 = 0, port = some pid.val⟩) := by
            simp [System.event, hcall, hsame]
          rw [hevent, Exchanges.step_send hlook]
          simp only [look, hlooks, Option.any_some, Option.isSome_some, if_true]
          rfl
  | _ =>
    refine .of_refused ?_ ?_
    · simp [System.step, hproc]
    · simp [System.event, Exchanges.step, System.exchanges, hproc, look]

theorem recv_follows (hapi : api.Documented socket) (hs : s.Consistent socket) (pid : Pid) :
    StepFollows api socket s (.recv pid) := by
  cases hproc : s.proc pid with
  | receiving nlh =>
    have hlook : (s.exchanges socket).exchange pid = .waiting (!(socket s.kernel pid).queue.isEmpty) :=
      congrArg (look · _) hproc
    obtain ⟨hawaits, howned⟩ : Ready pid (.receiving nlh) (socket s.kernel pid) := hproc ▸ hs pid
    rcases hcall : api.recvmsg s.kernel pid with _ | ⟨msg, kernel⟩
    · have hqueue := (hapi.recvmsg_waits _ _ hcall).2
      rw [hqueue] at hlook
      refine .of_refused ?_ ?_
      · simp [System.step, hproc, hcall]
      · simp [System.event, hcall, Exchanges.step, hlook]
    · obtain ⟨sock, hsock, hport, -⟩ := hapi.recvmsg_frame _ _ _ _ hcall
      refine Takes.follows (n := ⟨Function.update s.proc pid (.printed (received nlh msg)), kernel, s.log⟩)
        ⟨rfl, hsock⟩ hs ⟨trivial, hport ▸ howned⟩ ?_ ?_
      · simp [System.step, hproc, hcall]
      · cases msg with
        | none =>
          simp only [System.event, hcall, Exchanges.step, hlook, look, received_none, Option.any_some,
            Option.isNone_none]
          rfl
        | some msg =>
          -- what waits is the answer
          obtain ⟨-, msgs, hqueue⟩ := hapi.recvmsg _ _ _ _ hcall
          obtain ⟨rfl, -⟩ : msg = reply ∧ msgs = [] := by
            rcases hawaits with hawaits | hawaits
            · cases hawaits.symm.trans hqueue
            · exact (List.cons.inj (hawaits.symm.trans hqueue)).imp Eq.symm Eq.symm
          rw [hqueue] at hlook
          simp only [System.event, hcall, Exchanges.step, hlook, look, received_reply, Option.any_some,
            Option.isNone_some]
          rfl
  | _ =>
    refine .of_refused ?_ ?_
    · simp [System.step, hproc]
    · simp [System.event, Exchanges.step, System.exchanges, hproc, look]

/-- Each step of the system is the step of the exchanges, refusals included. -/
theorem step_follows (hapi : api.Documented socket) (hs : s.Consistent socket) (m : Move) :
    StepFollows api socket s m := by
  cases m with
  | bind pid => exact bind_follows hapi hs pid
  | send pid nlh alloc => exact send_follows hapi hs pid nlh alloc
  | recv pid => exact recv_follows hapi hs pid

end Steps

/-- For any number of processes, whatever the order of their calls, and whatever the kernel makes of them: every
process that gets an answer prints the text of the module, none gets the answer of another one or a second one, and
a process waits forever only where its answer could not be made or delivered. The module prints each message it
answers once. -/
theorem unicast_refines_exchanges {api : Api κ} {socket : κ → Pid → Socket} (hapi : api.Documented socket) {kernel : κ}
    (hkernel : ∀ pid, socket kernel pid = .fresh) (moves : List Move) :
    (run (System.step api) (.initial kernel) moves).map (·.exchanges socket) =
      run Exchanges.step .initial (labels (System.step api) (System.event api socket) (.initial kernel) moves) := by
  have hinitial : (System.initial kernel).Consistent socket := by
    intro pid
    rw [System.initial, hkernel pid]
    exact ⟨rfl, fun _ h => nomatch h⟩
  exact run_follows (fun s m hs => step_follows hapi hs m) hinitial moves

/-- Two processes, of which the first one cannot bind. -/
theorem unicast_refines_exchanges_two :
    let moves : List Move := [.bind ⟨7, by decide⟩, .bind ⟨9, by decide⟩, .send ⟨9, by decide⟩ (fun _ => 1) true,
      .send ⟨7, by decide⟩ (fun _ => 2) true, .recv ⟨7, by decide⟩, .recv ⟨9, by decide⟩]
    let s := System.initial (Kernel.mk (fun _ => .fresh) [true])
    (run (System.step (Kernel.api 0)) s moves).map (·.exchanges Kernel.socket) =
      run Exchanges.step .initial (labels (System.step (Kernel.api 0)) (System.event (Kernel.api 0) Kernel.socket) s
        moves) :=
  unicast_refines_exchanges (Kernel.api_documented 0) (fun _ => rfl) _

end LinuxDrivers.Netlink.Unicast
