import LinuxDrivers.Netlink.Placed

/-! The receiver of the kernel module `netlink_multicast`: the messages it dumps of one `sk_buff`, and
the header fields it reads. -/
namespace LinuxDrivers.Netlink
open ByteMemory LittleEndian

@[match_pattern] abbrev nlmsgNoop : Nat := 1
@[match_pattern] abbrev nlmsgError : Nat := 2
@[match_pattern] abbrev nlmsgDone : Nat := 3
@[match_pattern] abbrev nlmsgOverrun : Nat := 4

abbrev nlmFMulti : Nat := 2

def nlmsgFlags (m : Memory UInt8) (h : Nat) : Nat := load m (h+6) 2

def nlmsgSeq (m : Memory UInt8) (h : Nat) : BitVec 32 := BitVec.ofNat 32 (load m (h+8) 4)

def nlmsgPid (m : Memory UInt8) (h : Nat) : BitVec 32 := BitVec.ofNat 32 (load m (h+12) 4)

def netlinkGetMsgType : Nat → String
  | nlmsgNoop => "NLMSG_NOOP"
  | nlmsgError => "NLMSG_ERROR"
  | nlmsgDone => "NLMSG_DONE"
  | nlmsgOverrun => "NLMSG_OVERRUN"
  | _ => "NLMSG_UNKNOWN"

structure Dump where
  type : String
  len : Int
  flags : Nat
  seq : Int
  pid : Int
  data : Nat
  deriving DecidableEq, Repr

def nlmsgDump (m : Memory UInt8) (nlh : Nat) : Dump where
  type := netlinkGetMsgType (nlmsgType m nlh)
  len := (nlmsgLen m nlh).toInt
  flags := nlmsgFlags m nlh
  seq := (nlmsgSeq m nlh).toInt
  pid := (nlmsgPid m nlh).toInt
  data := nlmsgData nlh

/-- `NLMSG_OK(nlh, len)`; the length announced is compared with `len` as an unsigned number. -/
def NlmsgOk (m : Memory UInt8) (nlh : Nat) (len : BitVec 32) : Prop :=
  (sizeofNlmsghdr : Int) ≤ len.toInt ∧ sizeofNlmsghdr ≤ (nlmsgLen m nlh).toNat ∧ nlmsgLen m nlh ≤ len

instance (m : Memory UInt8) (nlh : Nat) (len : BitVec 32) : Decidable (NlmsgOk m nlh len) :=
  inferInstanceAs (Decidable (_ ∧ _))

def Accepts (m : Memory UInt8) (nlh : Nat) (len : BitVec 32) : Prop :=
  NlmsgOk m nlh len ∧ (nlmsgFlags m nlh &&& nlmFMulti ≠ 0 ∨ nlmsgType m nlh = nlmsgDone)

instance (m : Memory UInt8) (nlh : Nat) (len : BitVec 32) : Decidable (Accepts m nlh len) :=
  inferInstanceAs (Decidable (_ ∧ _))

structure Field where
  off : Nat
  size : Nat
  deriving DecidableEq, Repr

def conditionReads (m : Memory UInt8) (nlh : Nat) (len : BitVec 32) : List Field :=
  if (sizeofNlmsghdr : Int) ≤ len.toInt then
    ⟨nlh, 4⟩ ::
      if NlmsgOk m nlh len then
        ⟨nlh + 6, 2⟩ :: if nlmsgFlags m nlh &&& nlmFMulti ≠ 0 then [] else [⟨nlh + 4, 2⟩]
      else []
  else []

def dumpReads (nlh : Nat) : List Field := [⟨nlh + 4, 2⟩, ⟨nlh, 4⟩, ⟨nlh + 6, 2⟩, ⟨nlh + 8, 4⟩, ⟨nlh + 12, 4⟩]

structure Received where
  dumps : List Dump
  reads : List Field
  deriving DecidableEq, Repr

theorem NlmsgOk.bounds {m : Memory UInt8} {nlh : Nat} {len : BitVec 32} (h : NlmsgOk m nlh len) :
    16 ≤ (nlmsgLen m nlh).toNat ∧ (nlmsgLen m nlh).toNat ≤ len.toNat ∧ len.toInt = len.toNat ∧
      len.toNat < 2^31 := by
  obtain ⟨hlen, hheader, hle⟩ := h
  have hsixteen : (16 : Int) ≤ len.toInt := hlen
  have hint := toInt_of_nonneg (x := len) (by omega)
  have hlt := BitVec.toInt_lt (x := len)
  exact ⟨hheader, BitVec.le_def.mp hle, hint, by omega⟩

/-- The step over an accepted message does not wrap; what is left falls below zero by at most three. -/
theorem NlmsgOk.next_toInt {m : Memory UInt8} {nlh : Nat} {len : BitVec 32} (h : NlmsgOk m nlh len) :
    (len - align (nlmsgLen m nlh)).toInt = len.toNat - (roundUp (nlmsgLen m nlh).toNat : Nat) := by
  obtain ⟨hheader, hle, hint, hlt⟩ := h.bounds
  have hround := roundUp_le (nlmsgLen m nlh).toNat
  have halign := align_toNat (show (nlmsgLen m nlh).toNat + 3 < 2^32 by omega)
  rw [BitVec.toInt_eq_toNat_cond, BitVec.toNat_sub, halign]
  split <;> omega

theorem NlmsgOk.next_lt {m : Memory UInt8} {nlh : Nat} {len : BitVec 32} (h : NlmsgOk m nlh len) :
    (len - align (nlmsgLen m nlh)).toInt.toNat < len.toInt.toNat := by
  obtain ⟨hheader, _, hint, _⟩ := h.bounds
  have hround := le_roundUp (nlmsgLen m nlh).toNat
  rw [h.next_toInt]
  omega

def receive (m : Memory UInt8) (nlh : Nat) (len : BitVec 32) : Received :=
  if Accepts m nlh len then
    let next := nlh + (align (nlmsgLen m nlh)).toNat
    let rest :=
      -- the type is looked at before the length left is
      if nlmsgType m next = nlmsgDone then ⟨[], []⟩ else receive m next (len - align (nlmsgLen m nlh))
    ⟨nlmsgDump m nlh :: rest.dumps, conditionReads m nlh len ++ dumpReads nlh ++ ⟨next + 4, 2⟩ :: rest.reads⟩
  else ⟨[], conditionReads m nlh len⟩
termination_by len.toInt.toNat
decreasing_by
  rename_i h _
  exact h.1.next_lt

def netlinkRecvMsgFn (skb : Memory UInt8) (len : BitVec 32) : Received := receive skb 0 len

/-- Behind each message that the loop accepts, at its rounded end, the type of the next header has
been received; after a header of type `NLMSG_DONE` the loop is left. -/
inductive TypeFollows (m : Memory UInt8) : Nat → BitVec 32 → Prop
  | refused {nlh : Nat} {len : BitVec 32} (h : ¬Accepts m nlh len) : TypeFollows m nlh len
  | accepted {nlh : Nat} {len : BitVec 32} (h : Accepts m nlh len)
      (htype : roundUp (nlmsgLen m nlh).toNat + 6 ≤ len.toNat)
      (hrest : nlmsgType m (nextMsg m nlh) ≠ nlmsgDone →
        TypeFollows m (nextMsg m nlh) (len - align (nlmsgLen m nlh))) : TypeFollows m nlh len

section Receive

variable {m : Memory UInt8} {nlh : Nat} {len : BitVec 32}

theorem NlmsgOk.next_eq (h : NlmsgOk m nlh len) : nlh + (align (nlmsgLen m nlh)).toNat = nextMsg m nlh := by
  obtain ⟨_, hle, _, hlt⟩ := h.bounds
  rw [nextMsg, align_toNat (by omega)]

theorem receive_refused (h : ¬Accepts m nlh len) : receive m nlh len = ⟨[], conditionReads m nlh len⟩ := by
  rw [receive, if_neg h]

theorem receive_done (h : Accepts m nlh len) (hdone : nlmsgType m (nextMsg m nlh) = nlmsgDone) :
    receive m nlh len =
      ⟨[nlmsgDump m nlh], conditionReads m nlh len ++ dumpReads nlh ++ [⟨nextMsg m nlh + 4, 2⟩]⟩ := by
  rw [receive, if_pos h]
  simp only [h.1.next_eq, if_pos hdone]

theorem receive_next (h : Accepts m nlh len) (hnext : nlmsgType m (nextMsg m nlh) ≠ nlmsgDone) :
    receive m nlh len =
      ⟨nlmsgDump m nlh :: (receive m (nextMsg m nlh) (len - align (nlmsgLen m nlh))).dumps,
        conditionReads m nlh len ++ dumpReads nlh ++ ⟨nextMsg m nlh + 4, 2⟩ ::
          (receive m (nextMsg m nlh) (len - align (nlmsgLen m nlh))).reads⟩ := by
  rw [receive, if_pos h]
  simp only [h.1.next_eq, if_neg hnext]

theorem conditionReads_subset :
    conditionReads m nlh len ⊆ [⟨nlh, 4⟩, ⟨nlh + 6, 2⟩, ⟨nlh + 4, 2⟩] := by
  unfold conditionReads
  split
  · refine List.cons_subset.mpr ⟨by simp, ?_⟩
    split
    · refine List.cons_subset.mpr ⟨by simp, ?_⟩
      split <;> simp
    · exact List.nil_subset _
  · exact List.nil_subset _

theorem conditionReads_short (h : len.toInt < 16) : conditionReads m nlh len = [] :=
  if_neg (Int.not_le.mpr h)

theorem conditionReads_inside {total : Nat} (htotal : (total : Int) = nlh + len.toInt) :
    ∀ f ∈ conditionReads m nlh len, f.off + f.size ≤ total := by
  intro f hf
  by_cases hlen : len.toInt < 16
  · rw [conditionReads_short hlen] at hf
    exact absurd hf List.not_mem_nil
  · have hfields := conditionReads_subset hf
    simp only [List.mem_cons, List.not_mem_nil, or_false] at hfields
    rcases hfields with rfl | rfl | rfl
    all_goals
      dsimp only
      omega

theorem dumpReads_inside {total : Nat} (hle : nlh + 16 ≤ total) : ∀ f ∈ dumpReads nlh, f.off + f.size ≤ total := by
  intro f hf
  simp only [dumpReads, List.mem_cons, List.not_mem_nil, or_false] at hf
  rcases hf with rfl | rfl | rfl | rfl | rfl
  all_goals
    dsimp only
    omega

/-- Of an accepted message the condition and `nlmsg_dump` read the header only. -/
theorem accepted_inside {total : Nat} (htotal : (total : Int) = nlh + len.toInt) (h : Accepts m nlh len) :
    ∀ f ∈ conditionReads m nlh len ++ dumpReads nlh, f.off + f.size ≤ total := by
  obtain ⟨hheader, hle, hint, _⟩ := h.1.bounds
  exact List.forall_mem_append.mpr ⟨conditionReads_inside htotal, dumpReads_inside (by omega)⟩

/-- At an accepted message the condition asks for the type behind it, and goes on if the loop does. -/
theorem typeFollows_iff (h : Accepts m nlh len) :
    TypeFollows m nlh len ↔ roundUp (nlmsgLen m nlh).toNat + 6 ≤ len.toNat ∧
      (nlmsgType m (nextMsg m nlh) ≠ nlmsgDone →
        TypeFollows m (nextMsg m nlh) (len - align (nlmsgLen m nlh))) := by
  constructor
  · intro hc
    cases hc with
    | refused hn => exact absurd h hn
    | accepted _ hle hrest => exact ⟨hle, hrest⟩
  · rintro ⟨hle, hrest⟩
    exact .accepted h hle hrest

/-- From any header of the chain on, the reads stay in the received bytes exactly if the type behind
each message accepted is among them. -/
theorem receive_reads_iff {total : Nat} (htotal : (total : Int) = nlh + len.toInt) :
    (∀ f ∈ (receive m nlh len).reads, f.off + f.size ≤ total) ↔ TypeFollows m nlh len := by
  induction nlh, len using receive.induct m with
  | case1 nlh len h next ih =>
    obtain ⟨hheader, hle, hint, _⟩ := h.1.bounds
    have hnextLen := h.1.next_toInt
    have hoff : nextMsg m nlh = nlh + roundUp (nlmsgLen m nlh).toNat := rfl
    have hfirst := accepted_inside htotal h
    have htype : nextMsg m nlh + 4 + 2 ≤ total ↔ roundUp (nlmsgLen m nlh).toNat + 6 ≤ len.toNat := by omega
    rw [show next = nextMsg m nlh from h.1.next_eq] at ih
    rw [typeFollows_iff h]
    by_cases hdone : nlmsgType m (nextMsg m nlh) = nlmsgDone
    · rw [receive_done h hdone, List.forall_mem_append, List.forall_mem_singleton, and_iff_right hfirst, htype]
      exact (and_iff_left (fun hne => absurd hdone hne)).symm
    · have hrest := ih (by rw [hnextLen]; omega)
      rw [receive_next h hdone, List.forall_mem_append, List.forall_mem_cons, and_iff_right hfirst, htype, hrest]
      exact and_congr_right' ⟨fun hc _ => hc, fun hc => hc hdone⟩
  | case2 nlh len h =>
    rw [receive_refused h]
    exact iff_of_true (conditionReads_inside htotal) (.refused h)

end Receive

/-- A length from `2^31` on is negative as an `int`, and nothing is read. -/
theorem netlinkRecvMsgFn_negative (skb : Memory UInt8) {len : BitVec 32} (h : ¬len.toNat < 2^31) :
    ¬Accepts skb 0 len ∧ netlinkRecvMsgFn skb len = ⟨[], []⟩ := by
  have hneg : len.toInt < 16 := by
    have hlt := len.isLt
    rw [BitVec.toInt_eq_toNat_cond]
    omega
  have hrefused : ¬Accepts skb 0 len := fun h => absurd h.1.1 (Int.not_le.mpr hneg)
  exact ⟨hrefused, by rw [netlinkRecvMsgFn, receive_refused hrefused, conditionReads_short hneg]⟩

theorem total_of_lt {len : BitVec 32} (h : len.toNat < 2^31) : (len.toNat : Int) = (0 : Nat) + len.toInt := by
  rw [BitVec.toInt_eq_toNat_of_lt (by omega)]
  omega

/-- Every header field read lies within the received bytes exactly if the type behind each message
accepted does. The loop ends for every content. -/
theorem reads_received_iff (skb : Memory UInt8) (len : BitVec 32) :
    (∀ f ∈ (netlinkRecvMsgFn skb len).reads, f.off + f.size ≤ len.toNat) ↔ TypeFollows skb 0 len := by
  by_cases hlen : len.toNat < 2^31
  · exact receive_reads_iff (total_of_lt hlen)
  · obtain ⟨hrefused, hnone⟩ := netlinkRecvMsgFn_negative skb hlen
    rw [hnone]
    exact iff_of_true (fun f hf => absurd hf List.not_mem_nil) (.refused hrefused)

/-- Behind a single message of type `NLMSG_DONE` the type of another header is read. -/
theorem receiver_reads_behind_skb :
    ¬∀ (skb : Memory UInt8) (len : BitVec 32),
      ∀ f ∈ (netlinkRecvMsgFn skb len).reads, f.off + f.size ≤ len.toNat := by
  intro h
  let skb : Memory UInt8 := write (fun _ => 0) 0 [16, 0, 0, 0, 3, 0]
  have haccepts : Accepts skb 0 16 := by decide +kernel
  have hlen : roundUp (nlmsgLen skb 0).toNat = 16 := by decide +kernel
  have hfollows := (receive_reads_iff (total_of_lt (show (16#32).toNat < 2^31 by decide))).mp (h skb 16)
  have htype := ((typeFollows_iff haccepts).mp hfollows).1
  rw [hlen] at htype
  exact absurd htype (by decide)

section Parts

def NetlinkMessage.type (msg : NetlinkMessage) : Nat := value ((msg.bytes.drop 4).take 2)

def NetlinkMessage.flags (msg : NetlinkMessage) : Nat := value ((msg.bytes.drop 6).take 2)

/-- A part of a multipart message that is not the last one. -/
def NetlinkMessage.IsPart (msg : NetlinkMessage) : Prop := msg.flags &&& nlmFMulti ≠ 0 ∧ msg.type ≠ nlmsgDone

variable {m : Memory UInt8} {base : Nat} {msg : NetlinkMessage} {len : BitVec 32}

/-- A field of a message is found where the message lies. -/
theorem load_of_read (h : read m base msg.bytes.length = msg.bytes) {off k : Nat} (hoff : off + k ≤ 16) :
    load m (base + off) k = value ((msg.bytes.drop off).take k) := by
  have hheader : 16 ≤ msg.bytes.length := msg.header
  rw [load, ← take_drop_read m base (show off + k ≤ msg.bytes.length by omega), h]

theorem nlmsgType_of_read (h : read m base msg.bytes.length = msg.bytes) : nlmsgType m base = msg.type :=
  load_of_read h (by decide)

theorem nlmsgFlags_of_read (h : read m base msg.bytes.length = msg.bytes) : nlmsgFlags m base = msg.flags :=
  load_of_read h (by decide)

theorem nextMsg_of_read (h : read m base msg.bytes.length = msg.bytes) :
    nextMsg m base = base + roundUp msg.bytes.length := by
  rw [nextMsg, nlmsgLen_of_read h]

/-- A message that lies in the bytes left is accepted if its flags or its type say so. -/
theorem accepts_of_read (h : read m base msg.bytes.length = msg.bytes) (hlen : msg.bytes.length ≤ len.toNat)
    (hsmall : len.toNat < 2^31) (hkind : msg.flags &&& nlmFMulti ≠ 0 ∨ msg.type = nlmsgDone) :
    Accepts m base len := by
  have hheader : 16 ≤ msg.bytes.length := msg.header
  have hint : len.toInt = len.toNat := BitVec.toInt_eq_toNat_of_lt (by omega)
  have hannounced := nlmsgLen_of_read h
  refine ⟨⟨?_, by rw [hannounced]; exact hheader, BitVec.le_def.mpr (by omega)⟩, ?_⟩
  · change (16 : Int) ≤ len.toInt
    omega
  · rwa [nlmsgFlags_of_read h, nlmsgType_of_read h]

/-- What is left of `total` bytes in front of a message lying in them. -/
theorem toNat_of_total {total : Nat} (htotal : (total : Int) = base + len.toInt) (hle : base ≤ total) :
    len.toInt = len.toNat ∧ total = base + len.toNat := by
  have hint := toInt_of_nonneg (x := len) (by omega)
  exact ⟨hint, by omega⟩

/-- Of parts placed from `base` on, with a message of type `NLMSG_DONE` behind them, only the parts are
dumped: the type of the next header is looked at before that header is. -/
theorem receive_parts {first closing : NetlinkMessage} {parts : List NetlinkMessage} {total : Nat}
    (hparts : ∀ msg ∈ first :: parts, msg.IsPart) (hclosing : closing.type = nlmsgDone)
    (hplaced : PlacedFrom m total base (first :: parts ++ [closing]))
    (htotal : (total : Int) = base + len.toInt) (hsmall : total < 2^31) :
    (receive m base len).dumps = (offsets base (first :: parts)).map (nlmsgDump m) := by
  induction parts generalizing first base len with
  | nil =>
    obtain ⟨hin, hread, hlast⟩ := hplaced
    obtain ⟨hint, htotal⟩ := toNat_of_total htotal (by omega)
    have hpart := (hparts first List.mem_cons_self).1
    have haccepts : Accepts m base len := accepts_of_read hread (by omega) (by omega) (.inl hpart)
    have hdone : nlmsgType m (nextMsg m base) = nlmsgDone := by
      rw [nextMsg_of_read hread, nlmsgType_of_read hlast.2.1, hclosing]
    rw [receive_done haccepts hdone]
    rfl
  | cons second parts ih =>
    obtain ⟨hfirst, hrest⟩ := List.forall_mem_cons.mp hparts
    obtain ⟨hin, hread, hplaced⟩ := hplaced
    obtain ⟨hint, htotal⟩ := toNat_of_total htotal (by omega)
    have haccepts : Accepts m base len := accepts_of_read hread (by omega) (by omega) (.inl hfirst.1)
    have hnext := nextMsg_of_read hread
    have hleft := haccepts.1.next_toInt
    rw [nlmsgLen_of_read hread] at hleft
    have htype : nlmsgType m (nextMsg m base) ≠ nlmsgDone := by
      rw [hnext, nlmsgType_of_read hplaced.2.1]
      exact (hrest second List.mem_cons_self).2
    rw [receive_next haccepts htype, hnext, ih hrest hplaced (by rw [hleft]; omega)]
    rfl

/-- A message of type `NLMSG_DONE` alone is dumped. -/
theorem receive_closing {closing : NetlinkMessage} {total : Nat} (hclosing : closing.type = nlmsgDone)
    (hplaced : PlacedFrom m total base [closing]) (htotal : (total : Int) = base + len.toInt)
    (hsmall : total < 2^31) : (receive m base len).dumps = [nlmsgDump m base] := by
  obtain ⟨hin, hread, hend⟩ := hplaced
  obtain ⟨hint, htotal⟩ := toNat_of_total htotal (by omega)
  have haccepts : Accepts m base len := accepts_of_read hread (by omega) (by omega) (.inr hclosing)
  have hshort : total < base + roundUp closing.bytes.length + 16 := hend
  have hleft := haccepts.1.next_toInt
  rw [nlmsgLen_of_read hread] at hleft
  by_cases hdone : nlmsgType m (nextMsg m base) = nlmsgDone
  · rw [receive_done haccepts hdone]
  · have hrefused : ¬Accepts m (nextMsg m base) (len - align (nlmsgLen m base)) := by
      intro h
      have hlen : (16 : Int) ≤ (len - align (nlmsgLen m base)).toInt := h.1.1
      omega
    rw [receive_next haccepts hdone, receive_refused hrefused]

end Parts

/-- Of a multipart message all parts are dumped, the closing one included, exactly if there is no part
in front of the closing one (and the length is not negative as an `int`). -/
theorem dumps_all_parts_iff {skb : Memory UInt8} {len : BitVec 32} {parts : List NetlinkMessage}
    {closing : NetlinkMessage} (hparts : ∀ msg ∈ parts, msg.IsPart) (hclosing : closing.type = nlmsgDone)
    (hplaced : PlacedFrom skb len.toNat 0 (parts ++ [closing])) :
    (netlinkRecvMsgFn skb len).dumps = (offsets 0 (parts ++ [closing])).map (nlmsgDump skb) ↔
      parts = [] ∧ len.toNat < 2^31 := by
  by_cases hlen : len.toNat < 2^31
  · rw [and_iff_left hlen]
    cases parts with
    | nil => exact iff_of_true (receive_closing hclosing hplaced (total_of_lt hlen) hlen) rfl
    | cons first parts =>
      refine iff_of_false (fun heq => ?_) (by simp)
      rw [netlinkRecvMsgFn, receive_parts hparts hclosing hplaced (total_of_lt hlen) hlen] at heq
      have hcount := congrArg List.length heq
      rw [List.length_map, List.length_map, length_offsets, length_offsets, List.length_append] at hcount
      exact absurd hcount (by simp)
  · refine iff_of_false (fun heq => ?_) (fun h => hlen h.2)
    rw [(netlinkRecvMsgFn_negative skb hlen).2] at heq
    have hcount := congrArg List.length heq
    rw [List.length_map, length_offsets, List.length_append] at hcount
    exact absurd hcount (by simp)

/-- The payload of the closing message of two is never dumped. -/
theorem closing_part_not_dumped :
    ¬∀ (skb : Memory UInt8) (len : BitVec 32) (parts : List NetlinkMessage) (closing : NetlinkMessage),
      (∀ msg ∈ parts, msg.IsPart) → closing.type = nlmsgDone →
      PlacedFrom skb len.toNat 0 (parts ++ [closing]) →
      (netlinkRecvMsgFn skb len).dumps = (offsets 0 (parts ++ [closing])).map (nlmsgDump skb) := by
  intro h
  let part : NetlinkMessage := ⟨bytes 4 16 ++ bytes 2 0 ++ bytes 2 2 ++ bytes 8 0, by decide, by decide⟩
  let closing : NetlinkMessage := ⟨bytes 4 16 ++ bytes 2 3 ++ bytes 10 0, by decide, by decide⟩
  let skb : Memory UInt8 := write (write (fun _ => 0) 0 part.bytes) 16 closing.bytes
  have hparts : ∀ msg ∈ [part], msg.IsPart := List.forall_mem_singleton.mpr ⟨by decide, by decide⟩
  have hplaced : PlacedFrom skb 32 0 ([part] ++ [closing]) :=
    ⟨by decide, by decide, by decide, by decide,
      show 32 < 0 + roundUp part.bytes.length + roundUp closing.bytes.length + 16 by decide⟩
  have hall := h skb 32 [part] closing hparts (by decide) hplaced
  have hlen : (32#32).toNat < 2^31 := by decide
  have hdumps := receive_parts hparts (by decide) hplaced (total_of_lt hlen) hlen
  exact absurd (congrArg List.length (hdumps.symm.trans hall)) (by decide)

/-- A closing message alone, and one with a part in front of it. -/
theorem dumps_closing_alone_only :
    let part : NetlinkMessage := ⟨bytes 4 16 ++ bytes 2 0 ++ bytes 2 2 ++ bytes 8 0, by decide, by decide⟩
    let closing : NetlinkMessage := ⟨bytes 4 16 ++ bytes 2 3 ++ bytes 10 0, by decide, by decide⟩
    let alone : Memory UInt8 := write (fun _ => 0) 0 closing.bytes
    let both : Memory UInt8 := write (write (fun _ => 0) 0 part.bytes) 16 closing.bytes
    (netlinkRecvMsgFn alone 16).dumps = (offsets 0 ([] ++ [closing])).map (nlmsgDump alone) ∧
      (netlinkRecvMsgFn both 32).dumps ≠ (offsets 0 ([part] ++ [closing])).map (nlmsgDump both) := by
  intro part closing alone both
  have hnone : ∀ msg ∈ ([] : List NetlinkMessage), msg.IsPart := fun msg hmsg => absurd hmsg List.not_mem_nil
  have hpart : ∀ msg ∈ [part], msg.IsPart := List.forall_mem_singleton.mpr ⟨by decide, by decide⟩
  have halone : PlacedFrom alone (16#32).toNat 0 ([] ++ [closing]) :=
    ⟨by decide, by decide, show 16 < 0 + roundUp closing.bytes.length + 16 by decide⟩
  have hboth : PlacedFrom both (32#32).toNat 0 ([part] ++ [closing]) :=
    ⟨by decide, by decide, by decide, by decide,
      show 32 < 0 + roundUp part.bytes.length + roundUp closing.bytes.length + 16 by decide⟩
  refine ⟨(dumps_all_parts_iff hnone (by decide) halone).mpr ⟨rfl, by decide⟩, fun hall => ?_⟩
  have hempty := ((dumps_all_parts_iff hpart (by decide) hboth).mp hall).1
  exact absurd hempty (List.cons_ne_nil part [])

end LinuxDrivers.Netlink
