import LinuxDrivers.Lib.CString
import LinuxDrivers.Lib.FileReads

/-! `mychardev_read`, written out where `simple_read_from_buffer` is commented out. -/
namespace LinuxDrivers.Mychardev
open CString UserCopy FileReads

def data : List UInt8 := ascii "Hello from the kernel world!\n".toList

abbrev datalen : Nat := data.length

theorem length_data : data.length = datalen := rfl

theorem datalen_eq : datalen = 29 := rfl

def mychardevRead (offset : Int) (ask : Ask) : Reply UInt8 :=
  if 0 < offset then ⟨0, offset, []⟩
  else
    let len := if ask.count.toNat < datalen then ask.count.toNat else datalen
    let (uncopied, delivered) := copyToUser (data.take len) ask.accepts
    if uncopied ≠ 0 then ⟨-efault, offset, delivered⟩ else ⟨len, offset + len, delivered⟩

/-- The first read of a byte asks for `size` bytes at least, or no other read of a byte follows. -/
def TakesAllFirst (size : Nat) : List Ask → Prop
  | [] => True
  | ask :: asks =>
      if ask.count = 0 then TakesAllFirst size asks
      else size ≤ ask.count.toNat ∨ ∀ later ∈ asks, later.count = 0

theorem mychardevRead_zero {ask : Ask} (h : ask.Succeeds datalen) :
    mychardevRead 0 ask = ⟨(min ask.count.toNat datalen : Nat), (min ask.count.toNat datalen : Nat),
      data.take ask.count.toNat⟩ := by
  have hlen : (if ask.count.toNat < datalen then ask.count.toNat else datalen) = min ask.count.toNat datalen := by
    split <;> omega
  have hsize : (data.take (min ask.count.toNat datalen)).length = min ask.count.toNat datalen := by
    rw [List.length_take]
    exact Nat.min_eq_left (Nat.min_le_right _ _)
  have hall : (data.take (min ask.count.toNat datalen)).length ≤ ask.accepts := hsize.trans_le h
  rw [mychardevRead, if_neg (Int.lt_irrefl 0), hlen]
  simp only [copyToUser, Nat.sub_eq_zero_of_le hall, List.take_of_length_le hall]
  rw [if_neg (not_not.mpr rfl), ← List.take_eq_take_min, Int.zero_add]

/-- At the start of the text the two ways to read agree. -/
theorem simpleRead_zero {ask : Ask} (h : ask.Succeeds datalen) :
    simpleReadFromBuffer data 0 ask = mychardevRead 0 ask := by
  have hsimple := simpleReadFromBuffer_eq (p := 0) h
  rw [Nat.sub_zero, Nat.zero_add, List.drop_zero] at hsimple
  rw [mychardevRead_zero h]
  exact hsimple

/-- Behind the first byte every read is answered by 0. -/
theorem mychardevRead_behind {offset : Int} (h : 0 < offset) (ask : Ask) :
    mychardevRead offset ask = ⟨0, offset, []⟩ := if_pos h

theorem serve_behind {offset : Int} (h : 0 < offset) (asks : List Ask) :
    serve mychardevRead offset asks = asks.map fun ask => ⟨ask, 0, offset, []⟩ :=
  serve_still (fun ask _ => mychardevRead_behind h ask)

theorem delivered_behind {offset : Int} (h : 0 < offset) (asks : List Ask) :
    delivered (serve mychardevRead offset asks) = [] := by
  rw [serve_behind h, delivered, List.flatMap_map]
  exact List.flatMap_eq_nil_iff.mpr (fun _ _ => rfl)

/-- Where the reads deliver the text, the first of them takes it all or is the only one. -/
theorem takesAllFirst_of_delivers {asks : List Ask} (h : ∀ ask ∈ asks, ask.Succeeds datalen)
    (hdelivers : Delivers data (serve mychardevRead 0 asks)) : TakesAllFirst datalen asks := by
  induction asks with
  | nil => trivial
  | cons ask asks ih =>
    obtain ⟨hask, hasks⟩ := List.forall_mem_cons.mp h
    rw [serve, mychardevRead_zero hask] at hdelivers
    rw [TakesAllFirst]
    split
    next hcount =>
      have hnone : min ask.count.toNat datalen = 0 := by
        rw [hcount]
        exact Nat.zero_min _
      rw [hnone] at hdelivers
      rw [hcount] at hdelivers
      exact ih hasks (hdelivers.of_cons_empty hcount rfl)
    next hcount =>
      have hpos : 0 < ask.count.toNat := ask.count_pos hcount
      have hsize := datalen_eq
      have hpast : (0 : Int) < (min ask.count.toNat datalen : Nat) := by omega
      have hbytes := congrArg List.length hdelivers.bytes
      rw [delivered_cons, asked_cons, delivered_behind hpast, List.append_nil, List.length_take,
        List.length_take, length_data] at hbytes
      dsimp only at hbytes
      rw [or_iff_not_imp_left]
      intro hshort later hlater
      have hrest : asked (serve mychardevRead (min ask.count.toNat datalen : Nat) asks) = 0 := by omega
      rw [serve_behind hpast] at hrest
      exact asked_eq_zero hrest _ (List.mem_map_of_mem hlater)

/-- A first read that takes all the text, or is the only one, leaves nothing to tell the two ways apart. -/
theorem serve_eq_of_takesAllFirst {asks : List Ask} (h : ∀ ask ∈ asks, ask.Succeeds datalen)
    (htakes : TakesAllFirst datalen asks) :
    serve mychardevRead 0 asks = serve (simpleReadFromBuffer data) 0 asks := by
  induction asks with
  | nil => rfl
  | cons ask asks ih =>
    obtain ⟨hask, hasks⟩ := List.forall_mem_cons.mp h
    rw [serve, serve, simpleRead_zero hask, mychardevRead_zero hask]
    refine congrArg (List.cons _) ?_
    rw [TakesAllFirst] at htakes
    split at htakes
    next hcount =>
      rw [hcount]
      exact ih hasks htakes
    next hcount =>
      have hpos : 0 < ask.count.toNat := ask.count_pos hcount
      have hsize := datalen_eq
      have hstill : ∀ later ∈ asks, simpleReadFromBuffer data (min ask.count.toNat datalen : Nat) later =
          ⟨0, (min ask.count.toNat datalen : Nat), []⟩ := by
        intro later hlater
        rw [simpleReadFromBuffer, if_neg (by omega), if_pos]
        rcases htakes with hall | hnone
        · exact .inl (Int.ofNat_le.mpr (Nat.le_min.mpr ⟨hall, Nat.le_refl _⟩))
        · exact .inr (hnone later hlater)
      dsimp only
      rw [serve_still hstill]
      exact serve_behind (by omega) asks

/-- Successful reads of an open file deliver the text, and agree with `simple_read_from_buffer`,
exactly if the first one of a byte asks for the whole text or no other one follows it. -/
theorem delivers_iff_takesAllFirst {asks : List Ask} (h : ∀ ask ∈ asks, ask.Succeeds datalen) :
    (Delivers data (serve mychardevRead 0 asks) ↔ TakesAllFirst datalen asks) ∧
    (serve mychardevRead 0 asks = serve (simpleReadFromBuffer data) 0 asks ↔ TakesAllFirst datalen asks) := by
  have hsimple : Delivers data (serve (simpleReadFromBuffer data) 0 asks) :=
    simpleReadFromBuffer_delivers (p := 0) h
  constructor
  · refine ⟨takesAllFirst_of_delivers h, fun htakes => ?_⟩
    rw [serve_eq_of_takesAllFirst h htakes]
    exact hsimple
  · refine ⟨fun heq => takesAllFirst_of_delivers h ?_, serve_eq_of_takesAllFirst h⟩
    rw [heq]
    exact hsimple

/-- `cat` reads once into a large buffer and once more for the end. -/
theorem reads_cat :
    (Delivers data (serve mychardevRead 0 [⟨131072, 131072⟩, ⟨131072, 131072⟩]) ↔
      TakesAllFirst datalen [⟨131072, 131072⟩, ⟨131072, 131072⟩]) ∧
    (serve mychardevRead 0 [⟨131072, 131072⟩, ⟨131072, 131072⟩] =
        serve (simpleReadFromBuffer data) 0 [⟨131072, 131072⟩, ⟨131072, 131072⟩] ↔
      TakesAllFirst datalen [⟨131072, 131072⟩, ⟨131072, 131072⟩]) :=
  delivers_iff_takesAllFirst (by decide)

/-- Read byte by byte, the text ends behind its first letter. -/
theorem read_ends_early :
    ¬∀ asks : List Ask, (∀ ask ∈ asks, ask.Succeeds datalen) →
      Delivers data (serve mychardevRead 0 asks) ∧
        serve mychardevRead 0 asks = serve (simpleReadFromBuffer data) 0 asks := by
  intro h
  have hasks : ∀ ask ∈ [(⟨1, 1⟩ : Ask), ⟨1, 1⟩], ask.Succeeds datalen := by decide
  obtain ⟨hdelivers, _⟩ := h _ hasks
  exact absurd (congrArg List.length hdelivers.bytes) (by decide)

end LinuxDrivers.Mychardev
