import LinuxDrivers.Dram.Device

/-! Reading the memory device from a position on: the bytes of successive reads join up. -/
namespace LinuxDrivers.Dram
open UserCopy

/-- `MAX_RW_COUNT`, the most the VFS asks of a driver at once. -/
abbrev maxRwCount : Nat := 0x7ffff000

structure Ask where
  count : BitVec 64
  accepts : Nat

structure Served where
  ask : Ask
  before : BitVec 64
  read : Read

def serve (ram : Ram) (dramSize pos : BitVec 64) : List Ask → List Served × BitVec 64
  | [] => ([], pos)
  | ask :: asks =>
    let read := devRead ram dramSize pos ask.count ask.accepts
    let (served, last) := serve ram dramSize read.pos asks
    (⟨ask, pos, read⟩ :: served, last)

def Served.received (s : Served) : List UInt8 := if 0 ≤ s.read.ret then s.read.delivered else []

structure Served.Ok (size : Nat) (s : Served) : Prop where
  advance : 0 ≤ s.read.ret → (s.read.pos.toNat : Int) = s.before.toNat + s.read.ret
  progress : 1 ≤ s.ask.count.toNat → s.before.toNat < size →
    1 ≤ s.read.ret ∨ s.read.ret = -efault ∧ s.read.pos = s.before
  inside : ∀ start n, s.read.source = some (start, n) →
    0 ≤ start ∧ start + n ≤ size ∧ start + n ≤ start / 4096 * 4096 + 4096

theorem dramSize_toNat {n : Nat} (h : n ≤ 2^31) : (dramSize n).toNat = n * 4096 :=
  dramSize_exact (by omega)

/-- A call in range: at the end nothing happens, and before it the count or the rest of the page
is copied, whichever is less. -/
theorem devRead_cases (ram : Ram) {size pos count : BitVec 64} (hsize : size.toNat ≤ 2^31 * 4096)
    (hcount : count.toNat ≤ maxRwCount) (accepts : Nat) :
    (size.toNat ≤ pos.toNat ∧ devRead ram size pos count accepts = ⟨0, pos, none, []⟩) ∨
    (pos.toNat < size.toNat ∧ ∃ c : BitVec 64, c.toNat = min count.toNat (4096 - pos.toNat % 4096) ∧
      ((c.toNat ≤ accepts ∧ devRead ram size pos count accepts =
          ⟨c.toNat, pos + c, some (pos.toNat, c.toNat), bytesFrom ram pos.toNat c.toNat⟩) ∨
        (accepts < c.toNat ∧ devRead ram size pos count accepts =
          ⟨-efault, pos, some (pos.toNat, c.toNat), (bytesFrom ram pos.toNat c.toNat).take accepts⟩))) := by
  have hmax : maxRwCount = 0x7ffff000 := rfl
  unfold devRead
  by_cases hend : size ≤ pos
  · left
    rw [if_pos hend]
    exact ⟨BitVec.le_def.mp hend, rfl⟩
  · right
    have hlt : pos.toNat < size.toNat := by
      rw [BitVec.le_def] at hend
      omega
    have hc := clampCount_toNat pos (show count.toNat < 2^63 by omega)
    have hint : (clampCount pos count).toInt = (clampCount pos count).toNat :=
      BitVec.toInt_eq_toNat_of_lt (by omega)
    refine ⟨hlt, clampCount pos count, hc, ?_⟩
    generalize clampCount pos count = c at hc hint ⊢
    have hmore : BitVec.ofNat 32 (c.toNat - accepts) = 0 ↔ c.toNat ≤ accepts := by
      have hof : (BitVec.ofNat 32 (c.toNat - accepts)).toNat = c.toNat - accepts := by
        rw [BitVec.toNat_ofNat, Nat.mod_eq_of_lt (by omega)]
      rw [← BitVec.toNat_inj, hof]
      exact Nat.sub_eq_zero_iff_le
    simp only [if_neg hend, start_eq (show pos.toNat < 2^31 * 4096 by omega), copyToUser, bytesFrom_length, hint]
    by_cases hall : c.toNat ≤ accepts
    · left
      rw [if_neg (not_not.mpr (hmore.mpr hall)), List.take_of_length_le (by rw [bytesFrom_length]; exact hall)]
      exact ⟨hall, rfl⟩
    · right
      rw [if_pos (fun hz => hall (hmore.mp hz))]
      exact ⟨by omega, rfl⟩

/-- A copied count leads to the end of the page at most, and there to the end of the memory at most. -/
theorem add_copied_toNat {size pos c count : BitVec 64} (hsize : size.toNat ≤ 2^31 * 4096)
    (hpage : size.toNat % 4096 = 0) (hlt : pos.toNat < size.toNat)
    (hc : c.toNat = min count.toNat (4096 - pos.toNat % 4096)) :
    (pos + c).toNat = pos.toNat + c.toNat ∧ pos.toNat + c.toNat ≤ size.toNat ∧
      pos.toNat + c.toNat ≤ pos.toNat / 4096 * 4096 + 4096 := by
  have hend : pos.toNat + c.toNat ≤ pos.toNat / 4096 * 4096 + 4096 := by omega
  refine ⟨?_, by omega, hend⟩
  rw [BitVec.toNat_add]
  exact Nat.mod_eq_of_lt (by omega)

theorem devRead_ok (ram : Ram) {size pos : BitVec 64} (hsize : size.toNat ≤ 2^31 * 4096)
    (hpage : size.toNat % 4096 = 0) {ask : Ask} (hcount : ask.count.toNat ≤ maxRwCount) :
    Served.Ok size.toNat ⟨ask, pos, devRead ram size pos ask.count ask.accepts⟩ := by
  rcases devRead_cases ram hsize hcount ask.accepts with ⟨hend, h⟩ | ⟨hlt, c, hc, hcopy⟩
  · rw [h]
    refine ⟨fun _ => (Int.add_zero _).symm, fun _ hlt => ?_, fun _ _ hs => by cases hs⟩
    exact absurd hlt (Nat.not_lt.mpr hend)
  · obtain ⟨hsum, hle, hpageEnd⟩ := add_copied_toNat hsize hpage hlt hc
    have hinside : ∀ (start : Int) (n : Nat), some ((pos.toNat : Int), c.toNat) = some (start, n) →
        0 ≤ start ∧ start + n ≤ size.toNat ∧ start + n ≤ start / 4096 * 4096 + 4096 := by
      rintro start n ⟨⟩
      omega
    rcases hcopy with ⟨_, h⟩ | ⟨_, h⟩
    · rw [h]
      refine ⟨fun _ => ?_, fun hpos _ => .inl ?_, hinside⟩
      · dsimp only
        omega
      · dsimp only at hpos ⊢
        omega
    · rw [h]
      exact ⟨fun hret => absurd hret efault_neg, fun _ _ => .inr ⟨rfl, rfl⟩, hinside⟩

/-- One call moves the position over exactly the bytes it gave the user. -/
theorem devRead_advance (ram : Ram) {size pos : BitVec 64} (hsize : size.toNat ≤ 2^31 * 4096)
    (hpage : size.toNat % 4096 = 0) (hpos : pos.toNat ≤ size.toNat) {ask : Ask}
    (hcount : ask.count.toNat ≤ maxRwCount) :
    ∃ n, (devRead ram size pos ask.count ask.accepts).pos.toNat = pos.toNat + n ∧ pos.toNat + n ≤ size.toNat ∧
      Served.received ⟨ask, pos, devRead ram size pos ask.count ask.accepts⟩ = bytesFrom ram pos.toNat n ∧
      (1 ≤ ask.count.toNat → ask.count.toNat ≤ ask.accepts → pos.toNat < size.toNat → 1 ≤ n) := by
  rcases devRead_cases ram hsize hcount ask.accepts with ⟨hend, h⟩ | ⟨hlt, c, hc, ⟨_, h⟩ | ⟨hfault, h⟩⟩
  · rw [h]
    exact ⟨0, rfl, hpos, rfl, fun _ _ hlt => absurd hlt (Nat.not_lt.mpr hend)⟩
  · obtain ⟨hsum, hle, _⟩ := add_copied_toNat hsize hpage hlt hc
    rw [h]
    refine ⟨c.toNat, hsum, hle, ?_, fun _ _ _ => by omega⟩
    rw [Served.received, if_pos (Int.natCast_nonneg _)]
  · rw [h]
    refine ⟨0, rfl, hpos, ?_, fun _ _ _ => by omega⟩
    rw [Served.received, if_neg efault_neg]
    rfl

/-- Successive calls give the user one stretch of memory, and each of them is in order. -/
theorem serve_stream (ram : Ram) {size : BitVec 64} (hsize : size.toNat ≤ 2^31 * 4096)
    (hpage : size.toNat % 4096 = 0) {asks : List Ask} (hcounts : ∀ ask ∈ asks, ask.count.toNat ≤ maxRwCount)
    {pos : BitVec 64} (hpos : pos.toNat ≤ size.toNat) :
    ∃ n, (serve ram size pos asks).2.toNat = pos.toNat + n ∧ pos.toNat + n ≤ size.toNat ∧
      (serve ram size pos asks).1.flatMap Served.received = bytesFrom ram pos.toNat n ∧
      ∀ s ∈ (serve ram size pos asks).1, s.Ok size.toNat := by
  induction asks generalizing pos with
  | nil => exact ⟨0, rfl, hpos, rfl, fun s hs => by cases hs⟩
  | cons ask asks ih =>
    have hcount := hcounts ask List.mem_cons_self
    obtain ⟨n, hn, hle, hreceived, _⟩ := devRead_advance ram hsize hpage hpos hcount
    obtain ⟨k, hk, hlast, hrest, hall⟩ :=
      ih (fun a ha => hcounts a (List.mem_cons_of_mem ask ha))
        (show (devRead ram size pos ask.count ask.accepts).pos.toNat ≤ size.toNat by omega)
    refine ⟨n + k, ?_, by omega, ?_, ?_⟩
    · rw [serve]
      dsimp only
      omega
    · rw [serve, List.flatMap_cons, hreceived, hrest, hn, bytesFrom_add, Int.natCast_add]
    · intro s hs
      rw [serve] at hs
      rcases List.mem_cons.mp hs with rfl | hs
      · exact devRead_ok ram hsize hpage hcount
      · exact hall s hs

/-- A reader that asks for something each time and never faults comes to the end. -/
theorem serve_reaches_end (ram : Ram) {size : BitVec 64} (hsize : size.toNat ≤ 2^31 * 4096)
    (hpage : size.toNat % 4096 = 0) (asks : Nat → Ask)
    (hasks : ∀ i, 1 ≤ (asks i).count.toNat ∧ (asks i).count.toNat ≤ maxRwCount ∧
      (asks i).count.toNat ≤ (asks i).accepts) {pos : BitVec 64} (hpos : pos.toNat ≤ size.toNat) :
    ∃ n, (serve ram size pos ((List.range n).map asks)).2 = size := by
  induction hleft : size.toNat - pos.toNat using Nat.strongRecOn generalizing pos asks with
  | _ left ih =>
    by_cases hend : pos = size
    · exact ⟨0, hend⟩
    · have hlt : pos.toNat < size.toNat := by
        have hne : pos.toNat ≠ size.toNat := fun h => hend (BitVec.eq_of_toNat_eq h)
        omega
      obtain ⟨hlow, hhigh, hall⟩ := hasks 0
      obtain ⟨n, hn, hle, _, hpositive⟩ := devRead_advance ram hsize hpage hpos hhigh
      have hsome := hpositive hlow hall hlt
      obtain ⟨k, hk⟩ := ih (size.toNat - (pos.toNat + n)) (by omega) (fun i => asks (i+1)) (fun i => hasks (i+1))
        (show (devRead ram size pos (asks 0).count (asks 0).accepts).pos.toNat ≤ size.toNat by omega)
        (by omega)
      refine ⟨k+1, ?_⟩
      rw [List.range_succ_eq_map, List.map_cons, List.map_map, serve]
      exact hk

/-- On a machine with at most `2^31` page frames, reads from `p` on deliver the memory from `p` on
without gap or repetition, each call is in order, and a reader that asks for something each time
and never faults has received all of it after finitely many calls, the next one returning 0. -/
theorem reads_stream (ram : Ram) {n : Nat} (hn : n ≤ 2^31) {p : Nat} (hp : p ≤ n * 4096) :
    (∀ asks : List Ask, (∀ ask ∈ asks, ask.count.toNat ≤ maxRwCount) →
      let (served, last) := serve ram (dramSize n) (BitVec.ofNat 64 p) asks
      served.flatMap Served.received = bytesFrom ram p (last.toNat - p) ∧ p ≤ last.toNat ∧ last.toNat ≤ n * 4096 ∧
        ∀ s ∈ served, s.Ok (n * 4096)) ∧
    ∀ asks : Nat → Ask, (∀ i, 1 ≤ (asks i).count.toNat ∧ (asks i).count.toNat ≤ maxRwCount ∧
        (asks i).count.toNat ≤ (asks i).accepts) →
      ∃ k, let (served, last) := serve ram (dramSize n) (BitVec.ofNat 64 p) ((List.range k).map asks)
        served.flatMap Served.received = bytesFrom ram p (n * 4096 - p) ∧
          (devRead ram (dramSize n) last (asks k).count (asks k).accepts).ret = 0 := by
  have hdram := dramSize_toNat hn
  have hpos : (BitVec.ofNat 64 p).toNat = p := by
    rw [BitVec.toNat_ofNat, Nat.mod_eq_of_lt (by omega)]
  have hsize : (dramSize n).toNat ≤ 2^31 * 4096 := by omega
  have hpage : (dramSize n).toNat % 4096 = 0 := by omega
  have hstart : (BitVec.ofNat 64 p).toNat ≤ (dramSize n).toNat := by omega
  constructor
  · intro asks hcounts
    obtain ⟨k, hk, hle, hreceived, hall⟩ := serve_stream ram hsize hpage hcounts hstart
    rw [hpos] at hk hle hreceived
    rw [hdram] at hall hle
    dsimp only
    rw [hk, Nat.add_sub_cancel_left]
    exact ⟨hreceived, Nat.le_add_right _ _, hle, hall⟩
  · intro asks hasks
    obtain ⟨k, hlast⟩ := serve_reaches_end ram hsize hpage asks hasks hstart
    have hcounts : ∀ ask ∈ (List.range k).map asks, ask.count.toNat ≤ maxRwCount := by
      intro ask hm
      obtain ⟨i, _, rfl⟩ := List.mem_map.mp hm
      exact (hasks i).2.1
    obtain ⟨j, hj, _, hreceived, _⟩ := serve_stream ram hsize hpage hcounts hstart
    rw [hlast, hdram, hpos] at hj
    rw [hpos] at hreceived
    refine ⟨k, ?_, ?_⟩
    · rw [hreceived, hj, Nat.add_sub_cancel_left]
    · rw [hlast, devRead, if_pos (BitVec.le_refl _)]

/-- Two page frames read from 6 bytes before the page boundary on. -/
theorem reads_stream_two_pages :
    let ram : Ram := fun a => UInt8.ofNat a.toNat
    (serve ram (dramSize 2) 4090 [⟨10, 10⟩, ⟨4, 4⟩]).1.flatMap Served.received =
      bytesFrom ram 4090 ((serve ram (dramSize 2) 4090 [⟨10, 10⟩, ⟨4, 4⟩]).2.toNat - 4090) ∧
    ∃ k, (serve ram (dramSize 2) 4090 ((List.range k).map fun _ => ⟨4096, 4096⟩)).1.flatMap Served.received =
      bytesFrom ram 4090 4102 := by
  intro ram
  have h := reads_stream ram (show 2 ≤ 2^31 by decide) (show 4090 ≤ 2 * 4096 by decide)
  dsimp only at h
  obtain ⟨k, hk, _⟩ := h.2 (fun _ => ⟨4096, 4096⟩) (fun _ => by decide)
  exact ⟨(h.1 [⟨10, 10⟩, ⟨4, 4⟩] (by decide)).1, k, hk⟩

end LinuxDrivers.Dram
