import LinuxDrivers.TestPci.Balance

/-! The range that `my_driver_probe` maps, the region it reserves, and the one `release_device` gives back. -/
namespace LinuxDrivers.TestPci
open Ledger

def Bar.range (bar : Bar) : BitVec 64 × BitVec 64 := (bar.start, bar.len)

def Bar.IsMemory (bar : Bar) : Prop := bar.flags &&& ioresourceMem ≠ 0

def ReachesIoremap (a : Answers) : Prop := a.enable = 0 ∧ a.region = 0 ∧ a.kzalloc = true

/-- A range mapped is the range of a memory BAR and the range of a BAR reserved; and what `release_device`
releases after the probe is that BAR. -/
structure MapsReserved (d : Device) (a : Answers) : Prop where
  memory : ∀ start len, .mapping start len ∈ (myDriverProbe d a).2.account.held →
    ∃ bar ∈ d.resource, bar.IsMemory ∧ bar.range = (start, len)
  reserved : ∀ start len, .mapping start len ∈ (myDriverProbe d a).2.account.held →
    ∃ i bar, .region i ∈ (myDriverProbe d a).2.account.held ∧ d.resource[i]? = some bar ∧ bar.range = (start, len)
  released : ∀ i, .region i ∈ (myDriverProbe d a).2.account.held →
    .region i ∉ (releaseDevice (myDriverProbe d a).2).account.held ∧
      ∀ j, .region j ∉ (releaseDevice (myDriverProbe d a).2).account.strays

/-- The entry whose number is the mask of the memory BARs has the range of entry 0, and so has some
memory BAR. -/
def MaskNamesFirst (resource : List Bar) : Prop :=
  ∃ first reserved, resource[0]? = some first ∧
    resource[maskOfBars ioresourceMem resource]? = some reserved ∧ reserved.range = first.range ∧
    ∃ bar ∈ resource, bar.IsMemory ∧ bar.range = first.range

def mappedAccount (bar : Nat) (range : BitVec 64 × BitVec 64) : Account Resource :=
  (((Account.empty.acquire .enable).acquire (.region bar)).acquire .allocation).acquire (.mapping range.1 range.2)

section Probe

variable {d : Device} {a : Answers}

theorem setInterrupts_selectBars (flags : BitVec 64) :
    (setInterrupts d a).2.selectBars flags = d.selectBars flags := by
  unfold setInterrupts
  split
  · rfl
  · split <;> rfl

theorem setInterrupts_account :
    (setInterrupts d a).2.account = d.account ∨ (setInterrupts d a).2.account = d.account.acquire .vectors ∨
      (setInterrupts d a).2.account = (d.account.acquire .vectors).acquire (.irq 42) := by
  unfold setInterrupts
  split
  · exact .inl rfl
  · split
    · exact .inr (.inl rfl)
    · exact .inr (.inr rfl)

/-- With the range mapped, only the interrupts are to come. -/
theorem myDriverProbe_mapped (h : ReachesIoremap a) (hi : a.ioremap = true) (hd : d.account = .empty) :
    (myDriverProbe d a).2.selectBars ioresourceMem = d.selectBars ioresourceMem ∧
      ∃ e : Device, (myDriverProbe d a).2 = (setInterrupts e a).2 ∧
        e.account = mappedAccount (d.selectBars ioresourceMem) (d.resourceStart 0, d.resourceLen 0) := by
  obtain ⟨he, hr, hk⟩ := h
  unfold myDriverProbe
  simp only [he, hr, hk, hi, ne_eq, not_true_eq_false, if_false, Bool.true_eq_false]
  refine ⟨?_, _, rfl, ?_⟩
  · rw [setInterrupts_selectBars, writeSampleData_selectBars]
    rfl
  · rw [writeSampleData_account]
    simp only [Device.acquire_account, hd]
    rfl

/-- Without it the region has been given back. -/
theorem myDriverProbe_unmapped (h : ReachesIoremap a) (hi : a.ioremap = false) (hd : d.account = .empty) :
    (myDriverProbe d a).2.account.held = [.allocation] := by
  obtain ⟨he, hr, hk⟩ := h
  unfold myDriverProbe
  simp only [he, hr, hk, hi, ne_eq, not_true_eq_false, if_false, if_true, Bool.true_eq_false]
  rw [releaseDevice_account]
  simp [hd, Account.empty, Account.acquire, Account.release]

/-- The interrupts are nothing but vectors and an interrupt. -/
theorem mem_setInterrupts {r : Resource} (hv : r ≠ .vectors) (hq : r ≠ .irq 42) :
    r ∈ (setInterrupts d a).2.account.held ↔ r ∈ d.account.held := by
  rcases setInterrupts_account (d := d) (a := a) with h | h | h
  all_goals simp [h, hv, hq]

/-- Of mappings and regions, the probe leaves those that came with the mapped range. -/
theorem mem_probe (h : ReachesIoremap a) (hd : d.account = .empty) {r : Resource} (hv : r ≠ .vectors)
    (hq : r ≠ .irq 42) (hk : r ≠ .allocation) :
    r ∈ (myDriverProbe d a).2.account.held ↔ a.ioremap = true ∧
      r ∈ (mappedAccount (d.selectBars ioresourceMem) (d.resourceStart 0, d.resourceLen 0)).held := by
  cases hi : a.ioremap with
  | false =>
    rw [myDriverProbe_unmapped h hi hd]
    simp [hk]
  | true =>
    obtain ⟨-, e, he, haccount⟩ := myDriverProbe_mapped h hi hd
    rw [he, mem_setInterrupts hv hq, haccount]
    simp

theorem mapping_mem_probe (h : ReachesIoremap a) (hd : d.account = .empty) {start len : BitVec 64} :
    .mapping start len ∈ (myDriverProbe d a).2.account.held ↔
      a.ioremap = true ∧ (d.resourceStart 0, d.resourceLen 0) = (start, len) := by
  rw [mem_probe h hd (by simp) (by simp) (by simp)]
  simp [mappedAccount, Account.empty, @eq_comm _ start, @eq_comm _ len]

theorem region_mem_probe (h : ReachesIoremap a) (hd : d.account = .empty) {i : Nat} :
    .region i ∈ (myDriverProbe d a).2.account.held ↔
      a.ioremap = true ∧ i = d.selectBars ioresourceMem := by
  rw [mem_probe h hd (by simp) (by simp) (by simp)]
  simp [mappedAccount, Account.empty]

/-- `release_device` gives back the region of the mask, if that is held once, and no other. -/
theorem releaseDevice_region (hnodup : d.account.held.Nodup)
    (hheld : .region (d.selectBars ioresourceMem) ∈ d.account.held) (hstrays : ∀ j, .region j ∉ d.account.strays) :
    .region (d.selectBars ioresourceMem) ∉ (releaseDevice d).account.held ∧
      ∀ j, .region j ∉ (releaseDevice d).account.strays := by
  rw [releaseDevice_account]
  constructor
  · rw [Account.mem_release_of_ne (by simp)]
    exact Account.notMem_release (Account.nodup_release _ hnodup)
  · intro j
    rw [Account.mem_strays_release_of_ne (by simp), Account.strays_release_of_mem,
      Account.mem_strays_release_of_ne (by simp)]
    · exact hstrays j
    · rwa [Account.mem_release_of_ne (by simp)]

/-- After a probe with the range mapped, what is held is held once, and no region has been released. -/
theorem probe_nodup (h : ReachesIoremap a) (hi : a.ioremap = true) (hd : d.account = .empty) :
    (myDriverProbe d a).2.account.held.Nodup ∧ (myDriverProbe d a).2.account.strays = [] := by
  obtain ⟨-, e, he, haccount⟩ := myDriverProbe_mapped h hi hd
  rw [he]
  rcases setInterrupts_account (d := e) (a := a) with hset | hset | hset
  all_goals
    rw [hset, haccount]
    simp [mappedAccount, Account.empty, Account.acquire]

/-- The release answers to the reservation, whatever the table. -/
theorem probe_released (h : ReachesIoremap a) (hd : d.account = .empty) {i : Nat}
    (hregion : .region i ∈ (myDriverProbe d a).2.account.held) :
    .region i ∉ (releaseDevice (myDriverProbe d a).2).account.held ∧
      ∀ j, .region j ∉ (releaseDevice (myDriverProbe d a).2).account.strays := by
  obtain ⟨hi, rfl⟩ := (region_mem_probe h hd).mp hregion
  obtain ⟨hnodup, hstrays⟩ := probe_nodup h hi hd
  have hselect := (myDriverProbe_mapped h hi hd).1
  rw [← hselect] at hregion ⊢
  exact releaseDevice_region hnodup hregion (by simp [hstrays])

end Probe

theorem range_zero {resource : List Bar} {first : Bar} (h : resource[0]? = some first) :
    ((Device.new resource).resourceStart 0, (Device.new resource).resourceLen 0) = first.range := by
  simp only [Device.resourceStart, Device.resourceLen, Device.new, h]
  rfl

/-- For every table: whenever the probe reaches `ioremap` it maps only what it has reserved, exactly if
the mask of the memory BARs, taken as a number, names an entry with the range of entry 0, and a memory BAR
has that range. -/
theorem maps_reserved_iff (resource : List Bar) :
    (∀ a, ReachesIoremap a → MapsReserved (.new resource) a) ↔ MaskNamesFirst resource := by
  constructor
  · intro h
    let a : Answers := ⟨0, 0, true, true, 0, 0⟩
    have hreaches : ReachesIoremap a := ⟨rfl, rfl, rfl⟩
    obtain ⟨hmemory, hreserved, -⟩ := h a hreaches
    have hmapped := (mapping_mem_probe (d := .new resource) hreaches rfl).mpr ⟨rfl, rfl⟩
    obtain ⟨bar, hbar, hmem, hrange⟩ := hmemory _ _ hmapped
    obtain ⟨i, reserved, hi, hentry, hsame⟩ := hreserved _ _ hmapped
    obtain ⟨-, rfl⟩ := (region_mem_probe hreaches rfl).mp hi
    have hlt : 0 < resource.length := List.length_pos_of_mem hbar
    have hfirst := range_zero (List.getElem?_eq_getElem hlt)
    exact ⟨resource[0], reserved, List.getElem?_eq_getElem hlt, hentry, hsame.trans hfirst, bar, hbar, hmem,
      hrange.trans hfirst⟩
  · rintro ⟨first, reserved, hfirst, hentry, hsame, bar, hbar, hmem, hrange⟩ a hreaches
    have hzero := range_zero hfirst
    refine ⟨fun start len hm => ?_, fun start len hm => ?_, fun i hi => probe_released hreaches rfl hi⟩
    · obtain ⟨-, heq⟩ := (mapping_mem_probe hreaches rfl).mp hm
      exact ⟨bar, hbar, hmem, hrange.trans (hzero.symm.trans heq)⟩
    · obtain ⟨hmapped, heq⟩ := (mapping_mem_probe hreaches rfl).mp hm
      have hregion := (region_mem_probe (d := .new resource) hreaches rfl).mpr ⟨hmapped, rfl⟩
      exact ⟨_, reserved, hregion, hentry, hsame.trans (hzero.symm.trans heq)⟩

/-- A device whose only BAR is a memory BAR: the mask is 1, and there is no BAR 1. -/
theorem maps_unreserved :
    ¬∀ (resource : List Bar) (a : Answers), ReachesIoremap a → MapsReserved (.new resource) a := by
  intro h
  obtain ⟨-, hreserved, -⟩ := h [⟨ioresourceMem, 0xfe000000, 4096⟩] ⟨0, 0, true, true, 3, 0⟩ ⟨rfl, rfl, rfl⟩
  obtain ⟨i, bar, hregion, hentry, -⟩ := hreserved 0xfe000000 4096 (by decide)
  obtain ⟨-, rfl⟩ := (region_mem_probe ⟨rfl, rfl, rfl⟩ rfl).mp hregion
  have hnone : (Device.new [⟨ioresourceMem, 0xfe000000, 4096⟩]).resource[
      (Device.new [⟨ioresourceMem, 0xfe000000, 4096⟩]).selectBars ioresourceMem]? = none := by decide
  exact absurd (hnone.symm.trans hentry) (by simp)

end LinuxDrivers.TestPci
