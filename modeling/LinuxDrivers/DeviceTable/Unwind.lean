import LinuxDrivers.DeviceTable.MycharInit

/-! What `mychar_init` leaves in place, for every table and every step at which it may fail. -/
namespace LinuxDrivers.DeviceTable
open Ledger

/-- Either an error is returned and nothing is left in place (but for the mutex), or 0 is returned and
exactly the named entries of the table have their devices. -/
def Complete (drv : Driver) (table : DevnameList) (result : Int × Account Resource) : Prop :=
  (result.1 < 0 ∧ ∀ r ∈ result.2.held, r = .miscMtx) ∨
    (result.1 = 0 ∧
      ∀ minor name, .device drv.major minor name ∈ result.2.held ↔ table[minor]? = some (some name))

/-- The mutex is free at the end, and nothing was released that was not held. -/
def LockBalanced (result : Int × Account Resource) : Prop :=
  result.2.strays = [] ∧ .miscMtx ∉ result.2.held

def FailsBefore (ans : Answers) : Prop := ans.registerChrdev < 0 ∨ ans.classCreate.isSome

def FailsAtFirst (table : DevnameList) (ans : Answers) : Prop :=
  ∃ p ∈ (named table).head?, (ans.deviceCreate p.1).isSome

def AllSucceed (table : DevnameList) (ans : Answers) : Prop :=
  ∀ p ∈ named table, ans.deviceCreate p.1 = none

/-- The entry that the loop does not look at has no name. -/
def FirstUnnamed (table : DevnameList) : Prop := ∀ name, table[0]? ≠ some (some name)

def registered (drv : Driver) : Account Resource :=
  (Account.empty.acquire (.chrdev drv.major drv.devName)).acquire (.deviceClass drv.className)

section Init

variable {drv : Driver} {table : DevnameList} {ans : Answers}

/-- A failure in front of the loop is undone. -/
theorem mycharInit_before (drv : Driver) (table : DevnameList) (h : FailsBefore ans) :
    (mycharInit drv table ans).1 < 0 ∧ (mycharInit drv table ans).2 = .empty := by
  unfold mycharInit
  by_cases hchrdev : ans.registerChrdev < 0
  · rw [if_pos hchrdev]
    exact ⟨hchrdev, rfl⟩
  · rw [if_neg hchrdev]
    obtain ⟨err, herr⟩ := Option.isSome_iff_exists.mp (h.resolve_left hchrdev)
    simp only [herr, Account.release_acquire, and_true]
    exact err.2.2

theorem mycharInit_loop (h : ¬FailsBefore ans) :
    mycharInit drv table ans =
      let result := createDevices drv ans 1 (table.drop 1) (drv.lock (registered drv))
      (result.1.elim 0 Subtype.val, result.2) := by
  obtain ⟨hchrdev, hclass⟩ := not_or.mp h
  have hnone : ans.classCreate = none := Option.not_isSome_iff_eq_none.mp hclass
  unfold mycharInit
  rw [if_neg hchrdev]
  simp only [hnone]
  rw [← registered]
  obtain ⟨_ | err, a⟩ := createDevices drv ans 1 (table.drop 1) (drv.lock (registered drv))
  · rfl
  · rfl

theorem device_notMem_start {k : Nat} {name : String} :
    .device drv.major k name ∉ (drv.lock (registered drv)).held := by
  rw [device_mem_lock]
  simp [registered, Account.empty]

theorem undo_first :
    ((drv.unlock (drv.lock (registered drv))).release (.deviceClass drv.className)).release
      (.chrdev drv.major drv.devName) = .empty := by
  have hlock : drv.unlock (drv.lock (registered drv)) = registered drv := by
    unfold Driver.unlock Driver.lock
    split
    · exact Account.release_acquire _ _
    · rfl
  rw [hlock, registered, Account.release_acquire, Account.release_acquire]

theorem createDevices_first_fails (drv : Driver) (h : FailsAtFirst table ans) :
    ∃ err, createDevices drv ans 1 (table.drop 1) (drv.lock (registered drv)) = (some err, .empty) := by
  obtain ⟨p, hp, hfails⟩ := h
  obtain ⟨err, herr⟩ := Option.isSome_iff_exists.mp hfails
  obtain ⟨ps, hps⟩ := List.head?_eq_some_iff.mp hp
  obtain ⟨rest, -, hloop⟩ := createDevices_cons drv ans (drv.lock (registered drv)) hps
  refine ⟨err, hloop.trans ?_⟩
  simp only [herr, undo_first]

/-- What holds of every failure that is undone is left to the loop, once its first device is created. -/
theorem mycharInit_iff {good : Int × Account Resource → Prop} {rest : Prop}
    (hundone : ∀ err < 0, good (err, .empty))
    (hloop : ¬FailsAtFirst table ans →
      let result := createDevices drv ans 1 (table.drop 1) (drv.lock (registered drv))
      (good (result.1.elim 0 Subtype.val, result.2) ↔ rest)) :
    good (mycharInit drv table ans) ↔ FailsBefore ans ∨ FailsAtFirst table ans ∨ rest := by
  by_cases hbefore : FailsBefore ans
  · obtain ⟨hneg, hempty⟩ := mycharInit_before drv table hbefore
    refine iff_of_true ?_ (.inl hbefore)
    rw [← Prod.eta (mycharInit drv table ans), hempty]
    exact hundone _ hneg
  · rw [mycharInit_loop hbefore, or_iff_right hbefore]
    by_cases hfirst : FailsAtFirst table ans
    · obtain ⟨err, herr⟩ := createDevices_first_fails drv hfirst
      refine iff_of_true ?_ (.inl hfirst)
      rw [herr]
      exact hundone err err.2.2
    · rw [or_iff_right hfirst]
      exact hloop hfirst

theorem created_of_not_failsAtFirst (h : ¬FailsAtFirst table ans) {p : Nat × String} {ps : List (Nat × String)}
    (hnamed : named table = p :: ps) : ans.deviceCreate p.1 = none := by
  by_contra hsome
  exact h ⟨p, by simp [hnamed], Option.isSome_iff_ne_none.mpr hsome⟩

/-- With no device refused, the table is served except for its entry 0. -/
theorem complete_of_allSucceed_iff (h : AllSucceed table ans) :
    let result := createDevices drv ans 1 (table.drop 1) (drv.lock (registered drv))
    Complete drv table (result.1.elim 0 Subtype.val, result.2) ↔ FirstUnnamed table := by
  intro result
  have hzero : result.1 = none := createDevices_fst_eq_none_iff.mpr h
  have hdevices : ∀ k name, .device drv.major k name ∈ result.2.held ↔ 1 ≤ k ∧ table[k]? = some (some name) := by
    intro k name
    rw [device_mem_createDevices_iff h, or_iff_right device_notMem_start]
    exact mem_named
  rw [hzero]
  constructor
  · rintro (⟨hneg, -⟩ | ⟨-, hexact⟩) name hname
    · exact absurd hneg (Int.lt_irrefl 0)
    · have hpos := ((hdevices 0 name).mp ((hexact 0 name).mpr hname)).1
      exact absurd hpos (by decide)
  · intro hfirst
    refine .inr ⟨rfl, fun k name => ?_⟩
    rw [hdevices]
    refine and_iff_right_of_imp fun hname => ?_
    rcases Nat.eq_zero_or_pos k with rfl | hk
    · exact absurd hname (hfirst name)
    · exact hk

/-- After a device has been created, a refusal leaves it in place. -/
theorem not_complete_of_later (hfirst : ¬FailsAtFirst table ans) (hall : ¬AllSucceed table ans) :
    let result := createDevices drv ans 1 (table.drop 1) (drv.lock (registered drv))
    ¬Complete drv table (result.1.elim 0 Subtype.val, result.2) := by
  intro result
  have herror : result.1 ≠ none := fun h => hall (createDevices_fst_eq_none_iff.mp h)
  obtain ⟨err, herr⟩ := Option.ne_none_iff_exists'.mp herror
  have hneg : err.val < 0 := err.2.2
  rw [herr]
  rintro (⟨-, hempty⟩ | ⟨hzero, -⟩)
  · cases hnamed : named table with
    | nil => exact hall (fun p hp => by simp [hnamed] at hp)
    | cons p ps =>
      have hcreated := created_of_not_failsAtFirst hfirst hnamed
      obtain ⟨rest, -, hloop⟩ := createDevices_cons drv ans (drv.lock (registered drv)) hnamed
      rw [hcreated] at hloop
      have hmem : .device drv.major p.1 p.2 ∈ result.2.held := by
        rw [show result = _ from hloop]
        exact device_mem_createDevices (device_mem_unlock.mpr List.mem_cons_self)
      exact absurd (hempty _ hmem) (by simp)
  · exact absurd hzero (Int.ne_of_lt hneg)

theorem complete_iff :
    Complete drv table (mycharInit drv table ans) ↔
      FailsBefore ans ∨ FailsAtFirst table ans ∨ (AllSucceed table ans ∧ FirstUnnamed table) := by
  apply mycharInit_iff
  · exact fun err hneg => .inl ⟨hneg, fun r hr => absurd hr List.not_mem_nil⟩
  · intro hfirst
    by_cases hall : AllSucceed table ans
    · rw [and_iff_right hall]
      exact complete_of_allSucceed_iff hall
    · exact iff_of_false (not_complete_of_later hfirst hall) (fun h => hall h.1)

/-- A loop that starts with the mutex free unlocks it with its first device. -/
theorem strays_of_free (hguarded : drv.guarded = true) {minor : Nat} {entries : DevnameList}
    {a : Account Resource} (hfree : .miscMtx ∉ a.held) (hnamed : namedFrom minor entries ≠ []) :
    (createDevices drv ans minor entries a).2.strays ≠ [] := by
  obtain ⟨p, ps, hps⟩ := List.exists_cons_of_ne_nil hnamed
  obtain ⟨rest, -, hloop⟩ := createDevices_cons drv ans a hps
  have hunlock : ∀ b : Account Resource, drv.unlock b = b.release .miscMtx := fun b => if_pos hguarded
  rw [hloop]
  cases ans.deviceCreate p.1 with
  | none =>
    dsimp only
    rw [hunlock]
    exact createDevices_strays (Account.strays_of_release_notMem (by simp [hfree]))
  | some err =>
    dsimp only
    rw [hunlock]
    exact Account.strays_ne_nil_of_release
      (Account.strays_ne_nil_of_release (Account.strays_of_release_notMem hfree))

/-- The mutex locked in front of the loop is free again after the first device. -/
theorem unlock_first (hguarded : drv.guarded = true) (r : Resource) (hr : r ≠ .miscMtx) :
    drv.unlock ((drv.lock (registered drv)).acquire r) = (registered drv).acquire r := by
  simp only [Driver.unlock, Driver.lock, if_pos hguarded]
  rw [Account.release_acquire_of_ne hr, Account.release_acquire]

theorem lockBalanced_iff (hguarded : drv.guarded = true) :
    LockBalanced (mycharInit drv table ans) ↔
      FailsBefore ans ∨ FailsAtFirst table ans ∨ (named table).length = 1 := by
  apply mycharInit_iff
  · exact fun err _ => ⟨rfl, List.not_mem_nil⟩
  · intro hfirst
    cases hnamed : named table with
    | nil =>
      have hloop := createDevices_nil drv ans (drv.lock (registered drv)) hnamed
      rw [hloop]
      refine iff_of_false (fun h => h.2 ?_) (by simp)
      simp [Driver.lock, hguarded]
    | cons p ps =>
      have hcreated := created_of_not_failsAtFirst hfirst hnamed
      obtain ⟨rest, hrest, hloop⟩ := createDevices_cons drv ans (drv.lock (registered drv)) hnamed
      rw [hcreated] at hloop
      dsimp only at hloop
      rw [unlock_first hguarded _ (by simp)] at hloop
      rw [hloop]
      cases ps with
      | nil =>
        rw [createDevices_nil _ _ _ hrest]
        refine iff_of_true ?_ rfl
        simp [LockBalanced, registered, Account.empty, Account.acquire]
      | cons q ps =>
        refine iff_of_false (fun h => ?_) (by simp)
        refine strays_of_free hguarded ?_ (by simp [hrest]) h.1
        simp [registered, Account.empty]

end Init

/-- For every table and every step that fails, or none: `mychar_init` unwinds, and the mutex of dram.c
is balanced, exactly if the registration, the class or the first device is refused, or nothing is and
entry 0 has no name; the mutex asks in that case for exactly one named entry behind entry 0. -/
theorem mychar_init_unwinds_iff (table : DevnameList) (ans : Answers) :
    (Complete Dram.driver table (Dram.mycharInit table ans) ∧ LockBalanced (Dram.mycharInit table ans) ↔
      FailsBefore ans ∨ FailsAtFirst table ans ∨
        (AllSucceed table ans ∧ FirstUnnamed table ∧ (named table).length = 1)) ∧
    (Complete Ioctl.driver table (Ioctl.mycharInit table ans) ↔
      FailsBefore ans ∨ FailsAtFirst table ans ∨ (AllSucceed table ans ∧ FirstUnnamed table)) := by
  have hdram : Complete Dram.driver table (Dram.mycharInit table ans) ↔ _ := complete_iff
  have hlock : LockBalanced (Dram.mycharInit table ans) ↔ _ := lockBalanced_iff rfl
  refine ⟨?_, complete_iff⟩
  rw [hdram, hlock, ← or_and_left, ← or_and_left, and_assoc]

/-- With the tables of the two files and the second device refused, the first device stays; with none
refused, the mutex of dram.c is unlocked twice. -/
theorem later_device_not_undone :
    (¬∀ ans, Complete Dram.driver Dram.devnameList (Dram.mycharInit Dram.devnameList ans)) ∧
      (¬∀ ans, LockBalanced (Dram.mycharInit Dram.devnameList ans)) ∧
      ¬∀ ans, Complete Ioctl.driver Ioctl.devnameList (Ioctl.mycharInit Ioctl.devnameList ans) := by
  let ans : Answers := ⟨0, none, fun minor => if minor = 4 then some ⟨-12, by decide⟩ else none⟩
  refine ⟨?_, ?_, ?_⟩
  · intro h
    rcases h ans with ⟨-, hempty⟩ | ⟨hzero, -⟩
    · exact absurd (hempty (.device 123 1 "dram") (by decide)) (by decide)
    · exact absurd hzero (by decide)
  · intro h
    exact absurd (h ⟨0, none, fun _ => none⟩).1 (by decide)
  · intro h
    rcases h ans with ⟨-, hempty⟩ | ⟨hzero, -⟩
    · exact absurd (hempty (.device 123 1 "ioctl") (by decide)) (by decide)
    · exact absurd hzero (by decide)

end LinuxDrivers.DeviceTable
