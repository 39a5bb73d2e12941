import LinuxDrivers.Netlink.CommandLine

/-! The loop of set_route's `main` with its two counters, against the recursion over the list of
arguments: whatever the command line, no argument behind the last one is read. -/
namespace LinuxDrivers.Netlink

inductive Stop where
  | exit
  /-- `*argv` was read behind the last argument. -/
  | wild
  | outOfFuel
  deriving DecidableEq, Repr

/-- `argc`, how far `argv` has moved, and the variables set so far. -/
structure Cursor where
  argc : Nat
  moved : Nat
  config : Config

def Cursor.word (argv : List String) (s : Cursor) : Except Stop String :=
  match argv[s.moved]? with
  | some word => .ok word
  | none => .error .wild

def Cursor.advance (s : Cursor) : Cursor := { s with argc := s.argc - 1, moved := s.moved + 1 }

def Cursor.nextCmdArg (s : Cursor) : Except Stop Cursor :=
  if s.advance.argc ≤ 0 then .error .exit else .ok s.advance

def Cursor.readDestination (env : Environment) (argv : List String) (s : Cursor) : Except Stop Cursor := do
  let addr ← s.word argv
  let (r, a) := readAddr env.inet addr s.config.toAddr
  if r ≠ 1 then throw .exit else pure { s with config := { s.config with toAddr := a } }

def Cursor.readGateway (env : Environment) (argv : List String) (s : Cursor) : Except Stop Cursor := do
  let addr ← s.word argv
  let (r, a) := readAddr env.inet addr s.config.gwAddr
  if r ≠ 1 then throw .exit else pure { s with config := { s.config with gwAddr := a } }

def Cursor.readDevice (env : Environment) (argv : List String) (s : Cursor) : Except Stop Cursor := do
  let name ← s.word argv
  pure { s with config := { s.config with ifIdx := env.ifNametoindex name } }

def Cursor.readVia (env : Environment) (argv : List String) (s : Cursor) : Except Stop Cursor := do
  let word ← s.word argv
  if word = "default" then
    let s ← { s with config := { s.config with defaultGw := 1 } }.nextCmdArg
    s.readGateway env argv
  else s.readGateway env argv

def Cursor.act (env : Environment) (argv : List String) (s : Cursor) (word : String) : Except Stop Cursor :=
  if word = "add" then
    .ok { s with config := { s.config with
      nlCmd := BitVec.ofNat 32 rtmNewroute
      nlFlags := nlmFCreate ||| nlmFExcl } }
  else if word = "del" then
    .ok { s with config := { s.config with nlCmd := BitVec.ofNat 32 rtmDelroute, nlFlags := 0 } }
  else if word = "to" then s.nextCmdArg.bind fun s => s.readDestination env argv
  else if word = "dev" then s.nextCmdArg.bind fun s => s.readDevice env argv
  else if word = "via" then s.nextCmdArg.bind fun s => s.readVia env argv
  else .ok s

def Cursor.pass (env : Environment) (argv : List String) (s : Cursor) : Except Stop Cursor := do
  let s ← s.act env argv (← s.word argv)
  pure s.advance

def argvLoop (env : Environment) (argv : List String) : Nat → Cursor → Except Stop Config
  | 0, s => if s.argc = 0 then .ok s.config else .error .outOfFuel
  | fuel+1, s => if s.argc = 0 then .ok s.config else (s.pass env argv).bind (argvLoop env argv fuel)

def runArgs (env : Environment) (argv : List String) (c : Config) : Except Stop Config :=
  argvLoop env argv argv.length ⟨argv.length, 0, c⟩

def exitOr : Option Config → Except Stop Config
  | some c => .ok c
  | none => .error .exit

structure Cursor.At (argv rest : List String) (s : Cursor) : Prop where
  left : argv.drop s.moved = rest
  argc : s.argc = rest.length

section At

variable {env : Environment} {argv rest : List String} {first second : String} {s : Cursor}

theorem Cursor.At.word (h : s.At argv (first :: rest)) : s.word argv = .ok first := by
  rw [Cursor.word, ← List.head?_drop, h.left, List.head?_cons]

theorem Cursor.At.advance (h : s.At argv (first :: rest)) : s.advance.At argv rest where
  left := by rw [Cursor.advance, ← List.tail_drop, h.left, List.tail_cons]
  argc := by rw [Cursor.advance, h.argc, List.length_cons, Nat.add_sub_cancel]

theorem Cursor.At.next (h : s.At argv (first :: second :: rest)) : s.nextCmdArg = .ok s.advance :=
  if_neg (by rw [h.advance.argc, List.length_cons]; omega)

theorem Cursor.At.next_last (h : s.At argv [first]) : s.nextCmdArg = .error .exit :=
  if_pos (Nat.le_of_eq h.advance.argc)

/-- The counters do not depend on the variables. -/
theorem Cursor.At.withConfig (h : s.At argv rest) (c : Config) : Cursor.At argv rest { s with config := c } :=
  ⟨h.left, h.argc⟩

theorem Cursor.readDestination_eq (h : s.At argv (first :: rest)) : s.readDestination env argv =
    if (readAddr env.inet first s.config.toAddr).1 ≠ 1 then .error .exit
    else .ok { s with config := { s.config with toAddr := (readAddr env.inet first s.config.toAddr).2 } } := by
  rw [Cursor.readDestination, h.word]
  rfl

theorem Cursor.readGateway_eq (h : s.At argv (first :: rest)) : s.readGateway env argv =
    if (readAddr env.inet first s.config.gwAddr).1 ≠ 1 then .error .exit
    else .ok { s with config := { s.config with gwAddr := (readAddr env.inet first s.config.gwAddr).2 } } := by
  rw [Cursor.readGateway, h.word]
  rfl

theorem Cursor.readDevice_eq (h : s.At argv (first :: rest)) : s.readDevice env argv =
    .ok { s with config := { s.config with ifIdx := env.ifNametoindex first } } := by
  rw [Cursor.readDevice, h.word]
  rfl

theorem Cursor.readVia_default (h : s.At argv ("default" :: rest)) : s.readVia env argv =
    (Cursor.nextCmdArg { s with config := { s.config with defaultGw := 1 } }).bind
      fun s => s.readGateway env argv := by
  rw [Cursor.readVia, h.word]
  rfl

theorem Cursor.readVia_address (h : s.At argv (first :: rest)) (hne : first ≠ "default") :
    s.readVia env argv = s.readGateway env argv := by
  rw [Cursor.readVia, h.word]
  exact if_neg hne

theorem argvLoop_end (h : s.At argv []) (fuel : Nat) : argvLoop env argv fuel s = .ok s.config := by
  cases fuel <;> exact if_pos h.argc

variable (env) in
theorem argvLoop_pass (h : s.At argv (first :: rest)) {fuel : Nat} (hfuel : (first :: rest).length ≤ fuel) :
    ∃ k, rest.length ≤ k ∧ argvLoop env argv fuel s =
      (s.act env argv first).bind fun s => argvLoop env argv k s.advance := by
  obtain ⟨k, rfl⟩ := Nat.exists_eq_add_of_le' (Nat.one_le_of_lt hfuel)
  have hargc : ¬s.argc = 0 := by
    rw [h.argc]
    exact Nat.succ_ne_zero _
  refine ⟨k, Nat.le_of_succ_le_succ hfuel, ?_⟩
  rw [argvLoop, if_neg hargc, Cursor.pass, h.word]
  change ((s.act env argv first).bind fun s => .ok s.advance).bind (argvLoop env argv k) = _
  cases s.act env argv first <;> rfl

theorem argvLoop_exit (h : s.At argv (first :: rest)) {fuel : Nat} (hfuel : (first :: rest).length ≤ fuel)
    (hact : s.act env argv first = .error .exit) : argvLoop env argv fuel s = .error .exit := by
  obtain ⟨k, _, hpass⟩ := argvLoop_pass env h hfuel
  rw [hpass, hact]
  rfl

/-- After a pass that does not exit the loop ends as it does from the next argument on. -/
theorem argvLoop_next {t : Cursor} {out : Except Stop Config} (h : s.At argv (first :: rest)) {fuel : Nat}
    (hfuel : (first :: rest).length ≤ fuel) (hact : s.act env argv first = .ok t)
    (hrest : ∀ k, rest.length ≤ k → argvLoop env argv k t.advance = out) : argvLoop env argv fuel s = out := by
  obtain ⟨k, hk, hpass⟩ := argvLoop_pass env h hfuel
  rw [hpass, hact]
  exact hrest k hk

/-- A keyword that wants an argument stands last. -/
theorem Cursor.act_last (h : s.At argv [first]) (hfirst : first = "to" ∨ first = "dev" ∨ first = "via") :
    s.act env argv first = .error .exit := by
  rcases hfirst with rfl | rfl | rfl
  all_goals
    change s.nextCmdArg.bind _ = _
    rw [h.next_last]
    rfl

variable (env) in
theorem Cursor.act_to (h : s.At argv ("to" :: first :: rest)) : s.act env argv "to" =
    if (readAddr env.inet first s.config.toAddr).1 ≠ 1 then .error .exit
    else .ok { s.advance with config := { s.config with toAddr := (readAddr env.inet first s.config.toAddr).2 } } := by
  change (s.nextCmdArg.bind fun s => s.readDestination env argv) = _
  rw [h.next]
  exact Cursor.readDestination_eq h.advance

theorem Cursor.act_dev (h : s.At argv ("dev" :: first :: rest)) : s.act env argv "dev" =
    .ok { s.advance with config := { s.config with ifIdx := env.ifNametoindex first } } := by
  change (s.nextCmdArg.bind fun s => s.readDevice env argv) = _
  rw [h.next]
  exact Cursor.readDevice_eq h.advance

variable (env) in
theorem Cursor.act_via (h : s.At argv ("via" :: first :: rest)) (hne : first ≠ "default") :
    s.act env argv "via" =
      if (readAddr env.inet first s.config.gwAddr).1 ≠ 1 then .error .exit
      else .ok { s.advance with
        config := { s.config with gwAddr := (readAddr env.inet first s.config.gwAddr).2 } } := by
  change (s.nextCmdArg.bind fun s => s.readVia env argv) = _
  rw [h.next]
  exact (Cursor.readVia_address h.advance hne).trans (Cursor.readGateway_eq h.advance)

theorem Cursor.act_via_default_last (h : s.At argv ["via", "default"]) :
    s.act env argv "via" = .error .exit := by
  change (s.nextCmdArg.bind fun s => s.readVia env argv) = _
  rw [h.next]
  change s.advance.readVia env argv = _
  rw [Cursor.readVia_default h.advance, (h.advance.withConfig _).next_last]
  rfl

variable (env) in
theorem Cursor.act_via_default (h : s.At argv ("via" :: "default" :: first :: rest)) :
    s.act env argv "via" =
      if (readAddr env.inet first s.config.gwAddr).1 ≠ 1 then .error .exit
      else .ok { s.advance.advance with config := { s.config with
        defaultGw := 1
        gwAddr := (readAddr env.inet first s.config.gwAddr).2 } } := by
  change (s.nextCmdArg.bind fun s => s.readVia env argv) = _
  rw [h.next]
  change s.advance.readVia env argv = _
  have hconfig := h.advance.withConfig { s.config with defaultGw := 1 }
  rw [Cursor.readVia_default h.advance]
  exact (congrArg (Except.bind · _) hconfig.next).trans (Cursor.readGateway_eq hconfig.advance)

theorem Cursor.act_other (hword : first ∉ ["add", "del", "to", "dev", "via"]) : s.act env argv first = .ok s := by
  simp only [List.mem_cons, List.not_mem_nil, or_false, not_or] at hword
  simp [Cursor.act, hword]

end At

/-- The arguments of a keyword differ from what an earlier pattern takes. -/
theorem forall_tail_false {p : Prop} {rest : List String} (hnil : p → rest = [] → False)
    (hcons : ∀ (first : String) (more : List String), p → rest = first :: more → False) : ¬p := by
  intro hp
  cases rest with
  | nil => exact hnil hp rfl
  | cons first more => exact hcons first more hp rfl

/-- The loop does what the recursion over the arguments left says. -/
theorem argvLoop_eq (env : Environment) (argv : List String) (c : Config) (rest : List String) :
    ∀ s fuel, Cursor.At argv rest s → s.config = c → rest.length ≤ fuel →
      argvLoop env argv fuel s = exitOr (parseArgs env c rest) := by
  fun_induction parseArgs env c rest with
  | case1 c =>
    rintro s fuel hat rfl _
    exact argvLoop_end hat fuel
  | case2 c rest ih | case3 c rest ih =>
    rintro s fuel hat rfl hfuel
    exact argvLoop_next hat hfuel rfl fun k hk => ih _ k (hat.advance.withConfig _) rfl hk
  | case4 c | case7 c | case9 c =>
    rintro s fuel hat rfl hfuel
    exact argvLoop_exit hat hfuel (Cursor.act_last hat (by simp))
  | case5 c addr rest r a hread hr =>
    rintro s fuel hat rfl hfuel
    have hact := Cursor.act_to env hat
    rw [hread, if_pos hr] at hact
    exact argvLoop_exit hat hfuel hact
  | case6 c addr rest r a hread hr ih =>
    rintro s fuel hat rfl hfuel
    have hact := Cursor.act_to env hat
    rw [hread, if_neg hr] at hact
    refine argvLoop_next hat hfuel hact fun k hk => ?_
    exact ih _ k (hat.advance.advance.withConfig _) rfl (Nat.le_of_succ_le hk)
  | case8 c name rest ih =>
    rintro s fuel hat rfl hfuel
    refine argvLoop_next hat hfuel (Cursor.act_dev hat) fun k hk => ?_
    exact ih _ k (hat.advance.advance.withConfig _) rfl (Nat.le_of_succ_le hk)
  | case10 c =>
    rintro s fuel hat rfl hfuel
    exact argvLoop_exit hat hfuel (Cursor.act_via_default_last hat)
  | case11 c addr rest r a hread hr =>
    rintro s fuel hat rfl hfuel
    have hact := Cursor.act_via_default env hat
    rw [hread, if_pos hr] at hact
    exact argvLoop_exit hat hfuel hact
  | case12 c addr rest r a hread hr ih =>
    rintro s fuel hat rfl hfuel
    have hact := Cursor.act_via_default env hat
    rw [hread, if_neg hr] at hact
    refine argvLoop_next hat hfuel hact fun k hk => ?_
    exact ih _ k (hat.advance.advance.advance.withConfig _) rfl (Nat.le_of_succ_le (Nat.le_of_succ_le hk))
  | case13 c addr rest hend hmore r a hread hr =>
    rintro s fuel hat rfl hfuel
    have hact := Cursor.act_via env hat (forall_tail_false hend hmore)
    rw [hread, if_pos hr] at hact
    exact argvLoop_exit hat hfuel hact
  | case14 c addr rest hend hmore r a hread hr ih =>
    rintro s fuel hat rfl hfuel
    have hact := Cursor.act_via env hat (forall_tail_false hend hmore)
    rw [hread, if_neg hr] at hact
    refine argvLoop_next hat hfuel hact fun k hk => ?_
    exact ih _ k (hat.advance.advance.withConfig _) rfl (Nat.le_of_succ_le hk)
  | case15 c word rest hadd hdel hto hto' hdev hdev' hvia _ _ hvia' ih =>
    rintro s fuel hat rfl hfuel
    have hword : word ∉ ["add", "del", "to", "dev", "via"] := by
      simp only [List.mem_cons, List.not_mem_nil, or_false, not_or]
      exact ⟨hadd, hdel, forall_tail_false hto hto', forall_tail_false hdev hdev', forall_tail_false hvia hvia'⟩
    exact argvLoop_next hat hfuel (Cursor.act_other hword) fun k hk => ih _ k hat.advance rfl hk

/-- Whatever the command line, the loop of `main` ends as the recursion over its arguments does, and
no argument behind the last one is read. -/
theorem runArgs_eq (env : Environment) (argv : List String) (c : Config) :
    runArgs env argv c = exitOr (parseArgs env c argv) :=
  argvLoop_eq env argv c argv _ _ ⟨rfl, rfl⟩ rfl (Nat.le_refl _)

end LinuxDrivers.Netlink
