import LinuxDrivers.Netlink.ArgvLoop
import LinuxDrivers.Netlink.RouteRequest

/-! A route configuration is read back from its clauses on the command line, whatever their order,
and from no command line that is cut off inside a clause. -/
namespace LinuxDrivers.Netlink

/-- A text `read_addr` accepts, other than the keyword `default`. -/
structure Address (inet : InetPton) where
  text : String
  accepted : (inet.parse (addrFamily text) text).isSome
  not_default : text ≠ "default"

inductive Clause (inet : InetPton) where
  | cmd (isAdd : Bool)
  | dst (addr : Address inet)
  | dev (name : String)
  | via (isDefault : Bool) (addr : Address inet)

variable {inet : InetPton}

def Clause.words : Clause inet → List String
  | .cmd isAdd => [if isAdd then "add" else "del"]
  | .dst addr => ["to", addr.text]
  | .dev name => ["dev", name]
  | .via isDefault addr => "via" :: if isDefault then ["default", addr.text] else [addr.text]

/-- A clause cut off behind a keyword of its own. -/
def Clause.stems : Clause inet → List (List String)
  | .cmd _ => []
  | .dst _ => [["to"]]
  | .dev _ => [["dev"]]
  | .via isDefault _ => ["via"] :: if isDefault then [["via", "default"]] else []

structure RouteConfig (inet : InetPton) where
  isAdd : Bool
  dst : Option (Address inet)
  dev : Option String
  /-- The gateway, and whether it is marked as the default one. -/
  gw : Option (Bool × Address inet)

def RouteConfig.clauses (cfg : RouteConfig inet) : List (Clause inet) :=
  .cmd cfg.isAdd :: (cfg.dst.map Clause.dst).toList ++ (cfg.dev.map Clause.dev).toList ++
    (cfg.gw.map fun gw => Clause.via gw.1 gw.2).toList

def RouteConfig.result (env : Environment) (cfg : RouteConfig env.inet) : Config where
  defaultGw := if cfg.gw.any (·.1) then 1 else 0
  ifIdx := cfg.dev.elim 0 env.ifNametoindex
  toAddr := cfg.dst.elim .zero fun addr => (readAddr env.inet addr.text .zero).2
  gwAddr := cfg.gw.elim .zero fun gw => (readAddr env.inet gw.2.text .zero).2
  nlCmd := BitVec.ofNat 32 (if cfg.isAdd then rtmNewroute else rtmDelroute)
  nlFlags := if cfg.isAdd then nlmFCreate ||| nlmFExcl else 0

def Clause.set (env : Environment) (c : Config) : Clause env.inet → Config
  | .cmd isAdd => { c with
      nlCmd := BitVec.ofNat 32 (if isAdd then rtmNewroute else rtmDelroute)
      nlFlags := if isAdd then nlmFCreate ||| nlmFExcl else 0 }
  | .dst addr => { c with toAddr := (readAddr env.inet addr.text c.toAddr).2 }
  | .dev name => { c with ifIdx := env.ifNametoindex name }
  | .via isDefault addr => { c with
      defaultGw := if isDefault then 1 else c.defaultGw
      gwAddr := (readAddr env.inet addr.text c.gwAddr).2 }

theorem Address.readAddr_eq (addr : Address inet) (old : InetAddr) : (readAddr inet addr.text old).1 = 1 := by
  obtain ⟨bytes, hbytes⟩ := Option.isSome_iff_exists.mp addr.accepted
  rw [readAddr]
  split
  · rfl
  · rename_i hnone
    exact absurd (hnone.symm.trans hbytes) (by simp)

section Parse

variable {env : Environment}

theorem parseArgs_other {word : String} (hword : word ∉ ["add", "del", "to", "dev", "via"]) (c : Config)
    (rest : List String) : parseArgs env c (word :: rest) = parseArgs env c rest := by
  simp only [List.mem_cons, List.not_mem_nil, or_false, not_or] at hword
  obtain ⟨hadd, hdel, hto, hdev, hvia⟩ := hword
  rw [parseArgs] <;> simp_all

/-- The words of a clause are taken together, and set what the clause sets. -/
theorem parseArgs_clause (clause : Clause env.inet) (c : Config) (rest : List String) :
    parseArgs env c (clause.words ++ rest) = parseArgs env (clause.set env c) rest := by
  cases clause with
  | cmd isAdd => cases isAdd <;> rfl
  | dst addr =>
    change parseArgs env c ("to" :: addr.text :: rest) = _
    rw [parseArgs]
    exact if_neg (not_not.mpr (addr.readAddr_eq c.toAddr))
  | dev name => rfl
  | via isDefault addr =>
    cases isDefault with
    | true =>
      change parseArgs env c ("via" :: "default" :: addr.text :: rest) = _
      rw [parseArgs]
      exact if_neg (not_not.mpr (addr.readAddr_eq c.gwAddr))
    | false =>
      change parseArgs env c ("via" :: addr.text :: rest) = _
      have hne := addr.not_default
      rw [parseArgs]
      · exact if_neg (not_not.mpr (addr.readAddr_eq c.gwAddr))
      · exact fun h => absurd h hne
      · exact fun _ _ h => absurd h hne

theorem parseArgs_clauses (clauses : List (Clause env.inet)) (c : Config) (rest : List String) :
    parseArgs env c (clauses.flatMap Clause.words ++ rest) =
      parseArgs env (clauses.foldl (Clause.set env) c) rest := by
  induction clauses generalizing c with
  | nil => rfl
  | cons clause clauses ih =>
    rw [List.flatMap_cons, List.append_assoc, parseArgs_clause, ih]
    rfl

theorem parseArgs_stem {clause : Clause env.inet} {stem : List String} (h : stem ∈ clause.stems) (c : Config) :
    parseArgs env c stem = none := by
  cases clause with
  | cmd isAdd => cases h
  | dst addr =>
    obtain rfl := List.mem_singleton.mp h
    rfl
  | dev name =>
    obtain rfl := List.mem_singleton.mp h
    rfl
  | via isDefault addr =>
    rcases List.mem_cons.mp h with rfl | h
    · rfl
    · cases isDefault with
      | false => cases h
      | true =>
        obtain rfl := List.mem_singleton.mp h
        rfl

end Parse

section Order

variable {env : Environment} {cfg : RouteConfig env.inet}

theorem mem_clauses {clause : Clause env.inet} (h : clause ∈ cfg.clauses) :
    match clause with
    | .cmd isAdd => cfg.isAdd = isAdd
    | .dst addr => cfg.dst = some addr
    | .dev name => cfg.dev = some name
    | .via isDefault addr => cfg.gw = some (isDefault, addr) := by
  cases clause <;> simpa [RouteConfig.clauses, eq_comm] using h

/-- Two clauses of one configuration are the same or set different variables. -/
theorem set_comm {x y : Clause env.inet} (hx : x ∈ cfg.clauses) (hy : y ∈ cfg.clauses) (c : Config) :
    Clause.set env (Clause.set env c x) y = Clause.set env (Clause.set env c y) x := by
  have hx := mem_clauses hx
  have hy := mem_clauses hy
  cases x with
  | cmd a =>
    cases y with
    | cmd b => rw [show a = b from hx.symm.trans hy]
    | _ => rfl
  | dst a =>
    cases y with
    | dst b => rw [Option.some.inj (hx.symm.trans hy)]
    | _ => rfl
  | dev a =>
    cases y with
    | dev b => rw [Option.some.inj (hx.symm.trans hy)]
    | _ => rfl
  | via d a =>
    cases y with
    | via e b =>
      obtain ⟨rfl, rfl⟩ := Prod.mk.inj (Option.some.inj (hx.symm.trans hy))
      rfl
    | _ => rfl

/-- In the order of the configuration the clauses set its variables. -/
theorem foldl_clauses (cfg : RouteConfig env.inet) (stack : Stack) :
    cfg.clauses.foldl (Clause.set env) (.start stack) = cfg.result env := by
  obtain ⟨isAdd, dst, dev, gw⟩ := cfg
  cases dst <;> cases dev <;> cases gw <;> rfl

theorem parseArgs_words {clauses : List (Clause env.inet)} (h : clauses.Perm cfg.clauses) {word : String}
    (hword : word ∉ ["add", "del", "to", "dev", "via"]) (stack : Stack) :
    parseArgs env (.start stack) (word :: clauses.flatMap Clause.words) = some (cfg.result env) := by
  have hwords := parseArgs_clauses clauses (.start stack) []
  rw [List.append_nil] at hwords
  rw [parseArgs_other hword, hwords, parseArgs]
  have hfold := h.foldl_eq' (f := Clause.set env)
    (fun x hx y hy c => set_comm (h.mem_iff.mp hx) (h.mem_iff.mp hy) c) (.start stack)
  rw [hfold, foldl_clauses]

theorem parseArgs_cut {before : List (Clause env.inet)} {clause : Clause env.inet} {stem : List String}
    (h : stem ∈ clause.stems) {word : String} (hword : word ∉ ["add", "del", "to", "dev", "via"]) (stack : Stack) :
    parseArgs env (.start stack) (word :: (before.flatMap Clause.words ++ stem)) = none := by
  rw [parseArgs_other hword, parseArgs_clauses, parseArgs_stem h]

end Order

/-- The loop of `main` leaves its variables exactly as the configuration says, for every order of its
clauses, and reads no argument behind the last one. Cut off behind a keyword of a clause, the command
line makes it exit, and nothing is sent. -/
theorem clauses_in_any_order {env : Environment} (cfg : RouteConfig env.inet) {clauses : List (Clause env.inet)}
    (hperm : clauses.Perm cfg.clauses) {word : String} (hword : word ∉ ["add", "del", "to", "dev", "via"])
    (stack : Stack) :
    runArgs env (word :: clauses.flatMap Clause.words) (.start stack) = .ok (cfg.result env) ∧
      ∀ before clause after stem, clauses = before ++ clause :: after → stem ∈ clause.stems →
        runArgs env (word :: (before.flatMap Clause.words ++ stem)) (.start stack) = .error .exit ∧
          main env (word :: (before.flatMap Clause.words ++ stem)) stack = .exit := by
  constructor
  · rw [runArgs_eq, parseArgs_words hperm hword]
    rfl
  · intro before clause after stem _ hstem
    have hcut : parseArgs env (.start stack) (word :: (before.flatMap Clause.words ++ stem)) = none :=
      parseArgs_cut hstem hword stack
    rw [runArgs_eq, main, hcut]
    exact ⟨rfl, rfl⟩

def interfaceTo : Environment := ⟨twoAddresses, fun name => if name = "to" then 7 else 0, 3⟩

def defaultRoute : RouteConfig interfaceTo.inet :=
  ⟨true, none, some "to", some (true, ⟨"10.0.0.1", by decide, by decide⟩)⟩

/-- `set_route dev to via default 10.0.0.1 add`, whole and cut off behind `default`. -/
theorem clauses_in_any_order_keyword :
    runArgs interfaceTo ["set_route", "dev", "to", "via", "default", "10.0.0.1", "add"] (.start ⟨0, 0, fun _ => 0⟩) =
        .ok (defaultRoute.result interfaceTo) ∧
      main interfaceTo ["set_route", "dev", "to", "via", "default"] ⟨0, 0, fun _ => 0⟩ = .exit := by
  let gateway : Clause interfaceTo.inet := .via true ⟨"10.0.0.1", by decide, by decide⟩
  have hperm : ([Clause.dev "to", gateway] ++ [Clause.cmd true]).Perm defaultRoute.clauses := List.perm_append_comm
  have hword : "set_route" ∉ ["add", "del", "to", "dev", "via"] := by decide
  obtain ⟨hwhole, hcut⟩ := clauses_in_any_order defaultRoute hperm hword ⟨0, 0, fun _ => 0⟩
  have hstem : ["via", "default"] ∈ gateway.stems := List.mem_cons_of_mem _ List.mem_cons_self
  exact ⟨hwhole, (hcut [.dev "to"] gateway [.cmd true] ["via", "default"] rfl hstem).2⟩

end LinuxDrivers.Netlink
