import LinuxDrivers.Netlink.SetRoute

/-! `main` of set_route: the loop over the command line, and the request sent at its end. -/
namespace LinuxDrivers.Netlink
open ByteMemory

abbrev nlmFExcl : BitVec 32 := 0x200
abbrev nlmFCreate : BitVec 32 := 0x400

/-- What set_route asks of the C library and the kernel; `nlSock` is what `open_netlink` returns. -/
structure Environment where
  inet : InetPton
  ifNametoindex : String → BitVec 32
  nlSock : Int

structure Stack where
  nlCmd : BitVec 32
  nlFlags : BitVec 32
  nlRequest : Memory UInt8

structure Config where
  defaultGw : BitVec 32
  ifIdx : BitVec 32
  toAddr : InetAddr
  gwAddr : InetAddr
  nlCmd : BitVec 32
  nlFlags : BitVec 32

def Config.start (stack : Stack) : Config := ⟨0, 0, .zero, .zero, stack.nlCmd, stack.nlFlags⟩

/-- The loop over the arguments, from the name of the program on; there is no result when it
exits. `NEXT_CMD_ARG` exits behind the last argument. -/
def parseArgs (env : Environment) (c : Config) : List String → Option Config
  | [] => some c
  | "add" :: argv =>
    parseArgs env { c with nlCmd := BitVec.ofNat 32 rtmNewroute, nlFlags := nlmFCreate ||| nlmFExcl } argv
  | "del" :: argv => parseArgs env { c with nlCmd := BitVec.ofNat 32 rtmDelroute, nlFlags := 0 } argv
  | ["to"] => none
  | "to" :: addr :: argv =>
    let (r, a) := readAddr env.inet addr c.toAddr
    if r ≠ 1 then none else parseArgs env { c with toAddr := a } argv
  | ["dev"] => none
  | "dev" :: name :: argv => parseArgs env { c with ifIdx := env.ifNametoindex name } argv
  | ["via"] => none
  | ["via", "default"] => none
  | "via" :: "default" :: addr :: argv =>
    let (r, a) := readAddr env.inet addr c.gwAddr
    if r ≠ 1 then none else parseArgs env { c with defaultGw := 1, gwAddr := a } argv
  | "via" :: addr :: argv =>
    let (r, a) := readAddr env.inet addr c.gwAddr
    if r ≠ 1 then none else parseArgs env { c with gwAddr := a } argv
  | _ :: argv => parseArgs env c argv

/-- How a run of set_route ends: before `do_route`, with the bytes handed to `send`, or with a
store outside of `nl_request`. -/
inductive Outcome where
  | exit
  | sent (bytes : List UInt8)
  | overrun
  deriving DecidableEq

def main (env : Environment) (argv : List String) (stack : Stack) : Outcome :=
  match parseArgs env (.start stack) argv with
  | none => .exit
  | some c =>
    if env.nlSock < 0 then .exit
    else match doRoute stack.nlRequest c.nlCmd c.nlFlags c.toAddr c.gwAddr c.defaultGw c.ifIdx with
      | some req => .sent (read req 0 sizeofRequest)
      | none => .overrun

end LinuxDrivers.Netlink
