import LinuxDrivers.Lib.Ledger
import Mathlib.Logic.Function.Basic

/-! The PCI driver of `test_pci_module.c`: what each of its functions acquires and releases. -/
namespace LinuxDrivers.TestPci
open Ledger

inductive Resource where
  | enable
  /-- A region, by the number given to `pci_request_region`. -/
  | region (bar : Nat)
  | allocation
  | mapping (start len : BitVec 64)
  | vectors
  | irq (number : Nat)
  deriving DecidableEq, Repr

structure Bar where
  flags : BitVec 64
  start : BitVec 64
  len : BitVec 64
  deriving DecidableEq, Repr

/-- `struct my_driver_priv`: the mapped range, if `hwmem` is not null. -/
structure Priv where
  hwmem : Option (BitVec 64 × BitVec 64)
  deriving DecidableEq, Repr

structure Device where
  /-- `pdev->resource`. -/
  resource : List Bar
  /-- What `pci_get_drvdata` returns. -/
  drvdata : Option Priv
  account : Account Resource
  /-- The words stored by `iowrite32`, each at the start of the mapped range. -/
  written : List (BitVec 64 × BitVec 32)
  /-- The last probe succeeded, and the driver was not removed since. -/
  bound : Bool
  deriving DecidableEq, Repr

def Device.new (resource : List Bar) : Device := ⟨resource, none, .empty, [], false⟩

structure Answers where
  enable : Int
  region : Int
  /-- The allocation succeeds. -/
  kzalloc : Bool
  /-- The range is mapped. -/
  ioremap : Bool
  vectors : Int
  irq : Int
  deriving DecidableEq, Repr

def ioresourceMem : BitVec 64 := 0x200

def enomem : Int := 12
def eio : Int := 5

def maskOfBars (flags : BitVec 64) : List Bar → Nat
  | [] => 0
  | bar :: bars => (if bar.flags &&& flags = 0 then 0 else 1) + 2 * maskOfBars flags bars

/-- `pci_select_bars`: bit `i` is set for each entry `i` with one of the flags. -/
def Device.selectBars (d : Device) (flags : BitVec 64) : Nat := maskOfBars flags d.resource

def Device.resourceStart (d : Device) (i : Nat) : BitVec 64 := (d.resource[i]?.map Bar.start).getD 0

def Device.resourceLen (d : Device) (i : Nat) : BitVec 64 := (d.resource[i]?.map Bar.len).getD 0

def Device.acquire (d : Device) (r : Resource) : Device := { d with account := d.account.acquire r }

def Device.release (d : Device) (r : Resource) : Device := { d with account := d.account.release r }

def releaseDevice (d : Device) : Device :=
  ((d.release (.irq 42)).release (.region (d.selectBars ioresourceMem))).release .enable

/-- The first negative result is returned; the vectors are not given back when the interrupt is
refused. -/
def setInterrupts (d : Device) (a : Answers) : Int × Device :=
  if a.vectors < 0 then (a.vectors, d)
  else if a.irq ≠ 0 then (a.irq, d.acquire .vectors)
  else (0, (d.acquire .vectors).acquire (.irq 42))

def writeSampleData (d : Device) : Device :=
  match d.drvdata with
  | none => d
  | some drvPriv => { d with
      written := d.written ++ (drvPriv.hwmem.map fun range => (range.1, 0xDEADBEEF)).toList }

def myDriverProbe (d : Device) (a : Answers) : Int × Device :=
  if a.enable ≠ 0 then (a.enable, d)
  else if a.region ≠ 0 then (a.region, (d.acquire .enable).release .enable)
  else
    let reserved := (d.acquire .enable).acquire (.region (d.selectBars ioresourceMem))
    if a.kzalloc = false then (-enomem, releaseDevice reserved)
    else if a.ioremap = false then (-eio, releaseDevice (reserved.acquire .allocation))
    else
      let range := (d.resourceStart 0, d.resourceLen 0)
      let mapped := (reserved.acquire .allocation).acquire (.mapping range.1 range.2)
      setInterrupts (writeSampleData { mapped with drvdata := some ⟨some range⟩ }) a

def myDriverRemove (d : Device) : Device :=
  match d.drvdata with
  | none => releaseDevice d
  | some drvPriv =>
      let unmapped := match drvPriv.hwmem with
        | none => d
        | some range => d.release (.mapping range.1 range.2)
      releaseDevice ((unmapped.release .vectors).release .allocation)

end LinuxDrivers.TestPci
