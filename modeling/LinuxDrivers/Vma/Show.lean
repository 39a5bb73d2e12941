import LinuxDrivers.Lib.Printf

/-! The text of `/proc/vma`: one line for each memory area of the current task. -/
namespace LinuxDrivers.Vma
open CString Printf

structure File where
  dev : BitVec 32
  ino : BitVec 64
  /-- What `seq_file_path` prints. -/
  path : List UInt8
  deriving DecidableEq, Repr

structure VmArea where
  start : BitVec 64
  stop : BitVec 64
  flags : BitVec 64
  pgoff : BitVec 64
  file : Option File
  /-- The answer of `vm_ops->name`, where the area has this operation. -/
  opName : Option (Option (List UInt8))
  deriving DecidableEq, Repr

/-- The variables of `vma_proc_show` declared outside its loop and set in some iterations only. -/
structure Locals where
  name : Option (List UInt8)
  ino : BitVec 64
  pgoff : BitVec 64
  dev : BitVec 32
  deriving DecidableEq, Repr

def Locals.initial : Locals := ⟨none, 0, 0, 0⟩

structure Line where
  number : List UInt8
  text : List UInt8
  deriving DecidableEq, Repr

structure Task where
  comm : List UInt8
  pid : Int
  areas : List VmArea
  cr3 : BitVec 64
  /-- What `%p` prints for `mm->pgd`. -/
  pgd : List UInt8
  mapCount : Int

def vmRead : BitVec 64 := 1
def vmWrite : BitVec 64 := 2
def vmExec : BitVec 64 := 4
def vmShared : BitVec 64 := 8

def VmArea.letter (a : VmArea) (flag : BitVec 64) (yes no : Char) : Char :=
  if a.flags &&& flag = 0 then no else yes

def VmArea.bounds (a : VmArea) : List UInt8 :=
  ascii " vm_start=".toList ++ pad '0' 8 (upperHex a.start.toNat) ++ ascii [' '] ++
  ascii " vm_end=".toList ++ pad '0' 8 (upperHex a.stop.toNat) ++ ascii [' ', ' '] ++
  ascii [a.letter vmRead 'r' '-', a.letter vmWrite 'w' '-', a.letter vmExec 'x' '-',
    a.letter vmShared 's' 'p']

def major (dev : BitVec 32) : Nat := dev.toNat / 1048576

def minor (dev : BitVec 32) : Nat := dev.toNat % 1048576

def Locals.columns (l : Locals) : List UInt8 :=
  ascii [' '] ++ pad '0' 8 (hex l.pgoff.toNat) ++ ascii [' '] ++
  ascii [' '] ++ pad '0' 2 (hex (major l.dev)) ++ ascii [' '] ++
  ascii [':'] ++ pad '0' 2 (hex (minor l.dev)) ++
  ascii [' '] ++ signed l.ino.toInt ++ ascii [' '] ++ ascii [' ']

def Locals.nameText (l : Locals) : List UInt8 :=
  match l.name with
  | none => []
  | some name => ascii [' '] ++ name

def VmArea.fileText (a : VmArea) : List UInt8 :=
  match a.file with
  | none => []
  | some file => ascii [' '] ++ file.path

/-- What one iteration assigns. The operation is asked for a name only where there is no file. -/
def Locals.after (l : Locals) (a : VmArea) : Locals :=
  match a.file, a.opName with
  | some file, _ => { l with dev := file.dev, ino := file.ino, pgoff := a.pgoff <<< 12 }
  | none, some name => { l with name := name }
  | none, none => l

def areaText (l : Locals) (a : VmArea) : List UInt8 :=
  a.bounds ++ (l.columns ++ (a.fileText ++ (l.nameText ++ ascii ['\n'])))

def areaLines (i : Nat) (l : Locals) : List VmArea → List Line
  | [] => []
  | a :: areas =>
      ⟨ascii ['\n'] ++ pad ' ' 3 (decimal (i + 1)) ++ ascii [' '], areaText (l.after a) a⟩ ::
        areaLines (i + 1) (l.after a) areas

def vmaProcShow (t : Task) : List UInt8 :=
  ascii "\n\nList of the Virtual Memory Areas for task '".toList ++ t.comm ++
  ascii "' (pid=".toList ++ signed t.pid ++ ascii ")\n".toList ++
  (areaLines 0 .initial t.areas).flatMap (fun line => line.number ++ line.text) ++
  ascii "\n\nCR3=".toList ++ pad '0' 8 (upperHex t.cr3.toNat) ++ ascii "  mm->pgd=".toList ++ t.pgd ++
  ascii "  mm->map_count=".toList ++ signed t.mapCount ++ ascii " \n\n".toList

def lineText (areas : List VmArea) (i : Nat) : Option (List UInt8) :=
  (areaLines 0 .initial areas)[i]?.map Line.text

end LinuxDrivers.Vma
