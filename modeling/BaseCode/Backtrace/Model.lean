import Mathlib.Data.UInt
import BaseCode.Foundation.CStrings

/-!
# The crash handler

`src/backtrace.c`: `backtrace_init_argv` keeps a copy of the program's arguments, and
`print_addr2line`, called for each line of a stack trace, cuts the address out of the line and
runs `addr2line` on the program and the address. Every array is a region with its writes; what
a write outside an array destroys is not followed, but what lies behind an array is read where
a string is not terminated.
-/

namespace BaseCode.Backtrace
open Foundation

/-- A string handed to the handler. -/
abbrev Str := CString UInt8

/-- The bytes of an ASCII text. -/
def ascii (s : String) : List UInt8 := s.toList.map fun c => c.toNat.toUInt8

/-- `'['` -/
def openBracket : UInt8 := 91

/-- `']'` -/
def closeBracket : UInt8 := 93

/-- The table `g_backtrace_var.argv` is `char [10][128]`. -/
def rows : Nat := 10

def rowSize : Nat := 128

/-- The loop of `backtrace_init_argv` from row `i` on. -/
def initArgs (table : Region UInt8) (i : Nat) : List Str → Region UInt8
  | [] => table
  | arg :: args => initArgs (table.strncpy (i * rowSize) arg.chars rowSize) (i + 1) args

/-- `backtrace_init_argv` on the memory from the table on; the count is the length of `argv`.
`memset` clears the table first. -/
def backtraceInitArgv (mem : List UInt8) (argv : List Str) : Region UInt8 :=
  initArgs ((⟨mem, []⟩ : Region UInt8).store 0 (List.replicate (rows * rowSize) 0)) 0 argv

/-- The texts that `sprintf` puts for the two `%s` of `"addr2line -e %s -i %s"`. -/
structure Command where
  name : List UInt8
  addr : List UInt8
  deriving DecidableEq, Repr

def Command.text (c : Command) : List UInt8 :=
  ascii "addr2line -e " ++ c.name ++ ascii " -i " ++ c.addr

def cmdSize : Nat := 1024

def addrSize : Nat := 2 + 64 + 1

def nameSize : Nat := 128

/-- What lies behind the local arrays of `print_addr2line`; where they are is up to the
compiler. -/
structure Stack where
  cmd : List UInt8
  addrBuf : List UInt8
  name : List UInt8

/-- The local arrays at the end of `print_addr2line`, and the command it has run. -/
structure Frame where
  cmd : Region UInt8
  addrBuf : Region UInt8
  name : Region UInt8
  system : Option Command

def printAddr2line (table : Region UInt8) (st : Stack) (pStr : Str) : Frame :=
  let cmd := Region.cleared cmdSize st.cmd
  let addrBuf := Region.cleared addrSize st.addrBuf
  let name := Region.cleared nameSize st.name
  match strchr pStr.chars openBracket with
  | none => ⟨cmd, addrBuf, name, none⟩
  | some p =>
    let addrBuf := addrBuf.strncpy 0 (p.drop 1) (sizeSub p.length 2)
    let name := name.strncpy 0 table.cstr table.cstr.length
    let command : Command := ⟨name.cstr, addrBuf.cstr⟩
    ⟨cmd.store 0 (command.text ++ [0]), addrBuf, name, some command⟩

end BaseCode.Backtrace
