import Osisp.Lib.Stdio
import Osisp.Lib.Strtol

namespace Osisp.Lab7

open Osisp.Lib Osisp.Lib.Stdio

/-- `NAME_LEN` and `ADDR_LEN` are the same; `do_get` reads both into a buffer of this size. -/
def nameLen : Nat := 80

def addrLen : Nat := 80

/-- `record_t`. It has no padding, so `memcmp` compares exactly its fields. -/
structure Record where
  name : Vector UInt8 nameLen
  address : Vector UInt8 addrLen
  semester : UInt8
  deriving DecidableEq

def Record.zero : Record := ⟨Vector.replicate nameLen 0, Vector.replicate addrLen 0, 0⟩

/-- `strncpy` to an array of `n` bytes: the rest of the array is filled with zeros. -/
def strncpy (n : Nat) (s : List UInt8) : Vector UInt8 n :=
  Vector.ofFn fun i => s.getD i 0

/-- What `do_get` makes of an answer to one of its prompts: `none` asks again. -/
def enterName (buf : List UInt8) (rec : Record) : Option Record :=
  let s := cutNewline buf
  if 0 < s.length ∧ s.length < nameLen then some { rec with name := strncpy nameLen s } else none

def enterAddress (buf : List UInt8) (rec : Record) : Option Record :=
  let s := cutNewline buf
  if 0 < s.length ∧ s.length < addrLen then some { rec with address := strncpy addrLen s }
  else none

def enterSemester (buf : List UInt8) (rec : Record) : Option Record :=
  let (s, rest) := strtol (cString buf)
  if rest.headD 0 = newline ∨ rest.headD 0 = 0 then
    if 1 ≤ s ∧ s ≤ 12 then some { rec with semester := s.toNat.toUInt8 } else none
  else none

end Osisp.Lab7
