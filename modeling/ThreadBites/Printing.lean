import Mathlib.Data.List.Basic
import Mathlib.Logic.Function.Basic

/-!
# Printing

`tbprint` and the two functions that print numbers for it. A pointer into a string
is what is left of the string from there to the NUL, and `none` right behind the
NUL. The arguments are the 64-bit slots that `va_arg` takes one by one.
-/
namespace ThreadBites.Printing

abbrev Byte := BitVec 8

def byte (c : Char) : Byte := BitVec.ofNat 8 c.toNat

/-- The bytes of a string literal. -/
def chars (s : String) : List Byte := s.toList.map byte

/-- A string in memory: its bytes up to the NUL that ends it. -/
structure CString where
  bytes : List Byte
  noNul : 0 ∉ bytes

abbrev Pointer := Option (List Byte)

/-- What C leaves undefined: an `int` above its maximum, a byte outside of a string or an array, an
argument that was not passed. `endless` is for a scan that runs out of turns. -/
inductive Fault where
  | overflow | outside | noArgument | endless
  deriving DecidableEq, Repr

/-- The bytes of a `tbwrite`, by the buffer that it reads them from. -/
inductive Write where
  | format (bytes : List Byte)
  | argument (bytes : List Byte)
  | number (bytes : List Byte)
  deriving DecidableEq, Repr

def Write.bytes : Write → List Byte
  | .format bytes | .argument bytes | .number bytes => bytes

def intMax : Int := 2147483647

/-- `++n` of an `int`. -/
def increment (n : Int) : Except Fault Int := if n < intMax then .ok (n + 1) else .error .overflow

/-- `*p` -/
def deref : Pointer → Except Fault Byte
  | none => .error .outside
  | some [] => .ok 0
  | some (c :: _) => .ok c

/-- `p + 1` -/
def advance (p : Pointer) : Pointer := p.bind List.tail?

/-- `tbwrite(1, p, length)` -/
def writeFormat (p : Pointer) (length : Int) : Except Fault Write :=
  if 0 ≤ length ∧ length.toNat ≤ (p.getD []).length then .ok (.format ((p.getD []).take length.toNat))
  else .error .outside

/-- The bytes of `str` that have been written. -/
abbrev Buffer := Nat → Option Byte

/-- `char str[32]; str[31] = 0;` -/
def freshBuffer : Buffer := Function.update (fun _ => none) 31 (some 0)

/-- The loop that writes the digits of `n` from `cursor` down. -/
def digitLoop (digits : List Byte) (base : BitVec 64) :
    Nat → BitVec 64 → Buffer → Except Fault (Nat × Buffer)
  | 0, _, str => .ok (0, str)
  | cursor + 1, n, str =>
    if n = 0 then .ok (cursor + 1, str)
    else match digits[(n % base).toNat]? with
      | none => .error .outside
      | some c => digitLoop digits base cursor (n / base) (Function.update str (cursor + 1) (some c))

/-- The bytes that `tbwrite(1, cursor, length)` reads from the buffer. -/
def readBuffer (str : Buffer) (cursor : Nat) : Nat → Except Fault (List Byte)
  | 0 => .ok []
  | length + 1 => match str cursor with
    | none => .error .outside
    | some c => (readBuffer str (cursor + 1) length).map (c :: ·)

/-- What `printNum` and `printNumS` do with a number that is not 0. -/
def printDigits (digits : List Byte) (base n : BitVec 64) : Except Fault (List Write) := do
  let (cursor, str) ← digitLoop digits base 30 n freshBuffer
  let cursor := cursor + 1
  let bytes ← readBuffer str cursor (31 - cursor)
  .ok [.number bytes]

def printNum (num : BitVec 64) (base : Int) : Except Fault (List Write) :=
  if base ≤ 0 ∨ 16 < base then .ok []
  else if num = 0 then .ok [.number (chars "0")]
  else printDigits (chars "0123456789abcdef") (BitVec.ofInt 64 base) num

/-- `uint64_t n = num` keeps the bits, and no `-` is written. -/
def printNumS (num : BitVec 64) : Except Fault (List Write) :=
  if num = 0 then .ok [.number (chars "0")]
  else printDigits (chars "0123456789") 10 num

/-- The local variables of `tbprint`, and what it has written. -/
structure Locals where
  length : Int
  sz : Int
  base : Int
  sgn : Int
  cursor : Pointer
  start : Pointer
  ap : List (BitVec 64)
  written : List Write

def vaArg : List (BitVec 64) → Except Fault (BitVec 64 × List (BitVec 64))
  | [] => .error .noArgument
  | slot :: ap => .ok (slot, ap)

/-- `va_arg` of an `unsigned`, or of an `unsigned long` or `unsigned long long`, as a `uint64_t`. -/
def unsignedArg (sz : Int) (slot : BitVec 64) : BitVec 64 :=
  if sz = 0 then (slot.setWidth 32).setWidth 64 else slot

/-- `va_arg` of an `int`, or of a `long` or `long long`, as an `int64_t`. -/
def signedArg (sz : Int) (slot : BitVec 64) : BitVec 64 :=
  if sz = 0 then (slot.setWidth 32).signExtend 64 else slot

/-- `while(*cursor == 'l')`, from what is left of the string. -/
def skipLs : List Byte → Int → Except Fault (List Byte × Int)
  | [], sz => .ok ([], sz)
  | c :: rest, sz => if c = byte 'l' then do skipLs rest (← increment sz) else .ok (c :: rest, sz)

/-- The conversion of a number. -/
def convertNumber (s : Locals) : Except Fault Locals := do
  let (rest, sz) ← skipLs (s.cursor.getD []) s.sz
  let sz := if 2 < sz then 2 else sz
  let c ← deref (some rest)
  let base := if c = byte 'x' then 16 else if c = byte 'u' then 10
    else if c = byte 'o' then 8 else s.base
  let sgn := if c = byte 'd' then 1 else s.sgn
  let (slot, ap) ← vaArg s.ap
  let wrote ← if sgn = 0 then printNum (unsignedArg sz slot) base else printNumS (signedArg sz slot)
  .ok { s with cursor := some rest, ap, written := s.written ++ wrote, sz := 0, base := 0, sgn := 0 }

/-- The conversion `%s`. The string at an address is `text` of it. -/
def convertString (text : BitVec 64 → CString) (s : Locals) : Except Fault Locals := do
  let (str, ap) ← vaArg s.ap
  .ok { s with ap, written := s.written ++ [.argument (text str).bytes] }

/-- How a turn of the scan ends. -/
inductive Turn where
  | again (s : Locals)
  | stop (s : Locals)

/-- The body of `while(*cursor)`, where `*cursor` is `c`. -/
def turn (text : BitVec 64 → CString) (c : Byte) (s : Locals) : Except Fault Turn :=
  if c = byte '%' then do
    let w ← writeFormat s.start s.length
    let s := { s with written := s.written ++ [w], cursor := advance s.cursor }
    let c ← deref s.cursor
    if c = 0 then .ok (.stop s)
    else do
      let s ← if c = byte 's' then convertString text s else convertNumber s
      let cursor := advance s.cursor
      .ok (.again { s with cursor, start := cursor, length := 0 })
  else do
    let length ← increment s.length
    .ok (.again { s with length, cursor := advance s.cursor })

/-- The scan goes on unless there was a `break`. -/
def Turn.next (more : Locals → Except Fault Locals) : Turn → Except Fault Locals
  | .again s => more s
  | .stop s => .ok s

/-- `while(*cursor)`, for at most `fuel` turns. -/
def scan (text : BitVec 64 → CString) : Nat → Locals → Except Fault Locals
  | 0, _ => .error .endless
  | fuel + 1, s => do
    let c ← deref s.cursor
    if c = 0 then .ok s
    else do
      let t ← turn text c s
      t.next (scan text fuel)

/-- The local variables before the scan. -/
def Locals.enter (format : CString) (args : List (BitVec 64)) : Locals :=
  ⟨0, 0, 0, 0, some format.bytes, some format.bytes, args, []⟩

/-- The last literal, which no conversion follows. -/
def Locals.finish (s : Locals) : Except Fault (List Write × List (BitVec 64)) :=
  if s.length = 0 then .ok (s.written, s.ap)
  else do
    let w ← writeFormat s.start s.length
    .ok (s.written ++ [w], s.ap)

/-- The writes of `tbprint`, and the arguments that it has not taken. -/
def tbprint (text : BitVec 64 → CString) (format : CString) (args : List (BitVec 64)) :
    Except Fault (List Write × List (BitVec 64)) := do
  let s ← scan text (format.bytes.length + 1) (.enter format args)
  s.finish

end ThreadBites.Printing
