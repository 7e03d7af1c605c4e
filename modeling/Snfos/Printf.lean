import Snfos.Word
import Snfos.Library.Emit

set_option autoImplicit false

/- `printf` of `libc/stdio/printf.c`. A C string is the list of its characters, a
pointer into it the list of those that follow; past its end a character reads as 0. The
arguments are words, and a word that points to a string is looked up in `strings`. -/
namespace Snfos.Printf

/-- A value as `int` holds it. -/
def int32 (n : Int) : Int := (n + 2 ^ 31) % 2 ^ 32 - 2 ^ 31

/-- `(unsigned int) n`. -/
def unsigned (n : Int) : Nat := (n % 2 ^ 32).toNat

/-- Why the call ends before the format does: it returns -1, it never returns, or the
sum in `written` overflows, which C leaves undefined. -/
inductive Stop
  | failed
  | never
  | overflow
deriving DecidableEq

/-- What the caller gets, where the call returns. -/
def returned : Except Stop Int → Option Int
  | .ok n => some n
  | .error .failed => some (-1)
  | .error .never => none
  | .error .overflow => none

abbrev Printing (β : Type) := Emit Stop (List UInt8) β

/-- `if (!print(data, length)) return -1;`. -/
def print (data : List UInt8) : Printing Unit := Emit.piece .failed data

/-- `print` of one character in a loop, `count` times. -/
def printTimes (count : Nat) (c : UInt8) : Printing Unit := Emit.times .failed [c] count

/-- `if (maxrem < width) return -1;`. -/
def checkRoom (maxrem width : Nat) : Printing Unit :=
  if maxrem < width then Emit.fail .failed else pure ()

/-- The inner loop of `parseInt`, whose counter is an `unsigned char`. After 256 passes
the counter is back where it was. -/
def scaleDigit (places : Nat) : Nat → Nat → Int → Option Int
  | 0, _, _ => none
  | fuel + 1, t, digit =>
      if t < places then scaleDigit places fuel ((t + 1) % 256) (int32 (digit * 10)) else some digit

/-- The outer loop, on the digits that are left. -/
def parseDigits : List UInt8 → Int → Option Int
  | [], n => some n
  | c :: rest, n => do
      let digit ← scaleDigit (rest.length + 1) 256 1 (c.toNat - 48)
      parseDigits rest (int32 (n + digit))

def parseInt (num : List UInt8) : Option Int := parseDigits num 0

/-- The bits of `flags`. -/
structure Flags where
  left : Bool
  plus : Bool
  space : Bool
  alternate : Bool
  zero : Bool

/-- `*format`. -/
def head (format : List UInt8) : UInt8 := format.headD 0

def parseFlags (flags : Flags) : List UInt8 → Flags × List UInt8
  | [] => (flags, [])
  | c :: rest =>
      if c = 45 then parseFlags { flags with left := true } rest
      else if c = 43 then parseFlags { flags with plus := true } rest
      else if c = 32 then parseFlags { flags with space := true } rest
      else if c = 35 then parseFlags { flags with alternate := true } rest
      else if c = 48 then parseFlags { flags with zero := true } rest
      else (flags, c :: rest)

def isDigit (c : UInt8) : Bool := 48 ≤ c && c ≤ 57

/-- `va_arg`: the next word, and those after it. -/
def vaArg (args : List Nat) : Nat × List Nat := (u32 (args.headD 0), args.tail)

/-- A width or a precision: `*`, or the digits up to the next other character. -/
def parseNumber (format : List UInt8) (args : List Nat) : Option (Int × List UInt8 × List Nat) :=
  if head format = 42 then some (int32 (vaArg args).1, format.tail, (vaArg args).2)
  else do
    let n ← parseInt (format.takeWhile isDigit)
    some (n, format.dropWhile isDigit, args)

def parsePrecision (format : List UInt8) (args : List Nat) :
    Option (Int × List UInt8 × List Nat) :=
  if head format = 46 then parseNumber format.tail args else some (-1, format, args)

/-- The length modifier, which no conversion looks at. -/
def skipLength (format : List UInt8) : List UInt8 :=
  let format := (format.dropWhile (· = 104)).dropWhile (· = 108)
  if head format = 106 ∨ head format = 122 ∨ head format = 116 ∨ head format = 76 then format.tail
  else format

/-- What stands between `%` and the conversion character. -/
structure Spec where
  flags : Flags
  width : Int
  precision : Int

/-- `none` where `parseInt` does not return. -/
def parseSpec (format : List UInt8) (args : List Nat) : Option (Spec × List UInt8 × List Nat) := do
  let (flags, format) := parseFlags ⟨false, false, false, false, false⟩ format
  let (width, format, args) ← parseNumber format args
  let (precision, format, args) ← parsePrecision format args
  some (⟨flags, width, precision⟩, skipLength format, args)

/-- `%c`. Each conversion returns what is added to `written`. -/
def convertChar (s : Spec) (maxrem word : Nat) : Printing Int := do
  let width := if s.width < 1 then 1 else s.width
  checkRoom maxrem (unsigned width)
  Emit.when (s.flags.left = false) (printTimes (width - 1).toNat 32)
  print [UInt8.ofNat word]
  Emit.when (s.flags.left = true) (printTimes (width - 1).toNat 32)
  pure width

/-- The string and its blanks, for the `len` and `width` that were agreed on. -/
def printString (left : Bool) (str : List UInt8) (len width : Nat) : Printing Unit :=
  if len < width then
    if left = true then do
      print (str.take len)
      printTimes (width - len) 32
    else do
      printTimes (sub32 width len) 32
      print (str.take len)
  else print (str.take len)

/-- `%s`. -/
def convertString (s : Spec) (maxrem : Nat) (str : List UInt8) : Printing Int := do
  let len := u32 str.length
  let width := if unsigned s.width < len then int32 len else s.width
  let width := if 0 ≤ s.precision ∧ s.precision < width then s.precision else width
  let short := 0 ≤ s.precision ∧ unsigned s.precision < len
  let width := if short then s.precision else width
  let len := if short then unsigned s.precision else len
  checkRoom maxrem (unsigned width)
  printString s.flags.left str len (unsigned width)
  pure width

/-- The loop that counts digits: `div` and `len` when it ends. A word has at most 32. -/
def countDigits (base num : Nat) : Nat → Nat → Nat → Nat × Nat
  | 0, div, len => (div, len)
  | fuel + 1, div, len =>
      if base - 1 < num / div then countDigits base num fuel (u32 (div * base)) (len + 1)
      else (div, len)

/-- The loop that prints digits, from the first one on. -/
def printDigits (digit : Nat → UInt8) (base num : Nat) : Nat → Nat → Printing Unit
  | 0, _ => Emit.fail .never
  | fuel + 1, div =>
      if base - 1 < div then do
        print [digit (num / div % base)]
        printDigits digit base num fuel (div / base)
      else print [digit (num % base)]

/-- `'+'` or a blank before a number that is not negative. -/
def printPlus (flags : Flags) : Printing Unit :=
  if flags.plus = true then print [43] else Emit.when (flags.space = true) (print [32])

def printZero (precision : Int) : Printing Unit := Emit.when (precision ≠ 0) (print [48])

def printUnsigned (digit : Nat → UInt8) (base num div : Nat) (precision : Int) : Printing Unit :=
  if num = 0 then printZero precision else printDigits digit base num 32 div

/-- The prefix of the flag `#`: a zero and the character that `format` points to. -/
def printPrefix (letter : UInt8) : Printing Unit := do
  print [48]
  print [letter]

/-- What `%o`, `%x`, `%X` and `%u` share. `letter` is what `format` points to when the
prefix is printed. -/
def convertUnsigned (digit : Nat → UInt8) (base : Nat) (letter : UInt8) (s : Spec)
    (maxrem num : Nat) : Printing Int := do
  let (div, len) := countDigits base num 32 1 1
  let len := if s.precision = 0 ∧ num = 0 then 0 else len
  let lenPrec := if 0 ≤ s.precision ∧ len < unsigned s.precision then unsigned s.precision else len
  let lenWidth := lenPrec + (if s.flags.plus = true ∨ s.flags.space = true then 1 else 0) +
    (if s.flags.alternate = true then 2 else 0)
  let width := if unsigned s.width < lenWidth then int32 lenWidth else s.width
  let fill := sub32 (unsigned width) lenWidth
  let zeroFill := s.flags.left = false ∧ s.flags.zero = true
  checkRoom maxrem (unsigned width)
  Emit.when (s.flags.left = false ∧ s.flags.zero = false) (printTimes fill 32)
  printPlus s.flags
  Emit.when (s.flags.alternate = true) (printPrefix letter)
  Emit.when zeroFill (printTimes fill 48)
  printTimes (lenPrec - len) 48
  printUnsigned digit base num div s.precision
  Emit.when (s.flags.left = true) (printTimes fill (if zeroFill then 48 else 32))
  pure width

def decimalDigit (n : Nat) : UInt8 := UInt8.ofNat (n + 48)

/-- `digit += *format - ('x' - 'a') - 10` from ten on. -/
def hexDigit (letter : UInt8) (n : Nat) : UInt8 :=
  if n < 10 then UInt8.ofNat (n + 48) else UInt8.ofNat n + letter - 23 - 10

/-- `%o`. `format` is already past the conversion character. -/
def convertOctal (rest : List UInt8) (s : Spec) (maxrem num : Nat) : Printing Int :=
  convertUnsigned decimalDigit 8 (head rest) s maxrem num

/-- `%x` and `%X`. `format` still points to the conversion character. -/
def convertHex (letter : UInt8) (s : Spec) (maxrem num : Nat) : Printing Int :=
  convertUnsigned (hexDigit letter) 16 letter s maxrem num

/-- `%u`. `format` is already past the conversion character. -/
def convertDecimal (rest : List UInt8) (s : Spec) (maxrem num : Nat) : Printing Int :=
  convertUnsigned decimalDigit 10 (head rest) s maxrem num

def printSign (flags : Flags) (num : Int) : Printing Unit :=
  if 0 ≤ num then printPlus flags else print [45]

/-- `%d` and `%i`. The digits are counted and printed of `num` as an unsigned word. -/
def convertSigned (s : Spec) (maxrem : Nat) (num : Int) : Printing Int := do
  let toPrint := unsigned num
  let (div, digits) := countDigits 10 toPrint 32 1 1
  let len := digits + (if (s.flags.plus = true ∨ s.flags.space = true) ∧ 0 ≤ num then 1 else 0) +
    (if num < 0 then 1 else 0)
  let width := if unsigned s.width < len then int32 len else s.width
  let fill := sub32 (unsigned width) len
  let zeroFill := s.flags.left = false ∧ s.flags.zero = true
  checkRoom maxrem (unsigned width)
  Emit.when (s.flags.left = false ∧ s.flags.zero = false) (printTimes fill 32)
  printSign s.flags num
  Emit.when zeroFill (printTimes fill 48)
  printUnsigned decimalDigit 10 toPrint div 1
  Emit.when (s.flags.left = true) (printTimes fill (if zeroFill then 48 else 32))
  pure width

/-- Any other character: the rest of the format from its `%` on. -/
def convertOther (begun : List UInt8) (maxrem : Nat) : Printing Int := do
  let len := (begun.takeWhile (· ≠ 0)).length
  checkRoom maxrem len
  print (begun.take len)
  pure (len : Int)

/-- The conversion `format` points to, and the format and the arguments after it.
`begun` is the format from the `%` on. -/
def convert (strings : Nat → List UInt8) (s : Spec) (maxrem : Nat) (begun format : List UInt8)
    (args : List Nat) : Printing Int × List UInt8 × List Nat :=
  let (word, later) := vaArg args
  let rest := format.tail
  let c := head format
  if c = 99 then (convertChar s maxrem word, rest, later)
  else if c = 115 then (convertString s maxrem (strings word), rest, later)
  else if c = 111 then (convertOctal rest s maxrem word, rest, later)
  else if c = 120 ∨ c = 88 then (convertHex c s maxrem word, rest, later)
  else if c = 117 then (convertDecimal rest s maxrem word, rest, later)
  else if c = 100 ∨ c = 105 then (convertSigned s maxrem (int32 word), rest, later)
  else (convertOther begun maxrem, begun.drop (begun.takeWhile (· ≠ 0)).length, args)

/-- The characters printed at once as they stand, the first of them whatever it is. -/
def literalAmount (format : List UInt8) : Nat :=
  1 + (format.tail.takeWhile fun c => c ≠ 0 && c ≠ 37).length

def printLiteral (maxrem : Nat) (format : List UInt8) : Printing Int := do
  checkRoom maxrem (literalAmount format)
  print (format.take (literalAmount format))
  pure (literalAmount format : Int)

/-- One pass of the `while` loop over a format that is not at its end: what it prints, and
the format and the arguments it leaves. `none` where it does not return. -/
def pass (strings : Nat → List UInt8) (maxrem : Nat) (format : List UInt8) (args : List Nat) :
    Option (Printing Int × List UInt8 × List Nat) :=
  if head format ≠ 37 ∨ head format.tail = 37 then
    let format := if head format = 37 then format.tail else format
    some (printLiteral maxrem format, format.drop (literalAmount format), args)
  else do
    let (s, rest, later) ← parseSpec format.tail args
    some (convert strings s maxrem format rest later)

/-- `INT_MAX`. -/
def intMax : Int := 2147483647

/-- The `while` loop. Each pass leaves a shorter format. -/
def printLoop (strings : Nat → List UInt8) : Nat → List UInt8 → List Nat → Int → Printing Int
  | 0, _, _, _ => Emit.fail .never
  | fuel + 1, format, args, written =>
      if head format = 0 then pure written
      else
        match pass strings (unsigned (intMax - written)) format args with
        | none => Emit.fail .never
        | some (body, format, args) => do
            let width ← body
            if intMax < written + width then Emit.fail .overflow
            else printLoop strings fuel format args (written + width)

def printf (strings : Nat → List UInt8) (format : List UInt8) (args : List Nat) : Printing Int :=
  printLoop strings (format.length + 1) format args 0

end Snfos.Printf
