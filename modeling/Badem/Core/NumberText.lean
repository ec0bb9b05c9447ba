import Badem.Codec.Numerals
import Badem.Core.BlockStore

/-!
# Numbers as text

The conversions between numbers and text of `lib/numbers.cpp` and `lib/blocks.cpp`.  A text is
the list of its bytes.  The checksum of an address is an arbitrary function.  `extractHex`,
`extractDec` and `extractWord` say what the extraction of a number from a string stream does.
-/

namespace Badem

abbrev Uint8 := BitVec 8

abbrev Text := List Uint8

def ascii (s : String) : Text := s.toList.map (fun c => BitVec.ofNat 8 c.toNat)

/-! ## Account addresses -/

def accountLookup : Text := ascii "13456789abcdefghijkmnopqrstuwxyz"

def accountReverse : Text :=
  ascii "~0~1234567~~~~~~~~~~~~~~~~~~~~~~~~~~~~~~~~~~~~~~~89:;<=>?@AB~CDEFGHIJK~LMNO~~~~~"

/-- `account_encode`; five bits are below the bound that the source asserts. -/
def accountEncode (value : BitVec 5) : Uint8 := accountLookup.getD value.toNat 0

def accountDecode (value : Uint8) : Except Fault Uint8 := do
  require (0x30 ≤ value)
  require (value ≤ 0x7e)
  pure (accountReverse.getD (value - 0x30).toNat 0 - 0x30)

def encodeDigits : Nat → Uint512 → Text
  | 0, _ => []
  | count + 1, number => accountEncode (number.setWidth 5) :: encodeDigits count (number >>> 5)

def checkedNumber (check : Account → BitVec 40) (account : Account) : Uint512 :=
  (account.setWidth 512 <<< 40) ||| (check account).setWidth 512

def toAccount (check : Account → BitVec 40) (account : Account) : Text :=
  (encodeDigits 60 (checkedNumber check account) ++ ascii "_mdb").reverse

def decodeDigits : Text → Uint512 → Except Fault (Option Uint512)
  | [], number => .ok (some number)
  | character :: rest, number =>
    if character < 0x30 ∨ 0x80 ≤ character then .ok none
    else do
      let byte ← accountDecode character
      if byte = 0x7e then pure none
      else decodeDigits rest ((number <<< 5) + byte.setWidth 512)

def startsBdm (source : Text) : Bool :=
  source.take 4 = ascii "bdm_" ∨ source.take 4 = ascii "bdm-"

def accountOfNumber (check : Account → BitVec 40) (number : Uint512) : Option Account :=
  let account : Account := (number >>> 40).setWidth 256
  if number.setWidth 40 = check account then some account else none

def decodeAccount (check : Account → BitVec 40) (source : Text) :
    Except Fault (Option Account) :=
  if source.length < 5 then .ok none
  else if startsBdm source = true ∧ source.length ≠ 64 then .ok none
  else if startsBdm source = true then
    let i := source.drop 4
    if i.head? = some 0x31 ∨ i.head? = some 0x33 then do
      let number ← decodeDigits i 0
      pure (number.bind (accountOfNumber check))
    else .ok none
  else .ok none

/-! ## Numbers written to a stream -/

def digitText (d : Nat) : Uint8 :=
  if d < 10 then BitVec.ofNat 8 (0x30 + d) else BitVec.ofNat 8 (0x61 + (d - 10))

def formatNumber (base width n : Nat) : Text :=
  ((Codec.numeral base n).leftpad width 0).map digitText

/-! ## Numbers read from a stream -/

def isSpace (c : Uint8) : Bool := c = 0x20 ∨ (0x09 ≤ c ∧ c ≤ 0x0d)

def isSign (c : Uint8) : Bool := c = 0x2b ∨ c = 0x2d

def digitValue (c : Uint8) : Option Nat :=
  if 0x30 ≤ c ∧ c ≤ 0x39 then some (c.toNat - 0x30)
  else if 0x61 ≤ c ∧ c ≤ 0x66 then some (c.toNat - 0x61 + 10)
  else if 0x41 ≤ c ∧ c ≤ 0x46 then some (c.toNat - 0x41 + 10)
  else none

/-- The number written by digits of a radix, unless some character is not such a digit. -/
def parseDigits (radix : Nat) : Nat → Text → Option Nat
  | n, [] => some n
  | n, c :: cs =>
    match digitValue c with
    | some d => if d < radix then parseDigits radix (radix * n + d) cs else none
    | none => none

def splitSign (s : Text) : Bool × Text :=
  match s with
  | c :: cs => if c = 0x2d then (true, cs) else (false, s)
  | [] => (false, s)

/-- The radix that the start of a text names, and the digits. -/
def splitRadix (s : Text) : Nat × Text :=
  match s with
  | c :: d :: cs => if c = 0x30 then if d = 0x78 ∨ d = 0x58 then (16, cs) else (8, s) else (10, s)
  | [c] => if c = 0x30 then (8, s) else (10, s)
  | [] => (10, s)

/-- Assignment of a text to a number: its sign and its absolute value. -/
def assignText (s : Text) : Option (Bool × Nat) :=
  let (negative, s) := splitSign s
  let (radix, digits) := splitRadix s
  (parseDigits radix 0 digits).map (fun n => (negative, n))

/-- The text of a number in hexadecimal with its radix put in front. -/
def insertRadix (s : Text) : Option Text :=
  if s.take 2 = ascii "0x" then some s
  else if (s.dropWhile isSign).isEmpty then none
  else some (s.takeWhile isSign ++ ascii "0x" ++ s.dropWhile isSign)

/-- What a stream reads of a number: blanks are skipped, then the permitted characters
are taken; `none` when some characters are left over. -/
def readWhile (permitted : Text) (text : Text) : Option Text :=
  let s := text.dropWhile isSpace
  if s.all (fun c => decide (c ∈ permitted)) then some s else none

/-- Extraction of a number in hexadecimal; one of which nothing is read stays zero. -/
def extractHex (w : Nat) (text : Text) : Option (BitVec w) := do
  let s ← readWhile (ascii "+-xXabcdefABCDEF0123456789") text
  if s.isEmpty then pure 0
  else
    let (negative, n) ← assignText (← insertRadix s)
    pure (if negative then -BitVec.ofNat w n else BitVec.ofNat w n)

/-- Extraction of a decimal number of a checked type, which refuses what is negative or
too large. -/
def extractDec (w : Nat) (text : Text) : Option (BitVec w) := do
  let s ← readWhile (ascii "+-0123456789") text
  if s.isEmpty then pure 0
  else
    let (negative, n) ← assignText s
    if negative = false ∧ n < 2 ^ w then pure (BitVec.ofNat w n) else none

/-- Extraction of a decimal number of an unchecked type, which wraps around. -/
def extractDecUnchecked (w : Nat) (text : Text) : Option (BitVec w) := do
  let s ← readWhile (ascii "+-0123456789") text
  if s.isEmpty then pure 0
  else
    let (negative, n) ← assignText s
    pure (if negative then -BitVec.ofNat w n else BitVec.ofNat w n)

/-- Extraction of a machine word in hexadecimal.  A blank text leaves the variable as it
was, that is, with the value `junk`. -/
def extractWord (junk : Uint64) (text : Text) : Option Uint64 :=
  let s := text.dropWhile isSpace
  if s.isEmpty then some junk
  else
    let digits := if s.head?.any isSign then s.tail else s
    let digits := if digits.take 2 = ascii "0x" ∨ digits.take 2 = ascii "0X" then digits.drop 2
      else digits
    (parseDigits 16 0 digits).map (fun n =>
      if s.head? = some 0x2d then -BitVec.ofNat 64 n else BitVec.ofNat 64 n)

/-! ## Conversions of the number types -/

def Uint256.encodeHex (x : Uint256) : Text := formatNumber 16 64 x.toNat

def Uint256.decodeHex (text : Text) : Option Uint256 :=
  if text.length ≠ 0 ∧ text.length ≤ 64 then extractHex 256 text else none

def Uint256.decodeDec (text : Text) : Option Uint256 :=
  if text.length > 78 ∨ (text.length > 1 ∧ text.head? = some 0x30) ∨
      (text.length > 0 ∧ text.head? = some 0x2d) then none
  else extractDecUnchecked 256 text

def Uint512.encodeHex (x : Uint512) : Text := formatNumber 16 128 x.toNat

def Uint512.decodeHex (text : Text) : Option Uint512 :=
  if text.length > 128 then none else extractHex 512 text

def Uint128.encodeHex (x : Uint128) : Text := formatNumber 16 32 x.toNat

def Uint128.decodeHex (text : Text) : Option Uint128 :=
  if text.length > 32 then none else extractHex 128 text

def Uint128.toStringDec (x : Uint128) : Text := formatNumber 10 0 x.toNat

def Uint128.decodeDec (text : Text) : Option Uint128 :=
  if text.length > 39 ∨ (text.length > 1 ∧ text.head? = some 0x30) ∨
      (text.length > 0 ∧ text.head? = some 0x2d) then none
  else extractDec 128 text

def toStringHex (value : Uint64) : Text := formatNumber 16 16 value.toNat

/-- `from_string_hex`; the variable that is read into holds `junk` before. -/
def fromStringHex (junk : Uint64) (value : Text) : Option Uint64 :=
  if value.isEmpty then none
  else if value.length > 16 then none
  else extractWord junk value

end Badem
