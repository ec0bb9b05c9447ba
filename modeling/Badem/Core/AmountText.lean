import Badem.Core.NumberText

/-!
# Amounts as text

The decimal amounts of the C interface (`lib/interface.cpp`) and the formatting of balances
(`format_balance` in `lib/numbers.cpp`).  A division by zero throws and gives no text.
-/

namespace Badem

/-! ## The C interface -/

/-- `strncpy`, which writes to the first `count` bytes of the destination. -/
def strncpy (destination source : Text) (count : Nat) : Text :=
  (source.take count).rightpad count 0 ++ destination.drop count

def cString (source : Text) : Text := source.takeWhile (fun c => decide (c ≠ 0))

def bdmUint128ToDec (source : Uint128) (destination : Text) : Text :=
  strncpy destination (Uint128.toStringDec source) 32

/-- `bdm_uint128_from_dec`, unless it returns `1`. -/
def bdmUint128FromDec (source : Text) : Option Uint128 := Uint128.decodeDec (cString source)

/-! ## Balances -/

def divide (a b : Nat) : Option Nat := if b = 0 then none else some (a / b)

def formatFrac : Nat → Nat → Nat → Option Text
  | _, _, 0 => some []
  | rem, reduce, precision + 1 =>
    if reduce > 1 ∧ rem > 0 then do
      let reduce := reduce / 10
      let val ← divide rem reduce
      let rest ← formatFrac (rem - val * reduce) reduce precision
      pure (formatNumber 10 0 val ++ rest)
    else some []

/-- The first loop of `format_dec`: the largest power of ten up to the value, and the number of
the digits. -/
def largestPow10 (value largest : Nat) (h : 0 < largest) (decCount : Nat) : Nat × Nat :=
  if largest * 10 > value then (largest, decCount)
  else largestPow10 value (largest * 10) (by omega) (decCount + 1)
termination_by value + 1 - largest

/-- The loop that fills `emit_group`, with the number of digits that are left. -/
def emitGroups (groupings : Text) : Nat → Nat → Nat → List Bool
  | 0, _, _ => []
  | left + 1, groupIndex, groupCount =>
    if (groupCount + 1 : Int) > (groupings.getD groupIndex 0).toInt then
      true :: emitGroups groupings left (min (groupIndex + 1) (groupings.length - 1)) 1
    else false :: emitGroups groupings left groupIndex (groupCount + 1)

def formatDigits (groupSep : Uint8) (emitGroup : List Bool) (rem reduce decCount : Nat) : Text :=
  if reduce > 0 then
    let val := rem / reduce
    let sep : Text :=
      if groupSep ≠ 0 ∧ emitGroup.getD (decCount - 1) false = true ∧ reduce > 1 then [groupSep]
      else []
    formatNumber 10 0 val ++ sep ++
      formatDigits groupSep emitGroup (rem - val * reduce) (reduce / 10) (decCount - 1)
  else []
termination_by reduce

def formatDec (value : Nat) (groupSep : Uint8) (groupings : Text) : Text :=
  let (largest, decCount) := largestPow10 value 1 Nat.one_pos 1
  if decCount > 39 then []
  else formatDigits groupSep (emitGroups groupings decCount 0 0) value largest decCount

/-- What stands for a balance below the precision, for example `< 0.01`. -/
def belowPrecision (decimalPoint : Uint8) (precision : Nat) : Text :=
  ascii "< " ++
    (if precision > 0 then
      ascii "0" ++ [decimalPoint] ++ List.replicate (precision - 1) 0x30
    else []) ++ ascii "1"

/-- The test `int_part == 0 && frac_part > 0 && frac_part / prec_scale == 0`. -/
def testBelow (intPart fracPart precScale : Nat) : Option Bool :=
  if intPart = 0 ∧ fracPart > 0 then (divide fracPart precScale).map (fun n => decide (n = 0))
  else some false

def appendFrac (integer : Text) (fracPart scale precision : Nat) (decimalPoint : Uint8) :
    Option Text :=
  if precision > 0 ∧ fracPart > 0 then
    (formatFrac fracPart scale precision).map
      (fun fraction => integer ++ [decimalPoint] ++ fraction)
  else some integer

def formatBalance (balance scale : Uint128) (precision : Nat) (groupDigits : Bool)
    (thousandsSep decimalPoint : Uint8) (grouping : Text) : Option Text := do
  let intPart ← divide balance.toNat scale.toNat
  let fracPart := balance.toNat % scale.toNat
  let precScale := (fun n => n / 10)^[precision] scale.toNat
  if (← testBelow intPart fracPart precScale) = true then
    pure (belowPrecision decimalPoint precision)
  else
    let groupSep := if groupDigits = true ∧ grouping.length > 0 then thousandsSep else 0
    appendFrac (formatDec intPart groupSep grouping) fracPart scale.toNat precision decimalPoint

end Badem
