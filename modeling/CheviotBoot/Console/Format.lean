import CheviotBoot.Console.Printf

namespace CheviotBoot.Console
open Lib

/-- The flags of the format specification. -/
inductive FlagChar
  | minus | plus | hash | zero
  deriving DecidableEq

def FlagChar.byte : FlagChar → Byte
  | .minus => ch '-'
  | .plus => ch '+'
  | .hash => ch '#'
  | .zero => ch '0'

/-- A field width. A leading zero would be a flag. -/
abbrev Width := { n : Nat // 0 < n ∧ n < 2 ^ 31 }

/-- What stands between the '%' and the letter. -/
structure FieldSpec where
  flags : List FlagChar
  width : Option Width

def FieldSpec.bytes (spec : FieldSpec) : List Byte :=
  spec.flags.map FlagChar.byte ++ (spec.width.elim [] fun n => numeral 10 n.val)

/-- The integer conversions. -/
inductive IntKind
  | d | i | o | p | u | x | X
  deriving DecidableEq

def IntKind.letter : IntKind → Byte
  | .d => ch 'd'
  | .i => ch 'i'
  | .o => ch 'o'
  | .p => ch 'p'
  | .u => ch 'u'
  | .x => ch 'x'
  | .X => ch 'X'

def IntKind.base : IntKind → Nat
  | .d | .i | .u => 10
  | .o => 8
  | .p | .x | .X => 16

def IntKind.signed : IntKind → Bool
  | .d | .i | .o => true
  | .p | .u | .x | .X => false

/-- A literal character or a conversion, with the argument that goes with it. -/
inductive Item
  | lit (c : Byte) (notNul : c ≠ 0#8) (notPercent : c ≠ ch '%')
  | percent (spec : FieldSpec)
  | char (spec : FieldSpec) (w : Word)
  | str (spec : FieldSpec) (s : CStr)
  | int (spec : FieldSpec) (kind : IntKind) (w : Word)

/-- How an item stands in the format string. -/
def Item.format : Item → List Byte
  | .lit c _ _ => [c]
  | .percent spec => ch '%' :: (spec.bytes ++ [ch '%'])
  | .char spec _ => ch '%' :: (spec.bytes ++ [ch 'c'])
  | .str spec _ => ch '%' :: (spec.bytes ++ [ch 's'])
  | .int spec kind _ => ch '%' :: (spec.bytes ++ [kind.letter])

def Item.args : Item → List Arg
  | .lit _ _ _ | .percent _ => []
  | .char _ w | .int _ _ w => [.word w]
  | .str _ s => [.string s]

/-- The sign an integer gets. -/
def signOf (spec : FieldSpec) (negative : Bool) : List Byte :=
  if negative then [ch '-'] else if .plus ∈ spec.flags then [ch '+'] else []

/-- The prefix that `#` asks for. -/
def prefixOf (spec : FieldSpec) (base : Nat) : List Byte :=
  if .hash ∈ spec.flags then (if base = 16 then [ch '0', ch 'x'] else if base = 8 then [ch '0'] else []) else []

/-- Sign, prefix and digits in a field: zeros go between, blanks before or after. -/
def inField (spec : FieldSpec) (head digits : List Byte) : List Byte :=
  let padding := spec.width.elim 0 Subtype.val - (head.length + digits.length)
  if .zero ∈ spec.flags then head ++ List.replicate padding (ch '0') ++ digits
  else if .minus ∈ spec.flags then head ++ digits ++ List.replicate padding (ch ' ')
  else List.replicate padding (ch ' ') ++ head ++ digits

/-- The letters of the digits in upper case. -/
def upperDigit (c : Byte) : Byte := if ch 'a' ≤ c ∧ c ≤ ch 'z' then c - 32#8 else c

/-- An integer as the specification has it. -/
def renderInt (spec : FieldSpec) (kind : IntKind) (w : Word) : List Byte :=
  let negative := kind.signed && decide (w.toInt < 0)
  let magnitude := if kind.signed then w.toInt.natAbs else w.toNat
  let digits := numeral kind.base magnitude
  inField spec (signOf spec negative ++ prefixOf spec kind.base)
    (if kind = .X then digits.map upperDigit else digits)

def Item.render : Item → List Byte
  | .lit c _ _ => [c]
  | .percent _ => [ch '%']
  | .char _ w => [if (w.setWidth 8 : Byte) = 0#8 then ch '#' else w.setWidth 8]
  | .str _ s => s.val
  | .int spec kind w => renderInt spec kind w

def formatOf (items : List Item) : List Byte := items.flatMap Item.format
def argsOf (items : List Item) : List Arg := items.flatMap Item.args

/-- The full rendering of a format and its arguments. -/
def render (items : List Item) : List Byte := items.flatMap Item.render

end CheviotBoot.Console
