import CheviotBoot.Lib.CString
import CheviotBoot.Lib.Numeral

namespace CheviotBoot.Console
open Lib

/-- A C string: the bytes before its NUL. -/
abbrev CStr := { s : List Byte // 0#8 ∉ s }

/-- What `va_arg` can fetch: a word, or a pointer to a string. -/
inductive Arg
  | word (w : Word)
  | string (s : CStr)
  deriving DecidableEq

/-- `FLAG_LEFT` and the others. -/
structure Flags where
  left : Bool := false
  sign : Bool := false
  zero : Bool := false
  uppercase : Bool := false
  alternate : Bool := false
  deriving DecidableEq

/-- The loop over the flags of a conversion. -/
def scanFlags : Flags → List Byte → Flags × List Byte
  | flags, [] => (flags, [])
  | flags, c :: cs =>
    if c = ch '-' then scanFlags { flags with left := true } cs
    else if c = ch '+' then scanFlags { flags with sign := true } cs
    else if c = ch '#' then scanFlags { flags with alternate := true } cs
    else if c = ch '0' then scanFlags { flags with zero := true } cs
    else (flags, c :: cs)

def isDigit (c : Byte) : Bool := decide (ch '0' ≤ c) && decide (c ≤ ch '9')

/-- `ASCII_TO_INT`. -/
def asciiToInt (c : Byte) : Nat := c.toNat - 48

def scanDigits : Nat → List Byte → Nat × List Byte
  | width, [] => (width, [])
  | width, c :: cs => if isDigit c then scanDigits (width * 10 + asciiToInt c) cs else (width, c :: cs)

/-- The field width, 1 where none is given. -/
def scanWidth : List Byte → Nat × List Byte
  | [] => (1, [])
  | c :: cs => if isDigit c then scanDigits 0 (c :: cs) else (1, c :: cs)

/-- A conversion as far as its letter. -/
structure Conversion where
  flags : Flags
  width : Nat
  letter : Byte
  deriving DecidableEq

/-- What follows a '%', and the format after it. There is none where the format ends
first, as its loop then steps over the NUL, nor where the width leaves `int32_t`. -/
def scanConversion (format : List Byte) : Option (Conversion × List Byte) :=
  let (flags, cs) := scanFlags {} format
  let (width, cs) := scanWidth cs
  match cs with
  | [] => none
  | letter :: cs => if width < 2 ^ 31 then some (⟨flags, width, letter⟩, cs) else none

/-- "0123456789abcdef@OVRPHLOW". -/
def conv : List Byte :=
  ['0', '1', '2', '3', '4', '5', '6', '7', '8', '9', 'a', 'b', 'c', 'd', 'e', 'f',
    '@', 'O', 'V', 'R', 'P', 'H', 'L', 'O', 'W'].map ch

/-- The digits `ItoA32` stores, from one round of its loop on; the first round takes in the
carry before it divides. -/
def itoaDigits (base : Nat) (hb : 1 < base) (first : Bool) (carry n : Nat) : List Byte :=
  let digit := if first = true ∧ carry = 1 then conv.getD ((n % base + carry) % base) 0#8
    else conv.getD ((n + carry) % base) 0#8
  let carry := if base ≤ n % base + carry then 1 else 0
  digit :: if 0 < n / base then itoaDigits base hb false carry (n / base) else []
termination_by n
decreasing_by
  rename_i hq
  exact Nat.div_lt_self (Nat.pos_of_ne_zero fun h => by simp [h] at hq) hb

/-- `ItoA32`: the buffer, least significant digit first, with the sign at its end. -/
def itoA32 (base : Nat) (hb : 1 < base) (n : Word) : List Byte :=
  if n.toInt < 0 then
    if n = 0x80000000#32 then itoaDigits base hb true 1 (-(n + 1#32)).toNat ++ [ch '-']
    else itoaDigits base hb true 0 (-n).toNat ++ [ch '-']
  else itoaDigits base hb true 0 n.toNat ++ [ch '+']

def uitoaDigits (base : Nat) (hb : 1 < base) (n : Nat) : List Byte :=
  conv.getD (n % base) 0#8 :: if 0 < n / base then uitoaDigits base hb (n / base) else []
termination_by n
decreasing_by
  rename_i hq
  exact Nat.div_lt_self (Nat.pos_of_ne_zero fun h => by simp [h] at hq) hb

/-- `UItoA32`. -/
def uitoA32 (base : Nat) (hb : 1 < base) (n : Word) : List Byte :=
  uitoaDigits base hb n.toNat ++ [ch '+']

/-- `ASCII_TO_UPPER` where it is used. -/
def upper (flags : Flags) (c : Byte) : Byte :=
  if flags.uppercase = true ∧ ch 'a' ≤ c ∧ c ≤ ch 'z' then c - 32#8 else c

/-- `PrintFormattedInteger`: the characters it prints. -/
def printFormattedInteger (buf : List Byte) (base : Nat) (flags : Flags)
    (width : Nat) : List Byte :=
  let i := buf.length
  let sign := buf.getD (i - 1) 0#8
  let signstr := if sign = ch '-' then [ch '-']
    else if flags.sign then (if sign = ch '+' then [ch '+'] else [ch '-']) else []
  let annotatestr := if flags.alternate then
      if base = 16 then [ch '0', ch 'x'] else if base = 8 then [ch '0'] else []
    else []
  let len := i - 1 + signstr.length + annotatestr.length
  let padding := width - len
  let zeropadding := if flags.zero then padding else 0
  let forepadding := if flags.zero = false ∧ flags.left = false then padding else 0
  let tailpadding := if flags.zero = false ∧ flags.left = true then padding else 0
  List.replicate forepadding (ch ' ') ++ signstr ++ annotatestr ++ List.replicate zeropadding (ch '0') ++
    (buf.take (i - 1)).reverse.map (upper flags) ++ List.replicate tailpadding (ch ' ')

def vaWord : List Arg → Option (Word × List Arg)
  | .word w :: ap => some (w, ap)
  | _ => none

def vaString : List Arg → Option (CStr × List Arg)
  | .string s :: ap => some (s, ap)
  | _ => none

/-- One of the integer conversions. -/
def printInteger (convert : Word → List Byte) (base : Nat) (flags : Flags) (width : Nat)
    (ap : List Arg) :
    Option (List Byte × List Arg) :=
  (vaWord ap).map fun (n, ap) => (printFormattedInteger (convert n) base flags width, ap)

/-- The switch over the conversion letter. Letters it does not know print nothing. -/
def printConversion (c : Conversion) (ap : List Arg) : Option (List Byte × List Arg) :=
  if c.letter = ch '%' then some ([ch '%'], ap)
  else if c.letter = ch 'c' then
    (vaWord ap).map fun (n, ap) =>
      let chr : Byte := n.setWidth 8
      ([if chr = 0#8 then ch '#' else chr], ap)
  else if c.letter = ch 's' then (vaString ap).map fun (s, ap) => (s.val, ap)
  else if c.letter = ch 'X' then
    printInteger (uitoA32 16 (by decide)) 16 { c.flags with uppercase := true } c.width ap
  else if c.letter = ch 'x' then printInteger (uitoA32 16 (by decide)) 16 c.flags c.width ap
  else if c.letter = ch 'p' then printInteger (uitoA32 16 (by decide)) 16 c.flags c.width ap
  else if c.letter = ch 'd' then printInteger (itoA32 10 (by decide)) 10 c.flags c.width ap
  else if c.letter = ch 'i' then printInteger (itoA32 10 (by decide)) 10 c.flags c.width ap
  else if c.letter = ch 'u' then printInteger (uitoA32 10 (by decide)) 10 c.flags c.width ap
  else if c.letter = ch 'o' then printInteger (itoA32 8 (by decide)) 8 c.flags c.width ap
  else some ([], ap)

theorem scanFlags_length (flags : Flags) (cs : List Byte) :
    (scanFlags flags cs).2.length ≤ cs.length := by
  induction cs generalizing flags with
  | nil => exact Nat.le_refl _
  | cons c cs ih =>
    unfold scanFlags
    split_ifs
    · exact Nat.le_succ_of_le (ih _)
    · exact Nat.le_succ_of_le (ih _)
    · exact Nat.le_succ_of_le (ih _)
    · exact Nat.le_succ_of_le (ih _)
    · exact Nat.le_refl _

theorem scanDigits_length (width : Nat) (cs : List Byte) :
    (scanDigits width cs).2.length ≤ cs.length := by
  induction cs generalizing width with
  | nil => exact Nat.le_refl _
  | cons c cs ih =>
    unfold scanDigits
    split_ifs
    · exact Nat.le_succ_of_le (ih _)
    · exact Nat.le_refl _

theorem scanWidth_length (cs : List Byte) : (scanWidth cs).2.length ≤ cs.length := by
  cases cs with
  | nil => exact Nat.le_refl _
  | cons c cs =>
    simp only [scanWidth]
    split_ifs
    · exact scanDigits_length 0 (c :: cs)
    · exact Nat.le_refl _

theorem scanConversion_length {cs rest : List Byte} {c : Conversion}
    (h : scanConversion cs = some (c, rest)) :
    rest.length < cs.length := by
  have hflags := scanFlags_length {} cs
  have hwidth := scanWidth_length (scanFlags {} cs).2
  unfold scanConversion at h
  simp only at h
  cases hscan : (scanWidth (scanFlags {} cs).2).2 with
  | nil => simp [hscan] at h
  | cons letter more =>
    rw [hscan, List.length_cons] at hwidth
    simp only [hscan] at h
    split_ifs at h
    cases h
    omega

/-- `DoPrintf`: the characters it calls `printchar_fp` with, in order, the NUL last. There are
none where it leaves its format or its arguments. -/
def doPrintf (format : List Byte) (ap : List Arg) : Option (List Byte) :=
  match format with
  | [] => some [0#8]
  | c :: cs =>
    if c = ch '%' then
      match hscan : scanConversion cs with
      | none => none
      | some (conversion, rest) =>
        have : rest.length < cs.length := scanConversion_length hscan
        (printConversion conversion ap).bind fun (out, ap) => (doPrintf rest ap).map (out ++ ·)
    else (doPrintf cs ap).map (c :: ·)
termination_by format.length

/-- `struct SnprintfArg`. What is stored through `str` is kept as offset and byte, in order. -/
structure SnprintfArg where
  size : Nat
  pos : Nat
  stores : List (Nat × Byte)

/-- `SnprintfPrintChar`, as far as its `int` counts. -/
def snprintfPrintChar (sa : SnprintfArg) (c : Byte) : Option SnprintfArg :=
  if sa.pos + 1 < 2 ^ 31 then
    some { sa with
      stores := if sa.pos < sa.size then sa.stores ++ [(sa.pos, c)]
        else if sa.pos = sa.size then sa.stores ++ [(sa.size, 0#8)] else sa.stores
      pos := sa.pos + 1 }
  else none

/-- What a call stored, and the value it returned. -/
structure Printed where
  stores : List (Nat × Byte)
  ret : Int

def vsnprintf (size : Nat) (format : List Byte) (args : List Arg) : Option Printed :=
  (doPrintf format args).bind fun chars =>
    (chars.foldlM snprintfPrintChar ⟨size, 0, []⟩).map fun sa => ⟨sa.stores, sa.pos - 1⟩

/-- `Snprintf`, which takes its arguments itself. -/
def snprintf (size : Nat) (format : List Byte) (args : List Arg) : Option Printed :=
  (doPrintf format args).bind fun chars =>
    (chars.foldlM snprintfPrintChar ⟨size, 0, []⟩).map fun sa => ⟨sa.stores, sa.pos - 1⟩

/-- Some bytes after stores into them. -/
def applyStores (stores : List (Nat × Byte)) (bytes : List Byte) : List Byte :=
  stores.foldl (fun bytes w => bytes.set w.1 w.2) bytes

def klogWidth : Nat := 80

/-- `boot_debug_write_string`, of the bytes from `string` on. -/
def bootDebugWriteString (string : List Byte) : Option (List Byte) :=
  (cstr? string).map (· ++ [ch '\n'])

/-- `boot_debug_printf`, of the bytes from `klog_entry` on: what it stores there, and what goes
to the UART. -/
def bootDebugPrintf (klogEntry format : List Byte) (args : List Arg) :
    Option (List (Nat × Byte) × Option (List Byte)) :=
  (vsnprintf klogWidth format args).map fun printed =>
    (printed.stores, bootDebugWriteString (applyStores printed.stores klogEntry))

end CheviotBoot.Console
