import CheviotBoot.Console.Integers

namespace CheviotBoot.Console
open Lib

/-- What the converter stores for an argument, without the NUL. -/
def IntKind.buffer : IntKind → Word → List Byte
  | .d, v | .i, v => itoA32 10 (Nat.one_lt_succ_succ 8) v
  | .o, v => itoA32 8 (Nat.one_lt_succ_succ 6) v
  | .u, v => uitoA32 10 (Nat.one_lt_succ_succ 8) v
  | .p, v | .x, v | .X, v => uitoA32 16 (Nat.one_lt_succ_succ 14) v

/-- The number an argument stands for. -/
def IntKind.value (kind : IntKind) (v : Word) : Int := if kind.signed then v.toInt else v.toNat

/-- The value of a character as a digit of either case, 36 where it is none. -/
def digitValue (c : Byte) : Nat :=
  if ch '0' ≤ c ∧ c ≤ ch '9' then c.toNat - 48
  else if ch 'a' ≤ c ∧ c ≤ ch 'z' then c.toNat - 87
  else if ch 'A' ≤ c ∧ c ≤ ch 'Z' then c.toNat - 55
  else 36

/-- The number some digits spell. -/
def readDigits (base : Nat) (digits : List Byte) : Nat :=
  digits.foldl (fun n c => n * base + digitValue c) 0

/-- The parts of a printed integer, in order. -/
structure Field where
  fore : Nat
  sign : List Byte
  marker : List Byte
  zeros : Nat
  digits : List Byte
  tail : Nat

def Field.bytes (f : Field) : List Byte :=
  List.replicate f.fore (ch ' ') ++ f.sign ++ f.marker ++ List.replicate f.zeros (ch '0') ++ f.digits ++
    List.replicate f.tail (ch ' ')

/-- The parts are what the format specification asks for. -/
structure Exact (kind : IntKind) (flags : Flags) (width : Nat) (v : Word) (f : Field) : Prop where
  onePadding : f.zeros = 0 ∧ f.tail = 0 ∨ f.fore = 0 ∧ f.tail = 0 ∨ f.fore = 0 ∧ f.zeros = 0
  sign : f.sign = if kind.value v < 0 then [ch '-'] else if flags.sign then [ch '+'] else []
  marker : f.marker = if flags.alternate = false then [] else if kind.base = 16 then [ch '0', ch 'x']
    else if kind.base = 8 then [ch '0'] else []
  isDigit : ∀ c ∈ f.digits, digitValue c < kind.base
  value : readDigits kind.base f.digits = (kind.value v).natAbs
  /-- Zero is one digit, and no other number starts with it. -/
  leading : f.digits.head? = some (ch '0') → kind.value v = 0 ∧ f.digits = [ch '0']
  nonempty : f.digits ≠ []
  /-- `X` has the digits of `x` with capital letters. -/
  lower : kind ≠ .X → ∀ c ∈ f.digits, ¬ (ch 'A' ≤ c ∧ c ≤ ch 'Z')
  upper : kind = .X → ∀ c ∈ f.digits, ¬ (ch 'a' ≤ c ∧ c ≤ ch 'z')
  length : f.bytes.length = max width (f.sign.length + f.marker.length + f.digits.length)

/-- The argument, read back from what was printed. -/
def recover (base : Nat) (out : List Byte) : Word :=
  let out := out.dropWhile (· = ch ' ')
  let negative := out.head? = some (ch '-')
  let out := if out.head? = some (ch '-') ∨ out.head? = some (ch '+') then out.tail else out
  let out := if base = 16 ∧ out.take 2 = [ch '0', ch 'x'] then out.drop 2 else out
  let n := readDigits base (out.takeWhile fun c => digitValue c < base)
  BitVec.ofInt 32 (if negative then -n else n)

theorem digitValue_digitByte {d : Nat} (h : d < 16) : digitValue (digitByte d) = d ∧
    digitValue (upperDigit (digitByte d)) = d := by
  have hall : ∀ d : Fin 16, digitValue (digitByte d) = d ∧ digitValue (upperDigit (digitByte d)) = d := by
    decide
  exact hall ⟨d, h⟩

theorem digitByte_case {d : Nat} (h : d < 16) : ¬ (ch 'A' ≤ digitByte d ∧ digitByte d ≤ ch 'Z') ∧
    ¬ (ch 'a' ≤ upperDigit (digitByte d) ∧ upperDigit (digitByte d) ≤ ch 'z') := by
  have hall : ∀ d : Fin 16, ¬ (ch 'A' ≤ digitByte d ∧ digitByte d ≤ ch 'Z') ∧
      ¬ (ch 'a' ≤ upperDigit (digitByte d) ∧ upperDigit (digitByte d) ≤ ch 'z') := by decide
  exact hall ⟨d, h⟩

theorem IntKind.base_bounds (kind : IntKind) : 8 ≤ kind.base ∧ kind.base ≤ 16 := by
  cases kind <;> decide

/-- The converters, whatever they convert to: digits, and the sign at the end. -/
theorem IntKind.buffer_eq (kind : IntKind) (v : Word) : kind.buffer v =
    (digitsOf kind.base (kind.value v).natAbs).map digitByte ++ [signByte (decide (kind.value v < 0))] := by
  have hdecimal := itoA32_eq (by decide : 1 < 10) (by decide)
    (between_pow (j := 9) (by decide) (by decide) (by decide)) v
  have hoctal := itoA32_eq (by decide : 1 < 8) (by decide)
    (between_pow (j := 10) (by decide) (by decide) (by decide)) v
  have hpos : decide ((v.toNat : Int) < 0) = false := by simp
  cases kind with
  | d | i => exact hdecimal
  | o => exact hoctal
  | u => exact hpos ▸ uitoA32_eq (by decide) (by decide) v
  | p | x | X => exact hpos ▸ uitoA32_eq (by decide) (by decide) v

/-- At most eleven digits, the sign and the NUL. -/
theorem IntKind.buffer_length (kind : IntKind) (v : Word) : (kind.buffer v).length + 1 ≤ 13 := by
  obtain ⟨hbase, _⟩ := kind.base_bounds
  have hvalue : (kind.value v).natAbs < 2 ^ 32 := by
    unfold IntKind.value
    have := v.isLt
    have := v.toInt_lt
    have := v.le_toInt
    split <;> omega
  have hdigits : (digitsOf kind.base (kind.value v).natAbs).length ≤ 11 := by
    unfold digitsOf
    split
    · decide
    · refine (Nat.digits_length_le_iff (by omega) _).mpr (Nat.lt_of_lt_of_le hvalue ?_)
      exact Nat.le_trans (by decide : 2 ^ 32 ≤ 8 ^ 11) (Nat.pow_le_pow_left hbase 11)
  rw [IntKind.buffer_eq, List.length_append, List.length_map, List.length_singleton]
  omega

/-- The parts with this sign and prefix and these digits, padded to a width. -/
def fieldFor (flags : Flags) (width : Nat) (sign marker digits : List Byte) : Field :=
  let padding := width - (sign.length + marker.length + digits.length)
  { fore := if flags.zero = false ∧ flags.left = false then padding else 0
    sign
    marker
    zeros := if flags.zero then padding else 0
    digits
    tail := if flags.zero = false ∧ flags.left = true then padding else 0 }

def signFor (flags : Flags) (negative : Prop) [Decidable negative] : List Byte :=
  if negative then [ch '-'] else if flags.sign then [ch '+'] else []

def markerFor (flags : Flags) (base : Nat) : List Byte :=
  if flags.alternate = false then [] else if base = 16 then [ch '0', ch 'x'] else if base = 8 then [ch '0'] else []

/-- `PrintFormattedInteger` on a buffer of digits and a sign. -/
theorem printFormattedInteger_append (digits : List Byte) (negative : Bool) (base : Nat) (flags : Flags)
    (width : Nat) : printFormattedInteger (digits ++ [signByte negative]) base flags width =
      (fieldFor flags width (signFor flags (negative = true)) (markerFor flags base)
        (digits.reverse.map (upper flags))).bytes := by
  have hlength : (digits ++ [signByte negative]).length - 1 = digits.length := by simp
  have hlast : (digits ++ [signByte negative]).getD digits.length 0#8 = signByte negative := by simp
  have htake : (digits ++ [signByte negative]).take digits.length = digits := by simp
  have hsign : (if signByte negative = ch '-' then [ch '-'] else if flags.sign = true then
      (if signByte negative = ch '+' then [ch '+'] else [ch '-']) else []) = signFor flags (negative = true) := by
    cases negative with
    | false => simp [signByte, signFor, (by decide : ch '+' ≠ ch '-')]
    | true => simp [signByte, signFor]
  have hmarker : (if flags.alternate = true then
      if base = 16 then [ch '0', ch 'x'] else if base = 8 then [ch '0'] else [] else []) =
        markerFor flags base := by
    cases h : flags.alternate <;> simp [markerFor, h]
  unfold printFormattedInteger fieldFor
  simp only [hlength, hlast, htake, hsign, hmarker, Field.bytes, List.length_map, List.length_reverse]
  have hcount : digits.length + (signFor flags (negative = true)).length + (markerFor flags base).length =
      (signFor flags (negative = true)).length + (markerFor flags base).length + digits.length := by
    omega
  rw [hcount]

theorem printConversion_buffer (kind : IntKind) (flags : Flags) (width : Nat) (v : Word) (ap : List Arg) :
    printConversion ⟨flags, width, kind.letter⟩ (.word v :: ap) = some (printFormattedInteger (kind.buffer v)
      kind.base (if kind = .X then { flags with uppercase := true } else flags) width, ap) := by
  cases kind <;> rfl

/-- The digits that a conversion prints. -/
def IntKind.digits (kind : IntKind) (v : Word) : List Byte :=
  (numeral kind.base (kind.value v).natAbs).map (if kind = .X then upperDigit else id)

/-- The parts that a conversion prints. -/
def fieldOf (kind : IntKind) (flags : Flags) (width : Nat) (v : Word) : Field :=
  fieldFor flags width (signFor flags (kind.value v < 0)) (markerFor flags kind.base) (kind.digits v)

theorem printConversion_fieldOf (kind : IntKind) {flags : Flags} (hflags : flags.uppercase = false)
    (width : Nat) (v : Word) (ap : List Arg) :
    printConversion ⟨flags, width, kind.letter⟩ (.word v :: ap) =
      some ((fieldOf kind flags width v).bytes, ap) := by
  have hsign : signFor flags (decide (kind.value v < 0) = true) = signFor flags (kind.value v < 0) := by
    simp only [signFor, decide_eq_true_eq]
  rw [printConversion_buffer, IntKind.buffer_eq, printFormattedInteger_append]
  unfold fieldOf IntKind.digits numeral
  by_cases hX : kind = .X
  · have hupper : upper { flags with uppercase := true } = upperDigit := by
      funext c
      simp [upper, upperDigit]
    rw [if_pos hX, if_pos hX, hupper, ← hsign]
    rfl
  · have hupper : upper flags = id := by
      funext c
      simp [upper, hflags]
    rw [if_neg hX, if_neg hX, hupper, hsign]

theorem IntKind.mem_digits {kind : IntKind} {v : Word} {c : Byte} (h : c ∈ kind.digits v) :
    ∃ d, d < kind.base ∧ c = (if kind = .X then upperDigit else id) (digitByte d) := by
  obtain ⟨b, hb, rfl⟩ := List.mem_map.mp h
  obtain ⟨d, hd, rfl⟩ := List.mem_map.mp (List.mem_reverse.mp hb)
  have := kind.base_bounds
  exact ⟨d, digitsOf_lt (by omega) hd, rfl⟩

theorem IntKind.digitValue_digit (kind : IntKind) {d : Nat} (h : d < kind.base) :
    digitValue ((if kind = .X then upperDigit else id) (digitByte d)) = d := by
  obtain ⟨hlower, hupper⟩ := digitValue_digitByte (Nat.lt_of_lt_of_le h kind.base_bounds.2)
  split
  · exact hupper
  · exact hlower

theorem IntKind.readDigits_digits (kind : IntKind) (v : Word) :
    readDigits kind.base (kind.digits v) = (kind.value v).natAbs := by
  have hlt : ∀ d ∈ (digitsOf kind.base (kind.value v).natAbs).reverse, d < kind.base := by
    have := kind.base_bounds
    exact fun d hd => digitsOf_lt (by omega) (List.mem_reverse.mp hd)
  have hfold : ∀ (ds : List Nat) (n : Nat), (∀ d ∈ ds, d < kind.base) →
      (ds.map fun d => (if kind = .X then upperDigit else id) (digitByte d)).foldl
        (fun n c => n * kind.base + digitValue c) n = ds.foldl (fun n d => n * kind.base + d) n := by
    intro ds
    induction ds with
    | nil => exact fun _ _ => rfl
    | cons d ds ih =>
      intro n hds
      rw [List.map_cons, List.foldl_cons, List.foldl_cons, kind.digitValue_digit (hds d List.mem_cons_self)]
      exact ih _ fun k hk => hds k (List.mem_cons_of_mem d hk)
  rw [readDigits, IntKind.digits, numeral, ← List.map_reverse, List.map_map]
  exact (hfold _ 0 hlt).trans (foldl_digitsOf _ _)

theorem IntKind.digits_ne_nil (kind : IntKind) (v : Word) : kind.digits v ≠ [] := by
  simp [IntKind.digits, numeral, digitsOf_ne_nil]

theorem IntKind.digits_leading {kind : IntKind} {v : Word} (h : (kind.digits v).head? = some (ch '0')) :
    kind.value v = 0 ∧ kind.digits v = [ch '0'] := by
  have hbounds := kind.base_bounds
  have hhead : (kind.digits v).head? = some ((if kind = .X then upperDigit else id)
      (digitByte ((digitsOf kind.base (kind.value v).natAbs).getLast (digitsOf_ne_nil _ _)))) := by
    rw [IntKind.digits, numeral, List.head?_map, List.head?_reverse, List.getLast?_map,
      List.getLast?_eq_getLast_of_ne_nil (digitsOf_ne_nil _ _)]
    rfl
  have hlast := digitsOf_lt (by omega : 1 < kind.base)
    (List.getLast_mem (digitsOf_ne_nil kind.base (kind.value v).natAbs))
  rw [hhead] at h
  have hchar := Option.some.inj h
  have hzero := kind.digitValue_digit hlast
  rw [hchar] at hzero
  have hvalue : kind.value v = 0 := Int.natAbs_eq_zero.mp (getLast_digitsOf hzero.symm)
  refine ⟨hvalue, ?_⟩
  rw [IntKind.digits, hvalue]
  cases kind <;> decide

theorem fieldOf_exact (kind : IntKind) (flags : Flags) (width : Nat) (v : Word) :
    Exact kind flags width v (fieldOf kind flags width v) where
  onePadding := by
    unfold fieldOf fieldFor
    cases flags.zero <;> cases flags.left <;> simp
  sign := rfl
  marker := rfl
  isDigit := by
    intro c hc
    obtain ⟨d, hd, rfl⟩ := IntKind.mem_digits hc
    rwa [kind.digitValue_digit hd]
  value := kind.readDigits_digits v
  leading := IntKind.digits_leading
  nonempty := kind.digits_ne_nil v
  lower := by
    intro hX c hc
    obtain ⟨d, hd, rfl⟩ := IntKind.mem_digits hc
    rw [if_neg hX]
    exact (digitByte_case (Nat.lt_of_lt_of_le hd kind.base_bounds.2)).1
  upper := by
    intro hX c hc
    obtain ⟨d, hd, rfl⟩ := IntKind.mem_digits hc
    rw [if_pos hX]
    exact (digitByte_case (Nat.lt_of_lt_of_le hd kind.base_bounds.2)).2
  length := by
    unfold fieldOf fieldFor Field.bytes
    cases flags.zero <;> cases flags.left <;> simp <;> omega

theorem readDigits_zeros (base k : Nat) (digits : List Byte) :
    readDigits base (List.replicate k (ch '0') ++ digits) = readDigits base digits := by
  have hzero : digitValue (ch '0') = 0 := by decide
  induction k with
  | zero => rfl
  | succ k ih =>
    rw [List.replicate_succ, List.cons_append, ← ih, readDigits, List.foldl_cons, hzero, Nat.zero_mul]
    rfl

/-- Zeros, digits and blanks are read as the digits. -/
theorem readDigits_takeWhile {base : Nat} (hbase : 1 < base ∧ base ≤ 36) {digits : List Byte}
    (hdigits : ∀ c ∈ digits, digitValue c < base) (k tail : Nat) :
    readDigits base ((List.replicate k (ch '0') ++ digits ++ List.replicate tail (ch ' ')).takeWhile
      fun c => digitValue c < base) = readDigits base digits := by
  have hblank : ¬ digitValue (ch ' ') < base := by
    have hvalue : digitValue (ch ' ') = 36 := by decide
    omega
  have hzero : digitValue (ch '0') < base := by
    have hvalue : digitValue (ch '0') = 0 := by decide
    omega
  have hall : ∀ c ∈ List.replicate k (ch '0') ++ digits, decide (digitValue c < base) = true := by
    intro c hc
    rcases List.mem_append.mp hc with hc | hc
    · rw [(List.mem_replicate.mp hc).2]
      exact decide_eq_true hzero
    · exact decide_eq_true (hdigits c hc)
  have htail : (List.replicate tail (ch ' ')).takeWhile (fun c => decide (digitValue c < base)) = [] := by
    cases tail with
    | zero => rfl
    | succ tail => simp [List.replicate_succ, hblank]
  rw [List.takeWhile_append_of_pos hall, htail, List.append_nil, readDigits_zeros]

/-- No blank and no sign. -/
def Plain (c : Byte) : Prop := c ≠ ch ' ' ∧ c ≠ ch '-' ∧ c ≠ ch '+'

theorem plain_of_digit {c : Byte} (h : digitValue c < 36) : Plain c := by
  refine ⟨?_, ?_, ?_⟩ <;> rintro rfl <;> exact absurd h (by decide)

/-- What follows the sign starts with a plain character. -/
theorem exists_plain {marker digits : List Byte} (k : Nat) (tail : List Byte)
    (hmarker : ∀ c ∈ marker.head?, Plain c) (hne : digits ≠ [])
    (hdigits : ∀ c ∈ digits, digitValue c < 36) :
    ∃ c cs, marker ++ (List.replicate k (ch '0') ++ digits ++ tail) = c :: cs ∧ Plain c := by
  cases marker with
  | cons c cs => exact ⟨c, _, rfl, hmarker c rfl⟩
  | nil =>
    cases k with
    | succ k => exact ⟨ch '0', _, rfl, plain_of_digit (by decide)⟩
    | zero =>
      cases digits with
      | nil => exact absurd rfl hne
      | cons d ds => exact ⟨d, _, rfl, plain_of_digit (hdigits d List.mem_cons_self)⟩

theorem dropWhile_blanks (k : Nat) {c : Byte} (h : c ≠ ch ' ') (cs : List Byte) :
    (List.replicate k (ch ' ') ++ c :: cs).dropWhile (· = ch ' ') = c :: cs := by
  rw [List.dropWhile_append_of_pos]
  · simp [h]
  · intro b hb
    exact decide_eq_true (List.mem_replicate.mp hb).2

/-- The blanks and the sign are taken off. -/
theorem recover_signed (base k : Nat) (flags : Flags) (negative : Prop) [Decidable negative] {c : Byte}
    (hc : Plain c) (cs : List Byte) :
    recover base (List.replicate k (ch ' ') ++ (signFor flags negative ++ c :: cs)) =
      let out := if base = 16 ∧ (c :: cs).take 2 = [ch '0', ch 'x'] then (c :: cs).drop 2 else c :: cs
      let n := readDigits base (out.takeWhile fun c => digitValue c < base)
      BitVec.ofInt 32 (if negative then -n else n) := by
  obtain ⟨hblank, hminus, hplus⟩ := hc
  have hsigns : ch '+' ≠ ch '-' ∧ ch '-' ≠ ch ' ' ∧ ch '+' ≠ ch ' ' := by decide
  unfold signFor recover
  by_cases hneg : negative
  · simp only [if_pos hneg, List.singleton_append, dropWhile_blanks k hsigns.2.1, List.head?_cons,
      true_or, if_true, List.tail_cons]
  · cases flags.sign with
    | true =>
      simp [hneg, dropWhile_blanks k hsigns.2.2, hsigns.1]
    | false =>
      simp [hneg, dropWhile_blanks k hblank, hminus, hplus]

/-- Without its prefix a hexadecimal number has no 'x'. -/
theorem take_ne_prefix {digits : List Byte} (hdigits : ∀ c ∈ digits, digitValue c < 16) (k tail : Nat) :
    (List.replicate k (ch '0') ++ digits ++ List.replicate tail (ch ' ')).take 2 ≠ [ch '0', ch 'x'] := by
  intro h
  have hmem : ch 'x' ∈ (List.replicate k (ch '0') ++ digits ++ List.replicate tail (ch ' ')).take 2 := by
    rw [h]
    exact List.mem_cons_of_mem _ (List.mem_singleton_self _)
  rcases List.mem_append.mp (List.mem_of_mem_take hmem) with hx | hx
  · rcases List.mem_append.mp hx with hx | hx
    · exact absurd (List.mem_replicate.mp hx).2 (by decide)
    · exact absurd (hdigits _ hx) (by decide)
  · exact absurd (List.mem_replicate.mp hx).2 (by decide)

/-- The prefix does not change what is read. -/
theorem readDigits_marker {base : Nat} (hbase : 1 < base ∧ base ≤ 16) (flags : Flags)
    {digits : List Byte} (hdigits : ∀ c ∈ digits, digitValue c < base) (k tail : Nat) :
    let out := markerFor flags base ++ (List.replicate k (ch '0') ++ digits ++ List.replicate tail (ch ' '))
    readDigits base ((if base = 16 ∧ out.take 2 = [ch '0', ch 'x'] then out.drop 2 else out).takeWhile
      fun c => digitValue c < base) = readDigits base digits := by
  have hread := readDigits_takeWhile (by omega : 1 < base ∧ base ≤ 36) hdigits
  intro out
  cases halternate : flags.alternate with
  | false =>
    have hout : out = List.replicate k (ch '0') ++ digits ++ List.replicate tail (ch ' ') := by
      simp [out, markerFor, halternate]
    have hno : ¬ (base = 16 ∧ out.take 2 = [ch '0', ch 'x']) := by
      rintro ⟨rfl, htake⟩
      rw [hout] at htake
      exact take_ne_prefix hdigits k tail htake
    rw [if_neg hno, hout]
    exact hread k tail
  | true =>
    by_cases hhex : base = 16
    · have hout : out = ch '0' :: ch 'x' :: (List.replicate k (ch '0') ++ digits ++ List.replicate tail (ch ' ')) := by
        simp [out, markerFor, halternate, hhex]
      rw [if_pos ⟨hhex, by rw [hout]; rfl⟩, hout]
      exact hread k tail
    · rw [if_neg fun h => hhex h.1]
      by_cases hoctal : base = 8
      · have hout : out = List.replicate (k + 1) (ch '0') ++ digits ++ List.replicate tail (ch ' ') := by
          simp [out, markerFor, halternate, hoctal, List.replicate_succ]
        rw [hout]
        exact hread (k + 1) tail
      · have hout : out = List.replicate k (ch '0') ++ digits ++ List.replicate tail (ch ' ') := by
          simp [out, markerFor, halternate, hhex, hoctal]
        rw [hout]
        exact hread k tail

theorem ofInt_value (kind : IntKind) (v : Word) : BitVec.ofInt 32 (kind.value v) = v := by
  unfold IntKind.value
  split
  · exact BitVec.ofInt_toInt
  · rw [BitVec.ofInt_natCast, BitVec.ofNat_toNat, BitVec.setWidth_eq]

/-- What a conversion prints tells its argument. -/
theorem recover_fieldOf (kind : IntKind) (flags : Flags) (width : Nat) (v : Word) :
    recover kind.base (fieldOf kind flags width v).bytes = v := by
  have hexact := fieldOf_exact kind flags width v
  have hbounds := kind.base_bounds
  obtain ⟨f, hf⟩ : ∃ f, f = fieldOf kind flags width v := ⟨_, rfl⟩
  rw [← hf] at hexact ⊢
  have hsign : f.sign = signFor flags (kind.value v < 0) := by rw [hf]; rfl
  have hmarker : f.marker = markerFor flags kind.base := by rw [hf]; rfl
  have hhead : ∀ c ∈ f.marker.head?, Plain c := by
    rw [hmarker]
    intro c hc
    unfold markerFor at hc
    split at hc
    · simp at hc
    · split at hc
      · simp at hc
        exact hc ▸ plain_of_digit (by decide)
      · split at hc
        · simp at hc
          exact hc ▸ plain_of_digit (by decide)
        · simp at hc
  obtain ⟨c, cs, hbody, hplain⟩ := exists_plain f.zeros (List.replicate f.tail (ch ' ')) hhead
    hexact.nonempty fun c hc => Nat.lt_of_lt_of_le (hexact.isDigit c hc) (by omega)
  have hbytes : f.bytes = List.replicate f.fore (ch ' ') ++ (signFor flags (kind.value v < 0) ++ c :: cs) := by
    rw [← hbody, ← hsign]
    simp [Field.bytes]
  have hread := readDigits_marker (by omega : 1 < kind.base ∧ kind.base ≤ 16) flags hexact.isDigit
    f.zeros f.tail
  simp only [← hmarker, hbody] at hread
  rw [hbytes, recover_signed _ _ _ _ hplain]
  simp only [hread, hexact.value]
  have hvalue : (if kind.value v < 0 then -((kind.value v).natAbs : Int) else (kind.value v).natAbs) =
      kind.value v := by
    split <;> omega
  rw [hvalue, ofInt_value]

/-- An integer conversion with any flags and width keeps to its buffer, prints the parts asked for,
and tells its argument. -/
theorem printConversion_exact (kind : IntKind) (left sign zero alternate : Bool) (width : Nat) (v : Word) :
    (kind.buffer v).length + 1 ≤ 36 ∧
      ∃ f, Exact kind ⟨left, sign, zero, false, alternate⟩ width v f ∧
        (∀ ap, printConversion ⟨⟨left, sign, zero, false, alternate⟩, width, kind.letter⟩ (.word v :: ap) =
          some (f.bytes, ap)) ∧ recover kind.base f.bytes = v :=
  ⟨Nat.le_trans (kind.buffer_length v) (by decide), fieldOf kind ⟨left, sign, zero, false, alternate⟩ width v,
    fieldOf_exact kind _ width v, fun ap => printConversion_fieldOf kind rfl width v ap,
    recover_fieldOf kind _ width v⟩

end CheviotBoot.Console
