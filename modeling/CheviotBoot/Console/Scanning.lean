import CheviotBoot.Console.Format

namespace CheviotBoot.Console
open Lib

def FlagChar.apply (flags : Flags) : FlagChar → Flags
  | .minus => { flags with left := true }
  | .plus => { flags with sign := true }
  | .hash => { flags with alternate := true }
  | .zero => { flags with zero := true }

/-- The flags a specification sets. -/
def FieldSpec.toFlags (spec : FieldSpec) : Flags := spec.flags.foldl FlagChar.apply {}

def FieldSpec.toWidth (spec : FieldSpec) : Nat := spec.width.elim 1 Subtype.val

/-- No flag is meant by this character. -/
def PastFlags (c : Byte) : Prop := c ≠ ch '-' ∧ c ≠ ch '+' ∧ c ≠ ch '#' ∧ c ≠ ch '0'

instance (c : Byte) : Decidable (PastFlags c) := inferInstanceAs (Decidable (_ ∧ _))

theorem scanFlags_spec (fs : List FlagChar) (flags : Flags) {c : Byte} (cs : List Byte)
    (hc : PastFlags c) :
    scanFlags flags (fs.map FlagChar.byte ++ c :: cs) = (fs.foldl FlagChar.apply flags, c :: cs) := by
  induction fs generalizing flags with
  | nil =>
    obtain ⟨h₁, h₂, h₃, h₄⟩ := hc
    simp [scanFlags, h₁, h₂, h₃, h₄]
  | cons f fs ih =>
    rw [List.map_cons, List.cons_append, List.foldl_cons, ← ih]
    cases f <;> rfl

theorem foldl_flags (fs : List FlagChar) (flags : Flags) :
    (fs.foldl FlagChar.apply flags).left = (flags.left || decide (.minus ∈ fs)) ∧
      (fs.foldl FlagChar.apply flags).sign = (flags.sign || decide (.plus ∈ fs)) ∧
      (fs.foldl FlagChar.apply flags).alternate = (flags.alternate || decide (.hash ∈ fs)) ∧
      (fs.foldl FlagChar.apply flags).zero = (flags.zero || decide (.zero ∈ fs)) ∧
      (fs.foldl FlagChar.apply flags).uppercase = flags.uppercase := by
  induction fs generalizing flags with
  | nil => simp
  | cons f fs ih =>
    obtain ⟨h₁, h₂, h₃, h₄, h₅⟩ := ih (f.apply flags)
    rw [List.foldl_cons, h₁, h₂, h₃, h₄, h₅]
    cases f <;> simp [FlagChar.apply]

theorem digitByte_digit {d : Nat} (h : d < 10) :
    isDigit (digitByte d) = true ∧ asciiToInt (digitByte d) = d := by
  have hall : ∀ d : Fin 10, isDigit (digitByte d) = true ∧ asciiToInt (digitByte d) = d := by decide
  exact hall ⟨d, h⟩

theorem digitByte_pastFlags {d : Nat} (hpos : 0 < d) (h : d < 10) : PastFlags (digitByte d) := by
  have hall : ∀ d : Fin 10, 0 < d.val → PastFlags (digitByte d) := by decide
  exact hall ⟨d, h⟩ hpos

theorem scanDigits_spec {ds : List Nat} (hds : ∀ d ∈ ds, d < 10) (width : Nat) {c : Byte}
    (cs : List Byte) (hc : isDigit c = false) : scanDigits width (ds.map digitByte ++ c :: cs) =
      (ds.foldl (fun width d => width * 10 + d) width, c :: cs) := by
  induction ds generalizing width with
  | nil => simp [scanDigits, hc]
  | cons d ds ih =>
    obtain ⟨hdigit, hvalue⟩ := digitByte_digit (hds d List.mem_cons_self)
    rw [List.map_cons, List.cons_append, scanDigits, if_pos hdigit, hvalue, List.foldl_cons]
    exact ih (fun d hd => hds d (List.mem_cons_of_mem _ hd)) _

/-- The scanned value of a numeral is its number. -/
theorem scanDigits_numeral (n : Nat) {c : Byte} (cs : List Byte) (hc : isDigit c = false) :
    scanDigits 0 (numeral 10 n ++ c :: cs) = (n, c :: cs) := by
  have hds : ∀ d ∈ (digitsOf 10 n).reverse, d < 10 :=
    fun d hd => digitsOf_lt (by decide) (List.mem_reverse.mp hd)
  rw [numeral, ← List.map_reverse, scanDigits_spec hds 0 cs hc, foldl_digitsOf]

/-- A positive numeral starts with a digit that is no flag. -/
theorem numeral_head {n : Nat} (hn : 0 < n) :
    ∃ c cs, numeral 10 n = c :: cs ∧ PastFlags c ∧ isDigit c = true := by
  have hne : n ≠ 0 := by omega
  have hnil : Nat.digits 10 n ≠ [] := Nat.digits_ne_nil_iff_ne_zero.mpr hne
  have hlast := Nat.getLast_digit_ne_zero 10 hne
  have hlt := Nat.digits_lt_base (by decide : 1 < 10) (List.getLast_mem hnil)
  refine ⟨digitByte ((Nat.digits 10 n).getLast hnil),
    ((Nat.digits 10 n).dropLast.map digitByte).reverse, ?_,
    digitByte_pastFlags (Nat.pos_of_ne_zero hlast) hlt, (digitByte_digit hlt).1⟩
  rw [numeral, digitsOf, if_neg hne]
  conv_lhs => rw [← List.dropLast_append_getLast hnil]
  simp

/-- A conversion is scanned as it was specified. -/
theorem scanConversion_spec (spec : FieldSpec) {letter : Byte} (cs : List Byte)
    (hflag : PastFlags letter)
    (hdigit : isDigit letter = false) : scanConversion (spec.bytes ++ letter :: cs) =
      some (⟨spec.toFlags, spec.toWidth, letter⟩, cs) := by
  unfold scanConversion FieldSpec.bytes FieldSpec.toFlags FieldSpec.toWidth
  cases hw : spec.width with
  | none =>
    simp only [Option.elim, List.append_nil,
      scanFlags_spec spec.flags {} cs hflag, scanWidth, hdigit, Bool.false_eq_true, if_false]
    rfl
  | some n =>
    obtain ⟨c, more, hnum, hpast, hfirst⟩ := numeral_head n.property.1
    have hscan := scanDigits_numeral n.val cs hdigit
    rw [hnum, List.cons_append] at hscan
    simp only [Option.elim, hnum, List.append_assoc, List.cons_append,
      scanFlags_spec spec.flags {} (more ++ letter :: cs) hpast, scanWidth, hfirst, if_true, hscan, n.property.2]

theorem IntKind.letter_plain (kind : IntKind) :
    PastFlags kind.letter ∧ isDigit kind.letter = false := by
  cases kind <;> decide

end CheviotBoot.Console
