import CheviotBoot.Lib.Steps
import CheviotBoot.Console.Rendering

namespace CheviotBoot.Console
open Lib

/-- Where `DoPrintf` looks at `*c` next: at the test of its outer loop, in the loop over the flags,
before and in the loop over the width, at the switch over the letter. At the end it looks no more,
nor where an argument was missing. -/
inductive Point
  | format | flags | width | digits | letter | ended | starved
  deriving DecidableEq

/-- The variables of `DoPrintf`, with `c` counted from `format`, and the characters printed. -/
structure Scanner where
  point : Point
  c : Nat
  flags : Flags
  width : Word
  ap : List Arg
  out : List Byte
  deriving DecidableEq

/-- The cases of the switch over the flags. -/
def setFlag (flags : Flags) (c : Byte) : Option Flags :=
  if c = ch '-' then some { flags with left := true }
  else if c = ch '+' then some { flags with sign := true }
  else if c = ch '#' then some { flags with alternate := true }
  else if c = ch '0' then some { flags with zero := true }
  else none

/-- One look at `*c`, and what is done about it. `text` is memory from `format` on. -/
def Scanner.step (text : Nat → Byte) (s : Scanner) : Scanner :=
  match s.point with
  | .format =>
    if text s.c = 0#8 then { s with point := .ended, out := s.out ++ [0#8] }
    else if text s.c = ch '%' then { s with point := .flags, c := s.c + 1, flags := {} }
    else { s with c := s.c + 1, out := s.out ++ [text s.c] }
  | .flags =>
    match setFlag s.flags (text s.c) with
    | some flags => { s with c := s.c + 1, flags }
    | none => { s with point := .width }
  | .width =>
    if isDigit (text s.c) then { s with point := .digits, width := 0#32 }
    else { s with point := .letter, width := 1#32 }
  | .digits =>
    if isDigit (text s.c) then
      { s with c := s.c + 1, width := s.width * 10#32 + BitVec.ofNat 32 (asciiToInt (text s.c)) }
    else { s with point := .letter }
  | .letter =>
    -- a width that has wrapped to a negative number pads nothing
    match printConversion ⟨s.flags, s.width.toInt.toNat, text s.c⟩ s.ap with
    | some (out, ap) => { s with point := .format, c := s.c + 1, ap, out := s.out ++ out }
    | none => { s with point := .starved }
  | .ended | .starved => s

/-- `DoPrintf` is called. -/
def Scanner.start (ap : List Arg) : Scanner := ⟨.format, 0, {}, 0#32, ap, []⟩

def Scanner.Halted (s : Scanner) : Prop := s.point = .ended ∨ s.point = .starved

instance (s : Scanner) : Decidable s.Halted := inferInstanceAs (Decidable (_ ∨ _))

/-- From `c` on there is this string, and a NUL. -/
def StringAt (text : Nat → Byte) (c : Nat) (s : List Byte) : Prop :=
  ∀ i, i ≤ s.length → text (c + i) = s.getD i 0#8

theorem stringAt_nil {text : Nat → Byte} {c : Nat} : StringAt text c [] ↔ text c = 0#8 := by
  simp [StringAt]

theorem stringAt_cons {text : Nat → Byte} {c : Nat} {b : Byte} {s : List Byte} :
    StringAt text c (b :: s) ↔ text c = b ∧ StringAt text (c + 1) s := by
  constructor
  · intro h
    refine ⟨h 0 (Nat.zero_le _), ?_⟩
    intro i hi
    have hnext := h (i + 1) (Nat.succ_le_succ hi)
    rw [Nat.add_assoc, Nat.add_comm 1]
    exact hnext
  · rintro ⟨hb, hs⟩ i hi
    cases i with
    | zero => exact hb
    | succ i =>
      have hnext := hs i (Nat.le_of_succ_le_succ hi)
      rwa [Nat.add_assoc, Nat.add_comm 1] at hnext

theorem setFlag_none {c : Byte} (h : PastFlags c) (flags : Flags) : setFlag flags c = none := by
  obtain ⟨h₁, h₂, h₃, h₄⟩ := h
  simp [setFlag, h₁, h₂, h₃, h₄]

theorem setFlag_byte (flags : Flags) (f : FlagChar) : setFlag flags f.byte = some (f.apply flags) := by
  cases f <;> rfl

/-- A character is a flag, or it is past the flags. -/
theorem flag_or_past (c : Byte) : (∃ f : FlagChar, f.byte = c) ∨ PastFlags c := by
  by_cases h₁ : c = ch '-'
  · exact Or.inl ⟨.minus, h₁.symm⟩
  · by_cases h₂ : c = ch '+'
    · exact Or.inl ⟨.plus, h₂.symm⟩
    · by_cases h₃ : c = ch '#'
      · exact Or.inl ⟨.hash, h₃.symm⟩
      · by_cases h₄ : c = ch '0'
        · exact Or.inl ⟨.zero, h₄.symm⟩
        · exact Or.inr ⟨h₁, h₂, h₃, h₄⟩

section
variable {text : Nat → Byte} {c : Nat} (flags : Flags) (width : Word) (ap : List Arg) (out : List Byte)

theorem step_nul (h : text c = 0#8) : Scanner.step text ⟨.format, c, flags, width, ap, out⟩ =
    ⟨.ended, c, flags, width, ap, out ++ [0#8]⟩ := by
  simp [Scanner.step, h]

theorem step_percent (h : text c = ch '%') : Scanner.step text ⟨.format, c, flags, width, ap, out⟩ =
    ⟨.flags, c + 1, {}, width, ap, out⟩ := by
  simp [Scanner.step, h, (by decide : ch '%' ≠ 0#8)]

theorem step_lit (hnul : text c ≠ 0#8) (hpercent : text c ≠ ch '%') :
    Scanner.step text ⟨.format, c, flags, width, ap, out⟩ =
      ⟨.format, c + 1, flags, width, ap, out ++ [text c]⟩ := by
  simp [Scanner.step, hnul, hpercent]

theorem step_flag {f : FlagChar} (h : text c = f.byte) :
    Scanner.step text ⟨.flags, c, flags, width, ap, out⟩ =
      ⟨.flags, c + 1, f.apply flags, width, ap, out⟩ := by
  simp [Scanner.step, h, setFlag_byte]

theorem step_past (h : PastFlags (text c)) : Scanner.step text ⟨.flags, c, flags, width, ap, out⟩ =
    ⟨.width, c, flags, width, ap, out⟩ := by
  simp [Scanner.step, setFlag_none h]

theorem step_width (h : isDigit (text c) = true) :
    Scanner.step text ⟨.width, c, flags, width, ap, out⟩ = ⟨.digits, c, flags, 0#32, ap, out⟩ := by
  simp [Scanner.step, h]

theorem step_noWidth (h : isDigit (text c) = false) :
    Scanner.step text ⟨.width, c, flags, width, ap, out⟩ = ⟨.letter, c, flags, 1#32, ap, out⟩ := by
  simp [Scanner.step, h]

theorem step_digit (h : isDigit (text c) = true) :
    Scanner.step text ⟨.digits, c, flags, width, ap, out⟩ =
      ⟨.digits, c + 1, flags, width * 10#32 + BitVec.ofNat 32 (asciiToInt (text c)), ap, out⟩ := by
  simp [Scanner.step, h]

theorem step_noDigit (h : isDigit (text c) = false) :
    Scanner.step text ⟨.digits, c, flags, width, ap, out⟩ = ⟨.letter, c, flags, width, ap, out⟩ := by
  simp [Scanner.step, h]

theorem step_letter {printed : List Byte × List Arg}
    (h : printConversion ⟨flags, width.toInt.toNat, text c⟩ ap = some printed) :
    Scanner.step text ⟨.letter, c, flags, width, ap, out⟩ =
      ⟨.format, c + 1, flags, width, printed.2, out ++ printed.1⟩ := by
  simp [Scanner.step, h]

theorem step_starved (h : printConversion ⟨flags, width.toInt.toNat, text c⟩ ap = none) :
    Scanner.step text ⟨.letter, c, flags, width, ap, out⟩ = ⟨.starved, c, flags, width, ap, out⟩ := by
  simp [Scanner.step, h]

end

theorem scanFlags_byte (flags : Flags) (f : FlagChar) (cs : List Byte) :
    scanFlags flags (f.byte :: cs) = scanFlags (f.apply flags) cs := by
  cases f <;> rfl

theorem scanFlags_past (flags : Flags) {c : Byte} (h : PastFlags c) (cs : List Byte) :
    scanFlags flags (c :: cs) = (flags, c :: cs) := scanFlags_spec [] flags cs h

variable {text : Nat → Byte}

/-- The loop over the flags, on the string it is in. -/
theorem steps_flags (cs : List Byte) {c : Nat} (h : StringAt text c cs) (flags : Flags) (width : Word)
    (ap : List Arg) (out : List Byte) :
    ∃ c', c' + (scanFlags flags cs).2.length = c + cs.length ∧ StringAt text c' (scanFlags flags cs).2 ∧
      StepsTo (Scanner.step text) ⟨.flags, c, flags, width, ap, out⟩
        ⟨.width, c', (scanFlags flags cs).1, width, ap, out⟩ := by
  induction cs generalizing c flags with
  | nil =>
    have hnul := stringAt_nil.mp h
    have hpast : PastFlags (text c) := hnul ▸ by decide
    exact ⟨c, rfl, h, StepsTo.head (step_past flags width ap out hpast) (StepsTo.refl _)⟩
  | cons b cs ih =>
    obtain ⟨hb, hcs⟩ := stringAt_cons.mp h
    rcases flag_or_past b with ⟨f, rfl⟩ | hpast
    · rw [scanFlags_byte]
      obtain ⟨c', hlength, hrest, hsteps⟩ := ih hcs (f.apply flags)
      refine ⟨c', ?_, hrest, StepsTo.head (step_flag flags width ap out hb) hsteps⟩
      rw [hlength, List.length_cons, Nat.add_assoc, Nat.add_comm 1]
    · rw [scanFlags_past flags hpast]
      exact ⟨c, rfl, h, StepsTo.head (step_past flags width ap out (hb ▸ hpast)) (StepsTo.refl _)⟩

/-- The loop over the digits of the width. -/
theorem steps_digits (cs : List Byte) {c : Nat} (h : StringAt text c cs) (flags : Flags) (width : Nat)
    (ap : List Arg) (out : List Byte) :
    ∃ c', c' + (scanDigits width cs).2.length = c + cs.length ∧ StringAt text c' (scanDigits width cs).2 ∧
      StepsTo (Scanner.step text) ⟨.digits, c, flags, BitVec.ofNat 32 width, ap, out⟩
        ⟨.letter, c', flags, BitVec.ofNat 32 (scanDigits width cs).1, ap, out⟩ := by
  induction cs generalizing c width with
  | nil =>
    have hnul := stringAt_nil.mp h
    have hdigit : isDigit (text c) = false := hnul ▸ by decide
    exact ⟨c, rfl, h, StepsTo.head (step_noDigit flags _ ap out hdigit) (StepsTo.refl _)⟩
  | cons b cs ih =>
    obtain ⟨hb, hcs⟩ := stringAt_cons.mp h
    rw [scanDigits]
    cases hdigit : isDigit b with
    | true =>
      obtain ⟨c', hlength, hrest, hsteps⟩ := ih hcs (width * 10 + asciiToInt b)
      rw [if_pos rfl]
      refine ⟨c', ?_, hrest, StepsTo.head (step_digit flags _ ap out (hb ▸ hdigit)) ?_⟩
      · rw [hlength, List.length_cons, Nat.add_assoc, Nat.add_comm 1]
      · rwa [hb, ← BitVec.ofNat_mul, ← BitVec.ofNat_add]
    | false =>
      rw [if_neg Bool.false_ne_true]
      exact ⟨c, rfl, h, StepsTo.head (step_noDigit flags _ ap out (hb ▸ hdigit)) (StepsTo.refl _)⟩

theorem steps_width (cs : List Byte) {c : Nat} (h : StringAt text c cs) (flags : Flags) (width : Word)
    (ap : List Arg) (out : List Byte) :
    ∃ c', c' + (scanWidth cs).2.length = c + cs.length ∧ StringAt text c' (scanWidth cs).2 ∧
      StepsTo (Scanner.step text) ⟨.width, c, flags, width, ap, out⟩
        ⟨.letter, c', flags, BitVec.ofNat 32 (scanWidth cs).1, ap, out⟩ := by
  cases cs with
  | nil =>
    have hnul := stringAt_nil.mp h
    have hdigit : isDigit (text c) = false := hnul ▸ by decide
    exact ⟨c, rfl, h, StepsTo.head (step_noWidth flags width ap out hdigit) (StepsTo.refl _)⟩
  | cons b cs =>
    obtain ⟨hb, _⟩ := stringAt_cons.mp h
    rw [scanWidth]
    cases hdigit : isDigit b with
    | true =>
      obtain ⟨c', hlength, hrest, hsteps⟩ := steps_digits (b :: cs) h flags 0 ap out
      rw [if_pos rfl]
      exact ⟨c', hlength, hrest, StepsTo.head (step_width flags width ap out (hb ▸ hdigit)) hsteps⟩
    | false =>
      rw [if_neg Bool.false_ne_true]
      exact ⟨c, rfl, h, StepsTo.head (step_noWidth flags width ap out (hb ▸ hdigit)) (StepsTo.refl _)⟩

/-- From behind a '%' to the switch over the letter. -/
theorem steps_letter (cs : List Byte) {c : Nat} (h : StringAt text c cs) (width : Word) (ap : List Arg)
    (out : List Byte) :
    ∃ c', c' + (scanWidth (scanFlags {} cs).2).2.length = c + cs.length ∧
      StringAt text c' (scanWidth (scanFlags {} cs).2).2 ∧
      StepsTo (Scanner.step text) ⟨.flags, c, {}, width, ap, out⟩ ⟨.letter, c', (scanFlags {} cs).1,
        BitVec.ofNat 32 (scanWidth (scanFlags {} cs).2).1, ap, out⟩ := by
  obtain ⟨c₁, hlength₁, hrest₁, hflags⟩ := steps_flags cs h {} width ap out
  obtain ⟨c₂, hlength₂, hrest₂, hwidth⟩ := steps_width _ hrest₁ (scanFlags {} cs).1 width ap out
  exact ⟨c₂, hlength₂.trans hlength₁, hrest₂, hflags.trans hwidth⟩

theorem scanFlags_suffix (flags : Flags) (cs : List Byte) : (scanFlags flags cs).2 <:+ cs := by
  induction cs generalizing flags with
  | nil => exact List.suffix_refl _
  | cons b cs ih =>
    rcases flag_or_past b with ⟨f, rfl⟩ | hpast
    · rw [scanFlags_byte]
      exact (ih (f.apply flags)).trans (List.suffix_cons _ cs)
    · rw [scanFlags_past flags hpast]

theorem scanDigits_suffix (width : Nat) (cs : List Byte) : (scanDigits width cs).2 <:+ cs := by
  induction cs generalizing width with
  | nil => exact List.suffix_refl _
  | cons b cs ih =>
    rw [scanDigits]
    split
    · exact (ih _).trans (List.suffix_cons b cs)
    · exact List.suffix_refl _

theorem scanWidth_suffix (cs : List Byte) : (scanWidth cs).2 <:+ cs := by
  cases cs with
  | nil => exact List.suffix_refl _
  | cons b cs =>
    rw [scanWidth]
    split
    · exact scanDigits_suffix 0 (b :: cs)
    · exact List.suffix_refl _

/-- All that `doPrintf` does about a conversion. -/
theorem doPrintf_percent {cs : List Byte} {ap : List Arg} {printed : List Byte}
    (h : doPrintf (ch '%' :: cs) ap = some printed) :
    ∃ letter rest got ap' more, (scanWidth (scanFlags {} cs).2).2 = letter :: rest ∧
      (scanWidth (scanFlags {} cs).2).1 < 2 ^ 31 ∧
      printConversion ⟨(scanFlags {} cs).1, (scanWidth (scanFlags {} cs).2).1, letter⟩ ap = some (got, ap') ∧
      doPrintf rest ap' = some more ∧ printed = got ++ more := by
  rw [doPrintf, if_pos rfl] at h
  split at h
  · cases h
  · rename_i conversion rest hscan
    obtain ⟨⟨got, ap'⟩, hgot, htail⟩ := Option.bind_eq_some_iff.mp h
    obtain ⟨more, hmore, rfl⟩ := Option.map_eq_some_iff.mp htail
    unfold scanConversion at hscan
    cases hrest : (scanWidth (scanFlags {} cs).2).2 with
    | nil => simp [hrest] at hscan
    | cons letter tail =>
      simp only [hrest] at hscan
      split at hscan
      · rename_i hwidth
        cases hscan
        exact ⟨letter, rest, got, ap', more, rfl, hwidth, hgot, hmore, rfl⟩
      · cases hscan

/-- A width that fits `int32_t` is the number its digits spell. -/
theorem width_toInt {n : Nat} (h : n < 2 ^ 31) : (BitVec.ofNat 32 n : Word).toInt.toNat = n := by
  rw [BitVec.toInt_eq_toNat_of_lt (by rw [BitVec.toNat_ofNat]; omega), BitVec.toNat_ofNat]
  omega

/-- Where the format and the arguments are enough for `doPrintf`, the scanner prints what it prints,
and ends at the NUL. -/
theorem doPrintf_steps {cs : List Byte} {ap : List Arg} {printed : List Byte}
    (hprinted : doPrintf cs ap = some printed) (hcs : 0#8 ∉ cs) {c : Nat} (h : StringAt text c cs)
    (flags : Flags) (width : Word) (out : List Byte) :
    ∃ t, StepsTo (Scanner.step text) ⟨.format, c, flags, width, ap, out⟩ t ∧
      t.point = .ended ∧ t.c = c + cs.length ∧ t.out = out ++ printed := by
  obtain ⟨n, hn⟩ : ∃ n, cs.length = n := ⟨_, rfl⟩
  induction n using Nat.strongRecOn generalizing cs ap printed c flags width out with
  | ind n ih =>
    cases cs with
    | nil =>
      have hnul := stringAt_nil.mp h
      rw [doPrintf] at hprinted
      obtain rfl := Option.some.inj hprinted
      exact ⟨_, StepsTo.head (step_nul flags width ap out hnul) (StepsTo.refl _), rfl, rfl, rfl⟩
    | cons b cs =>
      obtain ⟨hb, hrest⟩ := stringAt_cons.mp h
      obtain ⟨hb0, htail⟩ := not_or.mp (mt List.mem_cons.mpr hcs)
      by_cases hpercent : b = ch '%'
      · subst hpercent
        obtain ⟨letter, rest, got, ap', more, hrest', hwidth, hgot, hmore, rfl⟩ := doPrintf_percent hprinted
        obtain ⟨c', hlength, hat, hletter⟩ := steps_letter cs hrest width ap out
        have hsuffix := (scanWidth_suffix _).trans (scanFlags_suffix {} cs)
        rw [hrest'] at hlength hat hsuffix
        obtain ⟨hchar, hat⟩ := stringAt_cons.mp hat
        have hshort := hsuffix.length_le
        rw [List.length_cons] at hlength hshort
        have hnul : 0#8 ∉ rest := fun hmem => htail (hsuffix.subset (List.mem_cons_of_mem letter hmem))
        obtain ⟨t, hsteps, hend, htc, htout⟩ := ih rest.length (by rw [← hn, List.length_cons]; omega)
          hmore hnul hat (scanFlags {} cs).1 (BitVec.ofNat 32 (scanWidth (scanFlags {} cs).2).1)
          (out ++ got) rfl
        rw [← hchar, ← width_toInt hwidth] at hgot
        refine ⟨t, StepsTo.head (step_percent flags width ap out hb)
          (hletter.trans (StepsTo.head (step_letter _ _ ap out hgot) hsteps)), hend, ?_, ?_⟩
        · rw [htc, List.length_cons]
          omega
        · rw [htout, List.append_assoc]
      · rw [doPrintf, if_neg hpercent] at hprinted
        obtain ⟨more, hmore, rfl⟩ := Option.map_eq_some_iff.mp hprinted
        obtain ⟨t, hsteps, hend, htc, htout⟩ := ih cs.length (by rw [← hn, List.length_cons]; omega)
          hmore htail hrest flags width (out ++ [b]) rfl
        have hstep := step_lit flags width ap out (hb ▸ Ne.symm hb0) (hb ▸ hpercent)
        rw [hb] at hstep
        refine ⟨t, StepsTo.head hstep hsteps, hend, ?_, ?_⟩
        · rw [htc, List.length_cons, Nat.add_assoc, Nat.add_comm 1]
        · rw [htout, List.append_assoc, List.singleton_append]

end CheviotBoot.Console
