import CheviotBoot.Console.Grammar
import CheviotBoot.Console.Scanner

namespace CheviotBoot.Console
open Lib

/-- What a format string may be made of: characters that open no conversion, and conversions with
the letter they end in, known or not. -/
inductive Piece
  | lit (c : Byte) (notPercent : c ≠ ch '%')
  | conversion (flags : List FlagChar) (digits : List (Fin 10)) (letter : Byte)
      (noZero : digits.head? ≠ some 0) (notDigit : isDigit letter = false)
      (notFlag : digits = [] → PastFlags letter)

def Piece.bytes : Piece → List Byte
  | .lit c _ => [c]
  | .conversion flags digits letter _ _ _ =>
    ch '%' :: (flags.map FlagChar.byte ++ (digitBytes digits ++ [letter]))

/-- No conversion of the format is cut off by its NUL. -/
def Whole (format : List Byte) : Prop := ∃ pieces : List Piece, pieces.flatMap Piece.bytes = format

/-- The scanner after `k` steps. -/
def Scanner.after (text : Nat → Byte) (ap : List Arg) (k : Nat) : Scanner :=
  (Scanner.step text)^[k] (Scanner.start ap)

/-- The test of the outer loop, where it succeeds. -/
def Scanner.entersRound (text : Nat → Byte) (s : Scanner) : Bool :=
  decide (s.point = .format) && decide (text s.c ≠ 0#8)

/-- The rounds of the outer loop that begin in the first `k` steps. -/
def rounds (text : Nat → Byte) (ap : List Arg) (k : Nat) : Nat :=
  (List.range k).countP fun j => (Scanner.after text ap j).entersRound text

/-- `DoPrintf` looks at nothing past the NUL at `length`, goes round no more often than there are
characters before it, and ends. -/
structure Contained (text : Nat → Byte) (length : Nat) (ap : List Arg) : Prop where
  reads : ∀ k, ¬ (Scanner.after text ap k).Halted → (Scanner.after text ap k).c ≤ length
  rounds : ∀ k, rounds text ap k ≤ length
  ends : ∃ k, (Scanner.after text ap k).Halted

/-- From this point of the scan the string ahead goes on to the end of its last conversion. -/
def Point.finishes : Point → List Byte → Bool
  | .format, [] => true
  | .format, b :: cs => if b = ch '%' then Point.flags.finishes cs else Point.format.finishes cs
  | .flags, b :: cs =>
    if PastFlags b then
      if isDigit b then Point.digits.finishes cs else Point.format.finishes cs
    else Point.flags.finishes cs
  | .width, b :: cs | .digits, b :: cs =>
    if isDigit b then Point.digits.finishes cs else Point.format.finishes cs
  | .letter, _ :: cs => Point.format.finishes cs
  | .flags, [] | .width, [] | .digits, [] | .letter, [] => false
  | .ended, _ | .starved, _ => true

theorem flag_not_past (f : FlagChar) : ¬ PastFlags f.byte := by
  cases f <;> decide

/-- A digit of a width. -/
theorem isDigit_cases {b : Byte} (h : isDigit b = true) : ∃ d : Fin 10, digitByte d.val = b := by
  simp only [isDigit, Bool.and_eq_true, decide_eq_true_eq] at h
  have hlow : 48 ≤ b.toNat := h.1
  have hhigh : b.toNat ≤ 57 := h.2
  refine ⟨⟨b.toNat - 48, by omega⟩, BitVec.eq_of_toNat_eq ?_⟩
  rw [digitByte, if_pos (by change b.toNat - 48 < 10; omega), BitVec.toNat_ofNat]
  change (48 + (b.toNat - 48)) % 256 = b.toNat
  omega

theorem finishes_flag (f : FlagChar) (cs : List Byte) :
    Point.flags.finishes (f.byte :: cs) = Point.flags.finishes cs := by
  rw [Point.finishes, if_neg (flag_not_past f)]

/-- Past the flags a conversion goes on as past its first digits. -/
theorem finishes_past {b : Byte} (h : PastFlags b) (cs : List Byte) :
    Point.flags.finishes (b :: cs) = Point.digits.finishes (b :: cs) := by
  rw [Point.finishes, if_pos h, Point.finishes]

theorem finishes_digits (digits : List (Fin 10)) {letter : Byte} (h : isDigit letter = false)
    (cs : List Byte) :
    Point.digits.finishes (digitBytes digits ++ letter :: cs) = Point.format.finishes cs := by
  induction digits with
  | nil => simp [digitBytes, Point.finishes, h]
  | cons d digits ih =>
    have hdigit := (digitByte_digit d.isLt).1
    rw [digitBytes, List.map_cons, List.cons_append, Point.finishes, if_pos hdigit]
    exact ih

theorem finishes_conversion (flags : List FlagChar) {digits : List (Fin 10)} {letter : Byte}
    (hzero : digits.head? ≠ some 0) (hdigit : isDigit letter = false)
    (hflag : digits = [] → PastFlags letter) (cs : List Byte) :
    Point.flags.finishes (flags.map FlagChar.byte ++ (digitBytes digits ++ letter :: cs)) =
      Point.format.finishes cs := by
  induction flags with
  | nil =>
    rw [List.map_nil, List.nil_append, ← finishes_digits digits hdigit cs]
    cases digits with
    | nil => exact finishes_past (hflag rfl) cs
    | cons d digits =>
      have hpos : 0 < d.val := Nat.pos_of_ne_zero fun h => hzero (congrArg some (Fin.ext h))
      exact finishes_past (digitByte_pastFlags hpos d.isLt) _
  | cons f flags ih =>
    rw [List.map_cons, List.cons_append, finishes_flag]
    exact ih

theorem finishes_digits_some {cs : List Byte} (h : Point.digits.finishes cs = true) :
    ∃ digits letter rest, cs = digitBytes digits ++ letter :: rest ∧ isDigit letter = false ∧
      Point.format.finishes rest = true := by
  induction cs with
  | nil => cases h
  | cons b cs ih =>
    rw [Point.finishes] at h
    cases hdigit : isDigit b with
    | true =>
      rw [hdigit, if_pos rfl] at h
      obtain ⟨digits, letter, rest, hcs, hletter, hrest⟩ := ih h
      obtain ⟨d, hd⟩ := isDigit_cases hdigit
      refine ⟨d :: digits, letter, rest, ?_, hletter, hrest⟩
      rw [hcs, ← hd]
      rfl
    | false =>
      rw [hdigit, if_neg Bool.false_ne_true] at h
      exact ⟨[], b, cs, rfl, hdigit, h⟩

theorem finishes_flags_some {cs : List Byte} (h : Point.flags.finishes cs = true) :
    ∃ flags digits letter rest, cs = List.map FlagChar.byte flags ++ (digitBytes digits ++ letter :: rest) ∧
      digits.head? ≠ some 0 ∧ isDigit letter = false ∧ (digits = [] → PastFlags letter) ∧
      Point.format.finishes rest = true := by
  induction cs with
  | nil => cases h
  | cons b cs ih =>
    rcases flag_or_past b with ⟨f, rfl⟩ | hpast
    · rw [finishes_flag] at h
      obtain ⟨flags, digits, letter, rest, hcs, hrest⟩ := ih h
      refine ⟨f :: flags, digits, letter, rest, ?_, hrest⟩
      rw [hcs]
      rfl
    · rw [finishes_past hpast] at h
      obtain ⟨digits, letter, rest, hcs, hletter, hrest⟩ := finishes_digits_some h
      refine ⟨[], digits, letter, rest, hcs, ?_, hletter, ?_, hrest⟩
      · cases digits with
        | nil => simp
        | cons d digits =>
          intro hzero
          obtain rfl := Option.some.inj hzero
          rw [(List.cons.inj hcs).1] at hpast
          exact absurd hpast (by decide)
      · rintro rfl
        rwa [(List.cons.inj hcs).1] at hpast

/-- The grammar is what the scan can finish. -/
theorem whole_iff (format : List Byte) : Whole format ↔ Point.format.finishes format = true := by
  constructor
  · rintro ⟨pieces, rfl⟩
    induction pieces with
    | nil => rfl
    | cons piece pieces ih =>
      rw [List.flatMap_cons]
      cases piece with
      | lit c notPercent =>
        rw [Piece.bytes, List.singleton_append, Point.finishes, if_neg notPercent]
        exact ih
      | conversion flags digits letter noZero notDigit notFlag =>
        rw [Piece.bytes, List.cons_append, List.append_assoc, List.append_assoc, List.singleton_append,
          Point.finishes, if_pos rfl, finishes_conversion flags noZero notDigit notFlag]
        exact ih
  · obtain ⟨n, hn⟩ : ∃ n, format.length = n := ⟨_, rfl⟩
    intro h
    induction n using Nat.strongRecOn generalizing format with
    | ind n ih =>
      cases format with
      | nil => exact ⟨[], rfl⟩
      | cons b cs =>
        rw [List.length_cons] at hn
        rw [Point.finishes] at h
        by_cases hpercent : b = ch '%'
        · rw [if_pos hpercent] at h
          obtain ⟨flags, digits, letter, rest, hcs, hzero, hletter, hflag, hrest⟩ := finishes_flags_some h
          have hlength : rest.length < n := by
            rw [← hn, hcs]
            simp
            omega
          obtain ⟨pieces, hpieces⟩ := ih rest.length hlength rest rfl hrest
          refine ⟨.conversion flags digits letter hzero hletter hflag :: pieces, ?_⟩
          rw [List.flatMap_cons, hpieces, hpercent, hcs, Piece.bytes]
          simp
        · rw [if_neg hpercent] at h
          obtain ⟨pieces, hpieces⟩ := ih cs.length (by omega) cs rfl h
          refine ⟨.lit b hpercent :: pieces, ?_⟩
          rw [List.flatMap_cons, hpieces]
          rfl

/-- The scan is inside a string of `n` characters, and will finish it. -/
def OnTrack (text : Nat → Byte) (n : Nat) (s : Scanner) : Prop :=
  s.c ≤ n ∧ (s.Halted ∨ ∃ cs, StringAt text s.c cs ∧ 0#8 ∉ cs ∧ s.c + cs.length = n ∧
    s.point.finishes cs = true)

/-- What is left to look at: each character at most four times. -/
def Scanner.budget (n : Nat) (s : Scanner) : Nat :=
  match s.point with
  | .flags => 4 * (n - s.c) + 4
  | .width => 4 * (n - s.c) + 3
  | .digits => 4 * (n - s.c) + 2
  | .letter | .format => 4 * (n - s.c) + 1
  | .ended | .starved => 0

section
variable {text : Nat → Byte} {n : Nat}

theorem OnTrack.ahead {s : Scanner} {cs : List Byte} (hat : StringAt text s.c cs) (hnul : 0#8 ∉ cs)
    (hlength : s.c + cs.length = n) (h : s.point.finishes cs = true) : OnTrack text n s :=
  ⟨by omega, Or.inr ⟨cs, hat, hnul, hlength, h⟩⟩

theorem OnTrack.halted {s : Scanner} (hc : s.c ≤ n) (h : s.Halted) : OnTrack text n s := ⟨hc, Or.inl h⟩

theorem Scanner.Halted.step {s : Scanner} (h : s.Halted) : s.step text = s := by
  obtain ⟨point, c, flags, width, ap, out⟩ := s
  rcases h with h | h
  · obtain rfl : point = .ended := h
    rfl
  · obtain rfl : point = .starved := h
    rfl

/-- One step keeps on track, and uses something up. -/
theorem OnTrack.step {s : Scanner} (h : OnTrack text n s) :
    OnTrack text n (s.step text) ∧ (¬ s.Halted → (s.step text).budget n < s.budget n) := by
  obtain ⟨hc, hhalted | ⟨cs, hat, hnul, hlength, hfinishes⟩⟩ := h
  · rw [hhalted.step]
    exact ⟨.halted hc hhalted, fun hrun => absurd hhalted hrun⟩
  obtain ⟨point, c, flags, width, ap, out⟩ := s
  cases cs with
  | nil =>
    have hchar : text c = 0#8 := stringAt_nil.mp hat
    cases point with
    | format =>
      rw [step_nul flags width ap out hchar]
      exact ⟨.halted hc (Or.inl rfl), fun _ => Nat.succ_pos _⟩
    | flags | width | digits | letter => cases hfinishes
    | ended => exact ⟨.halted hc (Or.inl rfl), fun hrun => absurd (Or.inl rfl) hrun⟩
    | starved => exact ⟨.halted hc (Or.inr rfl), fun hrun => absurd (Or.inr rfl) hrun⟩
  | cons b cs =>
    obtain ⟨hchar, hrest⟩ := stringAt_cons.mp hat
    obtain ⟨hb, htail⟩ := not_or.mp (mt List.mem_cons.mpr hnul)
    subst hchar
    change c + (cs.length + 1) = n at hlength
    have hnext : c + 1 + cs.length = n := by omega
    cases point with
    | format =>
      rw [Point.finishes] at hfinishes
      by_cases hpercent : text c = ch '%'
      · rw [if_pos hpercent] at hfinishes
        rw [step_percent flags width ap out hpercent]
        exact ⟨.ahead hrest htail hnext hfinishes, fun _ => by simp only [Scanner.budget]; omega⟩
      · rw [if_neg hpercent] at hfinishes
        rw [step_lit flags width ap out (Ne.symm hb) hpercent]
        exact ⟨.ahead hrest htail hnext hfinishes, fun _ => by simp only [Scanner.budget]; omega⟩
    | flags =>
      rcases flag_or_past (text c) with ⟨f, hf⟩ | hpast
      · change Point.flags.finishes (text c :: cs) = true at hfinishes
        rw [← hf, finishes_flag] at hfinishes
        rw [step_flag flags width ap out hf.symm]
        exact ⟨.ahead hrest htail hnext hfinishes, fun _ => by simp only [Scanner.budget]; omega⟩
      · rw [finishes_past hpast] at hfinishes
        rw [step_past flags width ap out hpast]
        exact ⟨.ahead hat hnul hlength hfinishes, fun _ => by simp only [Scanner.budget]; omega⟩
    | width =>
      rw [Point.finishes] at hfinishes
      cases hdigit : isDigit (text c) with
      | true =>
        rw [step_width flags width ap out hdigit]
        refine ⟨.ahead hat hnul hlength ?_, fun _ => by simp only [Scanner.budget]; omega⟩
        rwa [Point.finishes]
      | false =>
        rw [hdigit, if_neg Bool.false_ne_true] at hfinishes
        rw [step_noWidth flags width ap out hdigit]
        exact ⟨.ahead hat hnul hlength hfinishes, fun _ => by simp only [Scanner.budget]; omega⟩
    | digits =>
      rw [Point.finishes] at hfinishes
      cases hdigit : isDigit (text c) with
      | true =>
        rw [hdigit, if_pos rfl] at hfinishes
        rw [step_digit flags width ap out hdigit]
        exact ⟨.ahead hrest htail hnext hfinishes, fun _ => by simp only [Scanner.budget]; omega⟩
      | false =>
        rw [hdigit, if_neg Bool.false_ne_true] at hfinishes
        rw [step_noDigit flags width ap out hdigit]
        exact ⟨.ahead hat hnul hlength hfinishes, fun _ => by simp only [Scanner.budget]; omega⟩
    | letter =>
      cases hprint : printConversion ⟨flags, width.toInt.toNat, text c⟩ ap with
      | none =>
        rw [step_starved flags width ap out hprint]
        exact ⟨.halted hc (Or.inr rfl), fun _ => Nat.succ_pos _⟩
      | some printed =>
        rw [step_letter flags width ap out hprint]
        exact ⟨.ahead hrest htail hnext hfinishes, fun _ => by simp only [Scanner.budget]; omega⟩
    | ended => exact ⟨.halted hc (Or.inl rfl), fun hrun => absurd (Or.inl rfl) hrun⟩
    | starved => exact ⟨.halted hc (Or.inr rfl), fun hrun => absurd (Or.inr rfl) hrun⟩

/-- A round of the outer loop takes at least one character. -/
theorem entersRound_le (s : Scanner) :
    s.c + (if s.entersRound text then 1 else 0) ≤ (s.step text).c := by
  obtain ⟨point, c, flags, width, ap, out⟩ := s
  cases point with
  | format =>
    by_cases hnul : text c = 0#8
    · rw [step_nul flags width ap out hnul]
      simp [Scanner.entersRound, hnul]
    · by_cases hpercent : text c = ch '%'
      · rw [step_percent flags width ap out hpercent]
        split <;> simp
      · rw [step_lit flags width ap out hnul hpercent]
        split <;> simp
  | flags => cases h : setFlag flags (text c) <;> simp [Scanner.entersRound, Scanner.step, h]
  | width | digits => cases h : isDigit (text c) <;> simp [Scanner.entersRound, Scanner.step, h]
  | letter =>
    cases h : printConversion ⟨flags, width.toInt.toNat, text c⟩ ap <;>
      simp [Scanner.entersRound, Scanner.step, h]
  | ended | starved => exact Nat.le_refl c

theorem after_succ (ap : List Arg) (k : Nat) :
    Scanner.after text ap (k + 1) = (Scanner.after text ap k).step text :=
  Function.iterate_succ_apply' _ k _

theorem rounds_le (ap : List Arg) (k : Nat) : rounds text ap k ≤ (Scanner.after text ap k).c := by
  induction k with
  | zero => exact Nat.zero_le _
  | succ k ih =>
    have hround : _ + (if (Scanner.after text ap k).entersRound text then 1 else 0) ≤ _ :=
      entersRound_le (Scanner.after text ap k)
    rw [rounds, List.range_succ, List.countP_append, List.countP_singleton, ← rounds, after_succ]
    omega

theorem OnTrack.contained {ap : List Arg} (h : OnTrack text n (Scanner.start ap)) :
    Contained text n ap := by
  have hkept : ∀ k, OnTrack text n (Scanner.after text ap k) := by
    intro k
    induction k with
    | zero => exact h
    | succ k ih =>
      rw [after_succ]
      exact ih.step.1
  refine ⟨fun k _ => (hkept k).1, fun k => Nat.le_trans (rounds_le ap k) (hkept k).1, ?_⟩
  have hstep : ∀ s, OnTrack text n s → OnTrack text n (Scanner.step text s) := fun _ hs => hs.step.1
  obtain ⟨k, _, hend⟩ := halts_of_measure (Scanner.budget n) hstep (fun _ hs => hs.step.2) h
  exact ⟨k, hend⟩

end

/-- There are arguments for every conversion. -/
theorem printConversion_supplied (letter : Byte) : ∃ args, ∀ flags width ap,
    ∃ out, printConversion ⟨flags, width, letter⟩ (args ++ ap) = some (out, ap) := by
  by_cases hstring : letter = ch 's'
  · subst hstring
    exact ⟨[.string ⟨[], List.not_mem_nil⟩], fun _ _ _ => ⟨_, rfl⟩⟩
  · by_cases hword : letter ∈ [ch 'c', ch 'X', ch 'x', ch 'p', ch 'd', ch 'i', ch 'u', ch 'o']
    · refine ⟨[.word 0#32], ?_⟩
      intro flags width ap
      simp only [List.mem_cons, List.not_mem_nil, or_false] at hword
      rcases hword with h | h | h | h | h | h | h | h <;> subst h <;> exact ⟨_, rfl⟩
    · refine ⟨[], ?_⟩
      intro flags width ap
      simp only [List.mem_cons, List.not_mem_nil, or_false, not_or] at hword
      obtain ⟨h₁, h₂, h₃, h₄, h₅, h₆, h₇, h₈⟩ := hword
      by_cases hpercent : letter = ch '%'
      · exact ⟨[ch '%'], by simp [printConversion, hpercent]⟩
      · exact ⟨[], by simp [printConversion, hpercent, hstring, h₁, h₂, h₃, h₄, h₅, h₆, h₇, h₈]⟩

theorem finishes_digits_eq (width : Nat) (cs : List Byte) : Point.digits.finishes cs =
    (match (scanDigits width cs).2 with
      | [] => false
      | _ :: rest => Point.format.finishes rest) := by
  induction cs generalizing width with
  | nil => rfl
  | cons b cs ih =>
    rw [Point.finishes, scanDigits]
    cases isDigit b with
    | true => exact ih _
    | false => rfl

/-- The scan of a conversion finishes where a letter is left, and the rest is finished. -/
theorem finishes_flags_eq (flags : Flags) (cs : List Byte) : Point.flags.finishes cs =
    (match (scanWidth (scanFlags flags cs).2).2 with
      | [] => false
      | _ :: rest => Point.format.finishes rest) := by
  induction cs generalizing flags with
  | nil => rfl
  | cons b cs ih =>
    rcases flag_or_past b with ⟨f, rfl⟩ | hpast
    · rw [finishes_flag, scanFlags_byte]
      exact ih _
    · rw [finishes_past hpast, scanFlags_past flags hpast, scanWidth]
      cases hdigit : isDigit b with
      | true => exact finishes_digits_eq 0 (b :: cs)
      | false =>
        rw [Point.finishes, hdigit]
        rfl

/-- A format that is cut off takes the scanner past its NUL, given arguments to get there. -/
theorem cutOff_passes {cs : List Byte} (hcs : 0#8 ∉ cs) (h : Point.format.finishes cs = false) :
    ∃ ap, ∀ text c, StringAt text c cs → ∀ flags width out,
      ∃ t, StepsTo (Scanner.step text) ⟨.format, c, flags, width, ap, out⟩ t ∧
        t.point = .format ∧ t.c = c + cs.length + 1 := by
  obtain ⟨n, hn⟩ : ∃ n, cs.length = n := ⟨_, rfl⟩
  induction n using Nat.strongRecOn generalizing cs with
  | ind n ih =>
    cases cs with
    | nil => cases h
    | cons b cs =>
      rw [List.length_cons] at hn
      obtain ⟨hb0, htail⟩ := not_or.mp (mt List.mem_cons.mpr hcs)
      rw [Point.finishes] at h
      by_cases hpercent : b = ch '%'
      · subst hpercent
        rw [if_pos rfl, finishes_flags_eq {}] at h
        have hsuffix := (scanWidth_suffix _).trans (scanFlags_suffix {} cs)
        cases hrest : (scanWidth (scanFlags {} cs).2).2 with
        | nil =>
          refine ⟨[], fun text c hat flags width out => ?_⟩
          obtain ⟨hb, hat⟩ := stringAt_cons.mp hat
          obtain ⟨c', hlength, hat', hletter⟩ := steps_letter cs hat width [] out
          rw [hrest] at hlength hat'
          have hnul := stringAt_nil.mp hat'
          have hprint : ∀ flags width, printConversion ⟨flags, width, text c'⟩ [] = some ([], []) := by
            intro flags width
            rw [hnul]
            rfl
          refine ⟨_, StepsTo.head (step_percent flags width [] out hb)
            (hletter.trans (StepsTo.head (step_letter _ _ [] out (hprint _ _)) (StepsTo.refl _))), rfl, ?_⟩
          rw [List.length_nil] at hlength
          rw [List.length_cons]
          change c' + 1 = _
          omega
        | cons letter rest =>
          rw [hrest] at h hsuffix
          have hshort := hsuffix.length_le
          rw [List.length_cons] at hshort
          have hnul : 0#8 ∉ rest := fun hmem => htail (hsuffix.subset (List.mem_cons_of_mem letter hmem))
          obtain ⟨ap, hap⟩ := ih rest.length (by omega) hnul h rfl
          obtain ⟨args, hargs⟩ := printConversion_supplied letter
          refine ⟨args ++ ap, fun text c hat flags width out => ?_⟩
          obtain ⟨hb, hat⟩ := stringAt_cons.mp hat
          obtain ⟨c', hlength, hat', hletter⟩ := steps_letter cs hat width (args ++ ap) out
          rw [hrest] at hlength hat'
          obtain ⟨hchar, hat'⟩ := stringAt_cons.mp hat'
          obtain ⟨got, hgot⟩ := hargs (scanFlags {} cs).1
            (BitVec.ofNat 32 (scanWidth (scanFlags {} cs).2).1 : Word).toInt.toNat ap
          rw [← hchar] at hgot
          obtain ⟨t, hsteps, hpoint, htc⟩ := hap text (c' + 1) hat' (scanFlags {} cs).1
            (BitVec.ofNat 32 (scanWidth (scanFlags {} cs).2).1) (out ++ got)
          refine ⟨t, StepsTo.head (step_percent flags width _ out hb)
            (hletter.trans (StepsTo.head (step_letter _ _ _ out hgot) hsteps)), hpoint, ?_⟩
          rw [htc, List.length_cons]
          rw [List.length_cons] at hlength
          omega
      · rw [if_neg hpercent] at h
        obtain ⟨ap, hap⟩ := ih cs.length (by omega) htail h rfl
        refine ⟨ap, fun text c hat flags width out => ?_⟩
        obtain ⟨hb, hat⟩ := stringAt_cons.mp hat
        obtain ⟨t, hsteps, hpoint, htc⟩ := hap text (c + 1) hat flags width (out ++ [text c])
        have hstep := step_lit flags width ap out (hb ▸ Ne.symm hb0) (hb ▸ hpercent)
        refine ⟨t, StepsTo.head hstep hsteps, hpoint, ?_⟩
        rw [htc, List.length_cons, Nat.add_assoc c 1, Nat.add_comm 1]

/-- `DoPrintf` stays inside its format, whatever lies behind that and whatever the arguments, exactly
where no conversion is cut off. -/
theorem doPrintf_contained_iff (format : CStr) :
    (∀ text, StringAt text 0 format.val → ∀ ap, Contained text format.val.length ap) ↔
      Whole format.val := by
  rw [whole_iff]
  constructor
  · intro h
    cases hfinishes : Point.format.finishes format.val with
    | true => rfl
    | false =>
      obtain ⟨ap, hap⟩ := cutOff_passes format.property hfinishes
      have hat : StringAt (fun i => format.val.getD i 0#8) 0 format.val := by
        intro i _
        rw [Nat.zero_add]
      obtain ⟨t, ⟨k, rfl⟩, hpoint, hc⟩ := hap _ 0 hat {} 0#32 []
      have hrun : ¬ (Scanner.after (fun i => format.val.getD i 0#8) ap k).Halted := by
        rintro (hend | hend) <;> cases hpoint.symm.trans hend
      have hread := (h _ hat ap).reads k hrun
      rw [Scanner.after, Scanner.start, hc] at hread
      omega
  · intro h text hat ap
    exact OnTrack.contained (OnTrack.ahead hat format.property (Nat.zero_add _) h)

/-- "100%" -/
def hundredPercent : CStr := ⟨[ch '1', ch '0', ch '0', ch '%'], by decide⟩

/-- The scan of "100%" goes on behind its NUL. -/
theorem hundredPercent_passes : ¬ ∀ (format : CStr) text, StringAt text 0 format.val →
    ∀ ap, Contained text format.val.length ap := by
  intro hall
  have hat : StringAt (fun i => hundredPercent.val.getD i 0#8) 0 hundredPercent.val := by
    intro i _
    rw [Nat.zero_add]
  have hread := (hall hundredPercent _ hat []).reads 7 (by decide)
  exact absurd hread (by decide)

end CheviotBoot.Console
