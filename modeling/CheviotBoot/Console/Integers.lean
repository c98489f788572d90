import CheviotBoot.Console.Scanning

namespace CheviotBoot.Console
open Lib

theorem conv_digit {d : Nat} (h : d < 16) : conv.getD d 0#8 = digitByte d := by
  have hall : ∀ d : Fin 16, conv.getD d 0#8 = digitByte d := by decide
  exact hall ⟨d, h⟩

/-- `UItoA32` stores the digits of its number. -/
theorem uitoaDigits_eq {base : Nat} (hb : 1 < base) (hbase : base ≤ 16) (n : Nat) :
    uitoaDigits base hb n = (digitsOf base n).map digitByte := by
  induction n using Nat.strong_induction_on with
  | _ n ih =>
    have hdigit : n % base < 16 := Nat.lt_of_lt_of_le (Nat.mod_lt _ (by omega)) hbase
    rw [uitoaDigits, digitsOf_step hb, List.map_cons, conv_digit hdigit]
    by_cases hq : 0 < n / base
    · have hlt : n / base < n := Nat.div_lt_self (Nat.pos_of_ne_zero fun h => by simp [h] at hq) hb
      rw [if_pos hq, if_pos hq, ih _ hlt]
    · rw [if_neg hq, if_neg hq, List.map_nil]

/-- The carry out of the last digit is 1 where that digit was the highest. -/
theorem carry_out {base carry n : Nat} (hb : 1 < base) (hcarry : carry ≤ 1) :
    ((n + carry) / base = n / base ∧ ¬ base ≤ n % base + carry) ∨
      ((n + carry) / base = n / base + 1 ∧ base ≤ n % base + carry ∧ carry = 1 ∧
        n + 1 = base * (n / base + 1)) := by
  have hmod : n % base < base := Nat.mod_lt n (by omega)
  have hsplit : base * (n / base) + n % base = n := Nat.div_add_mod n base
  by_cases h : base ≤ n % base + carry
  · have hnext : n + carry = base * (n / base + 1) := by
      rw [Nat.mul_add, Nat.mul_one]
      omega
    refine Or.inr ⟨?_, h, by omega, ?_⟩
    · rw [hnext, Nat.mul_div_cancel_left _ (by omega)]
    · rw [← hnext]
      omega
  · refine Or.inl ⟨?_, h⟩
    calc (n + carry) / base
        = (n % base + carry + base * (n / base)) / base := by
          congr 1
          omega
      _ = (n % base + carry) / base + n / base := Nat.add_mul_div_left _ _ (by omega)
      _ = n / base := by rw [Nat.div_eq_of_lt (by omega), Nat.zero_add]

/-- Where the next number is as long, carrying into a number gives the digits of the next. Only
a power of the base is longer than the number before it. -/
theorem itoaDigits_eq {base : Nat} (hb : 1 < base) (hbase : base ≤ 16) (first : Bool)
    {carry n : Nat} (hcarry : carry ≤ 1) (hpow : carry = 1 → ∀ k, n + 1 ≠ base ^ k) :
    itoaDigits base hb first carry n = (digitsOf base (n + carry)).map digitByte := by
  induction n using Nat.strong_induction_on generalizing first carry with
  | _ n ih =>
    have hdigit : (n + carry) % base < 16 := Nat.lt_of_lt_of_le (Nat.mod_lt _ (by omega)) hbase
    have hless : 0 < n / base → n / base < n :=
      fun hq => Nat.div_lt_self (Nat.pos_of_ne_zero fun h => by simp [h] at hq) hb
    rw [itoaDigits, digitsOf_step hb, List.map_cons, Nat.mod_add_mod, ite_self, conv_digit hdigit]
    obtain ⟨hdiv, hover⟩ | ⟨hdiv, hover, hone, hnext⟩ := carry_out (n := n) hb hcarry
    · rw [if_neg hover, hdiv]
      by_cases hq : 0 < n / base
      · rw [if_pos hq, if_pos hq,
          ih _ (hless hq) _ (by decide) (fun h => absurd h (by decide)), Nat.add_zero]
      · rw [if_neg hq, if_neg hq, List.map_nil]
    · have hq : 0 < n / base := by
        by_contra hzero
        refine hpow hone 1 ?_
        rw [hnext, Nat.eq_zero_of_not_pos hzero, Nat.zero_add, Nat.mul_one, Nat.pow_one]
      have hpow' : ∀ k, n / base + 1 ≠ base ^ k := fun k hk =>
        hpow hone (k + 1) (by rw [hnext, hk, Nat.pow_succ, Nat.mul_comm])
      rw [if_pos hover, hdiv, if_pos hq, if_pos (by omega),
        ih _ (hless hq) _ (by decide) fun _ => hpow']

/-- The sign at the end of the buffer. -/
def signByte (negative : Bool) : Byte := if negative then ch '-' else ch '+'

theorem toNat_neg_eq {w : Word} (h : w.toInt < 0) (hmin : w ≠ 0x80000000#32) :
    (-w).toNat = w.toInt.natAbs := by
  have hne : w.toNat ≠ 2 ^ 31 := fun heq => hmin (BitVec.eq_of_toNat_eq heq)
  rw [BitVec.toInt_eq_toNat_cond] at h ⊢
  rw [BitVec.toNat_neg]
  have := w.isLt
  split_ifs at h ⊢ <;> omega

theorem toNat_eq_natAbs {w : Word} (h : ¬ w.toInt < 0) : w.toNat = w.toInt.natAbs := by
  rw [BitVec.toInt_eq_toNat_cond] at h ⊢
  have := w.isLt
  split_ifs at h ⊢ <;> omega

theorem itoA32_eq {base : Nat} (hb : 1 < base) (hbase : base ≤ 16)
    (hpow : ∀ k, 2147483647 + 1 ≠ base ^ k) (w : Word) :
    itoA32 base hb w =
      (digitsOf base w.toInt.natAbs).map digitByte ++ [signByte (decide (w.toInt < 0))] := by
  unfold itoA32
  by_cases hneg : w.toInt < 0
  · rw [if_pos hneg]
    by_cases hmin : w = 0x80000000#32
    · subst hmin
      rw [if_pos rfl]
      have hmag : (-(0x80000000#32 + 1#32)).toNat = 2147483647 := by decide
      have habs : (0x80000000#32 : Word).toInt.natAbs = 2147483647 + 1 := by decide
      rw [hmag, habs, itoaDigits_eq hb hbase true (Nat.le_refl 1) fun _ => hpow, decide_eq_true hneg]
      rfl
    · rw [if_neg hmin, toNat_neg_eq hneg hmin,
        itoaDigits_eq hb hbase true (Nat.zero_le 1) (fun h => absurd h (by decide)),
        Nat.add_zero, decide_eq_true hneg]
      rfl
  · rw [if_neg hneg, toNat_eq_natAbs hneg,
      itoaDigits_eq hb hbase true (Nat.zero_le 1) (fun h => absurd h (by decide)),
        Nat.add_zero, decide_eq_false hneg]
    rfl

theorem uitoA32_eq {base : Nat} (hb : 1 < base) (hbase : base ≤ 16) (w : Word) :
    uitoA32 base hb w = (digitsOf base w.toNat).map digitByte ++ [signByte false] := by
  rw [uitoA32, uitoaDigits_eq hb hbase]
  rfl

/-- A number between two powers is none. -/
theorem between_pow {base n j : Nat} (hb : 0 < base) (hlow : base ^ j < n)
    (hhigh : n < base ^ (j + 1)) (k : Nat) :
    n ≠ base ^ k := by
  intro h
  subst h
  cases Nat.lt_or_ge j k with
  | inl hk => exact Nat.not_lt.mpr (Nat.pow_le_pow_right hb hk) hhigh
  | inr hk => exact Nat.not_lt.mpr (Nat.pow_le_pow_right hb hk) hlow

theorem toFlags_eq (spec : FieldSpec) :
    spec.toFlags.left = decide (.minus ∈ spec.flags) ∧
      spec.toFlags.sign = decide (.plus ∈ spec.flags) ∧
      spec.toFlags.alternate = decide (.hash ∈ spec.flags) ∧
        spec.toFlags.zero = decide (.zero ∈ spec.flags) ∧
      spec.toFlags.uppercase = false := by
  have h := foldl_flags spec.flags {}
  simpa only [FieldSpec.toFlags, Bool.false_or] using h

theorem signstr_eq (spec : FieldSpec) (negative : Bool) :
    (if signByte negative = ch '-' then [ch '-'] else if spec.toFlags.sign = true then
      (if signByte negative = ch '+' then [ch '+'] else [ch '-']) else []) = signOf spec negative := by
  obtain ⟨-, hsign, -⟩ := toFlags_eq spec
  cases negative with
  | false => simp [signByte, signOf, ch, hsign]
  | true => simp [signByte, signOf]

theorem annotatestr_eq (spec : FieldSpec) (base : Nat) :
    (if spec.toFlags.alternate = true then
      if base = 16 then [ch '0', ch 'x'] else if base = 8 then [ch '0'] else [] else []) = prefixOf spec base := by
  obtain ⟨-, -, halternate, -⟩ := toFlags_eq spec
  simp only [prefixOf, halternate, decide_eq_true_eq]

/-- The width of 1 that stands for none pads no number, as a number has a digit. -/
theorem padding_eq (spec : FieldSpec) (head : Nat) {digits : Nat} (hdigits : 0 < digits) :
    spec.toWidth - (head + digits) = spec.width.elim 0 Subtype.val - (head + digits) := by
  unfold FieldSpec.toWidth
  cases spec.width with
  | none =>
    simp only [Option.elim]
    omega
  | some n => rfl

theorem printFormattedInteger_eq (spec : FieldSpec) (base : Nat) {digits : List Byte}
    (hne : digits ≠ []) (negative uppercase : Bool) :
    printFormattedInteger (digits ++ [signByte negative]) base
        { spec.toFlags with uppercase := uppercase } spec.toWidth =
      inField spec (signOf spec negative ++ prefixOf spec base)
        (digits.reverse.map (upper { spec.toFlags with uppercase := uppercase })) := by
  obtain ⟨hleft, -, -, hzero, -⟩ := toFlags_eq spec
  have hlength : (digits ++ [signByte negative]).length - 1 = digits.length := by simp
  have hlast : (digits ++ [signByte negative]).getD digits.length 0#8 = signByte negative := by simp
  have htake : (digits ++ [signByte negative]).take digits.length = digits := by simp
  have hpad := padding_eq spec (signOf spec negative ++ prefixOf spec base).length
    (List.length_pos_of_ne_nil hne)
  unfold printFormattedInteger inField
  simp only [hlength, hlast, htake, signstr_eq, annotatestr_eq,
    List.length_map, List.length_reverse]
  have hcount : digits.length + (signOf spec negative).length + (prefixOf spec base).length =
      (signOf spec negative ++ prefixOf spec base).length + digits.length := by
    rw [List.length_append]
    omega
  rw [hcount, hpad]
  by_cases hz : FlagChar.zero ∈ spec.flags
  · simp [hzero, hz]
  · by_cases hm : FlagChar.minus ∈ spec.flags
    · simp [hzero, hz, hleft, hm]
    · simp [hzero, hz, hleft, hm]

theorem toFlags_uppercase (spec : FieldSpec) :
    { spec.toFlags with uppercase := false } = spec.toFlags := by
  rw [← (toFlags_eq spec).2.2.2.2]

theorem upper_toFlags (spec : FieldSpec) : upper spec.toFlags = id := by
  funext c
  simp [upper, (toFlags_eq spec).2.2.2.2]

theorem upper_uppercase (spec : FieldSpec) :
    upper { spec.toFlags with uppercase := true } = upperDigit := by
  funext c
  simp [upper, upperDigit]

theorem printInteger_eq (spec : FieldSpec) (base : Nat) {convert : Word → List Byte}
    {w : Word} {n : Nat} {negative : Bool} (uppercase : Bool)
    (hconvert : convert w = (digitsOf base n).map digitByte ++ [signByte negative]) (ap : List Arg) :
    printInteger convert base { spec.toFlags with uppercase := uppercase } spec.toWidth (.word w :: ap) =
      some (inField spec (signOf spec negative ++ prefixOf spec base)
        ((numeral base n).map (upper { spec.toFlags with uppercase := uppercase })), ap) := by
  have hne : (digitsOf base n).map digitByte ≠ [] := by simp [digitsOf_ne_nil]
  simp only [printInteger, vaWord, Option.map_some, hconvert, numeral,
    printFormattedInteger_eq spec base hne negative uppercase]

theorem printInteger_plain (spec : FieldSpec) (base : Nat) {convert : Word → List Byte}
    {w : Word} {n : Nat}
    {negative : Bool} (hconvert : convert w = (digitsOf base n).map digitByte ++ [signByte negative])
    (ap : List Arg) : printInteger convert base spec.toFlags spec.toWidth (.word w :: ap) =
      some (inField spec (signOf spec negative ++ prefixOf spec base) (numeral base n), ap) := by
  have h := printInteger_eq spec base false hconvert ap
  rwa [toFlags_uppercase, upper_toFlags, List.map_id] at h

/-- An integer conversion prints what is specified and takes its own argument. -/
theorem printConversion_int (spec : FieldSpec) (kind : IntKind) (w : Word) (ap : List Arg) :
    printConversion ⟨spec.toFlags, spec.toWidth, kind.letter⟩ (.word w :: ap) =
      some (renderInt spec kind w, ap) := by
  have hdecimal := itoA32_eq (by decide : 1 < 10) (by decide)
    (between_pow (j := 9) (by decide) (by decide) (by decide)) w
  have hoctal := itoA32_eq (by decide : 1 < 8) (by decide)
    (between_pow (j := 10) (by decide) (by decide) (by decide)) w
  cases kind with
  | d => exact printInteger_plain spec 10 hdecimal ap
  | i => exact printInteger_plain spec 10 hdecimal ap
  | o => exact printInteger_plain spec 8 hoctal ap
  | p => exact printInteger_plain spec 16 (uitoA32_eq (by decide) (by decide) w) ap
  | u => exact printInteger_plain spec 10 (uitoA32_eq (by decide) (by decide) w) ap
  | x => exact printInteger_plain spec 16 (uitoA32_eq (by decide) (by decide) w) ap
  | X =>
    have h := printInteger_eq spec 16 true (uitoA32_eq (by decide) (by decide) w) ap
    rw [upper_uppercase] at h
    exact h

end CheviotBoot.Console
