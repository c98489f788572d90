import CheviotBoot.Console.Rendering

namespace CheviotBoot.Console
open Lib

/-- The number some decimal digits spell, the first the most significant. -/
def decimal (digits : List (Fin 10)) : Nat := Nat.ofDigits 10 (digits.map Fin.val).reverse

/-- The digits of a width as they may be written, with zeros in front or not. -/
abbrev Digits := { digits : List (Fin 10) // decimal digits < 2 ^ 31 }

def digitBytes (digits : List (Fin 10)) : List Byte := digits.map fun d => digitByte d.val

theorem decimal_zero_cons (digits : List (Fin 10)) : decimal (0 :: digits) = decimal digits := by
  simp [decimal, Nat.ofDigits_append]

/-- Digits without a zero in front are the numeral of what they spell. -/
theorem numeral_decimal {d : Fin 10} (hd : d ≠ 0) (digits : List (Fin 10)) :
    0 < decimal (d :: digits) ∧ numeral 10 (decimal (d :: digits)) = digitBytes (d :: digits) := by
  obtain ⟨ds, hds⟩ : ∃ ds, ds = ((d :: digits).map Fin.val).reverse := ⟨_, rfl⟩
  have hlt : ∀ k ∈ ds, k < 10 := by
    intro k hk
    rw [hds, List.mem_reverse] at hk
    obtain ⟨e, _, rfl⟩ := List.mem_map.mp hk
    exact e.isLt
  have hne : ds ≠ [] := by simp [hds]
  have hlast : ∀ h : ds ≠ [], ds.getLast h ≠ 0 := by
    intro h hzero
    apply hd
    apply Fin.ext
    simpa [hds] using hzero
  have hdigits : Nat.digits 10 (decimal (d :: digits)) = ds := by
    rw [decimal, ← hds]
    exact Nat.digits_ofDigits 10 (by decide) ds hlt hlast
  have hpos : decimal (d :: digits) ≠ 0 := by
    intro hzero
    rw [hzero, Nat.digits_zero] at hdigits
    exact hne hdigits.symm
  refine ⟨Nat.pos_of_ne_zero hpos, ?_⟩
  rw [numeral, digitsOf, if_neg hpos, hdigits, hds, digitBytes]
  simp

/-- Whatever flags and digits are written, they are a specification: zeros in front of the
width are flags. -/
theorem exists_fieldSpec (flags : List FlagChar) (digits : Digits) :
    ∃ spec : FieldSpec, spec.bytes = flags.map FlagChar.byte ++ digitBytes digits.val := by
  obtain ⟨digits, hlt⟩ := digits
  induction digits generalizing flags with
  | nil => exact ⟨⟨flags, none⟩, rfl⟩
  | cons d digits ih =>
    by_cases hd : d = 0
    · subst hd
      rw [decimal_zero_cons] at hlt
      obtain ⟨spec, hspec⟩ := ih (flags ++ [.zero]) hlt
      refine ⟨spec, ?_⟩
      rw [hspec, List.map_append, List.append_assoc]
      rfl
    · obtain ⟨hpos, hnumeral⟩ := numeral_decimal hd digits
      refine ⟨⟨flags, some ⟨_, hpos, hlt⟩⟩, ?_⟩
      rw [FieldSpec.bytes, Option.elim, hnumeral]

/-- A run of items takes its own arguments and leaves the rest of the format with the others. -/
theorem doPrintf_items (items : List Item) (format : List Byte) (ap : List Arg) :
    doPrintf (formatOf items ++ format) (argsOf items ++ ap) =
      (doPrintf format ap).map (render items ++ ·) := by
  induction items with
  | nil => simp [formatOf, argsOf, render]
  | cons item items ih =>
    unfold formatOf argsOf render at ih ⊢
    rw [List.flatMap_cons, List.flatMap_cons, List.append_assoc, List.append_assoc, doPrintf_item, ih,
      Option.map_map, List.flatMap_cons]
    simp [Function.comp_def]

/-- All conversions but "%%". -/
def Item.takesArg : Item → Bool
  | .lit _ _ _ | .percent _ => false
  | .char _ _ | .str _ _ | .int _ _ _ => true

theorem argsOf_length (items : List Item) : (argsOf items).length = items.countP Item.takesArg := by
  induction items with
  | nil => rfl
  | cons item items ih =>
    rw [argsOf, List.flatMap_cons, List.length_append, ← argsOf, ih, List.countP_cons, Nat.add_comm]
    cases item <;> rfl

/-- Without its argument a conversion does not end. -/
theorem doPrintf_item_starved (item : Item) (h : item.takesArg = true) (format : List Byte) :
    doPrintf (item.format ++ format) [] = none := by
  cases item with
  | lit c notNul notPercent => cases h
  | percent spec => cases h
  | char spec w | str spec w =>
    rw [Item.format, doPrintf_scanned spec (by decide) (by decide)]
    rfl
  | int spec kind w =>
    obtain ⟨hflag, hdigit⟩ := kind.letter_plain
    rw [Item.format, doPrintf_scanned spec hflag hdigit]
    cases kind <;> rfl

/-- Without all its arguments a run of items does not end. -/
theorem doPrintf_starved (items : List Item) {ap more : List Arg} (hap : argsOf items = ap ++ more)
    (hmore : more ≠ []) : doPrintf (formatOf items) ap = none := by
  induction items generalizing ap with
  | nil => exact absurd (List.append_eq_nil_iff.mp hap.symm).2 hmore
  | cons item items ih =>
    have hformat : formatOf (item :: items) = item.format ++ formatOf items := List.flatMap_cons
    have hargs : argsOf (item :: items) = item.args ++ argsOf items := List.flatMap_cons
    rw [hformat]
    rw [hargs] at hap
    cases hitem : item.args with
    | nil =>
      have hrun := doPrintf_item item (formatOf items) ap
      rw [hitem, List.nil_append] at hap hrun
      rw [hrun, ih hap, Option.map_none]
    | cons a as =>
      have htakes : item.takesArg = true := by cases item <;> first | rfl | cases hitem
      have has : as = [] := by cases item <;> cases hitem <;> rfl
      subst has
      cases ap with
      | nil => exact doPrintf_item_starved item htakes _
      | cons b ap =>
        rw [hitem, List.cons_append, List.cons_append, List.nil_append] at hap
        obtain ⟨rfl, hrest⟩ := List.cons.inj hap
        have hrun := doPrintf_item item (formatOf items) ap
        rw [hitem, List.cons_append, List.nil_append] at hrun
        rw [hrun, ih hrest, Option.map_none]

/-- What printing a run of items comes to: its rendering and one NUL, whatever arguments follow
its own; with fewer it does not end, and what follows it in a format finds the arguments after. -/
structure Formatted (items : List Item) : Prop where
  printed : ∀ ap, doPrintf (formatOf items) (argsOf items ++ ap) = some (render items ++ [0#8])
  terminated : 0#8 ∉ render items
  consumed : (argsOf items).length = items.countP Item.takesArg
  needed : ∀ ap more, argsOf items = ap ++ more → more ≠ [] → doPrintf (formatOf items) ap = none
  passed : ∀ format ap, doPrintf (formatOf items ++ format) (argsOf items ++ ap) =
    (doPrintf format ap).map (render items ++ ·)

/-- Every format of the grammar is printed as the specification has it. -/
theorem doPrintf_grammar :
    (∀ (flags : List FlagChar) (digits : Digits),
      ∃ spec : FieldSpec, spec.bytes = flags.map FlagChar.byte ++ digitBytes digits.val) ∧
    ∀ items, Formatted items := by
  refine ⟨exists_fieldSpec, fun items => ⟨?_, render_not_nul items, argsOf_length items, ?_,
    doPrintf_items items⟩⟩
  · intro ap
    have hrun := doPrintf_items items [] ap
    rw [List.append_nil] at hrun
    rw [hrun]
    simp [doPrintf]
  · intro ap more hap hmore
    exact doPrintf_starved items hap hmore

end CheviotBoot.Console
