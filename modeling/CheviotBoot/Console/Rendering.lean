import CheviotBoot.Console.Integers

namespace CheviotBoot.Console
open Lib

/-- A conversion is scanned, printed with the arguments it takes, and passed. -/
theorem doPrintf_scanned (spec : FieldSpec) {letter : Byte} (hflag : PastFlags letter)
    (hdigit : isDigit letter = false) (format : List Byte) (ap : List Arg) :
    doPrintf (ch '%' :: (spec.bytes ++ [letter]) ++ format) ap =
      (printConversion ⟨spec.toFlags, spec.toWidth, letter⟩ ap).bind
        fun (out, ap) => (doPrintf format ap).map (out ++ ·) := by
  have hscan := scanConversion_spec spec format hflag hdigit
  rw [List.cons_append, List.append_assoc, List.cons_append, List.nil_append, doPrintf, if_pos rfl]
  split
  · rename_i hnone
    rw [hscan] at hnone
    cases hnone
  · rename_i conversion cs hsome
    rw [hscan] at hsome
    cases hsome
    rfl

theorem doPrintf_conversion (spec : FieldSpec) {letter : Byte} (hflag : PastFlags letter)
    (hdigit : isDigit letter = false) {out : List Byte} {ap rest : List Arg}
    (hprint : printConversion ⟨spec.toFlags, spec.toWidth, letter⟩ ap = some (out, rest)) (format : List Byte) :
    doPrintf (ch '%' :: (spec.bytes ++ [letter]) ++ format) ap = (doPrintf format rest).map (out ++ ·) := by
  rw [doPrintf_scanned spec hflag hdigit, hprint, Option.bind_some]

theorem doPrintf_item (item : Item) (format : List Byte) (ap : List Arg) :
    doPrintf (item.format ++ format) (item.args ++ ap) = (doPrintf format ap).map (item.render ++ ·) := by
  cases item with
  | lit c notNul notPercent =>
    rw [Item.format, List.singleton_append, doPrintf, if_neg notPercent]
    rfl
  | percent spec => exact doPrintf_conversion spec (by decide) (by decide) rfl format
  | char spec w => exact doPrintf_conversion spec (by decide) (by decide) rfl format
  | str spec s => exact doPrintf_conversion spec (by decide) (by decide) rfl format
  | int spec kind w =>
    obtain ⟨hflag, hdigit⟩ := kind.letter_plain
    exact doPrintf_conversion spec hflag hdigit (printConversion_int spec kind w ap) format

/-- `DoPrintf` prints the full rendering and a NUL. -/
theorem doPrintf_eq (items : List Item) :
    doPrintf (formatOf items) (argsOf items) = some (render items ++ [0#8]) := by
  induction items with
  | nil => simp [formatOf, argsOf, render, doPrintf]
  | cons item items ih =>
    unfold formatOf argsOf at ih ⊢
    rw [List.flatMap_cons, List.flatMap_cons, doPrintf_item, ih, Option.map_some,
      render, render, List.flatMap_cons, List.append_assoc]

theorem upperDigit_ne_zero {c : Byte} (h : c ≠ 0#8) : upperDigit c ≠ 0#8 := by
  revert c
  decide

theorem numeral_not_nul {base : Nat} (hb : 1 < base) (hbase : base ≤ 16) (n : Nat) :
    0#8 ∉ numeral base n := by
  intro hmem
  obtain ⟨d, hd, hzero⟩ := List.mem_map.mp (List.mem_reverse.mp hmem)
  exact digitByte_ne_zero (Nat.lt_of_lt_of_le (digitsOf_lt hb hd) hbase) hzero

theorem head_not_nul (spec : FieldSpec) (negative : Bool) (base : Nat) :
    0#8 ∉ signOf spec negative ++ prefixOf spec base := by
  unfold signOf prefixOf
  split_ifs <;> decide

theorem inField_not_nul (spec : FieldSpec) {head digits : List Byte} (hhead : 0#8 ∉ head)
    (hdigits : 0#8 ∉ digits) :
    0#8 ∉ inField spec head digits := by
  have hblank : (0#8 : Byte) ≠ ch ' ' := by decide
  have hzero : (0#8 : Byte) ≠ ch '0' := by decide
  unfold inField
  simp only
  split_ifs <;> simp [hhead, hdigits, hblank, hzero]

theorem render_not_nul (items : List Item) : 0#8 ∉ render items := by
  intro hmem
  obtain ⟨item, -, hitem⟩ := List.mem_flatMap.mp hmem
  cases item with
  | lit c notNul notPercent => exact notNul (List.mem_singleton.mp hitem).symm
  | percent spec => exact absurd (List.mem_singleton.mp hitem) (by decide)
  | char spec w =>
    have heq := List.mem_singleton.mp hitem
    split_ifs at heq with h
    · exact absurd heq (by decide)
    · exact h heq.symm
  | str spec s => exact s.property hitem
  | int spec kind w =>
    refine inField_not_nul spec (head_not_nul _ _ _) ?_ hitem
    have hnum : ∀ n, 0#8 ∉ numeral kind.base n := numeral_not_nul (by cases kind <;> decide) (by cases kind <;> decide)
    by_cases hX : kind = .X
    · rw [if_pos hX]
      intro hmem
      obtain ⟨c, hc, hzero⟩ := List.mem_map.mp hmem
      exact upperDigit_ne_zero (fun h => hnum _ (h ▸ hc)) hzero
    · rw [if_neg hX]
      exact hnum _

end CheviotBoot.Console
