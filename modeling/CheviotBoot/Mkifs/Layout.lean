import Mathlib.Data.List.Forall2
import CheviotBoot.Lib.Align
import CheviotBoot.Lib.Lockstep
import CheviotBoot.Mkifs.Walk

namespace CheviotBoot.Mkifs
open Lib

/-- The records with the offsets the layout gives them, as exact numbers. -/
def places : List Rec → Nat → List (Rec × Nat)
  | [], _ => []
  | r :: rs, off => (r, off) :: places rs (alignUp (off + r.contents.length) 4096)

/-- Where the last record's extent ends; `last` when there is none. -/
def layoutEnd : List Rec → Nat → Nat → Nat
  | [], _, last => last
  | r :: rs, off, _ => layoutEnd rs (alignUp (off + r.contents.length) 4096) (off + r.contents.length)

/-- Where the last extent that holds anything ends; `last` when none does. -/
def filledEnd : List Rec → Nat → Nat → Nat
  | [], _, last => last
  | r :: rs, off, last =>
    filledEnd rs (alignUp (off + r.contents.length) 4096)
      (if r.contents = [] then last else off + r.contents.length)

/-- The size of the laid-out image of a tree, as an exact number. -/
def imageSize (rs : List Rec) : Nat :=
  layoutEnd rs (fileTableOffset rs.length) (fileTableOffset rs.length)

/-- The 32-bit fields can say how many nodes there are and where the contents of each start; where
there are none no reader looks. -/
structure Addressable (rs : List Rec) : Prop where
  count : rs.length + 16 < 2 ^ 32
  offsets : ∀ p ∈ places rs (fileTableOffset rs.length), p.1.contents ≠ [] → p.2 < 2 ^ 32

/-- The node list after `CalculateFileOffsets`. -/
def placedNodes (rs : List Rec) (off : Nat) : List IFSNodeContainer :=
  (places rs off).map (fun p => p.1.container (BitVec.ofNat 32 p.2))

@[simp] theorem places_length (rs : List Rec) (off : Nat) : (places rs off).length = rs.length := by
  induction rs generalizing off with
  | nil => rfl
  | cons r rs ih => simp [places, ih]

theorem places_fst (rs : List Rec) (off : Nat) : (places rs off).map Prod.fst = rs := by
  induction rs generalizing off with
  | nil => rfl
  | cons r rs ih => simp [places, ih]

@[simp] theorem placedNodes_length (rs : List Rec) (off : Nat) :
    (placedNodes rs off).length = rs.length := by
  simp [placedNodes]

theorem le_layoutEnd (rs : List Rec) {off last : Nat} (h : last ≤ off) :
    last ≤ layoutEnd rs off last := by
  induction rs generalizing off last with
  | nil => exact Nat.le_refl _
  | cons r rs ih =>
    have hr := ih (le_alignUp (off + r.contents.length))
    simp only [layoutEnd]
    omega

/-- Records that are no longer, laid out from no later on, each start no later. -/
theorem places_mono {rs qs : List Rec}
    (h : List.Forall₂ (fun r q => r.contents.length ≤ q.contents.length) rs qs) {off off' : Nat} (hoff : off ≤ off') :
    List.Forall₂ (fun p p' => p.1.contents.length ≤ p'.1.contents.length ∧ p.2 ≤ p'.2) (places rs off)
      (places qs off') := by
  induction h generalizing off off' with
  | nil => exact List.Forall₂.nil
  | cons hrq _ ih => exact List.Forall₂.cons ⟨hrq, hoff⟩ (ih (alignUp_mono (Nat.add_le_add hoff hrq)))

theorem Addressable.of_shorter {rs qs : List Rec}
    (h : List.Forall₂ (fun r q => r.contents.length ≤ q.contents.length) rs qs) (hq : Addressable qs) :
    Addressable rs := by
  refine ⟨h.length_eq ▸ hq.count, fun p hp hne => ?_⟩
  rw [h.length_eq] at hp
  obtain ⟨p', hp', hlen, hle⟩ := forall₂_mem (places_mono h (Nat.le_refl _)) hp
  have hpos := List.length_pos_iff.mpr hne
  exact Nat.lt_of_le_of_lt hle (hq.offsets p' hp' (List.ne_nil_of_length_pos (Nat.lt_of_lt_of_le hpos hlen)))

theorem layoutEnd_cons_ge (r : Rec) (rs : List Rec) (off last : Nat) :
    off + r.contents.length ≤ layoutEnd (r :: rs) off last :=
  le_layoutEnd rs (le_alignUp _)

theorem filledEnd_le {rs : List Rec} {off last k : Nat} (hoff : last ≤ off) (hk : last ≤ k) :
    filledEnd rs off last ≤ layoutEnd rs off k := by
  induction rs generalizing off last k with
  | nil => exact hk
  | cons r rs ih =>
    have hup := le_alignUp (off + r.contents.length)
    rw [filledEnd, layoutEnd]
    split
    · exact ih (by omega) (by omega)
    · exact ih hup (Nat.le_refl _)

/-- That end is the one given, or that of an extent. -/
theorem filledEnd_attained (rs : List Rec) (off last : Nat) :
    filledEnd rs off last = last ∨
      ∃ p ∈ places rs off, p.1.contents ≠ [] ∧ filledEnd rs off last = p.2 + p.1.contents.length := by
  induction rs generalizing off last with
  | nil => exact Or.inl rfl
  | cons r rs ih =>
    rw [filledEnd, places]
    rcases ih (alignUp (off + r.contents.length) 4096)
      (if r.contents = [] then last else off + r.contents.length) with hlast | ⟨p, hp, hne, hend⟩
    · by_cases hr : r.contents = []
      · rw [if_pos hr] at hlast ⊢
        exact Or.inl hlast
      · rw [if_neg hr] at hlast ⊢
        exact Or.inr ⟨(r, off), List.mem_cons_self, hr, hlast⟩
    · exact Or.inr ⟨p, List.mem_cons_of_mem _ hp, hne, hend⟩

theorem le_filledEnd {rs : List Rec} {off last : Nat} (hoff : last ≤ off) :
    last ≤ filledEnd rs off last := by
  induction rs generalizing off last with
  | nil => exact Nat.le_refl _
  | cons r rs ih =>
    have hup := le_alignUp (off + r.contents.length)
    rw [filledEnd]
    split
    · exact ih (by omega)
    · exact Nat.le_trans (by omega) (ih hup)

/-- Every extent starts at or after the layout's start and ends inside it. -/
theorem places_bounds {rs : List Rec} {off : Nat} (last : Nat) {p : Rec × Nat}
    (hp : p ∈ places rs off) :
    off ≤ p.2 ∧ p.2 + p.1.contents.length ≤ layoutEnd rs off last := by
  induction rs generalizing off last with
  | nil => simp [places] at hp
  | cons r rs ih =>
    rcases List.mem_cons.mp hp with rfl | hp
    · exact ⟨Nat.le_refl _, layoutEnd_cons_ge r rs off last⟩
    · have hb := ih (off + r.contents.length) hp
      have ha := le_alignUp (off + r.contents.length)
      exact ⟨by omega, hb.2⟩

/-- The end of a node's extent, as the 32-bit fields add up to it. -/
theorem next_offset (r : Rec) (o : Word) (off : Nat) :
    BitVec.ofNat 32 off + (r.container o).node.fileSize = BitVec.ofNat 32 (off + r.contents.length) := by
  simp [Rec.container, BitVec.ofNat_add]

/-- `CalculateFileOffsets` is the layout in 32 bits, whatever offsets the nodes carried before. -/
theorem calculateFileOffsets_eq (rs : List Rec) {cs : List IFSNodeContainer} {off off' last last' : Nat}
    (hcs : List.Forall₂ (fun c r => ∃ o, c = Rec.container o r) cs rs) (hoff : off' % 2 ^ 32 = off % 2 ^ 32)
    (hlast : rs = [] → last' = last % 2 ^ 32) :
    calculateFileOffsets cs off' last' = (placedNodes rs off, layoutEnd rs off last % 2 ^ 32) := by
  induction rs generalizing cs off off' last last' with
  | nil =>
    cases hcs
    rw [calculateFileOffsets, hlast rfl]
    rfl
  | cons r rs ih =>
    cases hcs with
    | cons hc hcs =>
      obtain ⟨o, rfl⟩ := hc
      have hword : BitVec.ofNat 32 off' = BitVec.ofNat 32 off := by rw [← ofNat_mod off', hoff, ofNat_mod]
      have hpage : (4096 : Word) = 4096#32 := rfl
      have hrest := @ih _ _ (alignUp (off + r.contents.length) 4096 % 2 ^ 32) (off + r.contents.length)
        ((off + r.contents.length) % 2 ^ 32) hcs (Nat.mod_mod _ _) fun _ => rfl
      simp only [calculateFileOffsets, hword, next_offset, hpage, alignUp32_ofNat, BitVec.toNat_ofNat, hrest]
      rfl

end CheviotBoot.Mkifs
