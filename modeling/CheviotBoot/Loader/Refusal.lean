import CheviotBoot.Loader.Segments

namespace CheviotBoot.Loader
open Lib

/-- Everything the loader takes from the file lies in it. -/
structure WellFormed (m : Mem) (f : ElfFile) : Prop where
  header : 52 ≤ f.elfSize.toNat
  table : (ePhoff m f.elfBase).toNat + 32 * ePhnum m f.elfBase ≤ f.elfSize.toNat
  segments : ∀ h ∈ programHeaders m f, h.Loads → 0 < h.filesz.toNat →
    h.offset.toNat + h.filesz.toNat ≤ f.elfSize.toNat

/-- The headers stay in the table while the loop runs. -/
structure TableKept (vmKernelBase : Word) (m : Mem) (f : ElfFile)
    (ehdr phdrTable : Word) : Prop where
  clear : ∀ x, Within x (f.elfBase + ePhoff m f.elfBase) (32 * ePhnum m f.elfBase) → ¬ Within x ehdr 52
  off : ∀ h ∈ programHeaders m f, h.KeepsOff vmKernelBase phdrTable (32 * ePhnum m f.elfBase)

/-- No header that the loop still reads is written over: the copy of the ELF header keeps off the file's
table, and the segments before the first unsound header keep off the copied one. -/
structure TableRead (vmKernelBase : Word) (m : Mem) (f : ElfFile) (ehdr phdrTable : Word) : Prop where
  clear : ∀ x, Within x (f.elfBase + ePhoff m f.elfBase) (32 * ePhnum m f.elfBase) → ¬ Within x ehdr 52
  off : ∀ h ∈ (programHeaders m f).takeWhile (decide ·.Sound),
    h.KeepsOff vmKernelBase phdrTable (32 * ePhnum m f.elfBase)

/-- The loop over headers of which those before the first unsound one keep off the table ends well
exactly when there is no unsound one. -/
theorem loadSegments_ok_iff {vmKernelBase phdrTable : Word} {f : ElfFile} {cnt t : Nat} {hs : List Phdr}
    {m : Mem} (ceiling : Word) (hat : HeadersAt m phdrTable t hs)
    (hoff : ∀ h ∈ hs.takeWhile (decide ·.Sound), h.KeepsOff vmKernelBase phdrTable (32 * cnt))
    (ht : t + hs.length ≤ cnt) (hcnt : cnt ≤ maxPhdr) :
    (loadSegments vmKernelBase f phdrTable hs.length t m ceiling).ok = true ↔ ∀ h ∈ hs, h.Sound := by
  have hmax : cnt ≤ 64 := hcnt
  induction hs generalizing t m ceiling with
  | nil => exact iff_of_true rfl (List.forall_mem_nil _)
  | cons h hs ih =>
    rw [List.length_cons] at ht ⊢
    by_cases hsound : h.Sound
    · rw [List.takeWhile_cons_of_pos (by simpa using hsound)] at hoff
      obtain ⟨hhere, hlater⟩ := List.forall_mem_cons.mp hoff
      have hentry := hhere.entry (t := t) (by omega) hmax
      rw [← hat.1] at hentry
      obtain ⟨hok, hmem⟩ := loadSegment_eq (f := f) ceiling hentry
      rw [hat.1] at hok hmem
      rw [loadSegments, if_pos (hok.trans (decide_eq_true hsound)), hmem hsound, List.forall_mem_cons,
        and_iff_right hsound]
      exact ih _ (hat.2.mono (hhere.copies (by omega) f m) (by omega)) hlater (by omega)
    · refine iff_of_false (fun hok => hsound ?_) fun hall => hsound (hall h List.mem_cons_self)
      rw [← hat.1]
      exact loadSegment_sound (loadSegments_succ hok).1

/-- `elf_load` checks nothing against the size of the file. It deals as it should with a file that is well
formed, whose ELF header it does not accept, or that has an unsound program header which the loop
gets to; and with no other, where the loop reads the headers of the file. -/
theorem elfLoad_refuses {m : Mem} {ifsImage : Word} {filename : List Byte} {f : ElfFile}
    (hf : kernelFile m ifsImage filename = some f) (vmKernelBase ehdr phdrTable : Word) :
    (WellFormed m f ∨ ¬ Accepted m f ∨
        TableRead vmKernelBase m f ehdr phdrTable ∧ (∃ h ∈ programHeaders m f, ¬ h.Sound) →
      (elfLoad vmKernelBase m ifsImage filename ehdr phdrTable).ok = true → WellFormed m f) ∧
    (TableRead vmKernelBase m f ehdr phdrTable →
      (((elfLoad vmKernelBase m ifsImage filename ehdr phdrTable).ok = true → WellFormed m f) ↔
        WellFormed m f ∨ ¬ Accepted m f ∨ ∃ h ∈ programHeaders m f, ¬ h.Sound)) := by
  have haccepted : (elfLoad vmKernelBase m ifsImage filename ehdr phdrTable).ok = true → Accepted m f := by
    rw [elfLoad_eq hf]
    intro hok
    by_contra ha
    rw [if_neg ha] at hok
    exact Bool.false_ne_true hok
  have hok : TableRead vmKernelBase m f ehdr phdrTable → Accepted m f →
      ((elfLoad vmKernelBase m ifsImage filename ehdr phdrTable).ok = true ↔
        ¬ ∃ h ∈ programHeaders m f, ¬ h.Sound) := by
    intro hread ha
    have hat := tableCopied_headersAt phdrTable ha hread.clear
    have hloop := loadSegments_ok_iff (f := f) 0#32 hat hread.off (by simp) ha.2
    rw [programHeaders_length] at hloop
    rw [elfLoad_eq hf, if_pos ha, hloop]
    simp
  have henough : WellFormed m f ∨ ¬ Accepted m f ∨
      TableRead vmKernelBase m f ehdr phdrTable ∧ (∃ h ∈ programHeaders m f, ¬ h.Sound) →
      (elfLoad vmKernelBase m ifsImage filename ehdr phdrTable).ok = true → WellFormed m f := by
    rintro (hwell | hno | ⟨hread, hunsound⟩) hloaded
    · exact hwell
    · exact absurd (haccepted hloaded) hno
    · exact absurd hunsound ((hok hread (haccepted hloaded)).mp hloaded)
  refine ⟨henough, fun hread => ⟨fun hrefuses => ?_, fun h => henough (h.imp_right (Or.imp_right (⟨hread, ·⟩)))⟩⟩
  by_cases ha : Accepted m f
  · by_cases hunsound : ∃ h ∈ programHeaders m f, ¬ h.Sound
    · exact Or.inr (Or.inr hunsound)
    · exact Or.inl (hrefuses ((hok hread ha).mpr hunsound))
  · exact Or.inr (Or.inl ha)

/-- A kernel with one segment of eight bytes. -/
def oneSegment : List Byte :=
  sampleEhdr 52 1 ++ samplePhdr 1 84 0x80100000 8 8 ++ List.replicate 8 7#8

/-- It is loaded far from the two places of its headers. -/
theorem oneSegment_read :
    TableRead 0x80000000#32 (sampleMem oneSegment) ⟨0x200088#32, 0#32, 92#32⟩ 0x9000#32 0x9100#32 := by
  have hsize : 32 * ePhnum (sampleMem oneSegment) 0x200088#32 = 32 := by decide +kernel
  have htable : 0x200088#32 + ePhoff (sampleMem oneSegment) 0x200088#32 = 0x2000bc#32 := by decide +kernel
  have hheaders : (programHeaders (sampleMem oneSegment) ⟨0x200088#32, 0#32, 92#32⟩).takeWhile (decide ·.Sound) =
      [⟨1#32, 84#32, 0x80100000#32, 8#32, 8#32⟩] := by decide +kernel
  refine ⟨fun x hx hehdr => ?_, fun h hh _ x hx => ?_⟩
  · simp only [hsize, htable] at hx
    have hfile : 0x2000bc ≤ x.toNat ∧ x.toNat < 0x2000dc := (within_toNat (by decide)).mp hx
    have hcopy : 0x9000 ≤ x.toNat ∧ x.toNat < 0x9034 := (within_toNat (by decide)).mp hehdr
    omega
  · rw [hheaders, List.mem_singleton] at hh
    subst hh
    simp only [hsize] at hx
    have hcopied : 0x9100 ≤ x.toNat ∧ x.toNat < 0x9120 := (within_toNat (by decide)).mp hx
    refine ⟨fun hwipes => ?_, fun hfills => ?_⟩
    · have hpage : 0x100000 ≤ x.toNat ∧ x.toNat < 0x101000 := (within_toNat (by decide)).mp hwipes
      omega
    · have hbytes : 0x100000 ≤ x.toNat ∧ x.toNat < 0x100008 := (within_toNat (by decide)).mp hfills
      omega

theorem oneSegment_wellFormed : WellFormed (sampleMem oneSegment) ⟨0x200088#32, 0#32, 92#32⟩ := by
  have hfile : kernelFile (sampleMem oneSegment) 0x200000#32 kernelString = some ⟨0x200088#32, 0#32, 92#32⟩ := by
    decide +kernel
  have hrefuses := (elfLoad_refuses hfile 0x80000000#32 0x9000#32 0x9100#32).2 oneSegment_read
  exact hrefuses.mpr (Or.inl ⟨by decide +kernel, by decide +kernel, by decide +kernel⟩) (by decide +kernel)

/-- A file cut off after 46 bytes, six short of its ELF header, is taken. -/
theorem cutHeader_taken : ¬ ∀ vmKernelBase m ifsImage filename f ehdr phdrTable,
    kernelFile m ifsImage filename = some f →
      (elfLoad vmKernelBase m ifsImage filename ehdr phdrTable).ok = true → WellFormed m f := by
  intro h
  have hwell := h 0x80000000#32 (sampleMem ((sampleEhdr 52 1).take 46)) 0x200000#32 kernelString
    ⟨0x200088#32, 0#32, 46#32⟩ 0x9000#32 0x9100#32 (by decide +kernel) (by decide +kernel)
  exact absurd hwell.header (by decide)

/-- A kernel whose first segment, a page of its own, is loaded over the second entry of the table. -/
def overTable : List Byte :=
  sampleEhdr 52 2 ++ samplePhdr 1 116 0x8000a000 32 32 ++ samplePhdr 1 200 0x80100000 8 8 ++ samplePhdr 1 0 0 2 1

/-- Where the loop reads what a segment left there, a file may be refused for that. -/
example : ¬ WellFormed (sampleMem overTable) ⟨0x200088#32, 0#32, 148#32⟩ ∧
    (∀ h ∈ programHeaders (sampleMem overTable) ⟨0x200088#32, 0#32, 148#32⟩, h.Sound) ∧
    (elfLoad 0x80000000#32 (sampleMem overTable) 0x200000#32 kernelString 0x9000#32 0x9fe0#32).ok = false := by
  refine ⟨fun h => ?_, by decide +kernel, by decide +kernel⟩
  have hsecond := h.segments ⟨1#32, 200#32, 0x80100000#32, 8#32, 8#32⟩ (by decide +kernel) rfl (by decide)
  exact absurd hsecond (by decide)

end CheviotBoot.Loader
