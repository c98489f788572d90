import CheviotBoot.Loader.BootInfo

namespace CheviotBoot.Loader
open Lib

/-- The fields of a program header that the loader reads. -/
structure Phdr where
  type : Word
  offset : Word
  vaddr : Word
  filesz : Word
  memsz : Word
  deriving DecidableEq

def readPhdr (m : Mem) (phdr : Word) : Phdr :=
  ⟨pType m phdr, pOffset m phdr, pVaddr m phdr, pFilesz m phdr, pMemsz m phdr⟩

/-- A segment the loader places. -/
def Phdr.Loads (h : Phdr) : Prop := h.type = ptLoad

instance (h : Phdr) : Decidable h.Loads := inferInstanceAs (Decidable (_ = _))

/-- The header passes the loader's check of its sizes. -/
def Phdr.Sound (h : Phdr) : Prop := h.Loads → h.filesz.toNat ≤ h.memsz.toNat

instance (h : Phdr) : Decidable h.Sound := inferInstanceAs (Decidable (_ → _))

def Phdr.segmentBase (vmKernelBase : Word) (h : Phdr) : Word :=
  alignDown32 h.vaddr 4096#32 - vmKernelBase

def Phdr.segmentCeiling (vmKernelBase : Word) (h : Phdr) : Word :=
  alignUp32 (h.vaddr + h.memsz) 4096#32 - vmKernelBase

/-- The bytes of the page-rounded range, the ones that are zeroed. -/
def Phdr.span (vmKernelBase : Word) (h : Phdr) : Word :=
  h.segmentCeiling vmKernelBase - h.segmentBase vmKernelBase

/-- The address is zeroed for the segment. -/
def Phdr.Wipes (vmKernelBase : Word) (h : Phdr) (x : Word) : Prop :=
  Within x (h.segmentBase vmKernelBase) (h.span vmKernelBase).toNat

/-- The address gets a byte of the file. -/
def Phdr.Fills (vmKernelBase : Word) (h : Phdr) (x : Word) : Prop :=
  Within x (h.vaddr - vmKernelBase) h.filesz.toNat

instance (vmKernelBase : Word) (h : Phdr) (x : Word) : Decidable (h.Wipes vmKernelBase x) :=
  inferInstanceAs (Decidable (Within _ _ _))

instance (vmKernelBase : Word) (h : Phdr) (x : Word) : Decidable (h.Fills vmKernelBase x) :=
  inferInstanceAs (Decidable (Within _ _ _))

/-- Neither write for the segment reaches a range. -/
def Phdr.KeepsOff (vmKernelBase : Word) (a : Word) (n : Nat) (h : Phdr) : Prop :=
  h.Loads → ∀ x, Within x a n → ¬ h.Wipes vmKernelBase x ∧ ¬ h.Fills vmKernelBase x

/-- Memory once a segment is placed. -/
def place (vmKernelBase : Word) (f : ElfFile) (m : Mem) (h : Phdr) : Mem :=
  if h.Loads then
    (m.memset (h.segmentBase vmKernelBase) 0#8 (h.span vmKernelBase)).memcpy (h.vaddr - vmKernelBase)
      (f.elfBase + h.offset) h.filesz
  else m

def placeAll (vmKernelBase : Word) (f : ElfFile) (m : Mem) (hs : List Phdr) : Mem :=
  hs.foldl (place vmKernelBase f) m

/-- The program headers of the file. -/
def programHeaders (m : Mem) (f : ElfFile) : List Phdr :=
  (List.range (ePhnum m f.elfBase)).map fun t => readPhdr m (phdrAt (f.elfBase + ePhoff m f.elfBase) t)

/-- These headers lie in the table from the `t`th on. -/
def HeadersAt (m : Mem) (phdrTable : Word) : Nat → List Phdr → Prop
  | _, [] => True
  | t, h :: hs => readPhdr m (phdrAt phdrTable t) = h ∧ HeadersAt m phdrTable (t + 1) hs

theorem readPhdr_copies {m' m : Mem} {dst src : Word} {n k : Nat} (h : m'.Copies dst m src n)
    (hk : k + 32 ≤ n) :
    readPhdr m' (dst + BitVec.ofNat 32 k) = readPhdr m (src + BitVec.ofNat 32 k) := by
  have hword : ∀ l, l + 4 ≤ 32 → m'.word (dst + BitVec.ofNat 32 k + BitVec.ofNat 32 l) =
      m.word (src + BitVec.ofNat 32 k + BitVec.ofNat 32 l) := by
    intro l hl
    have hfield := h.word (k := k + l) (by omega)
    rwa [BitVec.ofNat_add, ← BitVec.add_assoc, ← BitVec.add_assoc] at hfield
  have htype : pType m' (dst + BitVec.ofNat 32 k) = pType m (src + BitVec.ofNat 32 k) := h.word (by omega)
  have hoffset := hword 4 (by decide)
  have hvaddr := hword 8 (by decide)
  have hfilesz := hword 16 (by decide)
  have hmemsz := hword 20 (by decide)
  unfold readPhdr pOffset pVaddr pFilesz pMemsz
  rw [htype, hoffset, hvaddr, hfilesz, hmemsz]

theorem readPhdr_same {m' m : Mem} {phdr : Word} (h : m'.Copies phdr m phdr 32) :
    readPhdr m' phdr = readPhdr m phdr := by
  have hread := readPhdr_copies (k := 0) h (by decide)
  rwa [BitVec.add_zero] at hread

theorem place_outside {vmKernelBase : Word} {f : ElfFile} {m : Mem} {h : Phdr} {x : Word}
    (hw : h.Loads → ¬ h.Wipes vmKernelBase x) (hf : h.Loads → ¬ h.Fills vmKernelBase x) :
    place vmKernelBase f m h x = m x := by
  unfold place
  by_cases hl : h.Loads
  · rw [if_pos hl, Mem.memcpy_outside (hf hl), Mem.memset_outside (hw hl)]
  · rw [if_neg hl]

/-- What placing segments leaves alone. -/
theorem placeAll_outside {vmKernelBase : Word} {f : ElfFile} {hs : List Phdr} {x : Word} (m : Mem)
    (hx : ∀ h ∈ hs, h.Loads → ¬ h.Wipes vmKernelBase x ∧ ¬ h.Fills vmKernelBase x) :
    placeAll vmKernelBase f m hs x = m x := by
  induction hs generalizing m with
  | nil => rfl
  | cons h hs ih =>
    obtain ⟨hhere, hrest⟩ := List.forall_mem_cons.mp hx
    rw [placeAll, List.foldl_cons, ← placeAll, ih _ hrest]
    exact place_outside (fun hl => (hhere hl).1) fun hl => (hhere hl).2

/-- A segment that keeps off a range leaves it as it was. -/
theorem Phdr.KeepsOff.copies {vmKernelBase a : Word} {n : Nat} {h : Phdr}
    (hoff : h.KeepsOff vmKernelBase a n)
    (hn : n ≤ 2 ^ 32) (f : ElfFile) (m : Mem) : (place vmKernelBase f m h).Copies a m a n := by
  intro i hi
  have hx := within_offset (a := a) hi (by omega)
  exact place_outside (fun hl => (hoff hl _ hx).1) (fun hl => (hoff hl _ hx).2)

/-- A segment that keeps off the table keeps off each of its entries. -/
theorem Phdr.KeepsOff.entry {vmKernelBase phdrTable : Word} {cnt t : Nat} {h : Phdr}
    (hoff : h.KeepsOff vmKernelBase phdrTable (32 * cnt)) (ht : t < cnt) (hcnt : cnt ≤ 64) :
    h.KeepsOff vmKernelBase (phdrAt phdrTable t) 32 := by
  intro hl x hx
  obtain ⟨i, hi, _, rfl⟩ := hx.offset
  refine hoff hl _ ?_
  rw [phdrAt, BitVec.add_assoc, ← BitVec.ofNat_add]
  exact within_offset (by omega) (by omega)

theorem HeadersAt.mono {m' m : Mem} {phdrTable : Word} {cnt t : Nat} {hs : List Phdr}
    (h : HeadersAt m phdrTable t hs) (hm : m'.Copies phdrTable m phdrTable (32 * cnt)) (ht : t + hs.length ≤ cnt) :
    HeadersAt m' phdrTable t hs := by
  induction hs generalizing t with
  | nil => trivial
  | cons p hs ih =>
    rw [List.length_cons] at ht
    refine ⟨?_, ih h.2 (by omega)⟩
    rw [← h.1]
    exact readPhdr_copies hm (by omega)

/-- A copied table holds the headers that were copied. -/
theorem headersAt_copies {m' m : Mem} {phdrTable src : Word} {cnt : Nat}
    (h : m'.Copies phdrTable m src (32 * cnt)) {t k : Nat} (ht : t + k ≤ cnt) :
    HeadersAt m' phdrTable t ((List.range' t k).map fun t => readPhdr m (phdrAt src t)) := by
  induction k generalizing t with
  | zero => trivial
  | succ k ih => exact ⟨readPhdr_copies h (by omega), ih (by omega)⟩

@[simp] theorem programHeaders_length (m : Mem) (f : ElfFile) :
    (programHeaders m f).length = ePhnum m f.elfBase := by
  simp [programHeaders]

/-- What a round does for a header that its own segment leaves alone. -/
theorem loadSegment_eq {vmKernelBase phdr : Word} {f : ElfFile} {m : Mem} (ceiling : Word)
    (hoff : (readPhdr m phdr).KeepsOff vmKernelBase phdr 32) :
    (loadSegment vmKernelBase f phdr m ceiling).ok = decide (readPhdr m phdr).Sound ∧
      ((readPhdr m phdr).Sound →
        (loadSegment vmKernelBase f phdr m ceiling).mem = place vmKernelBase f m (readPhdr m phdr)) := by
  obtain ⟨h, hh⟩ : ∃ h, h = readPhdr m phdr := ⟨_, rfl⟩
  rw [← hh] at hoff ⊢
  unfold loadSegment place
  by_cases hl : pType m phdr = ptLoad
  · have hloads : h.Loads := hh ▸ hl
    have hsize : h.Sound ↔ ¬ pMemsz m phdr < pFilesz m phdr := by
      rw [hh, BitVec.lt_def, Nat.not_lt]
      exact ⟨fun hs => hs hl, fun hs _ => hs⟩
    rw [if_neg (fun hn => hn hl), if_pos hloads]
    by_cases hs : h.Sound
    · rw [if_neg (hsize.mp hs), decide_eq_true hs]
      obtain ⟨m₁, hm₁⟩ : ∃ m₁, m₁ = m.memset (h.segmentBase vmKernelBase) 0#8 (h.span vmKernelBase) := ⟨_, rfl⟩
      have hkept : readPhdr m₁ phdr = h := by
        rw [hh]
        refine readPhdr_same fun i hi => ?_
        rw [hm₁]
        exact Mem.memset_outside (hoff hloads _ (within_offset hi (by omega))).1
      have hzeroed : m.memset (alignDown32 (pVaddr m phdr) 4096#32 - vmKernelBase) 0#8
          (alignUp32 (pVaddr m phdr + pMemsz m phdr) 4096#32 - vmKernelBase -
            (alignDown32 (pVaddr m phdr) 4096#32 - vmKernelBase)) = m₁ := by
        rw [hm₁, hh]
        rfl
      have hfilesz : pFilesz m₁ phdr = h.filesz := congrArg Phdr.filesz hkept
      have hoffset : pOffset m₁ phdr = h.offset := congrArg Phdr.offset hkept
      have hvaddr : pVaddr m₁ phdr = h.vaddr := congrArg Phdr.vaddr hkept
      simp only [hzeroed, hfilesz, hoffset, hvaddr, elfRead, elfSeek, ← hm₁]
      by_cases hz : h.filesz = 0#32
      · rw [if_neg (fun hn => hn hz), hz, Mem.memcpy_zero]
        exact ⟨rfl, fun _ => rfl⟩
      · obtain ⟨m₂, hm₂⟩ : ∃ m₂, m₂ = m₁.memcpy (h.vaddr - vmKernelBase) (f.elfBase + h.offset) h.filesz := ⟨_, rfl⟩
        have hagain : pFilesz m₂ phdr = h.filesz := by
          rw [← hfilesz]
          refine congrArg Phdr.filesz (readPhdr_same fun i hi => ?_)
          rw [hm₂]
          exact Mem.memcpy_outside (hoff hloads _ (within_offset hi (by omega))).2
        rw [if_pos hz, ← hm₂, hagain, if_neg (fun hn => hn rfl)]
        exact ⟨rfl, fun _ => rfl⟩
    · rw [if_pos (Decidable.not_not.mp (fun hn => hs (hsize.mpr hn))), decide_eq_false hs]
      exact ⟨rfl, fun hn => absurd hn hs⟩
  · have hno : ¬ h.Loads := hh ▸ hl
    have hs : h.Sound := fun hl => absurd hl hno
    rw [if_pos hl, if_neg hno, decide_eq_true hs]
    exact ⟨rfl, fun _ => rfl⟩

/-- The loop over headers whose segments keep off the table: it ends well exactly when
all are sound, and has then placed them in order. -/
theorem loadSegments_eq {vmKernelBase phdrTable : Word} {f : ElfFile} {cnt t : Nat}
    {hs : List Phdr} {m : Mem} (ceiling : Word) (hat : HeadersAt m phdrTable t hs)
    (hoff : ∀ h ∈ hs, h.KeepsOff vmKernelBase phdrTable (32 * cnt)) (ht : t + hs.length ≤ cnt)
    (hcnt : cnt ≤ maxPhdr) :
    (loadSegments vmKernelBase f phdrTable hs.length t m ceiling).ok = decide (∀ h ∈ hs, h.Sound) ∧
      ((∀ h ∈ hs, h.Sound) →
        (loadSegments vmKernelBase f phdrTable hs.length t m ceiling).mem = placeAll vmKernelBase f m hs) := by
  have hmax : cnt ≤ 64 := hcnt
  induction hs generalizing t m ceiling with
  | nil => exact ⟨by simp [loadSegments], fun _ => rfl⟩
  | cons h hs ih =>
    rw [List.length_cons] at ht
    have hhere : (readPhdr m (phdrAt phdrTable t)).KeepsOff vmKernelBase (phdrAt phdrTable t) 32 := by
      rw [hat.1]
      exact (hoff h List.mem_cons_self).entry (by omega) hmax
    obtain ⟨hok, hmem⟩ := loadSegment_eq (f := f) ceiling hhere
    rw [hat.1] at hok hmem
    rw [List.length_cons, loadSegments]
    by_cases hs' : h.Sound
    · rw [if_pos (by rw [hok]; exact decide_eq_true hs'), hmem hs']
      have hcopies := (hoff h List.mem_cons_self).copies (by omega) f m
      obtain ⟨hrest, hplaced⟩ := ih (loadSegment vmKernelBase f (phdrAt phdrTable t) m ceiling).ceiling
        (hat.2.mono hcopies (by omega)) (fun k hk => hoff k (List.mem_cons_of_mem h hk)) (by omega)
      refine ⟨?_, fun hall => hplaced fun k hk => hall k (List.mem_cons_of_mem h hk)⟩
      rw [hrest]
      simp [hs']
    · have hno : (loadSegment vmKernelBase f (phdrAt phdrTable t) m ceiling).ok = false := by
        rw [hok]
        exact decide_eq_false hs'
      rw [if_neg (by rw [hno]; exact Bool.false_ne_true), hno]
      refine ⟨?_, fun hall => absurd (hall h List.mem_cons_self) hs'⟩
      exact (decide_eq_false fun hall => hs' (hall h List.mem_cons_self)).symm

/-- A round that ends well has found a sound header, whatever its segment is written over. -/
theorem loadSegment_sound {vmKernelBase phdr ceiling : Word} {f : ElfFile} {m : Mem}
    (h : (loadSegment vmKernelBase f phdr m ceiling).ok = true) : (readPhdr m phdr).Sound := by
  intro hl
  unfold loadSegment at h
  rw [if_neg fun hn => hn hl] at h
  by_cases hs : pMemsz m phdr < pFilesz m phdr
  · rw [if_pos hs] at h
    cases h
  · exact Nat.not_lt.mp hs

/-- A loop that ends well has passed its first round and goes on from what that left. -/
theorem loadSegments_succ {vmKernelBase phdrTable : Word} {f : ElfFile} {cnt t : Nat} {m : Mem}
    {ceiling : Word} (hok : (loadSegments vmKernelBase f phdrTable (cnt + 1) t m ceiling).ok = true) :
    (loadSegment vmKernelBase f (phdrAt phdrTable t) m ceiling).ok = true ∧
      loadSegments vmKernelBase f phdrTable (cnt + 1) t m ceiling =
        loadSegments vmKernelBase f phdrTable cnt (t + 1)
          (loadSegment vmKernelBase f (phdrAt phdrTable t) m ceiling).mem
          (loadSegment vmKernelBase f (phdrAt phdrTable t) m ceiling).ceiling := by
  rw [loadSegments] at hok ⊢
  cases hfirst : (loadSegment vmKernelBase f (phdrAt phdrTable t) m ceiling).ok with
  | false => simp only [hfirst, Bool.false_eq_true, if_false] at hok
  | true => exact ⟨rfl, if_pos rfl⟩

/-- A loop that ends well has found only sound headers, where those that are keep off the table. -/
theorem loadSegments_sound {vmKernelBase phdrTable : Word} {f : ElfFile} {cnt t : Nat} {hs : List Phdr}
    {m : Mem} {ceiling : Word} (hat : HeadersAt m phdrTable t hs)
    (hoff : ∀ h ∈ hs, h.Sound → h.KeepsOff vmKernelBase phdrTable (32 * cnt)) (ht : t + hs.length ≤ cnt)
    (hcnt : cnt ≤ maxPhdr)
    (hok : (loadSegments vmKernelBase f phdrTable hs.length t m ceiling).ok = true) :
    ∀ h ∈ hs, h.Sound := by
  have hmax : cnt ≤ 64 := hcnt
  induction hs generalizing t m ceiling with
  | nil => exact List.forall_mem_nil _
  | cons h hs ih =>
    rw [List.length_cons] at ht hok
    obtain ⟨hfirst, hrest⟩ := loadSegments_succ hok
    rw [hrest] at hok
    have hsound := loadSegment_sound hfirst
    rw [hat.1] at hsound
    have hkeeps := hoff h List.mem_cons_self hsound
    have hentry := hkeeps.entry (t := t) (by omega) hmax
    rw [← hat.1] at hentry
    have hmem := (loadSegment_eq (f := f) ceiling hentry).2 (hat.1 ▸ hsound)
    rw [hat.1] at hmem
    refine List.forall_mem_cons.mpr ⟨hsound, ih ?_ ?_ (by omega) hok⟩
    · rw [hmem]
      exact hat.2.mono (hkeeps.copies (by omega) f m) (by omega)
    · exact fun k hk => hoff k (List.mem_cons_of_mem h hk)

/-- The file's program headers, read into a table clear of its ELF header's copy. -/
theorem tableCopied_headersAt {m : Mem} {f : ElfFile} {ehdr : Word} (phdrTable : Word)
    (h : Accepted m f)
    (hclear : ∀ x, Within x (f.elfBase + ePhoff m f.elfBase) (32 * ePhnum m f.elfBase) →
      ¬ Within x ehdr 52) :
    HeadersAt (tableCopied m f ehdr phdrTable) phdrTable 0 (programHeaders m f) := by
  have hmax : ePhnum m f.elfBase ≤ 64 := h.2
  have hcopies : (tableCopied m f ehdr phdrTable).Copies phdrTable m (f.elfBase + ePhoff m f.elfBase)
      (32 * ePhnum m f.elfBase) := by
    intro i hi
    rw [tableCopied_copies ehdr phdrTable h i hi]
    exact ehdrCopied_outside (hclear _ (within_offset hi (by omega)))
  rw [programHeaders, List.range_eq_range']
  exact headersAt_copies hcopies (by omega)

end CheviotBoot.Loader
