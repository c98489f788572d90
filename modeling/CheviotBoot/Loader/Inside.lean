import CheviotBoot.Loader.Reader

namespace CheviotBoot.Loader
open Lib

/-- `k` bytes from an offset on lie in an image. -/
def RangeIn (img : List Byte) (o : Word) (k : Nat) : Prop := k = 0 ∨ o.toNat + k ≤ img.length

instance (img : List Byte) (o : Word) (k : Nat) : Decidable (RangeIn img o k) :=
  inferInstanceAs (Decidable (_ ∨ _))

/-- A string stands in an image with its NUL. -/
def CalledIn (img : List Byte) (o : Word) : List Byte → Prop
  | [] => img[o.toNat]? = some 0#8
  | c :: t => img[o.toNat]? = some c ∧ CalledIn img (o + 1#32) t

/-- The bytes from an offset on lie in an image, up to the first that is not the string's. -/
def NameIn (img : List Byte) (o : Word) : List Byte → Prop
  | [] => o.toNat < img.length
  | c :: t => o.toNat < img.length ∧ (img[o.toNat]? = some c → NameIn img (o + 1#32) t)

/-- The header's count. -/
def nodeCntIn (img : List Byte) : Nat := (field img 8).toInt.toNat

/-- The offset of node `t`. -/
def nodeIn (img : List Byte) (t : Nat) : Word := field img 4 + BitVec.ofNat 32 (60 * t)

def fieldIn (img : List Byte) (t : Nat) (k : Word) : Word := field img (nodeIn img t + k).toNat

instance CalledIn.decidable (img : List Byte) (o : Word) : (s : List Byte) → Decidable (CalledIn img o s)
  | [] => inferInstanceAs (Decidable (_ = _))
  | _ :: t => haveI := CalledIn.decidable img (o + 1#32) t; inferInstanceAs (Decidable (_ ∧ _))

instance NameIn.decidable (img : List Byte) (o : Word) : (s : List Byte) → Decidable (NameIn img o s)
  | [] => inferInstanceAs (Decidable (_ < _))
  | _ :: t => haveI := NameIn.decidable img (o + 1#32) t; inferInstanceAs (Decidable (_ ∧ (_ → _)))

/-- Node `t` ends the first scan. -/
def IsDirIn (img dirname : List Byte) (t : Nat) : Prop := CalledIn img (nodeIn img t) dirname

/-- Node `t` ends the second scan, where the first ended with node `d`. -/
def IsFileIn (img filename : List Byte) (d t : Nat) : Prop :=
  CalledIn img (nodeIn img t) filename ∧ fieldIn img t 36#32 = fieldIn img d 32#32

/-- The header's fields, the names that the scans come to and the numbers they compare lie in
the image. -/
structure LookupIn (img dirname filename : List Byte) : Prop where
  offset : RangeIn img 4#32 4
  count : RangeIn img 8#32 4
  dirs : ∀ t, Comes (IsDirIn img dirname) (nodeCntIn img) t → NameIn img (nodeIn img t) dirname
  number : ∀ d, First (IsDirIn img dirname) (nodeCntIn img) d → RangeIn img (nodeIn img d + 32#32) 4
  files : ∀ d, First (IsDirIn img dirname) (nodeCntIn img) d →
    ∀ t, Comes (IsFileIn img filename d) (nodeCntIn img) t → NameIn img (nodeIn img t) filename ∧
      (CalledIn img (nodeIn img t) filename → RangeIn img (nodeIn img t + 36#32) 4)

/-- The scans end with node `f`. -/
def FindsIn (img dirname filename : List Byte) (f : Nat) : Prop :=
  ∃ d, First (IsDirIn img dirname) (nodeCntIn img) d ∧
    First (IsFileIn img filename d) (nodeCntIn img) f

/-- The image is in order for the lookup of a file: so are the scans, and the node they end with
and the file's bytes lie in the image. -/
structure FindIn (img dirname filename : List Byte) : Prop where
  lookup : LookupIn img dirname filename
  fields : ∀ f, FindsIn img dirname filename f →
    RangeIn img (nodeIn img f + 52#32) 4 ∧ RangeIn img (nodeIn img f + 56#32) 4
  extent : ∀ f, FindsIn img dirname filename f →
    RangeIn img (fieldIn img f 52#32) (fieldIn img f 56#32).toNat

/-- The same for an ELF header, which has 52 bytes, however short the file. -/
structure HeaderIn (img filename : List Byte) : Prop where
  lookup : LookupIn img bootName filename
  fields : ∀ f, FindsIn img bootName filename f →
    RangeIn img (nodeIn img f + 52#32) 4 ∧ RangeIn img (nodeIn img f + 56#32) 4
  header : ∀ f, FindsIn img bootName filename f → RangeIn img (fieldIn img f 52#32) 52

/-- `elf_find` reads only the image and reports nothing but a range of it. -/
structure FindsInside (m : Mem) (ifsImage ifsSize : Word) (dirname filename : List Byte) : Prop where
  reads : (Reader.elfFind ifsImage dirname filename).StaysIn m (Within · ifsImage ifsSize.toNat)
  reports : ∀ file fileSize, elfFind m ifsImage dirname filename = .found file fileSize →
    ∀ x, Within x file fileSize.toNat → Within x ifsImage ifsSize.toNat

/-- So does `elf_load` up to the ELF header. -/
def LoadsInside (m : Mem) (ifsImage ifsSize : Word) (filename : List Byte) : Prop :=
  (Reader.elfHeader ifsImage filename).StaysIn m (Within · ifsImage ifsSize.toNat)

/-- Where the first scan ends with a node only that node is looked at again. -/
theorem lookupIn_first {img dirname filename : List Byte} {d : Nat}
    (hfirst : First (IsDirIn img dirname) (nodeCntIn img) d) : LookupIn img dirname filename ↔
      (RangeIn img 4#32 4 ∧ RangeIn img 8#32 4) ∧
        (∀ t, Comes (IsDirIn img dirname) (nodeCntIn img) t → NameIn img (nodeIn img t) dirname) ∧
          RangeIn img (nodeIn img d + 32#32) 4 ∧
            ∀ t, Comes (IsFileIn img filename d) (nodeCntIn img) t → NameIn img (nodeIn img t) filename ∧
              (CalledIn img (nodeIn img t) filename → RangeIn img (nodeIn img t + 36#32) 4) := by
  constructor
  · exact fun h => ⟨⟨h.offset, h.count⟩, h.dirs, h.number d hfirst, h.files d hfirst⟩
  · rintro ⟨⟨hoffset, hcount⟩, hdirs, hnumber, hfiles⟩
    refine ⟨hoffset, hcount, hdirs, ?_, ?_⟩
    · exact fun k hk => hk.unique hfirst ▸ hnumber
    · exact fun k hk => hk.unique hfirst ▸ hfiles

/-- The header and the whole node table lie in the image. -/
structure TableIn (img : List Byte) : Prop where
  header : 12 ≤ img.length
  nodes : ∀ t < nodeCntIn img, (nodeIn img t).toNat + 60 ≤ img.length

theorem nameIn_of_room {img : List Byte} (hlen : img.length < 2 ^ 32) {s : List Byte} {o : Word}
    (h : o.toNat + s.length < img.length) : NameIn img o s := by
  induction s generalizing o with
  | nil => exact h
  | cons c t ih =>
    rw [List.length_cons] at h
    have hnext : (o + 1#32).toNat = o.toNat + 1 := BitVec.toNat_add_of_lt (by simp; omega)
    exact ⟨by omega, fun _ => ih (by omega)⟩

theorem TableIn.field_in {img : List Byte} (h : TableIn img) (hlen : img.length < 2 ^ 32) {t k : Nat}
    (ht : t < nodeCntIn img) (hk : k + 4 ≤ 60) : RangeIn img (nodeIn img t + BitVec.ofNat 32 k) 4 := by
  have hnode := h.nodes t ht
  refine Or.inr ?_
  rw [BitVec.toNat_add, BitVec.toNat_ofNat]
  omega

/-- Where the table lies in the image so does all that is read of it for names that could be there. -/
theorem TableIn.lookup {img : List Byte} (h : TableIn img) (hlen : img.length < 2 ^ 32)
    {dirname filename : List Byte} (hd : dirname.length < 60) (hf : filename.length < 60) :
    LookupIn img dirname filename where
  offset := Or.inr (Nat.le_trans (by decide) h.header)
  count := Or.inr h.header
  dirs t ht := nameIn_of_room hlen (Nat.lt_of_lt_of_le (Nat.add_lt_add_left hd _) (h.nodes t ht.1))
  number d hd := h.field_in hlen hd.1.1 (by decide)
  files _ _ t ht := ⟨nameIn_of_room hlen (Nat.lt_of_lt_of_le (Nat.add_lt_add_left hf _) (h.nodes t ht.1)),
    fun _ => h.field_in hlen ht.1 (by decide)⟩

theorem rangeIn_iff {base o : Word} {img : List Byte} (hlen : img.length < 2 ^ 32) (k : Nat) :
    (∀ i, i < k → Within (base + o + BitVec.ofNat 32 i) base img.length) ↔ RangeIn img o k := by
  have hoff : ∀ i, (base + o + BitVec.ofNat 32 i - base).toNat = (o.toNat + i) % 2 ^ 32 := by
    intro i
    rw [BitVec.add_assoc, BitVec.add_comm, BitVec.add_sub_cancel, BitVec.toNat_add, BitVec.toNat_ofNat]
    omega
  simp only [Within, hoff]
  constructor
  · intro h
    by_cases hk : k = 0
    · exact Or.inl hk
    · have hlow := h 0 (Nat.pos_of_ne_zero hk)
      have hlt := o.isLt
      rw [Nat.add_zero, Nat.mod_eq_of_lt hlt] at hlow
      refine Or.inr (Nat.not_lt.mp fun hover => ?_)
      -- the first byte past the image is one of the range
      have hend := h (img.length - o.toNat) (by omega)
      rw [Nat.add_sub_cancel' (Nat.le_of_lt hlow), Nat.mod_eq_of_lt hlen] at hend
      exact Nat.lt_irrefl _ hend
  · intro h i hi
    rcases h with rfl | h
    · exact absurd hi (Nat.not_lt_zero i)
    · rw [Nat.mod_eq_of_lt (by omega)]
      omega

section
variable {m : Mem} {base : Word} {img : List Byte}

theorem within_image (o : Word) : Within (base + o) base img.length ↔ o.toNat < img.length := by
  rw [Within, BitVec.add_comm, BitVec.add_sub_cancel]

theorem readWord_in (hlen : img.length < 2 ^ 32) (o : Word) :
    (Reading.readWord (base + o)).StaysIn m (Within · base img.length) ↔ RangeIn img o 4 := by
  rw [Reading.staysIn_readWord]
  exact rangeIn_iff hlen 4

/-- A scan whose test answers for the image. -/
theorem scan_in {test : Word → Reading Bool} {holds succeeds : Nat → Prop}
    (hstays : ∀ t, (test (base + nodeIn img t)).StaysIn m (Within · base img.length) ↔ holds t)
    (hrun : ∀ t, holds t → ((test (base + nodeIn img t)).run m = true ↔ succeeds t)) (cnt : Nat) :
    ((Reading.scan test 60 cnt (base + field img 4)).StaysIn m (Within · base img.length) ↔
        ∀ t, Comes succeeds cnt t → holds t) ∧
      ((∀ t, Comes succeeds cnt t → holds t) → ∀ b,
        (Reading.scan test 60 cnt (base + field img 4)).run m = some b ↔
          ∃ t, First succeeds cnt t ∧ base + nodeIn img t = b) := by
  have hnode : ∀ t, base + field img 4 + BitVec.ofNat 32 (60 * t) = base + nodeIn img t :=
    fun t => BitVec.add_assoc _ _ _
  have hcomes : (∀ t, Comes _ cnt t → holds t) ↔ _ := comes_congr hrun
  refine ⟨?_, ?_⟩
  · rw [Reading.staysIn_scan, ← hcomes]
    simp only [hnode, hstays]
  · intro hall b
    rw [Reading.scan_some]
    simp only [hnode, first_congr hrun (hcomes.mpr hall)]

variable (hm : m.Carries base img)
include hm

theorem byte_in {o : Word} (h : o.toNat < img.length) : img[o.toNat]? = some (m (base + o)) := by
  have hbyte := hm o.toNat h
  rw [BitVec.ofNat_toNat, BitVec.setWidth_eq] at hbyte
  rw [hbyte, List.getElem?_eq_getElem h]

theorem word_in {o : Word} (h : RangeIn img o 4) : m.word (base + o) = field img o.toNat := by
  have hword := hm.field (h.resolve_left (by decide))
  rwa [BitVec.ofNat_toNat, BitVec.setWidth_eq] at hword

theorem strCmp_in {s : List Byte} (hs : 0#8 ∉ s) (o : Word) :
    ((Reader.strCmp (base + o) s).StaysIn m (Within · base img.length) ↔ NameIn img o s) ∧
      (NameIn img o s → (strCmp m (base + o) s = 0 ↔ CalledIn img o s)) := by
  induction s generalizing o with
  | nil =>
    rw [Reader.strCmp, Reading.staysIn_bind, Reading.staysIn_read, within_image]
    refine ⟨and_iff_left (Reading.staysIn_pure _), ?_⟩
    intro hin
    rw [CalledIn, byte_in hm hin, Option.some_inj, strCmp]
    exact ⟨fun h => BitVec.eq_of_toNat_eq (Int.ofNat_eq_zero.mp h), fun h => by rw [h]; rfl⟩
  | cons c t ih =>
    obtain ⟨hstays, hcalled⟩ := ih (fun hmem => hs (List.mem_cons_of_mem _ hmem)) (o + 1#32)
    rw [← BitVec.add_assoc] at hstays hcalled
    rw [Reader.strCmp, Reading.staysIn_bind, Reading.staysIn_read, within_image, Reading.run_read,
      NameIn, CalledIn, strCmp]
    by_cases hc : m (base + o) = c
    · have hnul : m (base + o) ≠ 0#8 := fun he => hs ((hc.symm.trans he) ▸ List.mem_cons_self)
      rw [if_pos hc, if_neg hnul, if_pos hc, if_neg hnul, hstays]
      constructor
      · refine and_congr_right fun hin => ?_
        rw [byte_in hm hin, hc, forall_prop_of_true rfl]
      · rintro ⟨hin, hrest⟩
        have hbyte : img[o.toNat]? = some c := hc ▸ byte_in hm hin
        rw [hcalled (hrest hbyte), hbyte]
        exact (and_iff_right rfl).symm
    · rw [if_neg hc, if_neg hc]
      have hbyte : ∀ hin : o.toNat < img.length, img[o.toNat]? ≠ some c := by
        intro hin he
        exact hc (Option.some.inj ((byte_in hm hin).symm.trans he))
      constructor
      · refine and_congr_right fun hin => ?_
        exact iff_of_true (Reading.staysIn_pure _) (fun he => absurd he (hbyte hin))
      · rintro ⟨hin, _⟩
        refine iff_of_false (fun he => hc (BitVec.eq_of_toNat_eq ?_)) (fun he => hbyte hin he.1)
        exact Int.ofNat.inj (Int.sub_eq_zero.mp he)

theorem isDir_in {dirname : List Byte} (hd : 0#8 ∉ dirname) (o : Word) :
    ((Reader.isDir dirname (base + o)).StaysIn m (Within · base img.length) ↔ NameIn img o dirname) ∧
      (NameIn img o dirname → ((Reader.isDir dirname (base + o)).run m = true ↔ CalledIn img o dirname)) := by
  obtain ⟨hstays, hcalled⟩ := strCmp_in hm hd o
  refine ⟨?_, ?_⟩
  · rw [Reader.isDir, Reading.staysIn_bind, hstays]
    exact and_iff_left (Reading.staysIn_pure _)
  · intro hin
    rw [Reader.isDir, Reading.run_bind, Reader.run_strCmp, Reading.run_pure, beq_iff_eq]
    exact hcalled hin

theorem isFile_in (hlen : img.length < 2 ^ 32) {filename : List Byte} (hf : 0#8 ∉ filename)
    (nr o : Word) :
    ((Reader.isFile filename nr (base + o)).StaysIn m (Within · base img.length) ↔
        NameIn img o filename ∧ (CalledIn img o filename → RangeIn img (o + 36#32) 4)) ∧
      (NameIn img o filename ∧ (CalledIn img o filename → RangeIn img (o + 36#32) 4) →
        ((Reader.isFile filename nr (base + o)).run m = true ↔
          CalledIn img o filename ∧ field img (o + 36#32).toNat = nr)) := by
  obtain ⟨hstays, hcalled⟩ := strCmp_in hm hf o
  rw [Reader.isFile, Reading.staysIn_bind, hstays, Reading.run_bind, Reader.run_strCmp, BitVec.add_assoc]
  by_cases hin : NameIn img o filename
  · by_cases hc : CalledIn img o filename
    · rw [if_pos ((hcalled hin).mpr hc), Reading.staysIn_bind, readWord_in hlen, Reading.run_bind,
        Reading.run_readWord, Reading.run_pure, beq_iff_eq, forall_prop_of_true hc]
      refine ⟨and_congr_right fun _ => and_iff_left (Reading.staysIn_pure _), ?_⟩
      rintro ⟨_, hparent⟩
      rw [word_in hm hparent]
      exact (and_iff_right hc).symm
    · rw [if_neg (fun he => hc ((hcalled hin).mp he))]
      refine ⟨and_congr_right fun _ => iff_of_true (Reading.staysIn_pure _) (fun he => absurd he hc), ?_⟩
      exact fun _ => iff_of_false Bool.false_ne_true (fun he => hc he.1)
  · exact ⟨iff_of_false (fun h => hin h.1) (fun h => hin h.1), fun h => absurd h.1 hin⟩

/-- The second scan, once the first has ended with node `d`. -/
theorem filesScan_in (hlen : img.length < 2 ^ 32) {filename : List Byte} (hf : 0#8 ∉ filename) (d : Nat) :
    (RangeIn img (nodeIn img d + 32#32) 4 ∧
          (Reading.scan (Reader.isFile filename (m.word (base + nodeIn img d + 32#32))) 60 (nodeCntIn img)
            (base + field img 4)).StaysIn m (Within · base img.length) ↔
        RangeIn img (nodeIn img d + 32#32) 4 ∧
          ∀ t, Comes (IsFileIn img filename d) (nodeCntIn img) t → NameIn img (nodeIn img t) filename ∧
            (CalledIn img (nodeIn img t) filename → RangeIn img (nodeIn img t + 36#32) 4)) ∧
      (RangeIn img (nodeIn img d + 32#32) 4 →
        (∀ t, Comes (IsFileIn img filename d) (nodeCntIn img) t → NameIn img (nodeIn img t) filename ∧
          (CalledIn img (nodeIn img t) filename → RangeIn img (nodeIn img t + 36#32) 4)) →
        ∀ node, (Reading.scan (Reader.isFile filename (m.word (base + nodeIn img d + 32#32))) 60
            (nodeCntIn img) (base + field img 4)).run m = some node ↔
          ∃ f, First (IsFileIn img filename d) (nodeCntIn img) f ∧ base + nodeIn img f = node) := by
  by_cases hnumber : RangeIn img (nodeIn img d + 32#32) 4
  · rw [BitVec.add_assoc, word_in hm hnumber]
    obtain ⟨hstays, hsome⟩ := scan_in (fun t => (isFile_in hm hlen hf _ (nodeIn img t)).1)
      (fun t => (isFile_in hm hlen hf (fieldIn img d 32#32) (nodeIn img t)).2) (nodeCntIn img)
    exact ⟨and_congr_right fun _ => hstays, fun _ => hsome⟩
  · exact ⟨iff_of_false (fun h => hnumber h.1) (fun h => hnumber h.1), fun h => absurd h hnumber⟩

/-- The scans read the image only and find what it leads to. -/
theorem findFile_in (hlen : img.length < 2 ^ 32) {dirname filename : List Byte} (hd : 0#8 ∉ dirname)
    (hf : 0#8 ∉ filename) :
    ((Reader.findFile base dirname filename).StaysIn m (Within · base img.length) ↔
        LookupIn img dirname filename) ∧
      (LookupIn img dirname filename → ∀ node, findFile m base dirname filename = some node ↔
        ∃ f, FindsIn img dirname filename f ∧ base + nodeIn img f = node) := by
  rw [← Reader.run_findFile, Reader.findFile]
  simp only [Reading.staysIn_bind, Reading.run_bind, Reading.run_readWord, readWord_in hlen]
  by_cases hhead : RangeIn img 4#32 4 ∧ RangeIn img 8#32 4
  · have hoffset : m.word (base + 4#32) = field img 4 := word_in hm hhead.1
    have hcount : (m.word (base + 8#32)).toInt.toNat = nodeCntIn img :=
      congrArg (fun w : Word => w.toInt.toNat) (word_in hm hhead.2)
    obtain ⟨hdirs, hsome⟩ := scan_in (fun t => (isDir_in hm hd (nodeIn img t)).1)
      (fun t => (isDir_in hm hd (nodeIn img t)).2) (nodeCntIn img)
    rw [hoffset, hcount, hdirs]
    cases hscan : (Reading.scan (Reader.isDir dirname) 60 (nodeCntIn img) (base + field img 4)).run m with
    | none =>
      rw [hscan] at hsome
      have hnone : (∀ t, Comes (IsDirIn img dirname) (nodeCntIn img) t → NameIn img (nodeIn img t) dirname) →
          ∀ d, ¬ First (IsDirIn img dirname) (nodeCntIn img) d :=
        fun hall d hfirst => nomatch (hsome hall _).mpr ⟨d, hfirst, rfl⟩
      refine ⟨?_, ?_⟩
      · constructor
        · rintro ⟨_, _, hall, _⟩
          refine ⟨hhead.1, hhead.2, hall, ?_, ?_⟩
          · exact fun d hfirst => absurd hfirst (hnone hall d)
          · exact fun d hfirst => absurd hfirst (hnone hall d)
        · exact fun h => ⟨hhead.1, hhead.2, h.dirs, Reading.staysIn_pure _⟩
      · intro h node
        refine iff_of_false (fun he => nomatch he) ?_
        rintro ⟨f, ⟨d, hfirst, _⟩, _⟩
        exact hnone h.dirs d hfirst
    | some dir =>
      rw [hscan] at hsome
      dsimp only
      rw [Reading.staysIn_bind, Reading.run_bind, Reading.run_readWord]
      refine ⟨?_, ?_⟩
      · constructor
        · rintro ⟨_, _, hall, hrest⟩
          obtain ⟨d, hfirst, rfl⟩ := (hsome hall dir).mp rfl
          rw [BitVec.add_assoc, readWord_in hlen, ← BitVec.add_assoc, (filesScan_in hm hlen hf d).1] at hrest
          exact (lookupIn_first hfirst).mpr ⟨hhead, hall, hrest⟩
        · intro h
          obtain ⟨d, hfirst, rfl⟩ := (hsome h.dirs dir).mp rfl
          rw [BitVec.add_assoc, readWord_in hlen, ← BitVec.add_assoc, (filesScan_in hm hlen hf d).1]
          exact ⟨hhead.1, hhead.2, h.dirs, h.number d hfirst, h.files d hfirst⟩
      · intro h node
        obtain ⟨d, hfirst, rfl⟩ := (hsome h.dirs dir).mp rfl
        rw [(filesScan_in hm hlen hf d).2 (h.number d hfirst) (h.files d hfirst)]
        constructor
        · exact fun ⟨f, hfile, he⟩ => ⟨f, ⟨d, hfirst, hfile⟩, he⟩
        · rintro ⟨f, ⟨k, hk, hfile⟩, he⟩
          exact ⟨f, hk.unique hfirst ▸ hfile, he⟩
  · refine ⟨iff_of_false (fun h => hhead ⟨h.1, h.2.1⟩) (fun h => hhead ⟨h.offset, h.count⟩), ?_⟩
    exact fun h => absurd ⟨h.offset, h.count⟩ hhead

theorem extent_in (hlen : img.length < 2 ^ 32) (f : Nat) :
    ((Reader.extent base (base + nodeIn img f)).StaysIn m (Within · base img.length) ↔
        RangeIn img (nodeIn img f + 52#32) 4 ∧ RangeIn img (nodeIn img f + 56#32) 4) ∧
      (RangeIn img (nodeIn img f + 52#32) 4 ∧ RangeIn img (nodeIn img f + 56#32) 4 →
        (Reader.extent base (base + nodeIn img f)).run m =
          (base + fieldIn img f 52#32, fieldIn img f 56#32)) := by
  simp only [Reader.extent, BitVec.add_assoc, Reading.staysIn_bind, Reading.staysIn_pure, and_true,
    readWord_in hlen, Reading.run_bind, Reading.run_readWord, Reading.run_pure, true_and]
  rintro ⟨hoffset, hsize⟩
  rw [word_in hm hoffset, word_in hm hsize]
  rfl

/-- What either function does with the node that the scans find stays in the image where that of
the node which the image leads to does. -/
theorem found_in (hlen : img.length < 2 ^ 32) {dirname filename : List Byte} (hd : 0#8 ∉ dirname)
    (hf : 0#8 ∉ filename) {α : Type} (v : α) (next : Word → Reading α) :
    (Reading.StaysIn m (Within · base img.length) (do
        let node ← Reader.findFile base dirname filename
        match node with
        | none => pure v
        | some node => next node)) ↔
      LookupIn img dirname filename ∧ ∀ f, FindsIn img dirname filename f →
        (next (base + nodeIn img f)).StaysIn m (Within · base img.length) := by
  obtain ⟨hstays, hsome⟩ := findFile_in hm hlen hd hf
  rw [Reading.staysIn_bind, hstays, Reader.run_findFile]
  refine and_congr_right fun hlookup => ?_
  have hfound := hsome hlookup
  cases hnode : findFile m base dirname filename with
  | none =>
    refine iff_of_true (Reading.staysIn_pure v) ?_
    intro f hleads
    exact nomatch hnode.symm.trans ((hfound _).mpr ⟨f, hleads, rfl⟩)
  | some node =>
    constructor
    · intro h f hleads
      have he := hnode.symm.trans ((hfound _).mpr ⟨f, hleads, rfl⟩)
      exact Option.some.inj he ▸ h
    · intro h
      obtain ⟨f, hleads, rfl⟩ := (hfound node).mp hnode
      exact h f hleads

theorem elfFind_reads (hlen : img.length < 2 ^ 32) {dirname filename : List Byte} (hd : 0#8 ∉ dirname)
    (hf : 0#8 ∉ filename) :
    (Reader.elfFind base dirname filename).StaysIn m (Within · base img.length) ↔
      LookupIn img dirname filename ∧ ∀ f, FindsIn img dirname filename f →
        RangeIn img (nodeIn img f + 52#32) 4 ∧ RangeIn img (nodeIn img f + 56#32) 4 := by
  refine Iff.trans (found_in hm hlen hd hf Found.failed (fun node => do
    let e ← Reader.extent base node
    pure (Found.found e.1 e.2))) ?_
  simp only [Reading.staysIn_bind, Reading.staysIn_pure, and_true, (extent_in hm hlen _).1]

theorem elfHeader_reads (hlen : img.length < 2 ^ 32) {filename : List Byte} (hf : 0#8 ∉ filename) :
    (Reader.elfHeader base filename).StaysIn m (Within · base img.length) ↔ HeaderIn img filename := by
  refine Iff.trans (found_in hm hlen (by decide : 0#8 ∉ bootName) hf none (fun node => do
    let e ← Reader.extent base node
    let header ← Reading.readBytes ehdrSize.toNat e.1
    pure (some ((⟨e.1, 0#32, e.2⟩ : ElfFile), header)))) ?_
  simp only [Reading.staysIn_bind, Reading.staysIn_pure, and_true, Reading.staysIn_readBytes]
  have hheader : ∀ f, RangeIn img (nodeIn img f + 52#32) 4 ∧ RangeIn img (nodeIn img f + 56#32) 4 →
      ((∀ i, i < ehdrSize.toNat → Within (((Reader.extent base (base + nodeIn img f)).run m).1 +
          BitVec.ofNat 32 i) base img.length) ↔ RangeIn img (fieldIn img f 52#32) 52) := by
    intro f hfields
    rw [(extent_in hm hlen f).2 hfields]
    exact rangeIn_iff hlen 52
  constructor
  · rintro ⟨hlookup, hall⟩
    have hfields := fun f hleads => (extent_in hm hlen f).1.mp (hall f hleads).1
    exact ⟨hlookup, hfields, fun f hleads => (hheader f (hfields f hleads)).mp (hall f hleads).2⟩
  · intro h
    refine ⟨h.lookup, fun f hleads => ⟨(extent_in hm hlen f).1.mpr (h.fields f hleads), ?_⟩⟩
    exact (hheader f (h.fields f hleads)).mpr (h.header f hleads)

/-- What `elf_find` reports is the range of the file that the image leads to. -/
theorem elfFind_found (hlen : img.length < 2 ^ 32) {dirname filename : List Byte} (hd : 0#8 ∉ dirname)
    (hf : 0#8 ∉ filename) (hlookup : LookupIn img dirname filename)
    (hfields : ∀ f, FindsIn img dirname filename f →
      RangeIn img (nodeIn img f + 52#32) 4 ∧ RangeIn img (nodeIn img f + 56#32) 4)
    (file fileSize : Word) : elfFind m base dirname filename = .found file fileSize ↔
      ∃ f, FindsIn img dirname filename f ∧ base + fieldIn img f 52#32 = file ∧
        fieldIn img f 56#32 = fileSize := by
  have hfound := (findFile_in hm hlen hd hf).2 hlookup
  have hextent : ∀ f, FindsIn img dirname filename f →
      m.word (base + nodeIn img f + 52#32) = fieldIn img f 52#32 ∧
        m.word (base + nodeIn img f + 56#32) = fieldIn img f 56#32 := by
    intro f hleads
    rw [BitVec.add_assoc, BitVec.add_assoc]
    exact ⟨word_in hm (hfields f hleads).1, word_in hm (hfields f hleads).2⟩
  rw [elfFind]
  cases hnode : findFile m base dirname filename with
  | none =>
    constructor
    · intro he
      cases he
    · rintro ⟨f, hleads, _⟩
      cases hnode.symm.trans ((hfound _).mpr ⟨f, hleads, rfl⟩)
  | some node =>
    obtain ⟨f, hleads, rfl⟩ := (hfound node).mp hnode
    dsimp only
    rw [Found.found.injEq, (hextent f hleads).1, (hextent f hleads).2]
    constructor
    · exact fun he => ⟨f, hleads, he⟩
    · rintro ⟨k, hk, hfile, hsize⟩
      have he := Option.some.inj (hnode.symm.trans ((hfound _).mpr ⟨k, hk, rfl⟩))
      have hsame : nodeIn img f = nodeIn img k := (BitVec.add_right_inj base).mp he
      rw [← hfile, ← hsize]
      simp only [fieldIn, hsame, and_self]

end

/-- Over every image in memory: the reader stays inside it exactly where it is in order for the
lookup. Nothing is refused for being out of range. -/
theorem reader_inside_iff {m : Mem} {ifsImage ifsSize : Word} {img dirname filename : List Byte}
    (hm : m.Carries ifsImage img) (hsize : img.length = ifsSize.toNat) (hd : 0#8 ∉ dirname)
    (hf : 0#8 ∉ filename) :
    (FindsInside m ifsImage ifsSize dirname filename ↔ FindIn img dirname filename) ∧
      (LoadsInside m ifsImage ifsSize filename ↔ HeaderIn img filename) := by
  have hlen : img.length < 2 ^ 32 := hsize ▸ ifsSize.isLt
  have hreads := elfFind_reads hm hlen hd hf
  rw [hsize] at hreads
  have hrange : ∀ (o size : Word), (∀ x, Within x (ifsImage + o) size.toNat →
      Within x ifsImage ifsSize.toNat) ↔ RangeIn img o size.toNat := by
    intro o size
    rw [← rangeIn_iff hlen, hsize]
    constructor
    · exact fun h i hi => h _ (within_offset hi (Nat.lt_trans hi size.isLt))
    · intro h x hx
      obtain ⟨i, hi, _, rfl⟩ := hx.offset
      exact h i hi
  refine ⟨?_, ?_⟩
  · constructor
    · intro h
      obtain ⟨hlookup, hfields⟩ := hreads.mp h.reads
      refine ⟨hlookup, hfields, fun f hleads => (hrange _ _).mp ?_⟩
      exact h.reports _ _ ((elfFind_found hm hlen hd hf hlookup hfields _ _).mpr ⟨f, hleads, rfl, rfl⟩)
    · intro h
      refine ⟨hreads.mpr ⟨h.lookup, h.fields⟩, ?_⟩
      intro file fileSize he
      obtain ⟨f, hleads, rfl, rfl⟩ := (elfFind_found hm hlen hd hf h.lookup h.fields _ _).mp he
      exact (hrange _ _).mpr (h.extent f hleads)
  · have hheader := elfHeader_reads hm hlen hf
    rwa [hsize] at hheader

/-- A sample image with a kernel of an ELF header and nothing else is in order. -/
theorem sampleImage_inside :
    FindsInside (sampleMem (sampleEhdr 52 1)) 0x200000#32 188#32 bootName kernelString ∧
      LoadsInside (sampleMem (sampleEhdr 52 1)) 0x200000#32 188#32 kernelString := by
  have hlength : (sampleImage (sampleEhdr 52 1)).length = (188#32).toNat := by decide +kernel
  have hlen : (sampleImage (sampleEhdr 52 1)).length < 2 ^ 32 := hlength ▸ (188#32).isLt
  have hcarries := Mem.store_carries (fun _ => 0#8) 0x200000#32 (Nat.le_of_lt hlen)
  obtain ⟨hfind, hload⟩ := reader_inside_iff hcarries hlength (by decide : 0#8 ∉ bootName)
    (by decide : 0#8 ∉ kernelString)
  have hcnt : nodeCntIn (sampleImage (sampleEhdr 52 1)) = 2 := by decide +kernel
  have htable : TableIn (sampleImage (sampleEhdr 52 1)) := by
    refine ⟨by decide +kernel, ?_⟩
    rw [hcnt]
    decide +kernel
  have hlookup : LookupIn (sampleImage (sampleEhdr 52 1)) bootName kernelString :=
    htable.lookup hlen (by decide) (by decide)
  have hcount : ∀ f, FindsIn (sampleImage (sampleEhdr 52 1)) bootName kernelString f → f < 2 := by
    rintro f ⟨_, _, hfirst⟩
    exact hcnt ▸ hfirst.1.1
  have hfields : ∀ f < 2, RangeIn (sampleImage (sampleEhdr 52 1))
      (nodeIn (sampleImage (sampleEhdr 52 1)) f + 52#32) 4 ∧
        RangeIn (sampleImage (sampleEhdr 52 1)) (nodeIn (sampleImage (sampleEhdr 52 1)) f + 56#32) 4 := by
    decide +kernel
  have hextent : ∀ f < 2, RangeIn (sampleImage (sampleEhdr 52 1))
      (fieldIn (sampleImage (sampleEhdr 52 1)) f 52#32)
      (fieldIn (sampleImage (sampleEhdr 52 1)) f 56#32).toNat ∧
        RangeIn (sampleImage (sampleEhdr 52 1)) (fieldIn (sampleImage (sampleEhdr 52 1)) f 52#32) 52 := by
    decide +kernel
  exact ⟨hfind.mpr ⟨hlookup, fun f hf => hfields f (hcount f hf), fun f hf => (hextent f (hcount f hf)).1⟩,
    hload.mpr ⟨hlookup, fun f hf => hfields f (hcount f hf), fun f hf => (hextent f (hcount f hf)).2⟩⟩

/-- An image of 16 bytes: a header that puts one node 64 KiB below the image. -/
def strayImage : List Byte := zeros 4 ++ leBytes 4 0xFFFF0000 ++ leBytes 4 1 ++ leBytes 4 16

theorem strayImage_read : ¬ ∀ m ifsImage ifsSize img dirname filename, Mem.Carries m ifsImage img →
    img.length = ifsSize.toNat → 0#8 ∉ dirname → 0#8 ∉ filename →
      FindsInside m ifsImage ifsSize dirname filename ∧ LoadsInside m ifsImage ifsSize filename := by
  intro hall
  have hcarries := Mem.store_carries (fun _ => 0#8) 0x200000#32
    (Nat.le_of_lt (16#32).isLt : strayImage.length ≤ 2 ^ 32)
  have hreads := (hall _ 0x200000#32 16#32 strayImage bootName kernelString hcarries (by decide)
    (by decide) (by decide)).1.reads 0x1F0000#32 (by decide +kernel)
  exact absurd hreads (by decide)

end CheviotBoot.Loader
