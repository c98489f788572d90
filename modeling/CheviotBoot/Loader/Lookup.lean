import CheviotBoot.Loader.Elf
import CheviotBoot.Mkifs.NodeTable

namespace CheviotBoot.Loader
open Lib Mkifs

/-- `StrCmp` answers 0 exactly where the string and its NUL lie in memory. -/
theorem strCmp_eq_zero {t : List Byte} (ht : 0#8 ∉ t) (m : Mem) (s : Word) :
    strCmp m s t = 0 ↔ m.Carries s (t ++ [0#8]) := by
  induction t generalizing s with
  | nil =>
    rw [strCmp, List.nil_append, Mem.carries_cons]
    constructor
    · intro h
      refine ⟨BitVec.eq_of_toNat_eq (by simpa using h), ?_⟩
      exact fun i hi => absurd hi (Nat.not_lt_zero i)
    · intro h
      rw [h.1]
      rfl
  | cons c t ih =>
    have hc : c ≠ 0#8 := fun he => ht (he ▸ List.mem_cons_self)
    have hrest := ih (fun hm => ht (List.mem_cons_of_mem _ hm)) (s + 1#32)
    rw [strCmp, List.cons_append, Mem.carries_cons]
    by_cases hs : m s = c
    · have hz : m s ≠ 0#8 := fun he => hc (hs.symm.trans he)
      rw [if_pos hs, if_neg hz, hrest]
      exact (and_iff_right hs).symm
    · rw [if_neg hs]
      constructor
      · intro h
        exact absurd (BitVec.eq_of_toNat_eq (by omega)) hs
      · intro h
        exact absurd h.1 hs

/-- Against a node in memory `StrCmp` compares its name. -/
theorem strCmp_node {m : Mem} {a : Word} {n : IFSNode} {q t : List Byte} (ht : 0#8 ∉ t)
    (hn : m.Carries a n.bytes) (hq : n.string = some q) : strCmp m a t = 0 ↔ q = t := by
  obtain ⟨hnul, r, hname⟩ := cstr_some hq
  have hown : m.Carries a (q ++ [0#8]) := by
    have hbytes : n.bytes = (q ++ [0#8]) ++ (r ++ (le32 n.inodeNr ++ le32 n.parentInodeNr ++ le32 n.permissions ++
        le32 n.uid ++ le32 n.gid ++ le32 n.fileOffset ++ le32 n.fileSize)) := by
      simp [IFSNode.bytes, hname]
    rw [hbytes] at hn
    exact (Mem.carries_append hn).1
  rw [strCmp_eq_zero ht]
  constructor
  · exact fun h => hown.string_unique hnul ht h
  · rintro rfl
    exact hown

/-- The fields of a node in memory that the scans and their callers read. -/
theorem node_fields {m : Mem} {a : Word} {n : IFSNode} (h : m.Carries a n.bytes) :
    m.word (a + 32#32) = n.inodeNr ∧ m.word (a + 36#32) = n.parentInodeNr ∧
      m.word (a + 52#32) = n.fileOffset ∧ m.word (a + 56#32) = n.fileSize := by
  have hread := readNode_bytes n
  have hlen := IFSNode.bytes_length n
  refine ⟨?_, ?_, ?_, ?_⟩
  · exact (h.field (k := 32) (by omega)).trans (congrArg IFSNode.inodeNr hread)
  · exact (h.field (k := 36) (by omega)).trans (congrArg IFSNode.parentInodeNr hread)
  · exact (h.field (k := 52) (by omega)).trans (congrArg IFSNode.fileOffset hread)
  · exact (h.field (k := 56) (by omega)).trans (congrArg IFSNode.fileSize hread)

/-- A scan over nodes in memory stops at the first that is wanted, or there is none. -/
theorem findNode_spec {m : Mem} {isWanted : Word → Bool} {wants : IFSNode → Bool}
    (ns : List IFSNode) {a : Word} (h : m.Carries a (ns.map IFSNode.bytes).flatten)
    (hw : ∀ n ∈ ns, ∀ b, m.Carries b n.bytes → isWanted b = wants n) :
    (∃ n b, ns.find? wants = some n ∧ m.Carries b n.bytes ∧ findNode isWanted ns.length a = some b) ∨
      ns.find? wants = none ∧ findNode isWanted ns.length a = none := by
  induction ns generalizing a with
  | nil => exact Or.inr ⟨rfl, rfl⟩
  | cons n ns ih =>
    rw [List.map_cons, List.flatten_cons] at h
    obtain ⟨hfirst, hrest⟩ := Mem.carries_append h
    rw [IFSNode.bytes_length] at hrest
    have hhere := hw n List.mem_cons_self a hfirst
    rw [List.length_cons, findNode, List.find?_cons]
    cases hn : wants n with
    | true =>
      refine Or.inl ⟨n, a, rfl, hfirst, ?_⟩
      rw [hhere, hn, if_pos rfl]
    | false =>
      rw [hhere, hn, if_neg (by decide)]
      exact ih hrest (fun k hk => hw k (List.mem_cons_of_mem _ hk))

/-- An IFS image in memory: the header's count and offset lead to these nodes. -/
structure ImageAt (m : Mem) (ifsImage : Word) (ns : List IFSNode) : Prop where
  count : (m.word (ifsImage + 8#32)).toInt.toNat = ns.length
  table : m.Carries (ifsImage + m.word (ifsImage + 4#32)) (ns.map IFSNode.bytes).flatten
  named : ∀ n ∈ ns, ∃ q, n.string = some q

/-- A node the second scan takes: this name, and the number of this directory as its parent. -/
def IFSNode.liesIn (n : IFSNode) (dir : IFSNode) (filename : List Byte) : Prop :=
  n.string = some filename ∧ n.parentInodeNr = dir.inodeNr

theorem ImageAt.wanted {m : Mem} {ifsImage : Word} {ns : List IFSNode} (h : ImageAt m ifsImage ns)
    {name : List Byte} (hn : 0#8 ∉ name) : ∀ n ∈ ns, ∀ b, m.Carries b n.bytes →
      (strCmp m b name == 0) = (n.string == some name) := by
  intro n hmem b hb
  obtain ⟨q, hq⟩ := h.named n hmem
  rw [Bool.eq_iff_iff, beq_iff_eq, beq_iff_eq, strCmp_node hn hb hq, hq, Option.some.injEq]

/-- What the two scans find in an image: a node in the first directory of the given name,
unless there is no such directory or nothing of that name in it. -/
theorem ImageAt.findFile {m : Mem} {ifsImage : Word} {ns : List IFSNode} (h : ImageAt m ifsImage ns)
    {dirname filename : List Byte} (hd : 0#8 ∉ dirname) (hf : 0#8 ∉ filename) :
    (∃ dir, ns.find? (fun n => n.string == some dirname) = some dir ∧
      ((∃ n ∈ ns, ∃ b, IFSNode.liesIn n dir filename ∧ m.Carries b n.bytes ∧
          findFile m ifsImage dirname filename = some b) ∨
        (∀ n ∈ ns, ¬ IFSNode.liesIn n dir filename) ∧
          findFile m ifsImage dirname filename = none)) ∨
      ns.find? (fun n => n.string == some dirname) = none ∧
        findFile m ifsImage dirname filename = none := by
  unfold Loader.findFile
  simp only [h.count]
  rcases findNode_spec ns h.table (h.wanted hd) with ⟨dir, b, hdir, hb, hfound⟩ | ⟨hnone, hfound⟩
  · refine Or.inl ⟨dir, hdir, ?_⟩
    have hino := (node_fields hb).1
    have hwant : ∀ n ∈ ns, ∀ c, m.Carries c n.bytes →
        (strCmp m c filename == 0 && m.word (c + 36#32) == m.word (b + 32#32)) =
          (n.string == some filename && n.parentInodeNr == dir.inodeNr) := by
      intro n hn c hc
      rw [h.wanted hf n hn c hc, (node_fields hc).2.1, hino]
    simp only [hfound, bind, Option.bind]
    rcases findNode_spec ns h.table hwant with ⟨n, c, hn, hc, hres⟩ | ⟨hall, hres⟩
    · refine Or.inl ⟨n, List.mem_of_find?_eq_some hn, c, ?_, hc, hres⟩
      have hin := List.find?_some hn
      simpa [IFSNode.liesIn] using hin
    · refine Or.inr ⟨?_, hres⟩
      intro n hn hin
      have hno := List.find?_eq_none.mp hall n hn
      simp [hin.1, hin.2] at hno
  · refine Or.inr ⟨hnone, ?_⟩
    simp only [hfound, bind, Option.bind]

end CheviotBoot.Loader
