import CheviotBoot.Board.Property
import CheviotBoot.Boot.Main

namespace CheviotBoot.Boot
open Lib Board

/-- A request of `board_init`: eight bytes of zeros, and as many for the response. Whether it
succeeds is not looked at. -/
def mailboxGet (tag : Word) (answers : List Answer) : Except Fault (Word × Word) := do
  let replied ← bootRpiMailbox tag (some (List.replicate 8 0#8)) 8#32 (some (List.replicate 8 0#8)) 8#32 answers
  let response := replied.response.getD []
  return (field response 0, field response 4)

/-- `mailbox_get_revision`: the globals `revision` and `ext_revision`. -/
def mailboxGetRevision (answers : List Answer) : Except Fault (Word × Word) := mailboxGet 0x00010002#32 answers

/-- `mailbox_get_videocore_memory`: the globals `videocore_base` and `videocore_size`. -/
def mailboxGetVideocoreMemory (answers : List Answer) : Except Fault (Word × Word) :=
  mailboxGet 0x00010006#32 answers

/-- What `board_init` does to `bootinfo`. -/
def boardInitFrom (forRevision forVideocore : List Answer) (bi : BootInfo) : Except Fault BootInfo := do
  let (revision, _) ← mailboxGetRevision forRevision
  let (videocoreBase, videocoreSize) ← mailboxGetVideocoreMemory forVideocore
  return { bi with board := parseRevision revision videocoreBase videocoreSize bi.board }

/-- What becomes of a reply: it is read as it is, or as zeros where it is too long, and zeros
make up for what it is short of. -/
structure Took (as : Answers) (first second : Word) : Prop where
  whole : as.length = 8 → first = as.last.left.word 5 ∧ second = as.last.left.word 6
  long : 8 < as.length → first = 0#32 ∧ second = 0#32
  short : as.length < 8 → le32 first ++ le32 second =
    slice as.last.left.toList 20 as.length ++ List.replicate (8 - as.length) 0#8

/-- What is left in the response. -/
def taken (as : Answers) : List Byte :=
  if 8 < as.length then List.replicate 8 0#8
  else slice as.last.left.toList 20 as.length ++ List.replicate (8 - as.length) 0#8

theorem mailbuffer_slice (b : Mailbuffer) {n : Nat} (hn : n ≤ 236) : (slice b.toList 20 n).length = n := by
  rw [slice, List.length_take, List.length_drop, Vector.length_toList]
  omega

theorem taken_length (as : Answers) : (taken as).length = 8 := by
  unfold taken
  split_ifs with hlong
  · rfl
  · rw [List.length_append, mailbuffer_slice _ (by omega), List.length_replicate]
    omega

theorem two_fields {bs : List Byte} (h : bs.length = 8) : le32 (field bs 0) ++ le32 (field bs 4) = bs := by
  have hfirst : (slice bs 0 4).length = 4 := by
    rw [slice, List.length_take, List.length_drop]
    omega
  have hsecond : (slice bs 4 4).length = 4 := by
    rw [slice, List.length_take, List.length_drop]
    omega
  have hrest : slice bs 4 4 = bs.drop 4 := List.take_of_length_le (by rw [List.length_drop]; omega)
  rw [field, field, le32_word32 hfirst, le32_word32 hsecond, hrest]
  exact List.take_append_drop 4 bs

theorem taken_took (as : Answers) : Took as (field (taken as) 0) (field (taken as) 4) where
  whole := by
    intro h
    have heq : taken as = slice as.last.left.toList 20 8 := by
      rw [taken, if_neg (by omega), h]
      exact List.append_nil _
    have hword : ∀ i, i + 4 ≤ 8 → field (slice as.last.left.toList 20 8) i = field as.last.left.toList (20 + i) := by
      intro i hi
      rw [field, field, slice, slice, slice, List.drop_take, List.drop_drop, List.take_take, Nat.min_eq_left (by omega)]
    rw [heq, hword 0 (by decide), hword 4 (by decide)]
    exact ⟨rfl, rfl⟩
  long := by
    intro h
    rw [taken, if_pos h]
    decide
  short := by
    intro h
    rw [two_fields (taken_length as), taken, if_neg (by omega)]

theorem mailboxGet_taken (tag : Word) (as : Answers) :
    mailboxGet tag as.list = .ok (field (taken as) 0, field (taken as) 4) := by
  have hrequest : (List.replicate 8 0#8 : List Byte).length ≤ 232 := by decide
  have hrun := bootRpiMailbox_eq tag hrequest (some (List.replicate 8 0#8)) 8#32 as
  have hlt : 8#32 < as.last.left.word 3 ↔ 8 < as.length := BitVec.lt_def
  obtain ⟨handed, result, hreply⟩ : ∃ handed result,
      bootRpiMailbox tag (some (List.replicate 8 0#8)) 8#32 (some (List.replicate 8 0#8)) 8#32 as.list =
        .ok ⟨handed, result, some (taken as)⟩ := by
    refine ⟨firstMessage tag (List.replicate 8 0#8) :: as.busy, if 8 < as.length then -1 else 0, hrun.trans ?_⟩
    simp only [readResponse, hlt, taken]
    split_ifs with hlong
    · rfl
    · have hcopy : as.last.left.copyOut (List.replicate 8 0#8) as.length =
          .ok (slice as.last.left.toList 20 as.length ++ List.replicate (8 - as.length) 0#8) := by
        rw [Mailbuffer.copyOut, if_pos (by simp; omega), List.drop_replicate]
      rw [← Answers.length, hcopy]
      rfl
  rw [mailboxGet, hreply]
  rfl

/-- Whatever the firmware answers and however long it is busy, `board_init` keeps within its buffers,
and leaves `bootinfo` as for a board that is what was read. -/
theorem boardInit_answered (forRevision forVideocore : Answers) (bi : BootInfo) :
    ∃ mailbox extRevision, boardInitFrom forRevision.list forVideocore.list bi = .ok (boardInit mailbox bi) ∧
      Took forRevision mailbox.revision extRevision ∧
      Took forVideocore mailbox.videocoreBase mailbox.videocoreSize ∧
      (8 < forRevision.length → (boardInit mailbox bi).board.memSize = 128 * 1024 * 1024) := by
  refine ⟨⟨field (taken forRevision) 0, field (taken forVideocore) 0, field (taken forVideocore) 4⟩, _, ?_,
    taken_took forRevision, taken_took forVideocore, fun h => ?_⟩
  · rw [boardInitFrom, mailboxGetRevision, mailboxGet_taken, mailboxGetVideocoreMemory, mailboxGet_taken]
    rfl
  · have hold : boardMemory 0#32 = 128 * 1024 * 1024 := by decide
    rw [boardInit_memSize, ((taken_took forRevision).long h).1, hold]

end CheviotBoot.Boot
