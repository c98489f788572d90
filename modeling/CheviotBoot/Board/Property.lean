import CheviotBoot.Lib.Buffer
import CheviotBoot.Lib.File
import CheviotBoot.Lib.Outcome

namespace CheviotBoot.Board
open Lib

/-- `mailbuffer`, its 64 words as bytes. -/
abbrev Mailbuffer := CharBuf 256

/-- An access outside an object, or a firmware that has only answered 0 so far. -/
inductive Fault
  | outside
  | unanswered
  deriving DecidableEq

def Mailbuffer.word (b : Mailbuffer) (i : Nat) : Word := field b.toList (4 * i)

def Mailbuffer.setWord (b : Mailbuffer) (i : Int) (w : Word) : Except Fault Mailbuffer :=
  if 0 ≤ i ∧ i < 64 then .ok (b.put (4 * i.toNat) (le32 w)) else .error .outside

/-- `memcpy` of `n` bytes to word 5 on. -/
def Mailbuffer.copyIn (b : Mailbuffer) (src : List Byte) (n : Nat) : Except Fault Mailbuffer :=
  if n ≤ src.length ∧ 20 + n ≤ 256 then .ok (b.put 20 (src.take n)) else .error .outside

/-- `memcpy` of `n` bytes from word 5 on. -/
def Mailbuffer.copyOut (b : Mailbuffer) (dst : List Byte) (n : Nat) : Except Fault (List Byte) :=
  if n ≤ dst.length ∧ 20 + n ≤ 256 then .ok (slice b.toList 20 n ++ dst.drop n) else .error .outside

/-- What the firmware leaves in the buffer, and what `hal_mbox_read` returns. -/
structure Answer where
  left : Mailbuffer
  result : Word
  deriving DecidableEq

/-- The buffers given to `hal_mbox_write`, and the one after the last `hal_mbox_read`. -/
structure Exchange where
  handed : List Mailbuffer
  left : Mailbuffer

/-- The `do` loop: a retry hands over the buffer as the firmware left it. -/
def exchange (b : Mailbuffer) : List Answer → Except Fault Exchange
  | [] => .error .unanswered
  | a :: answers =>
    if a.result = 0#32 then do
      let e ← exchange a.left answers
      return { e with handed := b :: e.handed }
    else .ok ⟨[b], a.left⟩

structure Replied where
  handed : List Mailbuffer
  result : Int
  response : Option (List Byte)
  deriving DecidableEq

/-- The request goes to word 5 on, if there is one. -/
def copyRequest (b : Mailbuffer) (request : Option (List Byte)) (reqSz : Word) : Except Fault Mailbuffer :=
  match request with
  | some bytes => if 0 < reqSz.toInt then b.copyIn bytes reqSz.toNat else .ok b
  | none => .ok b

/-- The stores of `boot_rpi_mailbox` before the loop. -/
def writeRequest (tag : Word) (request : Option (List Byte)) (reqSz : Word) : Except Fault Mailbuffer := do
  let b : Mailbuffer := padded 256 []
  let b ← b.setWord 0 256#32
  let b ← b.setWord 1 0#32
  let b ← b.setWord 2 tag
  let b ← b.setWord 3 reqSz
  let b ← b.setWord 4 0#32
  let b ← copyRequest b request reqSz
  b.setWord (5 + reqSz.toInt.tdiv 4) 0#32

/-- What follows the loop. The signed size is converted for the comparison. -/
def readResponse (e : Exchange) (response : Option (List Byte)) (responseSz : Word) : Except Fault Replied :=
  let actualResponseSz := e.left.word 3
  if responseSz < actualResponseSz then .ok ⟨e.handed, -1, response⟩
  else
    match response with
    | some bytes => do
      let bytes ← e.left.copyOut bytes actualResponseSz.toNat
      return ⟨e.handed, 0, some bytes⟩
    | none => .ok ⟨e.handed, 0, none⟩

/-- `boot_rpi_mailbox`; a pointer is the object it points to, none for NULL. -/
def bootRpiMailbox (tag : Word) (request : Option (List Byte)) (reqSz : Word) (response : Option (List Byte))
    (responseSz : Word) (answers : List Answer) : Except Fault Replied := do
  let b ← writeRequest tag request reqSz
  let e ← exchange b answers
  readResponse e response responseSz

/-- A firmware that is busy for a while, and then answers. -/
structure Answers where
  busy : List Mailbuffer
  last : Answer
  answered : last.result ≠ 0#32

def Answers.list (as : Answers) : List Answer := as.busy.map (⟨·, 0#32⟩) ++ [as.last]

/-- The reply's length word. -/
def Answers.length (as : Answers) : Nat := (as.last.left.word 3).toNat

/-- The message for a request: five words, the request in whole words, and the end tag. -/
def message (tag : Word) (request : List Byte) : List Byte :=
  le32 256#32 ++ le32 0#32 ++ le32 tag ++ le32 (BitVec.ofNat 32 request.length) ++ le32 0#32 ++
    (request ++ List.replicate (alignUp request.length 4 - request.length + 4) 0#8)

def WellFormed (tag : Word) (request : List Byte) (b : Mailbuffer) : Prop := message tag request <+: b.toList

/-- What a caller is promised: messages that are well formed, and a response that is refused when
it is too long and otherwise comes from the buffer. -/
structure Delivered (tag : Word) (request response : List Byte) (as : Answers) (out : Replied) : Prop where
  formed : ∀ b ∈ out.handed, WellFormed tag request b
  refused : response.length < as.length → out.result = -1 ∧ out.response = some response
  answered : as.length ≤ response.length →
    out.result = 0 ∧ out.response = some (slice as.last.left.toList 20 as.length ++ response.drop as.length)

theorem setWord_padded {s : List Byte} {i : Nat} (hs : s.length = 4 * i) (hi : i < 64) (w : Word) :
    Mailbuffer.setWord (padded 256 s) i w = .ok (padded 256 (s ++ le32 w)) := by
  rw [Mailbuffer.setWord, if_pos (by omega), Int.toNat_natCast, put_padded hs]

/-- The five words before a request. -/
def messageHeader (tag reqSz : Word) : List Byte :=
  le32 256#32 ++ le32 0#32 ++ le32 tag ++ le32 reqSz ++ le32 0#32

theorem messageHeader_length (tag reqSz : Word) : (messageHeader tag reqSz).length = 20 := by
  simp [messageHeader]

/-- What is handed over first: the header and the whole words of the request, then zeros. -/
def firstMessage (tag : Word) (request : List Byte) : Mailbuffer :=
  padded 256 (messageHeader tag (BitVec.ofNat 32 request.length) ++ request.take (request.length / 4 * 4))

/-- The first message is as it should be if the end tag leaves nothing out. -/
theorem firstMessage_wellFormed_iff (tag : Word) {request : List Byte} (hreq : request.length ≤ 232) :
    WellFormed tag request (firstMessage tag request) ↔ ∀ b ∈ request.drop (request.length / 4 * 4), b = 0#8 := by
  have hheader := messageHeader_length tag (BitVec.ofNat 32 request.length)
  have htake : (request.take (request.length / 4 * 4)).length = request.length / 4 * 4 := by
    rw [List.length_take]
    omega
  have hsplit : message tag request = messageHeader tag (BitVec.ofNat 32 request.length) ++
      request.take (request.length / 4 * 4) ++ (request.drop (request.length / 4 * 4) ++
        List.replicate (alignUp request.length 4 - request.length + 4) 0#8) := by
    rw [message, ← messageHeader, List.append_assoc _ (request.take _), ← List.append_assoc (request.take _),
      List.take_append_drop]
  rw [WellFormed, hsplit, firstMessage, padded_toList (by rw [List.length_append]; omega),
    List.prefix_append_right_inj, List.prefix_replicate_iff, List.eq_replicate_iff]
  constructor
  · rintro ⟨-, -, hzero⟩ b hb
    exact hzero b (List.mem_append_left _ hb)
  · intro hzero
    refine ⟨?_, rfl, ?_⟩
    · simp only [List.length_append, List.length_drop, List.length_replicate, hheader, htake, alignUp]
      omega
    · intro b hb
      rcases List.mem_append.mp hb with hb | hb
      · exact hzero b hb
      · exact List.eq_of_mem_replicate hb

/-- The loop hands over what the firmware left each time it was busy. -/
theorem exchange_answers (b : Mailbuffer) (as : Answers) :
    exchange b as.list = .ok ⟨b :: as.busy, as.last.left⟩ := by
  obtain ⟨busy, last, hlast⟩ := as
  change exchange b (busy.map (⟨·, 0#32⟩) ++ [last]) = .ok ⟨b :: busy, last.left⟩
  induction busy generalizing b with
  | nil => exact if_neg hlast
  | cons c busy ih =>
    rw [List.map_cons, List.cons_append, exchange, if_pos rfl, ih]
    rfl

/-- The stores make the first message, and stay inside the buffer. -/
theorem writeRequest_eq (tag : Word) {request : List Byte} (hreq : request.length ≤ 232) :
    writeRequest tag (some request) (BitVec.ofNat 32 request.length) = .ok (firstMessage tag request) := by
  have hnat : (BitVec.ofNat 32 request.length).toNat = request.length :=
    (BitVec.toNat_ofNat _ _).trans (Nat.mod_eq_of_lt (by omega))
  have hint : (BitVec.ofNat 32 request.length).toInt = request.length := by
    rw [BitVec.toInt_eq_toNat_of_lt (by omega), hnat]
  have hdiv : (5 : Int) + (request.length : Int).tdiv 4 = ((5 + request.length / 4 : Nat) : Int) := by
    rw [Int.natCast_add, Int.natCast_ediv]
    rfl
  generalize hlen : BitVec.ofNat 32 request.length = len at hnat hint ⊢
  have hheader := messageHeader_length tag len
  have h0 : Mailbuffer.setWord (padded 256 []) 0 256#32 = .ok (padded 256 (le32 256#32)) :=
    setWord_padded (i := 0) rfl (by decide) _
  have h1 : Mailbuffer.setWord (padded 256 (le32 256#32)) 1 0#32 = .ok (padded 256 (le32 256#32 ++ le32 0#32)) :=
    setWord_padded (i := 1) rfl (by decide) _
  have h2 : Mailbuffer.setWord (padded 256 (le32 256#32 ++ le32 0#32)) 2 tag =
      .ok (padded 256 (le32 256#32 ++ le32 0#32 ++ le32 tag)) := setWord_padded (i := 2) rfl (by decide) _
  have h3 : Mailbuffer.setWord (padded 256 (le32 256#32 ++ le32 0#32 ++ le32 tag)) 3 len =
      .ok (padded 256 (le32 256#32 ++ le32 0#32 ++ le32 tag ++ le32 len)) :=
    setWord_padded (i := 3) rfl (by decide) _
  have h4 : Mailbuffer.setWord (padded 256 (le32 256#32 ++ le32 0#32 ++ le32 tag ++ le32 len)) 4 0#32 =
      .ok (padded 256 (messageHeader tag len)) := setWord_padded (i := 4) rfl (by decide) _
  have hcopy : copyRequest (padded 256 (messageHeader tag len)) (some request) len =
      .ok (padded 256 (messageHeader tag len ++ request)) := by
    simp only [copyRequest, hint, hnat]
    by_cases hpos : 0 < request.length
    · rw [if_pos (by omega), Mailbuffer.copyIn, if_pos (by omega), List.take_length, put_padded hheader]
    · rw [if_neg (by omega), List.eq_nil_of_length_eq_zero (by omega : request.length = 0), List.append_nil]
  have htag : Mailbuffer.setWord (padded 256 (messageHeader tag len ++ request)) (5 + len.toInt.tdiv 4) 0#32 =
      .ok (firstMessage tag request) := by
    have hzeros : le32 0#32 = List.replicate 4 0#8 := rfl
    rw [hint, hdiv, Mailbuffer.setWord, if_pos (by omega), Int.toNat_natCast, hzeros, put_zeros]
    · have hwords : 4 * (5 + request.length / 4) - 20 = request.length / 4 * 4 := by omega
      rw [firstMessage, hlen, List.take_append, hheader, List.take_of_length_le (by omega), hwords]
    · rw [List.length_append, hheader]
      omega
  exact bind_eq_ok.mpr ⟨_, h0, bind_eq_ok.mpr ⟨_, h1, bind_eq_ok.mpr ⟨_, h2, bind_eq_ok.mpr ⟨_, h3,
    bind_eq_ok.mpr ⟨_, h4, bind_eq_ok.mpr ⟨_, hcopy, htag⟩⟩⟩⟩⟩⟩

/-- After the exchange the response is refused, or copied while the buffer lasts. -/
theorem readResponse_delivered_iff {tag : Word} {request response : List Byte} (hresp : response.length < 2 ^ 31)
    (as : Answers) (handed : List Mailbuffer) :
    (∃ out, readResponse ⟨handed, as.last.left⟩ (some response) (BitVec.ofNat 32 response.length) = .ok out ∧
        Delivered tag request response as out) ↔
      (∀ b ∈ handed, WellFormed tag request b) ∧ (as.length ≤ response.length → as.length ≤ 236) := by
  have hsize : (BitVec.ofNat 32 response.length).toNat = response.length :=
    (BitVec.toNat_ofNat _ _).trans (Nat.mod_eq_of_lt (by omega))
  have hlt : BitVec.ofNat 32 response.length < as.last.left.word 3 ↔ response.length < as.length := by
    rw [BitVec.lt_def, hsize, Answers.length]
  by_cases hlong : response.length < as.length
  · have hrun : readResponse ⟨handed, as.last.left⟩ (some response) (BitVec.ofNat 32 response.length) =
        .ok ⟨handed, -1, some response⟩ := if_pos (hlt.mpr hlong)
    rw [hrun]
    constructor
    · rintro ⟨out, hout, h⟩
      cases hout
      exact ⟨h.formed, fun hle => absurd hlong (Nat.not_lt.mpr hle)⟩
    · rintro ⟨hformed, -⟩
      exact ⟨_, rfl, hformed, fun _ => ⟨rfl, rfl⟩, fun hle => absurd hlong (Nat.not_lt.mpr hle)⟩
  · have hle : as.length ≤ response.length := Nat.not_lt.mp hlong
    have hrun : readResponse ⟨handed, as.last.left⟩ (some response) (BitVec.ofNat 32 response.length) =
        (as.last.left.copyOut response as.length >>= fun bytes => .ok ⟨handed, 0, some bytes⟩) :=
      if_neg (fun h => hlong (hlt.mp h))
    rw [hrun, Mailbuffer.copyOut]
    by_cases hinside : as.length ≤ 236
    · rw [if_pos ⟨hle, by omega⟩]
      constructor
      · rintro ⟨out, hout, h⟩
        cases hout
        exact ⟨h.formed, fun _ => hinside⟩
      · rintro ⟨hformed, -⟩
        exact ⟨_, rfl, hformed, fun h => absurd h hlong, fun _ => ⟨rfl, rfl⟩⟩
    · rw [if_neg (by omega)]
      constructor
      · rintro ⟨out, hout, -⟩
        cases hout
      · rintro ⟨-, h⟩
        exact absurd (h hle) hinside

/-- The buffers handed over are the first message and what the firmware left while it was busy. -/
theorem bootRpiMailbox_eq (tag : Word) {request : List Byte} (hreq : request.length ≤ 232)
    (response : Option (List Byte)) (responseSz : Word) (as : Answers) :
    bootRpiMailbox tag (some request) (BitVec.ofNat 32 request.length) response responseSz as.list =
      readResponse ⟨firstMessage tag request :: as.busy, as.last.left⟩ response responseSz := by
  rw [bootRpiMailbox, writeRequest_eq tag hreq]
  change (exchange (firstMessage tag request) as.list >>= _) = _
  rw [exchange_answers]
  rfl

/-- The messages are well formed and the response comes from the buffer exactly when the request's last
bytes are zero if they do not fill a word, the firmware leaves the message alone while it is busy, and
the length of a reply that fits the response is no more than the buffer holds. -/
theorem bootRpiMailbox_delivered_iff (tag : Word) (request response : List Byte) (as : Answers)
    (hreq : request.length ≤ 232) (hresp : response.length < 2 ^ 31) :
    (∃ out, bootRpiMailbox tag (some request) (BitVec.ofNat 32 request.length) (some response)
        (BitVec.ofNat 32 response.length) as.list = .ok out ∧ Delivered tag request response as out) ↔
      (∀ b ∈ request.drop (request.length / 4 * 4), b = 0#8) ∧ (∀ b ∈ as.busy, WellFormed tag request b) ∧
        (as.length ≤ response.length → as.length ≤ 236) := by
  rw [bootRpiMailbox_eq tag hreq, readResponse_delivered_iff hresp, List.forall_mem_cons,
    firstMessage_wellFormed_iff tag hreq, and_assoc]

/-- A firmware that answers at once, with a length and nothing else. -/
def repliedAtOnce (length : Word) : Answers :=
  { busy := []
    last := ⟨padded 256 (messageHeader 0#32 length), 1#32⟩
    answered := fun h => absurd h (by decide : 1#32 ≠ 0#32) }

theorem repliedAtOnce_length (length : Word) : (repliedAtOnce length).length = length.toNat := by
  have hword : field ((le32 256#32 ++ le32 0#32 ++ le32 0#32) ++ (le32 length ++
      (le32 0#32 ++ List.replicate 236 0#8))) 12 = length := by
    rw [field_skip (by decide)]
    exact field_head length _
  rw [Answers.length, Mailbuffer.word, repliedAtOnce, padded_toList (by rw [messageHeader_length]; decide),
    messageHeader_length, messageHeader]
  simp only [List.append_assoc] at hword ⊢
  rw [hword]

/-- The sizes of `mailbox_get_revision`. -/
theorem revision_delivered : ∃ out, bootRpiMailbox 0x00010002#32 (some (List.replicate 8 0#8)) 8#32
    (some (List.replicate 8 0#8)) 8#32 (repliedAtOnce 8#32).list = .ok out ∧
      Delivered 0x00010002#32 (List.replicate 8 0#8) (List.replicate 8 0#8) (repliedAtOnce 8#32) out :=
  (bootRpiMailbox_delivered_iff 0x00010002#32 (List.replicate 8 0#8) (List.replicate 8 0#8) (repliedAtOnce 8#32)
    (by decide) (by decide)).mpr ⟨by decide, nofun, fun _ => by rw [repliedAtOnce_length]; decide⟩

/-- The end tag takes the place of a request of one byte. -/
theorem oneByte_lost : ¬ ∀ tag request response as, request.length ≤ 232 → response.length < 2 ^ 31 →
    ∃ out, bootRpiMailbox tag (some request) (BitVec.ofNat 32 request.length) (some response)
      (BitVec.ofNat 32 response.length) as.list = .ok out ∧ Delivered tag request response as out := by
  intro h
  have hdelivered := h 0x00030001#32 [1#8] [] (repliedAtOnce 0#32) (by decide) (by decide)
  rw [bootRpiMailbox_eq _ (by decide), readResponse_delivered_iff (by decide)] at hdelivered
  have hzero := (firstMessage_wellFormed_iff _ (by decide)).mp (hdelivered.1 _ List.mem_cons_self)
  revert hzero
  decide

end CheviotBoot.Board
