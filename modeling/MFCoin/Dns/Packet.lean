/-
Module: MFCoin.Dns.Packet
Purpose: `HandlePacket` and one turn of `Run` (src/src/mfcdns.cpp): the header checks, the
  question loop, the removal of the additional section, `Answer_OPT`, the truncation to
  `MAX_OUT` and the final `Transcode`. Over every request: the request side reads one
  stretch of `m_buf` from offset 0; a parse that ran past the received bytes sets the
  format-error bit; a parse inside the received bytes writes `key` only below `BUF_SIZE`;
  a request of `MAX_OUT` bytes or more has none of its questions handled; the length sent
  is at most `MAX_OUT`.
Trusted boundary: as for MFCoin.Dns.Query.
Main exports: Handler, Handled, questionLoop, parseRequest, Handled.finish, Reply,
  handlePacket, serve, Handled.Parsed, handlePacket_formatError, handlePacket_keyWrites_lt,
  handlePacket_long, handlePacket_snd_le
-/
import MFCoin.Dns.Query

namespace MFCoin.Dns

open DNSHeader

/-- What `HandlePacket` consults besides the request: whether the name index is not yet
usable (`m_status` set and `IsInitialBlockDownload`), the DAP filter on names, and the
lookup that answers a decoded question. -/
structure Handler where
  serverFailure : Bool
  checkDAP : List UInt8 → Bool
  lookup : Question → Output → UInt16 × Output

/-- `m_hdr->Bits |= b`. -/
def Output.orBits (o : Output) (b : UInt16) : Output :=
  { o with hdr := { o.hdr with Bits := o.hdr.Bits ||| b } }

/-- The request side of `HandlePacket` as far as it has got: the return code the question
loop stopped with (`0` when none), `m_rcv`, the offsets of the request read, the indices of
`key` written by the questions handled, and the output. -/
structure Handled where
  rc : UInt16
  rcv : Nat
  reads : List Nat
  keyWrites : List Int
  out : Output

def Handled.orBits (h : Handled) (b : UInt16) : Handled := { h with out := h.out.orBits b }

/-- One call of `HandleQuery` at `m_rcv`. -/
def Handled.ask (hd : Handler) (rcvend : Nat) (h : Handled) : Handled :=
  let r := handleQuery hd.checkDAP hd.lookup rcvend h.rcv h.out
  ⟨r.1, r.2.1.rcv, h.reads ++ r.2.1.reads, h.keyWrites ++ r.2.1.keyWrites, r.2.2⟩

/-- The question loop, `for(qno = 0; qno < QDCount && m_snd < m_bufend; qno++)`: it stops
at a question that returns a nonzero code, `0xDead` without touching `Bits`. -/
def questionLoop (hd : Handler) (rcvend : Nat) : Nat → Handled → Handled
  | 0, h => h
  | n + 1, h =>
    if h.out.snd < MAX_OUT then
      let h := h.ask hd rcvend
      if h.rc = 0 then questionLoop hd rcvend n h
      else if h.rc = 0xDead then h
      else h.orBits h.rc
    else h

/-- The header `HandlePacket` starts its answer with: the answer counters cleared, and
`Bits` reduced to `RD` with `QR` and `AA` set. -/
def replyHeader (req : DNSHeader) : DNSHeader :=
  { req with ANCount := 0, NSCount := 0, ARCount := 0,
             Bits := (req.Bits &&& RD_MASK) ||| QR_MASK ||| AA_MASK }

/-- The request side before the first question: the header read, nothing written. -/
def Handled.start (hdr : DNSHeader) (buf : Memory) (rcvlen : Nat) : Handled :=
  ⟨0, headerSize, List.range headerSize, [], ⟨hdr, buf, rcvlen, []⟩⟩

/-- `HandlePacket` through its `do { ... } while(false)` block: the checks of the header,
then the question loop. The opcode is taken from `Bits` after `replyHeader` has reduced it,
so that check never fires (`replyHeader_opcode`). -/
def parseRequest (hd : Handler) (buf : Memory) (rcvlen : Nat) : Handled :=
  let req := readHeader buf
  let zCount := req.ANCount ||| req.NSCount ||| (req.Bits &&& (QR_MASK ||| TC_MASK))
  let start := Handled.start (replyHeader req) buf rcvlen
  if req.QDCount = 0 ∨ zCount ≠ 0 then start.orBits 1
  else if (replyHeader req).Bits &&& OPCODE_MASK ≠ 0 then start.orBits 4
  else if hd.serverFailure then start.orBits 2
  else questionLoop hd rcvlen req.QDCount.toNat start

/-- `Answer_OPT`: an empty EDNS record at `m_snd` (root name, type OPT, class `MAX_OUT`, a
zero TTL and length), counted in `ARCount`. -/
def Output.answerOPT (o : Output) : Output :=
  let o := ((((o.put 0).out2 41).out2 (UInt16.ofNat MAX_OUT)).out4 0).out2 0
  { o with hdr := { o.hdr with ARCount := o.hdr.ARCount + 1 } }

/-- `ar_len = m_rcvend - m_rcv` negative: the parse ran past the received bytes, a format
error. -/
def Output.overrun (rcvlen rcv : Nat) (o : Output) : Output :=
  if rcvlen < rcv then o.orBits 1 else o

/-- `ar_len` positive: the rest of the request, its additional section, is removed by moving
the answers written after it down over it. -/
def Output.dropAdditional (rcvlen rcv : Nat) (o : Output) : Output :=
  if rcv < rcvlen then
    { o.memmove rcv rcvlen (o.snd - rcvlen) with snd := o.snd - (rcvlen - rcv) }
  else o

/-- The truncation at `m_bufend`: the `TC` bit, and `m_snd = m_buf + MAX_OUT`. -/
def Output.truncate (o : Output) : Output :=
  if MAX_OUT ≤ o.snd then { o.orBits TC_MASK with snd := MAX_OUT } else o

/-- The end of `HandlePacket` once no question returned `0xDead`: the two cases of
`ar_len`, the OPT record, the truncation, and the header back into network order. -/
def Handled.finish (rcvlen : Nat) (h : Handled) : Output :=
  ((h.out.overrun rcvlen h.rcv).dropAdditional rcvlen h.rcv).answerOPT.truncate.writeHeader

/-- What `HandlePacket` leaves: whether it answers (it returns `0`), the output, and the
accesses of its request side. -/
structure Reply where
  answered : Bool
  out : Output
  reads : List Nat
  keyWrites : List Int

/-- `HandlePacket` on a request of `rcvlen` bytes in `buf`. -/
def handlePacket (hd : Handler) (buf : Memory) (rcvlen : Nat) : Reply :=
  let h := parseRequest hd buf rcvlen
  if h.rc = 0xDead then ⟨false, h.out, h.reads, h.keyWrites⟩
  else ⟨true, h.finish rcvlen, h.reads, h.keyWrites⟩

/-- One turn of `Run`'s loop on a datagram of 1 to `BUF_SIZE` bytes that the filter on the
sender's address lets through: the datagram lands in `m_buf`, the sentinel is set, and
`HandlePacket` runs; when it answers, `sendto` sends the first `out.snd` bytes of `m_buf`. -/
def serve (hd : Handler) (buf : Memory) (payload : List UInt8) : Reply :=
  handlePacket hd (receive buf payload) payload.length

/-! ### The header -/

/-- The opcode check of `HandlePacket` reads `Bits` after it has been reduced to `RD`, `QR`
and `AA`, so every opcode is handled as a standard query. -/
theorem replyHeader_opcode (req : DNSHeader) : (replyHeader req).Bits &&& OPCODE_MASK = 0 := by
  apply UInt16.toNat_inj.mp
  simp only [replyHeader, RD_MASK, QR_MASK, AA_MASK, OPCODE_MASK, UInt16.toNat_and,
    UInt16.toNat_or, Nat.and_or_distrib_right, Nat.and_assoc]
  simp

/-- The header depends on the first `headerSize` bytes only. -/
theorem readHeader_congr {m m' : Memory} (same : ∀ i < headerSize, m i = m' i) :
    readHeader m = readHeader m' := by
  simp only [readHeader, Memory.read16, headerSize] at same ⊢
  rw [same 0 (by omega), same 1 (by omega), same 2 (by omega), same 3 (by omega),
    same 4 (by omega), same 5 (by omega), same 6 (by omega), same 7 (by omega),
    same 8 (by omega), same 9 (by omega), same 10 (by omega), same 11 (by omega)]

/-- The header of a datagram of at least `headerSize` bytes is read from the datagram alone. -/
theorem readHeader_receive {m : Memory} {payload : List UInt8} (long : headerSize ≤ payload.length)
    (fits : payload.length ≤ BUF_SIZE) :
    readHeader (receive m payload) = readHeader (Memory.overlay (fun _ => 0) payload) := by
  apply readHeader_congr
  intro i below
  rw [receive_of_lt fits (by omega), Memory.overlay_of_lt (by omega)]

/-- A header that asks questions, with no answer counts and `QR` and `TC` clear, sends a
server that is up into the question loop. -/
theorem parseRequest_eq_questionLoop {hd : Handler} {buf : Memory} {rcvlen : Nat}
    (asks : (readHeader buf).QDCount ≠ 0)
    (plain : (readHeader buf).ANCount ||| (readHeader buf).NSCount |||
      ((readHeader buf).Bits &&& (QR_MASK ||| TC_MASK)) = 0)
    (up : hd.serverFailure = false) :
    parseRequest hd buf rcvlen = questionLoop hd rcvlen (readHeader buf).QDCount.toNat
      (Handled.start (replyHeader (readHeader buf)) buf rcvlen) := by
  unfold parseRequest
  simp [asks, plain, replyHeader_opcode, up]

/-! ### The request side reads one stretch -/

/-- The invariant of the request side: it has read every offset below `m_rcv` and no other,
it is past the header, and every key index written lies between `-1` and `m_rcv`, and
below `BUF_SIZE + 63`. -/
structure Handled.Parsed (h : Handled) : Prop where
  reads_eq : h.reads = List.range h.rcv
  header_le : headerSize ≤ h.rcv
  keyWrites_mem : ∀ j ∈ h.keyWrites, -1 ≤ j ∧ j < h.rcv ∧ j < BUF_SIZE + 63

theorem Handled.parsed_start (hdr : DNSHeader) (buf : Memory) (rcvlen : Nat) :
    (Handled.start hdr buf rcvlen).Parsed :=
  ⟨rfl, Nat.le_refl _, fun _ h => absurd h List.not_mem_nil⟩

theorem Handled.Parsed.orBits {h : Handled} (parsed : h.Parsed) (b : UInt16) :
    (h.orBits b).Parsed :=
  ⟨parsed.reads_eq, parsed.header_le, parsed.keyWrites_mem⟩

/-- One question keeps the invariant: `HandleQuery` reads on from `m_rcv` without a gap,
and its key writes stay below the key length it reached. -/
theorem Handled.Parsed.ask {h : Handled} (parsed : h.Parsed) (hd : Handler) (rcvend : Nat) :
    (h.ask hd rcvend).Parsed := by
  obtain ⟨reads_eq, header_le, keyWrites_mem⟩ := parsed
  obtain ⟨K, bound, past, reads, writes⟩ :=
    handleQuery_accesses hd.checkDAP hd.lookup rcvend h.rcv h.out
  refine ⟨?_, ?_, ?_⟩
  · simp only [Handled.ask, reads_eq, reads, range_append_range']
    congr 1
    omega
  · simp only [Handled.ask]
    omega
  · intro j hj
    simp only [Handled.ask, List.mem_append] at hj
    rcases hj with old | new
    · obtain ⟨low, high, small⟩ := keyWrites_mem j old
      refine ⟨low, ?_, small⟩
      simp only [Handled.ask]
      omega
    · obtain ⟨low, high⟩ := writes j new
      refine ⟨low, ?_, by omega⟩
      simp only [Handled.ask]
      omega

theorem questionLoop_parsed {hd : Handler} {rcvend n : Nat} {h : Handled} (parsed : h.Parsed) :
    (questionLoop hd rcvend n h).Parsed := by
  induction n generalizing h with
  | zero => exact parsed
  | succ n ih =>
    unfold questionLoop
    split
    · dsimp only
      split
      · exact ih (parsed.ask hd rcvend)
      · split
        · exact parsed.ask hd rcvend
        · exact (parsed.ask hd rcvend).orBits _
    · exact parsed

theorem parseRequest_parsed (hd : Handler) (buf : Memory) (rcvlen : Nat) :
    (parseRequest hd buf rcvlen).Parsed := by
  unfold parseRequest
  dsimp only
  split
  · exact (Handled.parsed_start _ _ _).orBits 1
  · split
    · exact (Handled.parsed_start _ _ _).orBits 4
    · split
      · exact (Handled.parsed_start _ _ _).orBits 2
      · exact questionLoop_parsed (Handled.parsed_start _ _ _)

@[simp] theorem handlePacket_reads (hd : Handler) (buf : Memory) (rcvlen : Nat) :
    (handlePacket hd buf rcvlen).reads = (parseRequest hd buf rcvlen).reads := by
  unfold handlePacket
  dsimp only
  split <;> rfl

@[simp] theorem handlePacket_keyWrites (hd : Handler) (buf : Memory) (rcvlen : Nat) :
    (handlePacket hd buf rcvlen).keyWrites = (parseRequest hd buf rcvlen).keyWrites := by
  unfold handlePacket
  dsimp only
  split <;> rfl

/-! ### The end of `HandlePacket` -/

@[simp] theorem Output.orBits_snd (o : Output) (b : UInt16) : (o.orBits b).snd = o.snd := rfl
@[simp] theorem Output.orBits_buf (o : Output) (b : UInt16) : (o.orBits b).buf = o.buf := rfl
@[simp] theorem Output.orBits_writes (o : Output) (b : UInt16) :
    (o.orBits b).writes = o.writes := rfl
@[simp] theorem Output.orBits_Bits (o : Output) (b : UInt16) :
    (o.orBits b).hdr.Bits = o.hdr.Bits ||| b := rfl
@[simp] theorem Output.answerOPT_snd (o : Output) : o.answerOPT.snd = o.snd + 11 := rfl
@[simp] theorem Output.answerOPT_Bits (o : Output) : o.answerOPT.hdr.Bits = o.hdr.Bits := rfl
theorem Output.answerOPT_writes (o : Output) :
    o.answerOPT.writes = o.writes ++ List.range' o.snd 11 := by
  simp [Output.answerOPT, List.range'_succ]

theorem Output.Extends.orBits (o : Output) (b : UInt16) : Extends o (o.orBits b) :=
  ⟨List.prefix_refl _, fun _ _ => rfl⟩

theorem Output.Extends.answerOPT (o : Output) : Extends o o.answerOPT :=
  let written := ((((Extends.put o 0).trans (Extends.out2 _ 41)).trans
    (Extends.out2 _ (UInt16.ofNat MAX_OUT))).trans (Extends.out4 _ 0)).trans (Extends.out2 _ 0)
  ⟨written.log, written.frame⟩

section Finish

variable (rcvlen rcv : Nat) (o : Output)

@[simp] theorem Output.overrun_snd : (o.overrun rcvlen rcv).snd = o.snd := by
  unfold Output.overrun; split <;> rfl
@[simp] theorem Output.overrun_writes : (o.overrun rcvlen rcv).writes = o.writes := by
  unfold Output.overrun; split <;> rfl
theorem Output.overrun_Bits :
    (o.overrun rcvlen rcv).hdr.Bits = if rcvlen < rcv then o.hdr.Bits ||| 1 else o.hdr.Bits := by
  unfold Output.overrun; split <;> rfl
theorem Output.dropAdditional_snd :
    (o.dropAdditional rcvlen rcv).snd = if rcv < rcvlen then o.snd - (rcvlen - rcv) else o.snd := by
  unfold Output.dropAdditional; split <;> rfl
theorem Output.dropAdditional_writes : (o.dropAdditional rcvlen rcv).writes =
    if rcv < rcvlen then o.writes ++ List.range' rcv (o.snd - rcvlen) else o.writes := by
  unfold Output.dropAdditional; split <;> rfl
theorem Output.truncate_snd : o.truncate.snd = if MAX_OUT ≤ o.snd then MAX_OUT else o.snd := by
  unfold Output.truncate; split <;> rfl
@[simp] theorem Output.truncate_writes : o.truncate.writes = o.writes := by
  unfold Output.truncate; split <;> rfl
@[simp] theorem Output.dropAdditional_Bits :
    (o.dropAdditional rcvlen rcv).hdr.Bits = o.hdr.Bits := by
  unfold Output.dropAdditional; split <;> rfl
theorem Output.truncate_Bits :
    o.truncate.hdr.Bits = if MAX_OUT ≤ o.snd then o.hdr.Bits ||| TC_MASK else o.hdr.Bits := by
  unfold Output.truncate; split <;> rfl

/-- What `sendto` is given is at most `MAX_OUT`: an answer that reaches `m_bufend` is cut
there. -/
theorem Output.truncate_snd_le : o.truncate.snd ≤ MAX_OUT := by
  unfold Output.truncate
  split
  · exact Nat.le_refl _
  · omega

theorem Output.Extends.overrun : Extends o (o.overrun rcvlen rcv) := by
  unfold Output.overrun
  split
  · exact Extends.orBits _ _
  · exact Extends.refl _

theorem Output.Extends.dropAdditional : Extends o (o.dropAdditional rcvlen rcv) := by
  unfold Output.dropAdditional
  split
  · have moved := Extends.memmove o rcv rcvlen (o.snd - rcvlen)
    exact ⟨moved.log, moved.frame⟩
  · exact Extends.refl _

theorem Output.Extends.truncate : Extends o o.truncate := by
  unfold Output.truncate
  split
  · exact ⟨(Extends.orBits o TC_MASK).log, (Extends.orBits o TC_MASK).frame⟩
  · exact Extends.refl _

end Finish

/-- The end of `HandlePacket` changes `m_buf` only by recorded writes. -/
theorem Handled.finish_extends (rcvlen : Nat) (h : Handled) :
    Output.Extends h.out (h.finish rcvlen) := by
  unfold Handled.finish
  exact ((((Output.Extends.overrun rcvlen h.rcv h.out).trans
    (Output.Extends.dropAdditional rcvlen h.rcv _)).trans (Output.Extends.answerOPT _)).trans
    (Output.Extends.truncate _)).trans (Output.Extends.writeHeader _)

theorem Handled.finish_snd_le (rcvlen : Nat) (h : Handled) : (h.finish rcvlen).snd ≤ MAX_OUT := by
  rw [Handled.finish, Output.writeHeader_snd]
  exact Output.truncate_snd_le _

theorem testBit_zero_or (x y : UInt16) :
    (x ||| y).toNat.testBit 0 = (x.toNat.testBit 0 || y.toNat.testBit 0) := by
  simp [UInt16.toNat_or]

/-- The format-error bit of the answer: set before, or set because the parse ran past the
received bytes. -/
theorem Handled.finish_formatError (rcvlen : Nat) (h : Handled) :
    (h.finish rcvlen).hdr.Bits.toNat.testBit 0 =
      (h.out.hdr.Bits.toNat.testBit 0 || decide (rcvlen < h.rcv)) := by
  have tcBit : TC_MASK.toNat.testBit 0 = false := by decide
  have oneBit : (1 : UInt16).toNat.testBit 0 = true := by decide
  simp only [Handled.finish, Output.writeHeader_hdr, Output.truncate_Bits,
    Output.answerOPT_Bits, Output.dropAdditional_Bits, Output.overrun_Bits]
  by_cases past : rcvlen < h.rcv <;> split <;>
    simp only [past, testBit_zero_or, tcBit, oneBit, Bool.or_false,
      Bool.or_true, decide_true, decide_false]

/-! ### What a request makes `HandlePacket` read and write -/

/-- The length passed to `sendto` is at most `MAX_OUT`. -/
theorem handlePacket_snd_le (hd : Handler) (buf : Memory) (rcvlen : Nat)
    (answered : (handlePacket hd buf rcvlen).answered = true) :
    (handlePacket hd buf rcvlen).out.snd ≤ MAX_OUT := by
  unfold handlePacket at answered ⊢
  dsimp only at answered ⊢
  split
  · rename_i dead
    simp [dead] at answered
  · exact Handled.finish_snd_le _ _

/-- A request whose parse read a byte at or past the received length is answered with the
format-error bit set: `ar_len` is negative then. -/
theorem handlePacket_formatError (hd : Handler) (buf : Memory) (rcvlen : Nat) {i : Nat}
    (read : i ∈ (handlePacket hd buf rcvlen).reads) (past : rcvlen ≤ i)
    (answered : (handlePacket hd buf rcvlen).answered = true) :
    (handlePacket hd buf rcvlen).out.hdr.Bits.toNat.testBit 0 = true := by
  have parsed := parseRequest_parsed hd buf rcvlen
  rw [handlePacket_reads, parsed.reads_eq, List.mem_range] at read
  unfold handlePacket at answered ⊢
  dsimp only at answered ⊢
  split
  · rename_i dead
    simp [dead] at answered
  · rw [Handled.finish_formatError]
    simp only [Bool.or_eq_true, decide_eq_true_eq]
    exact .inr (by omega)

/-- A parse that stays inside the received bytes writes `key` only below `BUF_SIZE`. -/
theorem handlePacket_keyWrites_lt (hd : Handler) (buf : Memory) (rcvlen : Nat)
    (fits : rcvlen ≤ BUF_SIZE) (inside : ∀ i ∈ (handlePacket hd buf rcvlen).reads, i < rcvlen) :
    ∀ j ∈ (handlePacket hd buf rcvlen).keyWrites, j < BUF_SIZE := by
  have parsed := parseRequest_parsed hd buf rcvlen
  have reached : (parseRequest hd buf rcvlen).rcv ≤ rcvlen := by
    by_contra beyond
    have read : rcvlen ∈ (handlePacket hd buf rcvlen).reads := by
      rw [handlePacket_reads, parsed.reads_eq, List.mem_range]
      omega
    exact absurd (inside rcvlen read) (Nat.lt_irrefl _)
  intro j written
  rw [handlePacket_keyWrites] at written
  obtain ⟨-, below, -⟩ := parsed.keyWrites_mem j written
  omega

/-- The question loop only adds to what was read and written. -/
theorem questionLoop_extends {hd : Handler} {rcvend n : Nat} {h : Handled} :
    h.reads <+: (questionLoop hd rcvend n h).reads ∧
      h.keyWrites <+: (questionLoop hd rcvend n h).keyWrites := by
  induction n generalizing h with
  | zero => exact ⟨List.prefix_refl _, List.prefix_refl _⟩
  | succ n ih =>
    have asked : h.reads <+: (h.ask hd rcvend).reads ∧ h.keyWrites <+: (h.ask hd rcvend).keyWrites :=
      ⟨List.prefix_append _ _, List.prefix_append _ _⟩
    unfold questionLoop
    split
    · dsimp only
      split
      · exact ⟨asked.1.trans ih.1, asked.2.trans ih.2⟩
      · split
        · exact asked
        · exact asked
    · exact ⟨List.prefix_refl _, List.prefix_refl _⟩

/-- While `m_snd` is below `m_bufend`, the next question is asked. -/
theorem questionLoop_first {hd : Handler} {rcvend n : Nat} {h : Handled}
    (short : h.out.snd < MAX_OUT) :
    (h.ask hd rcvend).reads <+: (questionLoop hd rcvend (n + 1) h).reads ∧
      (h.ask hd rcvend).keyWrites <+: (questionLoop hd rcvend (n + 1) h).keyWrites := by
  unfold questionLoop
  rw [if_pos short]
  dsimp only
  split
  · exact questionLoop_extends
  · split
    · exact ⟨List.prefix_refl _, List.prefix_refl _⟩
    · exact ⟨List.prefix_refl _, List.prefix_refl _⟩

theorem questionLoop_full {hd : Handler} {rcvend n : Nat} {h : Handled}
    (full : MAX_OUT ≤ h.out.snd) : questionLoop hd rcvend n h = h := by
  cases n with
  | zero => rfl
  | succ n =>
    unfold questionLoop
    rw [if_neg (by omega)]

/-- A request of `MAX_OUT` bytes or more has none of its questions handled, since `m_snd`
starts at `m_rcvend`, past `m_bufend`: the answer is the header and the OPT record, and
`m_buf` keeps the request from offset `headerSize + 11` on. -/
theorem handlePacket_long (hd : Handler) (buf : Memory) (rcvlen : Nat) (long : MAX_OUT ≤ rcvlen) :
    (handlePacket hd buf rcvlen).answered = true ∧
      (handlePacket hd buf rcvlen).out.snd = headerSize + 11 ∧
      (handlePacket hd buf rcvlen).keyWrites = [] ∧
      ∀ i, headerSize + 11 ≤ i → (handlePacket hd buf rcvlen).out.buf i = buf i := by
  -- whichever branch the header takes, no question is asked
  have unasked : ∃ b, parseRequest hd buf rcvlen =
      (Handled.start (replyHeader (readHeader buf)) buf rcvlen).orBits b := by
    unfold parseRequest
    dsimp only
    split
    · exact ⟨1, rfl⟩
    · split
      · exact ⟨4, rfl⟩
      · split
        · exact ⟨2, rfl⟩
        · refine ⟨0, ?_⟩
          rw [questionLoop_full (by simp [Handled.start]; omega)]
          simp [Handled.start, Handled.orBits, Output.orBits]
  obtain ⟨b, parsed⟩ := unasked
  have header : 12 < rcvlen := by simp only [MAX_OUT] at long; omega
  have notDead : ((Handled.start (replyHeader (readHeader buf)) buf rcvlen).orBits b).rc ≠ 0xDead := by
    simp [Handled.start, Handled.orBits]
  unfold handlePacket
  rw [parsed]
  dsimp only
  rw [if_neg notDead]
  refine ⟨rfl, ?_, rfl, ?_⟩
  · -- the additional section is all of the request after the header: `m_snd` falls back to
    -- `headerSize`, and the OPT record follows
    simp only [Handled.finish, Output.writeHeader_snd, Output.truncate_snd, Output.answerOPT_snd,
      Output.dropAdditional_snd, Output.overrun_snd]
    have back : rcvlen - (rcvlen - 12) = 12 := by omega
    simp [Handled.start, Handled.orBits, Output.orBits, header, MAX_OUT, headerSize, back]
  · intro i far
    apply (Handled.finish_extends rcvlen _).frame
    simp only [Handled.finish, Output.writeHeader_writes, Output.truncate_writes,
      Output.answerOPT_writes, Output.dropAdditional_writes, Output.overrun_writes,
      Output.dropAdditional_snd, Output.overrun_snd]
    simp only [headerSize] at far
    simp [Handled.start, Handled.orBits, Output.orBits, header, headerSize]
    omega

/-! ### Where the first question's parse reaches -/

section FirstQuestion

variable {hd : Handler} {buf : Memory} {rcvlen : Nat}
  (asks : (readHeader buf).QDCount ≠ 0)
  (plain : (readHeader buf).ANCount ||| (readHeader buf).NSCount |||
    ((readHeader buf).Bits &&& (QR_MASK ||| TC_MASK)) = 0)
  (up : hd.serverFailure = false) (short : rcvlen < MAX_OUT)

include asks plain up short

/-- What the first question reads and writes stays in the record of the request side. -/
theorem handlePacket_first :
    (handleQuery hd.checkDAP hd.lookup rcvlen headerSize ⟨replyHeader (readHeader buf), buf, rcvlen, []⟩).2.1.reads
        ⊆ (handlePacket hd buf rcvlen).reads ∧
      (handleQuery hd.checkDAP hd.lookup rcvlen headerSize ⟨replyHeader (readHeader buf), buf, rcvlen, []⟩).2.1.keyWrites
        ⊆ (handlePacket hd buf rcvlen).keyWrites := by
  obtain ⟨n, count⟩ : ∃ n, (readHeader buf).QDCount.toNat = n + 1 :=
    ⟨(readHeader buf).QDCount.toNat - 1, by
      have : (readHeader buf).QDCount.toNat ≠ 0 := fun zero => asks (UInt16.toNat_inj.mp zero)
      omega⟩
  rw [handlePacket_reads, handlePacket_keyWrites, parseRequest_eq_questionLoop asks plain up,
    count]
  obtain ⟨reads, keyWrites⟩ := @questionLoop_first hd rcvlen n
    (Handled.start (replyHeader (readHeader buf)) buf rcvlen) short
  exact ⟨fun i hi => reads.subset (List.mem_append_right _ hi),
    fun j hj => keyWrites.subset (List.mem_append_right _ hj)⟩

/-- Every request whose first question is for the root name makes `HandleQuery` write
`key[-1]`. -/
theorem handlePacket_rootName (root : buf headerSize = 0) :
    (-1 : Int) ∈ (handlePacket hd buf rcvlen).keyWrites :=
  (handlePacket_first asks plain up short).2
    (handleQuery_root hd.checkDAP hd.lookup rcvlen headerSize _ root)

/-- A first QNAME whose labels of lengths `ns` pass the checks, followed by a length byte `n`
that passes them too, makes `HandleQuery` write every key index below the key length these
labels reach, and read every offset up to the end of the last label. -/
theorem handlePacket_labels {ns : List Nat} {n : Nat}
    (at_ : labelsAt buf ns headerSize = true) (valid : ∀ k ∈ ns, 0 < k ∧ k &&& 0xc0 = 0)
    (fits : (ns.map (· + 1)).sum ≤ BUF_SIZE) (count : ns.length < MAX_DOM)
    (len : (buf (headerSize + (ns.map (· + 1)).sum)).toNat = n) (pos : 0 < n)
    (validLast : n &&& 0xc0 = 0) (keyRoom : (ns.map (· + 1)).sum < BUF_SIZE) :
    (∀ j < (ns.map (· + 1)).sum + n + 1, (j : Int) ∈ (handlePacket hd buf rcvlen).keyWrites) ∧
      ∀ i, headerSize ≤ i → i < headerSize + (ns.map (· + 1)).sum + n + 1 →
        i ∈ (handlePacket hd buf rcvlen).reads := by
  let o : Output := ⟨replyHeader (readHeader buf), buf, rcvlen, []⟩
  let reached := skipLabels buf ns (Cursor.start headerSize)
  have tracks : reached.Tracks headerSize := (Cursor.tracks_start headerSize).skipLabels
  have reachedRcv : reached.rcv = headerSize + (ns.map (· + 1)).sum := by simp [reached, Cursor.start]
  have reachedKey : reached.key.length = (ns.map (· + 1)).sum := by simp [reached, Cursor.start]
  -- the loop consumes the labels `ns`, then the label of length `n`
  have loop : decodeLabels buf MAX_DOM (Cursor.start headerSize) =
      decodeLabels buf (MAX_DOM - ns.length - 1) (label buf n reached.advance) := by
    rw [@decodeLabels_skip buf ns MAX_DOM (Cursor.start headerSize) at_ valid
      (by simpa [Cursor.start] using fits) (Nat.le_of_lt count)]
    obtain ⟨room, same⟩ : ∃ room, MAX_DOM - ns.length = room + 1 := ⟨MAX_DOM - ns.length - 1, by omega⟩
    have below : (skipLabels buf ns (Cursor.start headerSize)).key.length < BUF_SIZE := by
      simpa [Cursor.start] using keyRoom
    rw [same, decodeLabels_label (by rw [reachedRcv]; exact len) pos validLast below,
      Nat.add_sub_cancel]
  have last := tracks.label (m := buf) (n := n)
  obtain ⟨extReads, extWrites⟩ := @decodeLabels_extends buf (MAX_DOM - ns.length - 1)
    (label buf n reached.advance)
  obtain ⟨queryReads, queryWrites⟩ := handleQuery_extends hd.checkDAP hd.lookup rcvlen headerSize o
  obtain ⟨firstReads, firstWrites⟩ := @handlePacket_first hd buf rcvlen asks plain up short
  rw [← loop] at extReads extWrites
  refine ⟨fun j below => firstWrites (queryWrites.subset (extWrites.subset ?_)), fun i low high =>
    firstReads (queryReads.subset (extReads.subset ?_))⟩
  · rw [last.keyWrites_eq]
    simp only [label_key_length, Cursor.advance_key, reachedKey]
    exact List.mem_map.mpr ⟨j, List.mem_range.mpr (by omega), rfl⟩
  · rw [last.reads_eq]
    simp only [label_key_length, Cursor.advance_key, reachedKey, List.mem_range'_1]
    omega

end FirstQuestion

/-- After a request of `MAX_OUT` bytes or more, a request that repeats its first bytes, at
least `headerSize + 11` of them, finds the rest of the longer one still in `m_buf`: the
longer request was answered with its header and the OPT record only. -/
theorem serve_after_long (hd : Handler) (buf : Memory) (long short : List UInt8)
    (big : MAX_OUT ≤ long.length) (fits : long.length ≤ BUF_SIZE)
    (head : short = long.take short.length) (covers : headerSize + 11 ≤ short.length) :
    ∀ i < long.length, receive (serve hd buf long).out.buf short i = long.getD i 0 := by
  intro i inside
  have shorter : short.length ≤ long.length := by
    rw [head, List.length_take]
    omega
  by_cases early : i < short.length
  · rw [receive_of_lt (by omega) early, List.getElem_of_eq head early, List.getElem_take]
    simp [List.getD_eq_getElem?_getD, inside]
  · obtain ⟨-, -, -, kept⟩ := handlePacket_long hd (receive buf long) long.length big
    rw [receive_of_le (by omega) (by omega), serve, kept i (by omega),
      receive_of_lt fits inside]
    simp [List.getD_eq_getElem?_getD, inside]

/-! ### Three requests -/

/-- A standard query for the root zone, type NS, class IN, with `RD` set. -/
def rootQuery : List UInt8 :=
  [0x12, 0x34, 0x01, 0x00, 0x00, 0x01, 0x00, 0x00, 0x00, 0x00, 0x00, 0x00,
    0x00, 0x00, 0x02, 0x00, 0x01]

/-- The same query cut after its QNAME. -/
def truncatedQuery : List UInt8 := rootQuery.take 13

/-- The lengths of the labels of `labelStream` before its last byte. -/
def streamLabels : List Nat := List.replicate 15 63 ++ [50]

/-- A request of `BUF_SIZE` bytes with the header of `rootQuery`: fifteen labels of 63 bytes
and one of 50 fill it up to its last byte, which is the length byte 63 of a seventeenth
label. -/
def labelStream : List UInt8 :=
  rootQuery.take headerSize ++ (List.replicate 15 (63 :: List.replicate 63 0x61)).flatten ++
    (50 :: List.replicate 50 0x61) ++ [63]

/-- The header and first label of `labelStream`. -/
def labelStreamHead : List UInt8 := labelStream.take 76

/-- The request side leaves the buffers it is meant to stay in. A well-formed query for the
root name writes `key[-1]`. The same query cut after its QNAME reads QTYPE and QCLASS from
the four bytes after the thirteen received, and over a buffer of zeros is answered with
RCODE 5, not the format error 1: the class check's code 4 and the format-error bit are
or-ed together. After `labelStream`, whose questions are not handled since it is longer than
`MAX_OUT`, its first 76 bytes make the QNAME loop walk on through the bytes it left,
consume a label of 63 bytes from offset 1024 on, the sentinel included, and write the key
up to index 1074. -/
theorem handlePacket_outside_buffers (stale : Memory) (checkDAP : List UInt8 → Bool)
    (lookup : Question → Output → UInt16 × Output) :
    (-1 : Int) ∈ (serve ⟨false, checkDAP, lookup⟩ stale rootQuery).keyWrites ∧
      16 ∈ (serve ⟨false, fun _ => true, lookup⟩ stale truncatedQuery).reads ∧
      (serve ⟨false, fun _ => true, lookup⟩ (fun _ => 0) truncatedQuery).answered = true ∧
      (serve ⟨false, fun _ => true, lookup⟩ (fun _ => 0) truncatedQuery).out.hdr.Bits &&&
        RCODE_MASK = 5 ∧
      (1074 : Int) ∈ (serve ⟨false, checkDAP, lookup⟩
        (serve ⟨false, checkDAP, lookup⟩ stale labelStream).out.buf labelStreamHead).keyWrites ∧
      1086 ∈ (serve ⟨false, checkDAP, lookup⟩
        (serve ⟨false, checkDAP, lookup⟩ stale labelStream).out.buf labelStreamHead).reads := by
  refine ⟨?root, ?truncated, ?answered, ?refused, ?stream⟩
  case root =>
    have header := @readHeader_receive stale rootQuery (by decide) (by decide)
    exact handlePacket_rootName (by rw [header]; decide) (by rw [header]; decide) rfl
      (by decide) (by rw [receive_of_lt (by decide) (by decide)]; rfl)
  case truncated =>
    have header := @readHeader_receive stale truncatedQuery (by decide) (by decide)
    have root : receive stale truncatedQuery headerSize = 0 := by
      rw [receive_of_lt (by decide) (by decide)]; rfl
    apply (@handlePacket_first ⟨false, fun _ => true, lookup⟩ _ 13
      (by rw [header]; decide) (by rw [header]; decide) rfl (by decide)).1
    rw [handleQuery_rootName_cursor _ _ _ _ _ root rfl]
    simp [Cursor.start, Cursor.advance, Cursor.terminate, headerSize]
  case answered | refused =>
    -- over zeros the QCLASS read past the datagram is 0: the question is refused with 4,
    -- after which `ar_len` is negative
    let buf := receive (fun _ => 0) truncatedQuery
    have query : handleQuery (fun _ => true) lookup 13 headerSize
        ⟨replyHeader (readHeader buf), buf, 13, []⟩ =
        (4, (Cursor.start headerSize).advance.terminate.advance.advance.advance.advance,
          ⟨replyHeader (readHeader buf), buf, 13, []⟩) :=
      handleQuery_rootName _ _ _ _ _ (by decide) rfl (by decide)
    have parsed : parseRequest ⟨false, fun _ => true, lookup⟩ buf 13 =
        ((Handled.start (replyHeader (readHeader buf)) buf 13).ask
          ⟨false, fun _ => true, lookup⟩ 13).orBits 4 := by
      rw [parseRequest_eq_questionLoop (by decide) (by decide) rfl,
        show (readHeader buf).QDCount.toNat = 0 + 1 by decide]
      unfold questionLoop
      rw [if_pos (by decide)]
      simp [Handled.ask, Handled.start, query]
    have reply : serve ⟨false, fun _ => true, lookup⟩ (fun _ => 0) truncatedQuery =
        handlePacket ⟨false, fun _ => true, lookup⟩ buf 13 := rfl
    rw [reply]
    unfold handlePacket
    dsimp only
    rw [parsed]
    simp [Handled.ask, Handled.start, query, Handled.orBits] <;> decide
  case stream =>
    -- below `BUF_SIZE`, `m_buf` holds the long request again once its head has been received
    let hd : Handler := ⟨false, checkDAP, lookup⟩
    let buf := receive (serve hd stale labelStream).out.buf labelStreamHead
    have length : labelStream.length = BUF_SIZE := by decide +kernel
    have headLength : labelStreamHead.length = 76 := by simp [labelStreamHead, length, BUF_SIZE, MAX_OUT]
    have agree : ∀ i < BUF_SIZE, buf i = Memory.overlay (fun _ => 0) labelStream i := by
      intro i below
      show receive (serve hd stale labelStream).out.buf labelStreamHead i = _
      rw [serve_after_long hd stale labelStream labelStreamHead (by rw [length]; decide)
        (Nat.le_of_eq length) (by rw [headLength]; rfl) (by rw [headLength]; decide) i (by omega)]
      rfl
    have header : readHeader buf = readHeader (Memory.overlay (fun _ => 0) labelStream) :=
      readHeader_congr fun i below => agree i (by simp only [headerSize, BUF_SIZE, MAX_OUT] at below ⊢; omega)
    have sum : (streamLabels.map (· + 1)).sum = 1011 := by decide
    have at_ : labelsAt buf streamLabels headerSize = true := by
      rw [@labelsAt_congr buf (Memory.overlay (fun _ => 0) labelStream) streamLabels headerSize
        (fun i _ high => agree i (by rw [sum] at high; simp only [headerSize, BUF_SIZE, MAX_OUT] at high ⊢; omega))]
      decide +kernel
    have last : (buf (headerSize + (streamLabels.map (· + 1)).sum)).toNat = 63 := by
      rw [sum, agree _ (by decide)]
      decide +kernel
    obtain ⟨writes, reads⟩ := @handlePacket_labels hd buf 76 (by rw [header]; decide)
      (by rw [header]; decide) rfl (by decide) streamLabels 63 at_ (by decide)
      (by rw [sum]; decide) (by decide) last (by decide) (by decide) (by rw [sum]; decide)
    rw [sum] at writes reads
    have reply : serve hd (serve hd stale labelStream).out.buf labelStreamHead =
        handlePacket hd buf 76 := by
      rw [serve, headLength]
    rw [reply]
    exact ⟨writes 1074 (by decide), reads 1086 (by decide) (by decide)⟩

end MFCoin.Dns
