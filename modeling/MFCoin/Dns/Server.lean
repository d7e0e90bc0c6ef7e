/-
Module: MFCoin.Dns.Server
Purpose: `HandlePacket` of src/src/mfcdns.cpp with the answer side of MFCoin.Dns.Answer as
  its lookup: the server as one piece. A lookup that only adds recorded writes makes every
  question, and the reply, only add recorded writes, so what the first question's answer
  writes is written by the reply. A query for a name whose `NS` entry lists `MAX_TOK` names
  has its records written past `m_buf + BUF_SIZE + 2`.
Trusted boundary: as for MFCoin.Dns.Answer.
Main exports: questionLoop_out_extends, handlePacket_out_extends, handlePacket_first_writes,
  coinQuery, coinResolver, coinResolver_lookup
-/
import MFCoin.Dns.Answer

namespace MFCoin.Dns

open Output DNSHeader

/-! ### The reply extends every answer -/

/-- The reply only adds recorded writes to what the request side left. -/
theorem handlePacket_out_extends (hd : Handler) (buf : Memory) (rcvlen : Nat) :
    Extends (parseRequest hd buf rcvlen).out (handlePacket hd buf rcvlen).out := by
  unfold handlePacket
  dsimp only
  split
  · exact Extends.refl _
  · exact Handled.finish_extends rcvlen _

section Frame

variable {hd : Handler} (ext : ∀ q o, Extends o (hd.lookup q o).2)

include ext

theorem handleQuery_out_extends (rcvend rcv : Nat) (o : Output) :
    Extends o (handleQuery hd.checkDAP hd.lookup rcvend rcv o).2.2 := by
  unfold handleQuery
  split
  · exact Extends.refl o
  · dsimp only
    split
    · exact Extends.refl o
    · split
      · exact Extends.refl o
      · exact ext _ o

theorem Handled.ask_out_extends (rcvend : Nat) (h : Handled) :
    Extends h.out (h.ask hd rcvend).out :=
  handleQuery_out_extends ext rcvend h.rcv h.out

/-- The question loop only adds recorded writes to the output. -/
theorem questionLoop_out_extends {rcvend : Nat} :
    ∀ (n : Nat) (h : Handled), Extends h.out (questionLoop hd rcvend n h).out
  | 0, h => Extends.refl _
  | n + 1, h => by
    unfold questionLoop
    split
    · have asked := Handled.ask_out_extends ext rcvend h
      dsimp only
      split
      · exact asked.trans (questionLoop_out_extends n _)
      · split
        · exact asked
        · exact asked.trans (Extends.orBits _ _)
    · exact Extends.refl _

/-- Whatever a question asked while `m_snd` is below `m_bufend` writes, the rest of the loop
keeps. -/
theorem questionLoop_first_out {rcvend n : Nat} {h : Handled} (short : h.out.snd < MAX_OUT) :
    Extends (h.ask hd rcvend).out (questionLoop hd rcvend (n + 1) h).out := by
  unfold questionLoop
  rw [if_pos short]
  dsimp only
  split
  · exact questionLoop_out_extends ext n _
  · split
    · exact Extends.refl _
    · exact Extends.orBits _ _

/-- What the first question's answer writes, the reply has written, when the header lets the
question loop start. -/
theorem handlePacket_first_writes {buf : Memory} {rcvlen : Nat}
    (asks : (readHeader buf).QDCount ≠ 0)
    (plain : (readHeader buf).ANCount ||| (readHeader buf).NSCount |||
      ((readHeader buf).Bits &&& (QR_MASK ||| TC_MASK)) = 0)
    (up : hd.serverFailure = false) (short : rcvlen < MAX_OUT) :
    (handleQuery hd.checkDAP hd.lookup rcvlen headerSize
        ⟨replyHeader (readHeader buf), buf, rcvlen, []⟩).2.2.writes <+:
      (handlePacket hd buf rcvlen).out.writes := by
  obtain ⟨n, count⟩ : ∃ n, (readHeader buf).QDCount.toNat = n + 1 :=
    ⟨(readHeader buf).QDCount.toNat - 1, by
      have : (readHeader buf).QDCount.toNat ≠ 0 := fun zero => asks (UInt16.toNat_inj.mp zero)
      omega⟩
  have loop := @questionLoop_first_out hd ext rcvlen n
    (Handled.start (replyHeader (readHeader buf)) buf rcvlen) short
  have reply := handlePacket_out_extends hd buf rcvlen
  rw [parseRequest_eq_questionLoop asks plain up, count] at reply
  exact (loop.trans reply).log

end Frame

/-! ### A query answered past the buffer -/

/-- The key `a.coin`. -/
def coinKey : List UInt8 := [0x61, 0x2e, 0x63, 0x6f, 0x69, 0x6e]

/-- A standard query for `a.coin`, type NS, class IN, with `RD` set. -/
def coinQuery : List UInt8 :=
  [0x12, 0x34, 0x01, 0x00, 0x00, 0x01, 0x00, 0x00, 0x00, 0x00, 0x00, 0x00,
    0x01, 0x61, 0x04, 0x63, 0x6f, 0x69, 0x6e, 0x00, 0x00, 0x02, 0x00, 0x01]

/-- A name of ten bytes. -/
def tenA : List UInt8 := List.replicate 10 0x61

/-- A value of 706 bytes, far below `MAX_VALUE_LENGTH`, whose `NS` entry lists `MAX_TOK`
names. -/
def nsValue : List UInt8 := [0x4e, 0x53, 0x3d] ++ List.intercalate [0x2c] (List.replicate MAX_TOK tenA)

/-- A server with no gateway suffix, no local names, no TLD filter and no ENUM, whose name
index holds `nsValue` under `dns:a.coin`, with any `GetRand` and `inet_pton`. -/
def coinResolver (getRand : Nat → Nat) (inetPton : Family → List UInt8 → Option (List UInt8)) :
    Resolver :=
  ⟨fun name => if name = [0x64, 0x6e, 0x73, 0x3a] ++ coinKey then some nsValue else none,
    inetPton, getRand, [], none, none, false, fun _ _ => false, []⟩

theorem tenA_plain : PlainName tenA := by
  intro c mem
  simp only [tenA, List.mem_replicate] at mem
  rw [mem.2]
  decide

/-- The question for `a.coin` of type NS is answered with one record per name of the `NS`
entry, with the default TTL. -/
theorem coinResolver_lookup (getRand : Nat → Nat) (inetPton : Family → List UInt8 → Option (List UInt8))
    (labelRef : UInt16) (rcv rcvend : Nat) (o : Output) :
    ((coinResolver getRand inetPton).lookup ⟨coinKey, [0, 2], 2, labelRef, rcv, rcvend⟩ o).2 =
      ((coinResolver getRand inetPton).records labelRef 2 3600 (List.replicate MAX_TOK tenA) o).addAnswers
        (UInt16.ofNat MAX_TOK) := by
  have tokens : tokenize [0x4e, 0x53] [0x2c] nsValue = List.replicate MAX_TOK tenA := by decide +kernel
  have ttl : ttlOf 3600 nsValue = 3600 := by decide +kernel
  have found : (coinResolver getRand inetPton).search coinKey = some nsValue := by
    simp only [Resolver.search, coinResolver, if_pos]
    decide +kernel
  rw [Resolver.lookup_plain _ rfl rfl rfl]
  unfold Resolver.searchIndex
  simp only [List.length_cons, List.length_nil, Nat.sub_self, Resolver.stepDown_zero,
    List.getD_cons_zero, List.drop_zero, found]
  rw [Resolver.answer_other _ _ _ _ _ (by decide) (by decide) (by decide), ttl,
    Resolver.answerAll_ns, tokens, List.length_replicate, shuffle_replicate _ _ _ (Nat.le_refl _)]

/-- `coinQuery` asks for `a.coin`, type NS, class IN, whatever `m_buf` held before it. -/
theorem handleQuery_coinQuery (stale : Memory) (lookup : Question → Output → UInt16 × Output)
    (o : Output) (received : o.buf = receive stale coinQuery) :
    (handleQuery (fun _ => true) lookup 24 headerSize o).2.2 =
      (lookup ⟨coinKey, [0, 2], 2, UInt16.ofNat 12 ||| 0xc000, 24, 24⟩ o).2 := by
  have agree : ∀ i < coinQuery.length, o.buf i = Memory.overlay (fun _ => 0) coinQuery i := by
    intro i lt
    rw [received, receive_of_lt (by decide) lt, Memory.overlay_of_lt lt]
  have inQuery : ∀ i, i < headerSize + ([1, 4].map (· + 1)).sum → i < coinQuery.length := by
    intro i lt
    simp only [headerSize, List.map_cons, List.map_nil, List.sum_cons, List.sum_nil] at lt
    simp only [coinQuery, List.length_cons, List.length_nil]
    omega
  -- two labels, of one and four bytes, then the root byte
  have at_ : labelsAt o.buf [1, 4] headerSize = true := by
    rw [@labelsAt_congr o.buf (Memory.overlay (fun _ => 0) coinQuery) [1, 4] headerSize
      (fun i _ high => agree i (inQuery i high))]
    decide
  have root : o.buf ((Cursor.start headerSize).rcv + ([1, 4].map (· + 1)).sum) = 0 := by
    rw [agree _ (by decide)]
    decide
  have decoded := @decodeLabels_name o.buf [1, 4] MAX_DOM (Cursor.start headerSize) at_
    (by decide) (by decide) (by decide) root
  rw [@skipLabels_congr o.buf (Memory.overlay (fun _ => 0) coinQuery) [1, 4]
    (Cursor.start headerSize) (fun i _ high => agree i (inQuery i high))] at decoded
  have inet : o.buf.read16
      ((skipLabels (Memory.overlay (fun _ => 0) coinQuery) [1, 4] (Cursor.start headerSize)).advance.rcv + 2) = 1 := by
    simp only [Memory.read16]
    rw [agree _ (by decide), agree _ (by decide)]
    decide
  have qtype : o.buf.read16
      (skipLabels (Memory.overlay (fun _ => 0) coinQuery) [1, 4] (Cursor.start headerSize)).advance.rcv = 2 := by
    simp only [Memory.read16]
    rw [agree _ (by decide), agree _ (by decide)]
    decide
  rw [handleQuery_decoded _ _ _ _ _ decoded rfl inet, qtype]
  rfl

/-- From `m_snd = 24` the `MAX_TOK` records of ten-byte names reach past `BUF_SIZE + 2`:
twenty fit below `m_bufend`, 24 bytes each; the other 44 take 14 bytes each from offset 504,
the last storing the first byte of its name at 1119. -/
theorem records_tenA_past (r : Resolver) (labelRef : UInt16) (o : Output) (at24 : o.snd = 24) :
    1119 ∈ (r.records labelRef 2 3600 (List.replicate MAX_TOK tenA) o).writes := by
  have fit := r.records_ns_fit labelRef 3600 tenA_plain (by decide) 20 o (by rw [at24]; decide)
  obtain ⟨-, past⟩ := r.records_ns_past labelRef 3600 tenA_plain 43
    (r.records labelRef 2 3600 (List.replicate 20 tenA) o) (by rw [fit, at24]; decide)
  rw [fit, at24] at past
  rw [show List.replicate MAX_TOK tenA = List.replicate 20 tenA ++ List.replicate (43 + 1) tenA by
    rw [List.replicate_append_replicate]; rfl, r.records_append]
  exact past

/-- The answer builder leaves `m_buf`. A standard query for `a.coin`, type NS, to a server
whose name index holds under `dns:a.coin` a value of 706 bytes listing `MAX_TOK` name
servers of ten bytes, has its records written up to offset 1119, past the `BUF_SIZE + 2`
bytes of `m_buf`, whatever `m_buf` held before, `GetRand` draws or `inet_pton` does. -/
theorem handlePacket_answer_overflow (stale : Memory) (getRand : Nat → Nat)
    (inetPton : Family → List UInt8 → Option (List UInt8)) :
    ∃ i ∈ (serve ⟨false, fun _ => true, (coinResolver getRand inetPton).lookup⟩ stale coinQuery).out.writes,
      BUF_SIZE + 2 ≤ i := by
  have header := @readHeader_receive stale coinQuery (by decide) (by decide)
  have first := @handlePacket_first_writes ⟨false, fun _ => true, (coinResolver getRand inetPton).lookup⟩
    (coinResolver getRand inetPton).lookup_extends (receive stale coinQuery) 24
    (by rw [header]; decide) (by rw [header]; decide) rfl (by decide)
  rw [handleQuery_coinQuery stale _ _ rfl, coinResolver_lookup] at first
  have reply : serve ⟨false, fun _ => true, (coinResolver getRand inetPton).lookup⟩ stale coinQuery =
      handlePacket ⟨false, fun _ => true, (coinResolver getRand inetPton).lookup⟩ (receive stale coinQuery) 24 :=
    rfl
  have past := records_tenA_past (coinResolver getRand inetPton) (UInt16.ofNat 12 ||| 0xc000)
    ⟨replyHeader (readHeader (receive stale coinQuery)), receive stale coinQuery, 24, []⟩ rfl
  rw [Output.addAnswers_writes] at first
  rw [reply]
  exact ⟨1119, first.subset past, by decide⟩

end MFCoin.Dns
