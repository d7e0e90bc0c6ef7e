/-
Module: MFCoin.Dns.Buffer
Purpose: The buffer of the DNS server of src/src/mfcdns.cpp: `m_buf` with its sizes
  `MAX_OUT` and `BUF_SIZE`, a datagram received into it with the sentinel `Run` sets, the
  header in network order, and the output cursor `m_snd` with its writers (`*m_snd++`,
  `Out2`, `Out4`, `memmove`, the final `Transcode`). Every writer records the offsets it
  writes, so that where an answer lands is a statement about the recorded offsets.
Trusted boundary: none
Main exports: MAX_OUT, BUF_SIZE, MAX_DOM, headerSize, Memory, receive, DNSHeader,
  readHeader, Output, Output.Extends
-/
import Mathlib

namespace MFCoin.Dns

/-- `MAX_OUT`: the largest answer, as for a plain UDP client; `m_bufend` is
`m_buf + MAX_OUT`. -/
def MAX_OUT : Nat := 512

/-- `BUF_SIZE`: how much `recvfrom` may write into `m_buf`, and the size of the `key` of
`HandleQuery`. The allocation gives `m_buf` two bytes more. -/
def BUF_SIZE : Nat := 2 * MAX_OUT

/-- `MAX_DOM`: the most labels a QNAME may have. -/
def MAX_DOM : Nat := 20

/-- `sizeof(DNSHeader)`: six packed 16-bit fields. -/
def headerSize : Nat := 12

/-- The bytes from `m_buf` on, by offset. Past its `BUF_SIZE + 2` bytes lie the other buffers
of the same allocation and then the heap: an access there still reads or changes some
byte, and the statements below say where each access falls. -/
abbrev Memory := Nat → UInt8

/-- A byte stored at offset `i`. -/
def Memory.set (m : Memory) (i : Nat) (b : UInt8) : Memory := fun j => if j = i then b else m j

/-- `recvfrom` into `m_buf`: the datagram over what the buffer held before. -/
def Memory.overlay (m : Memory) (payload : List UInt8) : Memory := fun i => payload.getD i (m i)

/-- What `Run` hands `HandlePacket`: the datagram, then `m_buf[BUF_SIZE] = 0`, the terminal
"for infinity QNAME". -/
def receive (m : Memory) (payload : List UInt8) : Memory := (m.overlay payload).set BUF_SIZE 0

/-- Two bytes in network order: `ntohs`, and `HandleQuery`'s `(x << 8) + *m_rcv++`. -/
def Memory.read16 (m : Memory) (i : Nat) : UInt16 := ((m i).toUInt16 <<< 8) + (m (i + 1)).toUInt16

@[simp] theorem Memory.set_same (m : Memory) (i : Nat) (b : UInt8) : m.set i b i = b := by
  simp [Memory.set]

theorem Memory.set_of_ne {m : Memory} {i j : Nat} (b : UInt8) (h : j ≠ i) : m.set i b j = m j := by
  simp [Memory.set, h]

theorem Memory.overlay_of_lt {m : Memory} {payload : List UInt8} {i : Nat}
    (h : i < payload.length) : m.overlay payload i = payload[i] := by
  simp [Memory.overlay, List.getD_eq_getElem?_getD, h]

theorem Memory.overlay_of_le {m : Memory} {payload : List UInt8} {i : Nat}
    (h : payload.length ≤ i) : m.overlay payload i = m i := by
  simp [Memory.overlay, List.getD_eq_getElem?_getD, h]

/-- A byte of the datagram, where `recvfrom` put it. -/
theorem receive_of_lt {m : Memory} {payload : List UInt8} {i : Nat}
    (fits : payload.length ≤ BUF_SIZE) (h : i < payload.length) :
    receive m payload i = payload[i] := by
  rw [receive, Memory.set_of_ne _ (by omega), Memory.overlay_of_lt h]

/-- Past the datagram and apart from the sentinel, `m_buf` still holds what it held. -/
theorem receive_of_le {m : Memory} {payload : List UInt8} {i : Nat}
    (h : payload.length ≤ i) (ne : i ≠ BUF_SIZE) : receive m payload i = m i := by
  rw [receive, Memory.set_of_ne _ ne, Memory.overlay_of_le h]

@[simp] theorem receive_sentinel (m : Memory) (payload : List UInt8) :
    receive m payload BUF_SIZE = 0 := by
  simp [receive]

/-! ### The header -/

/-- The fields of `DNSHeader`, in host order once `Transcode` has run. -/
structure DNSHeader where
  msgID : UInt16
  Bits : UInt16
  QDCount : UInt16
  ANCount : UInt16
  NSCount : UInt16
  ARCount : UInt16
deriving DecidableEq, Repr

namespace DNSHeader

def QR_MASK : UInt16 := 0x8000
def OPCODE_MASK : UInt16 := 0x7800
def AA_MASK : UInt16 := 0x0400
def TC_MASK : UInt16 := 0x0200
def RD_MASK : UInt16 := 0x0100
def RCODE_MASK : UInt16 := 0x000F

end DNSHeader

/-- The first `Transcode` of `HandlePacket`: the six fields of the request, read in network
order from offsets `0` to `11`. -/
def readHeader (m : Memory) : DNSHeader :=
  ⟨m.read16 0, m.read16 2, m.read16 4, m.read16 6, m.read16 8, m.read16 10⟩

/-! ### The output cursor -/

/-- The state an answer is written in: the header `m_hdr`, kept apart from the buffer
between the two `Transcode`s of `HandlePacket`; `m_buf`; `m_snd` as an offset; and the
offsets of `m_buf` written so far, in order. -/
structure Output where
  hdr : DNSHeader
  buf : Memory
  snd : Nat
  writes : List Nat

namespace Output

/-- A byte stored at offset `i` of `m_buf`, and the store recorded. -/
def poke (o : Output) (i : Nat) (b : UInt8) : Output :=
  { o with buf := o.buf.set i b, writes := o.writes ++ [i] }

/-- `*m_snd++ = b`. -/
def put (o : Output) (b : UInt8) : Output := { o.poke o.snd b with snd := o.snd + 1 }

/-- `Out2`: `htons`, then the two bytes at `m_snd`. -/
def out2 (o : Output) (x : UInt16) : Output := (o.put (x >>> 8).toUInt8).put x.toUInt8

/-- `Out4`: `htonl`, then the four bytes at `m_snd`. -/
def out4 (o : Output) (x : UInt32) : Output :=
  (((o.put (x >>> 24).toUInt8).put (x >>> 16).toUInt8).put (x >>> 8).toUInt8).put x.toUInt8

/-- `memmove(m_buf + dst, m_buf + src, n)`: the `n` bytes from `src` copied to `dst` as they
were before the copy. -/
def memmove (o : Output) (dst src n : Nat) : Output :=
  { o with
    buf := fun i => if dst ≤ i ∧ i < dst + n then o.buf (src + (i - dst)) else o.buf i
    writes := o.writes ++ List.range' dst n }

/-- Two bytes in network order stored at offset `i`. -/
def poke16 (o : Output) (i : Nat) (x : UInt16) : Output :=
  (o.poke i (x >>> 8).toUInt8).poke (i + 1) x.toUInt8

/-- The final `Transcode` of `HandlePacket`: the header back into offsets `0` to `11`, in
network order. -/
def writeHeader (o : Output) : Output :=
  (((((o.poke16 0 o.hdr.msgID).poke16 2 o.hdr.Bits).poke16 4 o.hdr.QDCount).poke16 6
    o.hdr.ANCount).poke16 8 o.hdr.NSCount).poke16 10 o.hdr.ARCount

@[simp] theorem poke_hdr (o : Output) (i : Nat) (b : UInt8) : (o.poke i b).hdr = o.hdr := rfl
@[simp] theorem poke_snd (o : Output) (i : Nat) (b : UInt8) : (o.poke i b).snd = o.snd := rfl
@[simp] theorem poke_writes (o : Output) (i : Nat) (b : UInt8) :
    (o.poke i b).writes = o.writes ++ [i] := rfl
@[simp] theorem put_hdr (o : Output) (b : UInt8) : (o.put b).hdr = o.hdr := rfl
@[simp] theorem put_snd (o : Output) (b : UInt8) : (o.put b).snd = o.snd + 1 := rfl
@[simp] theorem put_writes (o : Output) (b : UInt8) : (o.put b).writes = o.writes ++ [o.snd] := rfl
@[simp] theorem out2_hdr (o : Output) (x : UInt16) : (o.out2 x).hdr = o.hdr := rfl
@[simp] theorem out2_snd (o : Output) (x : UInt16) : (o.out2 x).snd = o.snd + 2 := rfl
@[simp] theorem out2_writes (o : Output) (x : UInt16) :
    (o.out2 x).writes = o.writes ++ [o.snd, o.snd + 1] := by
  simp [out2]
@[simp] theorem out4_hdr (o : Output) (x : UInt32) : (o.out4 x).hdr = o.hdr := rfl
@[simp] theorem out4_snd (o : Output) (x : UInt32) : (o.out4 x).snd = o.snd + 4 := rfl
@[simp] theorem out4_writes (o : Output) (x : UInt32) :
    (o.out4 x).writes = o.writes ++ [o.snd, o.snd + 1, o.snd + 2, o.snd + 3] := by
  simp [out4]
@[simp] theorem memmove_hdr (o : Output) (dst src n : Nat) : (o.memmove dst src n).hdr = o.hdr := rfl
@[simp] theorem memmove_snd (o : Output) (dst src n : Nat) : (o.memmove dst src n).snd = o.snd := rfl
@[simp] theorem memmove_writes (o : Output) (dst src n : Nat) :
    (o.memmove dst src n).writes = o.writes ++ List.range' dst n := rfl
@[simp] theorem poke16_hdr (o : Output) (i : Nat) (x : UInt16) : (o.poke16 i x).hdr = o.hdr := rfl
@[simp] theorem poke16_snd (o : Output) (i : Nat) (x : UInt16) : (o.poke16 i x).snd = o.snd := rfl
@[simp] theorem poke16_writes (o : Output) (i : Nat) (x : UInt16) :
    (o.poke16 i x).writes = o.writes ++ [i, i + 1] := by
  simp [poke16]
@[simp] theorem writeHeader_hdr (o : Output) : o.writeHeader.hdr = o.hdr := by
  simp only [writeHeader, poke16_hdr]
@[simp] theorem writeHeader_snd (o : Output) : o.writeHeader.snd = o.snd := by
  simp only [writeHeader, poke16_snd]
theorem writeHeader_writes (o : Output) :
    o.writeHeader.writes = o.writes ++ List.range headerSize := by
  simp [writeHeader, headerSize, List.range_succ]

/-! ### Frames

A writer changes `m_buf` only where its log says, and never forgets what was written
before. Every claim about where an answer lands goes through this relation. -/

/-- `o'` follows `o` by recorded writes: the log of `o` is a prefix of that of `o'`, and a
byte outside the log of `o'` is as it was in `o`. -/
structure Extends (o o' : Output) : Prop where
  log : o.writes <+: o'.writes
  frame : ∀ i, i ∉ o'.writes → o'.buf i = o.buf i

theorem Extends.refl (o : Output) : Extends o o := ⟨List.prefix_refl _, fun _ _ => rfl⟩

theorem Extends.trans {o₁ o₂ o₃ : Output} (h₁ : Extends o₁ o₂) (h₂ : Extends o₂ o₃) :
    Extends o₁ o₃ := by
  refine ⟨h₁.log.trans h₂.log, fun i hi => ?_⟩
  have notMid : i ∉ o₂.writes := fun h => hi (h₂.log.subset h)
  rw [h₂.frame i hi, h₁.frame i notMid]

theorem Extends.poke (o : Output) (i : Nat) (b : UInt8) : Extends o (o.poke i b) := by
  refine ⟨⟨[i], rfl⟩, fun j hj => ?_⟩
  have ne : j ≠ i := fun h => hj (by simp [h])
  exact Memory.set_of_ne b ne

theorem Extends.put (o : Output) (b : UInt8) : Extends o (o.put b) :=
  ⟨(Extends.poke o o.snd b).log, (Extends.poke o o.snd b).frame⟩

theorem Extends.out2 (o : Output) (x : UInt16) : Extends o (o.out2 x) :=
  (Extends.put _ _).trans (Extends.put _ _)

theorem Extends.out4 (o : Output) (x : UInt32) : Extends o (o.out4 x) :=
  (((Extends.put _ _).trans (Extends.put _ _)).trans (Extends.put _ _)).trans (Extends.put _ _)

theorem Extends.memmove (o : Output) (dst src n : Nat) : Extends o (o.memmove dst src n) := by
  refine ⟨⟨_, rfl⟩, fun i hi => ?_⟩
  have outside : ¬ (dst ≤ i ∧ i < dst + n) := fun h => hi (by simp; omega)
  simp only [Output.memmove, if_neg outside]

theorem Extends.poke16 (o : Output) (i : Nat) (x : UInt16) : Extends o (o.poke16 i x) :=
  (Extends.poke _ _ _).trans (Extends.poke _ _ _)

theorem Extends.writeHeader (o : Output) : Extends o o.writeHeader :=
  (((((Extends.poke16 _ _ _).trans (Extends.poke16 _ _ _)).trans (Extends.poke16 _ _ _)).trans
    (Extends.poke16 _ _ _)).trans (Extends.poke16 _ _ _)).trans (Extends.poke16 _ _ _)

end Output

end MFCoin.Dns
