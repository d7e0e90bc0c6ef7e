/-
Module: MFCoin.Dns.Query
Purpose: `HandleQuery` of src/src/mfcdns.cpp up to its lookup: the QNAME loop, which turns
  the labels at `m_rcv` into the lower-cased dotted `key` and the label starts
  `domain_ndx`; the terminator; the DAP check on the name; QTYPE and QCLASS. The loop
  checks the key bound and the label count before each label only, and never compares
  `m_rcv` with `m_rcvend`. The cursor records every offset of `m_buf` the loop reads and
  every index of `key` it writes.
Trusted boundary: `CheckDAP` on the name, and the lookup that answers a decoded question,
  are parameters.
Main exports: Cursor, copyLabel, label, decodeLabels, Question, handleQuery, Cursor.Tracks,
  decodeLabels_cursor, decodeLabels_label, decodeLabels_skip, decodeLabels_name,
  handleQuery_accesses
-/
import MFCoin.Dns.Buffer

namespace MFCoin.Dns

/-- The state of the QNAME loop: `m_rcv` as an offset, the key written so far
(`key[0 .. key_end)`), the label starts `domain_ndx[0 .. domain_ndx_p)` as offsets into
the key, and the offsets of `m_buf` read and the indices of `key` written, in order. -/
structure Cursor where
  rcv : Nat
  key : List UInt8
  domains : List Nat
  reads : List Nat
  keyWrites : List Int
deriving DecidableEq, Repr

namespace Cursor

/-- The cursor at the first byte of a QNAME: `key_end = key`, `domain_ndx_p = domain_ndx`. -/
def start (rcv : Nat) : Cursor := ⟨rcv, [], [], [], []⟩

/-- `m_rcv++`, the byte at `m_rcv` having been read. -/
def advance (c : Cursor) : Cursor := { c with rcv := c.rcv + 1, reads := c.reads ++ [c.rcv] }

/-- `*key_end++ = b`. -/
def put (c : Cursor) (b : UInt8) : Cursor :=
  { c with key := c.key ++ [b], keyWrites := c.keyWrites ++ [(c.key.length : Int)] }

/-- `*--key_end = 0`: the dot after the last label becomes the terminator. With no label
`key_end` is still `key`, and the zero goes to `key[-1]`. -/
def terminate (c : Cursor) : Cursor :=
  { c with key := c.key.dropLast, keyWrites := c.keyWrites ++ [(c.key.length : Int) - 1] }

@[simp] theorem advance_rcv (c : Cursor) : c.advance.rcv = c.rcv + 1 := rfl
@[simp] theorem advance_key (c : Cursor) : c.advance.key = c.key := rfl
@[simp] theorem advance_domains (c : Cursor) : c.advance.domains = c.domains := rfl
@[simp] theorem advance_reads (c : Cursor) : c.advance.reads = c.reads ++ [c.rcv] := rfl
@[simp] theorem advance_keyWrites (c : Cursor) : c.advance.keyWrites = c.keyWrites := rfl
@[simp] theorem put_rcv (c : Cursor) (b : UInt8) : (c.put b).rcv = c.rcv := rfl
@[simp] theorem put_key (c : Cursor) (b : UInt8) : (c.put b).key = c.key ++ [b] := rfl
@[simp] theorem put_domains (c : Cursor) (b : UInt8) : (c.put b).domains = c.domains := rfl
@[simp] theorem put_reads (c : Cursor) (b : UInt8) : (c.put b).reads = c.reads := rfl
@[simp] theorem put_keyWrites (c : Cursor) (b : UInt8) :
    (c.put b).keyWrites = c.keyWrites ++ [(c.key.length : Int)] := rfl
@[simp] theorem terminate_rcv (c : Cursor) : c.terminate.rcv = c.rcv := rfl
@[simp] theorem terminate_reads (c : Cursor) : c.terminate.reads = c.reads := rfl
@[simp] theorem terminate_keyWrites (c : Cursor) :
    c.terminate.keyWrites = c.keyWrites ++ [(c.key.length : Int) - 1] := rfl

end Cursor

/-- The `do ... while(--dom_len)` copy of the `n` bytes of a label, each or-ed with `040`,
which lower-cases a letter. -/
def copyLabel (m : Memory) : Nat → Cursor → Cursor
  | 0, c => c
  | n + 1, c => copyLabel m n (c.advance.put (0x20 ||| m c.rcv))

/-- The body of the QNAME loop for a label of length `n` that passed the checks: its start
stored in `domain_ndx`, its bytes copied, and the dot. -/
def label (m : Memory) (n : Nat) (c : Cursor) : Cursor :=
  (copyLabel m n { c with domains := c.domains ++ [c.key.length] }).put 0x2e

/-- How the QNAME loop ends: `return 1`, or the zero length byte. -/
inductive Qname
  | invalid (c : Cursor)
  | decoded (c : Cursor)
deriving DecidableEq, Repr

/-- The cursor a QNAME loop ended with. -/
def Qname.cursor : Qname → Cursor
  | .invalid c => c
  | .decoded c => c

/-- The QNAME loop of `HandleQuery`. `room` is what is left of `domain_ndx`, that is
`domain_ndx + MAX_DOM - domain_ndx_p`; a label with no room left is refused with the other
two checks, a length with a bit of `0xc0` (a compression pointer) and a key that has reached
`BUF_SIZE`. -/
def decodeLabels (m : Memory) : Nat → Cursor → Qname
  | room, c =>
    let dom_len := (m c.rcv).toNat
    if dom_len = 0 then .decoded c.advance
    else match room with
      | 0 => .invalid c.advance
      | room + 1 =>
        if dom_len &&& 0xc0 ≠ 0 ∨ BUF_SIZE ≤ c.key.length then .invalid c.advance
        else decodeLabels m room (label m dom_len c.advance)

/-- What the rest of `HandleQuery` works from once QCLASS is `1`: the key as a C string,
the label starts as offsets into it, QTYPE, `m_label_ref` (a compression pointer to the
QNAME), and `m_rcv` and `m_rcvend` as offsets. -/
structure Question where
  key : List UInt8
  domains : List Nat
  qtype : UInt16
  labelRef : UInt16
  rcv : Nat
  rcvend : Nat

/-- `HandleQuery`, with everything after QCLASS given as `lookup`: the return code, the
cursor the request side ended with, and the output. The code is `1` for a malformed name,
`0xDead` for a name the DAP filter refuses, and `4` for a class other than `IN`. -/
def handleQuery (checkDAP : List UInt8 → Bool) (lookup : Question → Output → UInt16 × Output)
    (rcvend rcv : Nat) (o : Output) : UInt16 × Cursor × Output :=
  match decodeLabels o.buf MAX_DOM (Cursor.start rcv) with
  | .invalid c => (1, c, o)
  | .decoded c =>
    let c := c.terminate
    if !checkDAP c.key then (0xDead, c, o)
    else
      -- QTYPE and QCLASS, two bytes each in network order
      let qtype := o.buf.read16 c.rcv
      let qclass := o.buf.read16 (c.rcv + 2)
      let c := c.advance.advance.advance.advance
      if qclass ≠ 1 then (4, c, o)
      else
        let answered := lookup ⟨c.key, c.domains, qtype, UInt16.ofNat rcv ||| 0xc000, c.rcv, rcvend⟩ o
        (answered.1, c, answered.2)

/-! ### One label -/

section Labels

variable {m : Memory} {n : Nat} {c : Cursor}

@[simp] theorem copyLabel_rcv : (copyLabel m n c).rcv = c.rcv + n := by
  induction n generalizing c with
  | zero => rfl
  | succ n ih => simp only [copyLabel, ih, Cursor.put_rcv, Cursor.advance_rcv]; omega

@[simp] theorem copyLabel_key_length : (copyLabel m n c).key.length = c.key.length + n := by
  induction n generalizing c with
  | zero => rfl
  | succ n ih =>
    simp only [copyLabel, ih, Cursor.put_key, Cursor.advance_key, List.length_append,
      List.length_singleton]
    omega

@[simp] theorem copyLabel_domains : (copyLabel m n c).domains = c.domains := by
  induction n generalizing c with
  | zero => rfl
  | succ n ih => simp [copyLabel, ih]

theorem copyLabel_reads : (copyLabel m n c).reads = c.reads ++ List.range' c.rcv n := by
  induction n generalizing c with
  | zero => simp [copyLabel]
  | succ n ih => simp [copyLabel, ih, List.range'_succ]

theorem copyLabel_keyWrites :
    (copyLabel m n c).keyWrites = c.keyWrites ++ (List.range' c.key.length n).map (↑) := by
  induction n generalizing c with
  | zero => simp [copyLabel]
  | succ n ih => simp [copyLabel, ih, List.range'_succ]

/-- The bytes a label adds to the key: those after its length byte, lower-cased. -/
theorem copyLabel_key :
    (copyLabel m n c).key = c.key ++ (List.range n).map fun j => 0x20 ||| m (c.rcv + j) := by
  induction n generalizing c with
  | zero => simp [copyLabel]
  | succ n ih =>
    simp only [copyLabel, ih, Cursor.put_key, Cursor.advance_key, List.range_succ_eq_map, List.map_cons, List.map_map, List.append_assoc,
      List.singleton_append, Nat.add_zero]
    congr 2
    apply List.map_congr_left
    intro j _
    simp only [Function.comp_apply, Cursor.put_rcv, Cursor.advance_rcv]
    congr 2
    omega

@[simp] theorem label_rcv : (label m n c).rcv = c.rcv + n := by simp [label]

@[simp] theorem label_key_length : (label m n c).key.length = c.key.length + n + 1 := by
  simp [label]

@[simp] theorem label_domains : (label m n c).domains = c.domains ++ [c.key.length] := by
  simp [label]

theorem label_reads : (label m n c).reads = c.reads ++ List.range' c.rcv n := by
  simp [label, copyLabel_reads]

theorem label_keyWrites :
    (label m n c).keyWrites = c.keyWrites ++ (List.range' c.key.length (n + 1)).map (↑) := by
  simp [label, copyLabel_keyWrites, List.range'_concat]

/-- The loop body's key: the label's bytes, lower-cased, then the dot. -/
theorem label_key :
    (label m n c).key = c.key ++ (List.range n).map (fun j => 0x20 ||| m (c.rcv + j)) ++ [0x2e] := by
  simp [label, copyLabel_key]

end Labels

/-! ### The loop invariant -/

theorem range_append_range' (k n : Nat) : List.range k ++ List.range' k n = List.range (k + n) := by
  have whole := @List.range'_append_1 0 k n
  simpa [← List.range_eq_range'] using whole

/-- The invariant at the head of the QNAME loop: from the first byte `start` of the name,
every byte before `m_rcv` has been read once, in order, and has become one key byte (a
length byte becomes the dot after its label), so every key index below `key_end` has been
written once, in order. -/
structure Cursor.Tracks (start : Nat) (c : Cursor) : Prop where
  rcv_eq : c.rcv = start + c.key.length
  reads_eq : c.reads = List.range' start c.key.length
  keyWrites_eq : c.keyWrites = (List.range c.key.length).map (↑)

theorem Cursor.tracks_start (rcv : Nat) : (Cursor.start rcv).Tracks rcv :=
  ⟨rfl, rfl, rfl⟩

theorem Cursor.Tracks.label {m : Memory} {n start : Nat} {c : Cursor} (h : c.Tracks start) :
    (label m n c.advance).Tracks start := by
  obtain ⟨rcv_eq, reads_eq, keyWrites_eq⟩ := h
  refine ⟨?_, ?_, ?_⟩
  · simp only [label_rcv, Cursor.advance_rcv, label_key_length, Cursor.advance_key, rcv_eq]
    omega
  · have whole : List.range' start c.key.length ++ [start + c.key.length] ++
        List.range' (start + c.key.length + 1) n = List.range' start (c.key.length + n + 1) := by
      rw [List.append_assoc, List.singleton_append, ← List.range'_succ, List.range'_append_1,
        Nat.add_assoc]
    simp only [label_reads, Cursor.advance_reads, Cursor.advance_rcv, label_key_length,
      Cursor.advance_key, reads_eq, rcv_eq, whole]
  · simp only [label_keyWrites, Cursor.advance_keyWrites, Cursor.advance_key, label_key_length,
      keyWrites_eq, ← List.map_append, range_append_range', Nat.add_assoc]

/-- A length byte is a label length, below 64, when it has no bit of `0xc0`. -/
theorem lt_64_of_and_0xc0 {n : Nat} (byte : n < 256) (h : n &&& 0xc0 = 0) : n < 64 := by
  have high : (n &&& 0xc0) >>> 6 = (n >>> 6) &&& 3 := by
    rw [Nat.shiftRight_and_distrib]
    rfl
  have three : (n >>> 6) &&& 3 = (n >>> 6) % 4 := Nat.and_two_pow_sub_one_eq_mod _ 2
  rw [h, three, Nat.shiftRight_eq_div_pow] at high
  simp only [Nat.reducePow] at high
  omega

/-- What one turn of the QNAME loop does: it stops at the zero byte, refuses the label, or
consumes a label of 1 to 63 bytes while the key is below `BUF_SIZE` and `domain_ndx` has
room. -/
theorem decodeLabels_cases (m : Memory) (room : Nat) (c : Cursor) :
    decodeLabels m room c = .decoded c.advance ∨ decodeLabels m room c = .invalid c.advance ∨
      ∃ room', room = room' + 1 ∧ 0 < (m c.rcv).toNat ∧ (m c.rcv).toNat < 64 ∧
        c.key.length < BUF_SIZE ∧
        decodeLabels m room c = decodeLabels m room' (label m (m c.rcv).toNat c.advance) := by
  rw [decodeLabels.eq_def]
  dsimp only
  split
  · exact .inl rfl
  · rename_i nonzero
    cases room with
    | zero => exact .inr (.inl rfl)
    | succ room =>
      dsimp only
      split
      · exact .inr (.inl rfl)
      · rename_i passes
        have small := lt_64_of_and_0xc0 (m c.rcv).toNat_lt (by omega)
        exact .inr (.inr ⟨room, rfl, by omega, small, by omega, rfl⟩)

/-- However the QNAME loop ends, it has read the name from its first byte through the
length byte that stopped it, and the key it has written is at most `BUF_SIZE + 63` long:
the key bound is checked before a label, and a label adds at most 64 bytes. -/
theorem decodeLabels_cursor {m : Memory} {room start : Nat} {c : Cursor} (h : c.Tracks start)
    (bound : c.key.length ≤ BUF_SIZE + 63) :
    ∃ d : Cursor, d.Tracks start ∧ d.key.length ≤ BUF_SIZE + 63 ∧
      (decodeLabels m room c).cursor = d.advance := by
  induction room generalizing c with
  | zero =>
    rcases decodeLabels_cases m 0 c with stop | stop | ⟨_, noRoom, -⟩
    · exact ⟨c, h, bound, by rw [stop]; rfl⟩
    · exact ⟨c, h, bound, by rw [stop]; rfl⟩
    · omega
  | succ room ih =>
    rcases decodeLabels_cases m (room + 1) c with
      stop | stop | ⟨room', same, -, small, keyRoom, next⟩
    · exact ⟨c, h, bound, by rw [stop]; rfl⟩
    · exact ⟨c, h, bound, by rw [stop]; rfl⟩
    · obtain rfl : room' = room := by omega
      rw [next]
      refine ih h.label ?_
      simp only [label_key_length, Cursor.advance_key]
      omega

/-- The loop only appends to what it has read and written. -/
theorem decodeLabels_extends {m : Memory} {room : Nat} {c : Cursor} :
    c.reads <+: (decodeLabels m room c).cursor.reads ∧
      c.keyWrites <+: (decodeLabels m room c).cursor.keyWrites := by
  induction room generalizing c with
  | zero =>
    rcases decodeLabels_cases m 0 c with stop | stop | ⟨_, noRoom, -⟩
    · rw [stop]; exact ⟨⟨_, rfl⟩, List.prefix_refl _⟩
    · rw [stop]; exact ⟨⟨_, rfl⟩, List.prefix_refl _⟩
    · omega
  | succ room ih =>
    rcases decodeLabels_cases m (room + 1) c with stop | stop | ⟨room', same, -, -, -, next⟩
    · rw [stop]; exact ⟨⟨_, rfl⟩, List.prefix_refl _⟩
    · rw [stop]; exact ⟨⟨_, rfl⟩, List.prefix_refl _⟩
    · obtain rfl : room' = room := by omega
      rw [next]
      obtain ⟨reads, keyWrites⟩ := @ih (label m (m c.rcv).toNat c.advance)
      have stepReads : c.reads <+: (label m (m c.rcv).toNat c.advance).reads := by
        rw [label_reads, Cursor.advance_reads, List.append_assoc]
        exact List.prefix_append _ _
      have stepWrites : c.keyWrites <+: (label m (m c.rcv).toNat c.advance).keyWrites := by
        rw [label_keyWrites, Cursor.advance_keyWrites]
        exact List.prefix_append _ _
      exact ⟨stepReads.trans reads, stepWrites.trans keyWrites⟩

/-! ### Names the loop accepts -/

/-- A zero length byte ends the name at once. -/
theorem decodeLabels_zero {m : Memory} {room : Nat} {c : Cursor} (zero : m c.rcv = 0) :
    decodeLabels m room c = .decoded c.advance := by
  rw [decodeLabels.eq_def]
  simp [zero]

/-- A label of length `n` at `m_rcv` that passes the checks is consumed whole. -/
theorem decodeLabels_label {m : Memory} {room n : Nat} {c : Cursor} (len : (m c.rcv).toNat = n)
    (pos : 0 < n) (valid : n &&& 0xc0 = 0) (keyRoom : c.key.length < BUF_SIZE) :
    decodeLabels m (room + 1) c = decodeLabels m room (label m n c.advance) := by
  rw [decodeLabels]
  simp only [len, if_neg (Nat.pos_iff_ne_zero.mp pos), valid, ne_eq, not_true_eq_false,
    false_or, if_neg (Nat.not_le.mpr keyRoom)]

/-- The length bytes of labels of lengths `ns` stand one after another from offset `r`. -/
def labelsAt (m : Memory) : List Nat → Nat → Bool
  | [], _ => true
  | n :: ns, r => (m r).toNat == n && labelsAt m ns (r + 1 + n)

/-- Where the labels stand depends on the bytes they cover only. -/
theorem labelsAt_congr {m m' : Memory} {ns : List Nat} {r : Nat}
    (same : ∀ i, r ≤ i → i < r + (ns.map (· + 1)).sum → m i = m' i) :
    labelsAt m ns r = labelsAt m' ns r := by
  induction ns generalizing r with
  | nil => rfl
  | cons n ns ih =>
    simp only [List.map_cons, List.sum_cons] at same
    simp only [labelsAt]
    rw [same r (Nat.le_refl _) (by omega), ih]
    intro i low high
    exact same i (by omega) (by omega)

/-- The cursor once the loop body has consumed labels of lengths `ns`. -/
def skipLabels (m : Memory) : List Nat → Cursor → Cursor
  | [], c => c
  | n :: ns, c => skipLabels m ns (label m n c.advance)

@[simp] theorem skipLabels_rcv {m : Memory} {ns : List Nat} {c : Cursor} :
    (skipLabels m ns c).rcv = c.rcv + (ns.map (· + 1)).sum := by
  induction ns generalizing c with
  | nil => simp [skipLabels]
  | cons n ns ih => simp only [skipLabels, ih, label_rcv, Cursor.advance_rcv, List.map_cons,
      List.sum_cons]; omega

@[simp] theorem skipLabels_key_length {m : Memory} {ns : List Nat} {c : Cursor} :
    (skipLabels m ns c).key.length = c.key.length + (ns.map (· + 1)).sum := by
  induction ns generalizing c with
  | nil => simp [skipLabels]
  | cons n ns ih => simp only [skipLabels, ih, label_key_length, Cursor.advance_key,
      List.map_cons, List.sum_cons]; omega

theorem Cursor.Tracks.skipLabels {m : Memory} {ns : List Nat} {start : Nat} {c : Cursor}
    (h : c.Tracks start) : (skipLabels m ns c).Tracks start := by
  induction ns generalizing c with
  | nil => exact h
  | cons n ns ih => exact ih h.label

/-- Labels that stand one after another, each of length 1 to 63, are consumed one by one
while the key stays within `BUF_SIZE` and `domain_ndx` has room. -/
theorem decodeLabels_skip {m : Memory} {ns : List Nat} {room : Nat} {c : Cursor}
    (at_ : labelsAt m ns c.rcv = true) (valid : ∀ n ∈ ns, 0 < n ∧ n &&& 0xc0 = 0)
    (fits : c.key.length + (ns.map (· + 1)).sum ≤ BUF_SIZE) (roomOk : ns.length ≤ room) :
    decodeLabels m room c = decodeLabels m (room - ns.length) (skipLabels m ns c) := by
  induction ns generalizing c room with
  | nil => simp [skipLabels]
  | cons n ns ih =>
    obtain ⟨room, rfl⟩ : ∃ r, room = r + 1 := ⟨room - 1, by simp at roomOk; omega⟩
    simp only [labelsAt, Bool.and_eq_true, beq_iff_eq] at at_
    obtain ⟨pos, valid_n⟩ := valid n (List.mem_cons_self ..)
    simp only [List.map_cons, List.sum_cons] at fits
    rw [decodeLabels_label at_.1 pos valid_n (by omega), skipLabels, List.length_cons,
      Nat.add_sub_add_right]
    refine ih ?_ (fun k hk => valid k (List.mem_cons_of_mem _ hk)) ?_ (by simp at roomOk; omega)
    · simpa [Nat.add_assoc] using at_.2
    · simp only [label_key_length, Cursor.advance_key]
      omega

/-- A name in wire form, its labels followed by the zero byte, is decoded whole. -/
theorem decodeLabels_name {m : Memory} {ns : List Nat} {room : Nat} {c : Cursor}
    (at_ : labelsAt m ns c.rcv = true) (valid : ∀ n ∈ ns, 0 < n ∧ n &&& 0xc0 = 0)
    (fits : c.key.length + (ns.map (· + 1)).sum ≤ BUF_SIZE) (roomOk : ns.length ≤ room)
    (root : m (c.rcv + (ns.map (· + 1)).sum) = 0) :
    decodeLabels m room c = .decoded (skipLabels m ns c).advance := by
  rw [decodeLabels_skip at_ valid fits roomOk]
  unfold decodeLabels
  simp only [skipLabels_rcv, root, UInt8.toNat_zero, ↓reduceIte]

/-! ### What one question reads and writes -/

/-- A label is copied from the bytes it spans and no others. -/
theorem copyLabel_congr {m m' : Memory} {n : Nat} {c : Cursor}
    (same : ∀ i, c.rcv ≤ i → i < c.rcv + n → m i = m' i) : copyLabel m n c = copyLabel m' n c := by
  induction n generalizing c with
  | zero => rfl
  | succ n ih =>
    simp only [copyLabel]
    rw [same c.rcv (Nat.le_refl _) (by omega),
      ih (fun i low high => same i (by simp at low; omega) (by simp at high; omega))]

/-- Labels are walked over from the bytes they span and no others. -/
theorem skipLabels_congr {m m' : Memory} {ns : List Nat} {c : Cursor}
    (same : ∀ i, c.rcv ≤ i → i < c.rcv + (ns.map (· + 1)).sum → m i = m' i) :
    skipLabels m ns c = skipLabels m' ns c := by
  induction ns generalizing c with
  | nil => rfl
  | cons n ns ih =>
    simp only [List.map_cons, List.sum_cons] at same
    have here : label m n c.advance = label m' n c.advance := by
      unfold label
      rw [copyLabel_congr (fun i low high =>
        same i (by simp only [Cursor.advance_rcv] at low; omega)
          (by simp only [Cursor.advance_rcv] at high; omega))]
    simp only [skipLabels]
    rw [here, ih (fun i low high =>
      same i (by simp only [label_rcv, Cursor.advance_rcv] at low; omega)
        (by simp only [label_rcv, Cursor.advance_rcv] at high; omega))]

/-- A name that is decoded and passes the DAP filter, with class IN, is answered by the
lookup, on the question made of the key, QTYPE and the offsets. -/
theorem handleQuery_decoded (checkDAP : List UInt8 → Bool)
    (lookup : Question → Output → UInt16 × Output) (rcvend rcv : Nat) (o : Output) {c : Cursor}
    (decoded : decodeLabels o.buf MAX_DOM (Cursor.start rcv) = .decoded c)
    (passes : checkDAP c.terminate.key = true) (inet : o.buf.read16 (c.rcv + 2) = 1) :
    handleQuery checkDAP lookup rcvend rcv o =
      ((lookup ⟨c.terminate.key, c.domains, o.buf.read16 c.rcv, UInt16.ofNat rcv ||| 0xc000,
          c.rcv + 4, rcvend⟩ o).1,
        c.terminate.advance.advance.advance.advance,
        (lookup ⟨c.terminate.key, c.domains, o.buf.read16 c.rcv, UInt16.ofNat rcv ||| 0xc000,
          c.rcv + 4, rcvend⟩ o).2) := by
  unfold handleQuery
  rw [decoded]
  simp [passes, inet]
  exact ⟨rfl, rfl⟩

/-- Where `HandleQuery` leaves the request side: right after the byte that stopped the QNAME
loop; after the terminator too when the name was decoded; and four bytes further when the
DAP filter let it through to QTYPE and QCLASS. -/
theorem handleQuery_cursor (checkDAP : List UInt8 → Bool)
    (lookup : Question → Output → UInt16 × Output) (rcvend rcv : Nat) (o : Output) :
    (handleQuery checkDAP lookup rcvend rcv o).2.1 =
        (decodeLabels o.buf MAX_DOM (Cursor.start rcv)).cursor ∨
      (handleQuery checkDAP lookup rcvend rcv o).2.1 =
        (decodeLabels o.buf MAX_DOM (Cursor.start rcv)).cursor.terminate ∨
      (handleQuery checkDAP lookup rcvend rcv o).2.1 =
        (decodeLabels o.buf MAX_DOM (Cursor.start rcv)).cursor.terminate.advance.advance.advance.advance := by
  unfold handleQuery
  split
  · rename_i c stop
    exact .inl (by rw [stop]; rfl)
  · rename_i c stop
    rw [stop]
    dsimp only [Qname.cursor]
    split
    · exact .inr (.inl rfl)
    · refine .inr (.inr ?_)
      -- both answers to QCLASS leave the cursor four bytes past the name
      split <;> rfl

/-- `HandleQuery` reads the bytes from the start of the QNAME to where it stops, each once,
and writes key indices from `-1` up to below the key length `K` it reached, which is at
most `BUF_SIZE + 63`; the request side has read past the QNAME's `K` name bytes. -/
theorem handleQuery_accesses (checkDAP : List UInt8 → Bool)
    (lookup : Question → Output → UInt16 × Output) (rcvend rcv : Nat) (o : Output) :
    ∃ K, K ≤ BUF_SIZE + 63 ∧ rcv + K < (handleQuery checkDAP lookup rcvend rcv o).2.1.rcv ∧
      (handleQuery checkDAP lookup rcvend rcv o).2.1.reads =
        List.range' rcv ((handleQuery checkDAP lookup rcvend rcv o).2.1.rcv - rcv) ∧
      ∀ j ∈ (handleQuery checkDAP lookup rcvend rcv o).2.1.keyWrites, -1 ≤ j ∧ j < K := by
  obtain ⟨d, tracks, bound, ended⟩ :=
    @decodeLabels_cursor o.buf MAX_DOM rcv _ (Cursor.tracks_start rcv) (Nat.zero_le _)
  obtain ⟨rcv_eq, reads_eq, keyWrites_eq⟩ := tracks
  -- the reads through the byte that stopped the loop, and `extra` more after it
  have reads_to : ∀ extra, d.reads ++ List.range' d.rcv (extra + 1) =
      List.range' rcv (d.rcv + (extra + 1) - rcv) := by
    intro extra
    rw [reads_eq, rcv_eq, List.range'_append_1]
    congr 1
    omega
  have loopWrites : ∀ j ∈ d.keyWrites, -1 ≤ j ∧ j < d.key.length := by
    intro j hj
    rw [keyWrites_eq] at hj
    obtain ⟨i, hi, rfl⟩ := List.mem_map.mp hj
    simp only [List.mem_range] at hi
    omega
  have termWrites : ∀ j ∈ d.advance.terminate.keyWrites, -1 ≤ j ∧ j < d.key.length := by
    intro j hj
    simp only [Cursor.terminate_keyWrites, Cursor.advance_keyWrites, Cursor.advance_key,
      List.mem_append, List.mem_singleton] at hj
    rcases hj with hj | rfl
    · exact loopWrites j hj
    · omega
  refine ⟨d.key.length, bound, ?_⟩
  rcases handleQuery_cursor checkDAP lookup rcvend rcv o with same | same | same <;>
    rw [same, ended]
  · refine ⟨by simp; omega, by simpa using reads_to 0, by simpa using loopWrites⟩
  · refine ⟨by simp; omega, by simpa using reads_to 0, termWrites⟩
  · refine ⟨by simp; omega, ?_, by simpa using termWrites⟩
    simpa [List.range'_succ, List.append_assoc] using reads_to 4

/-- `HandleQuery` keeps what its QNAME loop read and wrote. -/
theorem handleQuery_extends (checkDAP : List UInt8 → Bool)
    (lookup : Question → Output → UInt16 × Output) (rcvend rcv : Nat) (o : Output) :
    (decodeLabels o.buf MAX_DOM (Cursor.start rcv)).cursor.reads <+:
        (handleQuery checkDAP lookup rcvend rcv o).2.1.reads ∧
      (decodeLabels o.buf MAX_DOM (Cursor.start rcv)).cursor.keyWrites <+:
        (handleQuery checkDAP lookup rcvend rcv o).2.1.keyWrites := by
  rcases handleQuery_cursor checkDAP lookup rcvend rcv o with same | same | same <;> rw [same]
  · exact ⟨List.prefix_refl _, List.prefix_refl _⟩
  · exact ⟨List.prefix_refl _, List.prefix_append _ _⟩
  · simp only [Cursor.advance_reads, Cursor.terminate_reads, Cursor.advance_keyWrites,
      Cursor.terminate_keyWrites, List.append_assoc]
    exact ⟨List.prefix_append _ _, List.prefix_append _ _⟩

/-- A question for the root name, whose QNAME is the zero byte alone, writes `key[-1]`:
`key_end` has not moved from `key` when `*--key_end = 0` runs. -/
theorem handleQuery_root (checkDAP : List UInt8 → Bool)
    (lookup : Question → Output → UInt16 × Output) (rcvend rcv : Nat) (o : Output)
    (root : o.buf rcv = 0) :
    (-1 : Int) ∈ (handleQuery checkDAP lookup rcvend rcv o).2.1.keyWrites := by
  have decoded := @decodeLabels_zero o.buf MAX_DOM (Cursor.start rcv) root
  unfold handleQuery
  rw [decoded]
  dsimp only
  split
  · simp [Cursor.start]
  · split <;> simp [Cursor.start]

/-- A question for the root name that the DAP filter lets through reads QTYPE and QCLASS
from the four bytes after the name. -/
theorem handleQuery_rootName_cursor (checkDAP : List UInt8 → Bool)
    (lookup : Question → Output → UInt16 × Output) (rcvend rcv : Nat) (o : Output)
    (root : o.buf rcv = 0) (passes : checkDAP [] = true) :
    (handleQuery checkDAP lookup rcvend rcv o).2.1 =
      (Cursor.start rcv).advance.terminate.advance.advance.advance.advance := by
  have decoded := @decodeLabels_zero o.buf MAX_DOM (Cursor.start rcv) root
  unfold handleQuery
  rw [decoded]
  dsimp only
  rw [if_neg (by simp [Cursor.start, Cursor.terminate, passes])]
  split <;> rfl

/-- A question for the root name in a class other than `IN`, let through by the DAP filter,
is refused with code `4` after QTYPE and QCLASS are read from the four bytes after the
name. -/
theorem handleQuery_rootName (checkDAP : List UInt8 → Bool)
    (lookup : Question → Output → UInt16 × Output) (rcvend rcv : Nat) (o : Output)
    (root : o.buf rcv = 0) (passes : checkDAP [] = true) (notIN : o.buf.read16 (rcv + 3) ≠ 1) :
    handleQuery checkDAP lookup rcvend rcv o =
      (4, (Cursor.start rcv).advance.terminate.advance.advance.advance.advance, o) := by
  have decoded := @decodeLabels_zero o.buf MAX_DOM (Cursor.start rcv) root
  unfold handleQuery
  rw [decoded]
  simp [Cursor.start, Cursor.terminate, Cursor.advance, passes, notIN]

end MFCoin.Dns
