/-
Module: MFCoin.Script.NameRoundTrip
Purpose: `DecodeNameScript` reads back every name prefix `createNameScript` writes
  (src/src/namecoin.cpp, src/src/script/script.cpp): the operation, the name, the value put
  back together from its 520-byte chunks and the rental days, with the iterator at the first
  byte of the destination behind the prefix, so that `RemoveNameScriptPrefix` returns the
  destination. On the way: `GetOp` reads a push back as `CScript::operator<<` wrote it,
  `CScriptNum` reads back the serialization of a non-negative `int`, and a script written
  instruction by instruction reads back instruction by instruction.
Trusted boundary: none
Main exports: pushOpcode, getOp_sized, getOp_pushData, scriptNumDecode_serialize, Instr, readOps_flatMap,
  checkNameValues_eq_empty, valueChunks, endMarkers, nameOpcode, createdInfo,
  decodeNameScript_createNameScript
-/
import MFCoin.Script.Prefix
import MFCoin.Script.NameScript
import MFCoin.Primitives.Serialize
import Mathlib.Data.Nat.Bitwise

namespace MFCoin.Script

open MFCoin.Serialize (readLE_writeLE length_writeLE)

/-! ### Pushes as `GetOp` reads them -/

/-- The opcode `CScript::operator<<(vector)` chooses for a push of these bytes. -/
def pushOpcode (b : List UInt8) : UInt8 :=
  if b.length < OP_PUSHDATA1.toNat then b.length.toUInt8
  else if b.length ≤ 0xff then OP_PUSHDATA1
  else if b.length ≤ 0xffff then OP_PUSHDATA2
  else OP_PUSHDATA4

theorem pushOpcode_le (b : List UInt8) : pushOpcode b ≤ OP_PUSHDATA4 := by
  unfold pushOpcode
  split_ifs with short
  · rw [UInt8.le_iff_toNat_le]
    simp only [Nat.toUInt8_eq, UInt8.toNat_ofNat', OP_PUSHDATA4, OP_PUSHDATA1] at short ⊢
    simp only [UInt8.reduceToNat] at short ⊢
    omega
  all_goals decide

/-- A push is neither a delimiter nor above the pushes, as the name and rental-days reads
require. -/
theorem pushOpcode_not_delimiter (b : List UInt8) :
    ¬ ((pushOpcode b = OP_DROP ∨ pushOpcode b = OP_2DROP) ∨ OP_PUSHDATA4 < pushOpcode b) := by
  have push := pushOpcode_le b
  rintro ((same | same) | above)
  · rw [same] at push
    revert push
    decide
  · rw [same] at push
    revert push
    decide
  · exact UInt8.not_lt.mpr push above

theorem length_sized (opcode : UInt8) (field data rest : List UInt8) :
    (opcode :: field ++ data ++ rest).length = 1 + field.length + data.length + rest.length := by
  simp only [List.length_append, List.length_cons]
  omega

/-- The size field of a push is the field behind the opcode. -/
theorem field_of_sized {opcode : UInt8} (field data rest : List UInt8) {width : Nat}
    (width_eq : field.length = width) : ((opcode :: field ++ data ++ rest).drop 1).take width = field := by
  rw [← width_eq, List.cons_append, List.cons_append, List.drop_one, List.tail_cons, List.append_assoc,
    List.take_left]

/-- `GetOp` at a push: the opcode, the size field, and the bytes the field counts, whatever
follows them. -/
theorem getOp_sized {opcode : UInt8} (field data rest : List UInt8)
    (push : opcode ≤ OP_PUSHDATA4)
    (sized : pushSize (opcode :: field ++ data ++ rest) opcode 1 = some (data.length, 1 + field.length)) :
    getOp (opcode :: field ++ data ++ rest) 0 = ⟨true, (opcode :: field ++ data).length, opcode, data⟩ := by
  have first : (opcode :: field ++ data ++ rest)[0]? = some opcode := rfl
  have fits : ¬ (opcode :: field ++ data ++ rest).length - (1 + field.length) < data.length := by
    rw [length_sized]
    omega
  -- the data starts behind the opcode and the field
  have taken : ((opcode :: field ++ data ++ rest).drop (1 + field.length)).take data.length = data := by
    rw [← List.drop_drop, List.cons_append, List.cons_append, List.drop_one, List.tail_cons,
      List.append_assoc, List.drop_left, List.take_left]
  have pc : 1 + field.length + data.length = (opcode :: field ++ data).length := by
    simp only [List.length_append, List.length_cons]
    omega
  rw [getOp, first]
  simp only [if_pos push, sized, if_neg fits, taken, pc]

/-- `GetOp` reads a push back as written, whatever follows it, as long as its size fits the
size field. -/
theorem getOp_pushData {b : List UInt8} (fits : b.length < 2 ^ 32) (rest : Script) :
    getOp (pushData b ++ rest) 0 = ⟨true, (pushData b).length, pushOpcode b, b⟩ := by
  have code : OP_PUSHDATA1.toNat = 0x4c := rfl
  unfold pushData pushOpcode
  rw [code]
  by_cases short : b.length < 0x4c
  · -- the opcode is the size
    have size : b.length.toUInt8.toNat = b.length := by
      simp only [Nat.toUInt8_eq, UInt8.toNat_ofNat']
      omega
    have small : b.length.toUInt8 ≤ OP_PUSHDATA4 := by
      rw [UInt8.le_iff_toNat_le, size]
      exact Nat.le_of_lt_succ (Nat.lt_trans short (by decide))
    have below : b.length.toUInt8 < OP_PUSHDATA1 := by
      rw [UInt8.lt_iff_toNat_lt, size, code]
      exact short
    simp only [if_pos short]
    exact getOp_sized [] b rest small (by rw [pushSize, if_pos below, size]; rfl)
  by_cases oneByte : b.length ≤ 0xff
  · have size : b.length.toUInt8.toNat = b.length := by
      simp only [Nat.toUInt8_eq, UInt8.toNat_ofNat']
      omega
    have sized : pushSize (OP_PUSHDATA1 :: [b.length.toUInt8] ++ b ++ rest) OP_PUSHDATA1 1 =
        some (b.length, 1 + 1) := by
      rw [pushSize, if_neg (by decide), if_pos rfl, if_neg (by rw [length_sized]; omega),
        field_of_sized [b.length.toUInt8] b rest (show [b.length.toUInt8].length = 1 from rfl)]
      simp only [readLE, size, Nat.mul_zero, Nat.add_zero]
    simp only [if_neg short, if_pos oneByte]
    exact getOp_sized [b.length.toUInt8] b rest (by decide) sized
  by_cases twoBytes : b.length ≤ 0xffff
  · have sized : pushSize (OP_PUSHDATA2 :: writeLE 2 b.length ++ b ++ rest) OP_PUSHDATA2 1 =
        some (b.length, 1 + (writeLE 2 b.length).length) := by
      rw [pushSize, if_neg (by decide), if_neg (by decide), if_pos rfl,
        if_neg (by rw [length_sized, length_writeLE]; omega), field_of_sized _ b rest (length_writeLE 2 _),
        readLE_writeLE, Nat.mod_eq_of_lt (show b.length < 256 ^ 2 by omega), length_writeLE]
    simp only [if_neg short, if_neg oneByte, if_pos twoBytes]
    exact getOp_sized _ b rest (by decide) sized
  · have sized : pushSize (OP_PUSHDATA4 :: writeLE 4 b.length ++ b ++ rest) OP_PUSHDATA4 1 =
        some (b.length, 1 + (writeLE 4 b.length).length) := by
      rw [pushSize, if_neg (by decide), if_neg (by decide), if_neg (by decide),
        if_neg (by rw [length_sized, length_writeLE]; omega), field_of_sized _ b rest (length_writeLE 4 _),
        readLE_writeLE, Nat.mod_eq_of_lt (show b.length < 256 ^ 4 by omega), length_writeLE]
    simp only [if_neg short, if_neg oneByte, if_neg twoBytes]
    exact getOp_sized _ b rest (by decide) sized

/-! ### `CScriptNum` on non-negative numbers -/

theorem readLE_append_zero (vch : List UInt8) : readLE (vch ++ [0]) = readLE vch := by
  induction vch with
  | nil => simp [readLE]
  | cons b rest ih => simp [readLE, ih]

/-- The bytes of `leBytes` read back the magnitude they were written from. -/
theorem readLE_leBytes : ∀ {width n : Nat}, n < 256 ^ width → readLE (leBytes width n) = n
  | 0, n, fits => by simp at fits; simp [leBytes, readLE, fits]
  | width + 1, n, fits => by
    unfold leBytes
    split_ifs with zero
    · simp [readLE, zero]
    · have : n / 256 < 256 ^ width := by rw [Nat.pow_succ] at fits; omega
      simp only [readLE, readLE_leBytes this, Nat.toUInt8_eq, UInt8.toNat_ofNat']
      omega

/-- A magnitude below `256 ^ k` takes at most `k` bytes. -/
theorem length_leBytes_le : ∀ {width n k : Nat}, n < 256 ^ k → (leBytes width n).length ≤ k
  | 0, _, _, _ => by simp [leBytes]
  | width + 1, n, k, fits => by
    unfold leBytes
    split_ifs with zero
    · simp
    · cases k with
      | zero => simp at fits; omega
      | succ k =>
        have : n / 256 < 256 ^ k := by rw [Nat.pow_succ] at fits; omega
        simp only [List.length_cons, Nat.add_le_add_iff_right]
        exact length_leBytes_le this

theorem length_leBytes_le_width : ∀ (width n : Nat), (leBytes width n).length ≤ width
  | 0, _ => by simp [leBytes]
  | width + 1, n => by
    unfold leBytes
    split_ifs
    · simp
    · simpa using length_leBytes_le_width width (n / 256)

/-- The last byte of `leBytes` weighs `256 ^ (length - 1)` in the magnitude. -/
theorem getLast_leBytes : ∀ {width n : Nat} {last : UInt8},
    (leBytes width n).getLast? = some last →
      256 ^ ((leBytes width n).length - 1) * last.toNat ≤ n
  | 0, _, _, h => by simp [leBytes] at h
  | width + 1, n, last, h => by
    unfold leBytes at h ⊢
    split_ifs at h ⊢ with zero
    · simp at h
    · cases rest : leBytes width (n / 256) with
      | nil =>
        rw [rest] at h
        simp only [List.getLast?_singleton, Option.some.injEq] at h
        subst h
        simp only [List.length_cons, List.length_nil, Nat.sub_self, Nat.pow_zero, Nat.one_mul,
          Nat.toUInt8_eq, UInt8.toNat_ofNat']
        omega
      | cons b bs =>
        rw [rest] at h
        have inner := @getLast_leBytes width (n / 256) last
          (by rw [rest]; simpa [List.getLast?_cons_cons] using h)
        rw [rest] at inner
        simp only [List.length_cons, Nat.add_sub_cancel] at inner ⊢
        calc 256 ^ (bs.length + 1) * last.toNat
            = 256 * (256 ^ bs.length * last.toNat) := by ring
          _ ≤ 256 * (n / 256) := Nat.mul_le_mul_left _ inner
          _ ≤ n := Nat.mul_div_le n 256

theorem le_toNat_of_topBit {last : UInt8} (set : last &&& 0x80 ≠ 0) : 128 ≤ last.toNat := by
  by_contra low
  apply set
  apply UInt8.toNat_inj.mp
  rw [UInt8.toNat_and, show (0x80 : UInt8).toNat = 2 ^ 7 from rfl, Nat.and_two_pow,
    Nat.testBit_lt_two_pow (by omega)]
  rfl

/-- A serialized number takes at most nine bytes: eight of magnitude and a sign byte. -/
theorem length_scriptNumSerialize_le (value : Int) : (scriptNumSerialize value).length ≤ 9 := by
  have := length_leBytes_le_width 8 value.natAbs
  unfold scriptNumSerialize
  dsimp only
  cases last? : (leBytes 8 value.natAbs).getLast? with
  | none => simp
  | some last =>
    simp only
    split_ifs <;> simp <;> omega

/-- `CScriptNum` reads back the serialization of a non-negative `int`: in at most four
bytes, with the sign byte only where the top bit of the magnitude is taken. -/
theorem scriptNumDecode_serialize {value : Int} (nonneg : 0 ≤ value) (fits : value < 2 ^ 31) :
    scriptNumDecode (scriptNumSerialize value) = .ok value := by
  obtain ⟨n, rfl⟩ := Int.eq_ofNat_of_zero_le nonneg
  have small : n < 2 ^ 31 := by exact_mod_cast fits
  have readBack := @readLE_leBytes 8 n (by omega)
  have clamp : getint (n : Int) = n := by unfold getint; split_ifs <;> omega
  cases last? : (leBytes 8 n).getLast? with
  | none =>
    have empty : leBytes 8 n = [] := List.getLast?_eq_none_iff.mp last?
    obtain rfl : n = 0 := by simpa [empty, readLE] using readBack.symm
    rfl
  | some last =>
    have weight := getLast_leBytes last?
    have serialized : scriptNumSerialize n =
        if last &&& 0x80 ≠ 0 then leBytes 8 n ++ [0] else leBytes 8 n := by
      have positive : ¬ (n : Int) < 0 := by omega
      simp [scriptNumSerialize, last?, positive]
    by_cases top : last &&& 0x80 ≠ 0
    · -- a sign byte is added: the magnitude took at most three bytes
      have high := le_toNat_of_topBit top
      have three : (leBytes 8 n).length ≤ 3 := by
        by_contra more
        have : 256 ^ 3 ≤ 256 ^ ((leBytes 8 n).length - 1) :=
          Nat.pow_le_pow_right (by norm_num) (by omega)
        have : 256 ^ 3 * 128 ≤ n :=
          le_trans (Nat.mul_le_mul this high) weight
        omega
      rw [serialized, if_pos top]
      simp [scriptNumDecode, setVch, readLE_append_zero, readBack, clamp]
      omega
    · have four : (leBytes 8 n).length ≤ 4 := length_leBytes_le (k := 4) (by omega)
      rw [serialized, if_neg top]
      simp only [not_not] at top
      simp [scriptNumDecode, setVch, last?, top, readBack, clamp]
      omega

/-! ### Scripts written instruction by instruction -/

/-- One instruction as `CScript::operator<<` writes it: a push of bytes, or an opcode that
carries none. -/
inductive Instr where
  | push (b : List UInt8)
  | op (opcode : UInt8)

namespace Instr

/-- The bytes `CScript::operator<<` appends. -/
def encode : Instr → Script
  | push b => pushData b
  | op opcode => [opcode]

/-- What `GetOp` reads back: the opcode and the pushed bytes. -/
def read : Instr → UInt8 × List UInt8
  | push b => (pushOpcode b, b)
  | op opcode => (opcode, [])

/-- The instructions `GetOp` reads back as written: pushes whose size fits the size field,
and opcodes above the pushes. -/
def Readable : Instr → Prop
  | push b => b.length < 2 ^ 32
  | op opcode => OP_PUSHDATA4 < opcode

theorem encode_length_pos : ∀ i : Instr, 0 < i.encode.length
  | push b => by simp [encode, pushData]; split_ifs <;> simp
  | op _ => by simp [encode]

/-- `GetOp` at an instruction's first byte reads the instruction, whatever stands around it. -/
theorem getOp_encode {i : Instr} (readable : i.Readable) (A rest : Script) :
    getOp (A ++ (i.encode ++ rest)) A.length =
      ⟨true, A.length + i.encode.length, i.read.1, i.read.2⟩ := by
  rw [← Nat.add_zero A.length, getOp_append_right]
  cases i with
  | push b => simp [encode, read, getOp_pushData readable]
  | op opcode =>
    have above : ¬ opcode ≤ OP_PUSHDATA4 := by simpa [Readable] using readable
    simp [encode, read, getOp, above]

end Instr

/-- `GetOp` reads a stream of readable instructions back one by one to its end. -/
theorem readOps_flatMap : ∀ {is : List Instr}, (∀ i ∈ is, i.Readable) → ∀ (A : Script) {fuel : Nat},
    is.length ≤ fuel → readOps (A ++ is.flatMap Instr.encode) fuel A.length = some (is.map Instr.read)
  | [], _, A, fuel, _ => by cases fuel <;> simp [readOps]
  | i :: is, readable, A, fuel + 1, enough => by
    have first := Instr.getOp_encode (readable i (by simp)) A (is.flatMap Instr.encode)
    have rest := @readOps_flatMap is (fun j mem => readable j (by simp [mem]))
      (A ++ i.encode) fuel (by simp at enough; omega)
    simp only [List.flatMap_cons, List.append_assoc, List.length_append] at rest ⊢
    have inside : A.length < (A ++ (i.encode ++ is.flatMap Instr.encode)).length := by
      have := i.encode_length_pos
      simp only [List.length_append]
      omega
    rw [readOps, if_pos inside]
    simp [first, rest]


/-- A push read where it stands, the position given as the length of what precedes it. -/
theorem getOp_push {b : List UInt8} (fits : b.length < 2 ^ 32) (A rest : Script) (pc : Nat)
    (at_ : pc = A.length) :
    getOp (A ++ (pushData b ++ rest)) pc = ⟨true, pc + (pushData b).length, pushOpcode b, b⟩ := by
  subst at_
  exact Instr.getOp_encode (i := .push b) fits A rest

/-- An opcode above the pushes read where it stands. -/
theorem getOp_opcode {opcode : UInt8} (above : OP_PUSHDATA4 < opcode) (A rest : Script) (pc : Nat)
    (at_ : pc = A.length) :
    getOp (A ++ (opcode :: rest)) pc = ⟨true, pc + 1, opcode, []⟩ := by
  subst at_
  exact Instr.getOp_encode (i := .op opcode) above A rest

/-! ### The prefix `createNameScript` writes -/

/-- `checkNameValues` has no complaint exactly when each of its five tests passes. -/
theorem checkNameValues_eq_empty {info : NameScriptInfo} :
    checkNameValues info = "" ↔
      info.name.length ≤ MAX_NAME_LENGTH ∧ info.value.length ≤ MAX_VALUE_LENGTH ∧
      ¬ (info.op = .new ∧ info.nRentalDays < 1) ∧ ¬ (info.op = .update ∧ info.nRentalDays < 0) ∧
      info.nRentalDays ≤ MAX_RENTAL_DAYS := by
  unfold checkNameValues
  simp [String.append_eq_empty_iff, and_assoc]

/-- `createNameScript`'s slices of the value, 520 bytes each but the last. -/
def valueChunks (value : List UInt8) : List (List UInt8) :=
  (List.range ((value.length + 519) / 520)).map fun i => (value.drop (i * 520)).take 520

/-- `createNameScript`'s end markers after `nChunks` pushes. -/
def endMarkers (nChunks : Nat) : List UInt8 :=
  List.replicate (nChunks / 2) OP_2DROP ++ (if nChunks % 2 ≠ 0 then [OP_DROP] else [])

/-- The small integer `nameScript << op` writes. -/
def nameOpcode (op : NameOp) : UInt8 :=
  (OP_1.toNat - 1 + op.code).toUInt8

theorem nameOpcode_small (op : NameOp) : OP_1 ≤ nameOpcode op ∧ nameOpcode op ≤ OP_16 := by
  cases op <;> decide

theorem ofCode_nameOpcode (op : NameOp) :
    NameOp.ofCode ((nameOpcode op).toNat - OP_1.toNat + 1) = some op := by
  cases op <;> rfl

theorem createNameScript_delete {name value : List UInt8} {nRentalDays : Int} {S : Script}
    (created : createNameScript name value nRentalDays .delete = .ok S) :
    S = nameOpcode .delete :: OP_DROP :: (pushData name ++ [OP_DROP]) := by
  simp only [createNameScript, if_true, Except.ok.injEq] at created
  rw [← created]
  rfl

theorem createNameScript_value {name value : List UInt8} {nRentalDays : Int} {op : NameOp}
    {S : Script} (notDelete : op ≠ .delete)
    (created : createNameScript name value nRentalDays op = .ok S) :
    checkNameValues ⟨op, name, value, nRentalDays⟩ = "" ∧
      S = nameOpcode op :: OP_DROP :: (pushData name ++ (pushData (scriptNumSerialize nRentalDays) ++
        (OP_2DROP :: (((valueChunks value).map pushData).flatten ++
          endMarkers (valueChunks value).length)))) := by
  simp only [createNameScript, notDelete, if_false] at created
  have accepted : checkNameValues ⟨op, name, value, nRentalDays⟩ = "" := by
    by_contra complaints
    rw [if_pos complaints] at created
    cases created
  rw [if_neg (not_not.mpr accepted), Except.ok.injEq] at created
  refine ⟨accepted, ?_⟩
  rw [← created]
  simp [valueChunks, endMarkers, nameOpcode]

/-- The slices put back together give the value. -/
theorem flatten_slices : ∀ (n : Nat) (value : List UInt8), value.length ≤ 520 * n →
    ((List.range n).map fun i => (value.drop (i * 520)).take 520).flatten = value
  | 0, value, short => by simp_all
  | n + 1, value, short => by
    rw [List.range_succ_eq_map, List.map_cons, List.map_map, List.flatten_cons]
    have rest := flatten_slices n (value.drop 520) (by simp; omega)
    have shift : ((fun i => (value.drop (i * 520)).take 520) ∘ Nat.succ) =
        fun i => ((value.drop 520).drop (i * 520)).take 520 := by
      funext i
      simp only [Function.comp, List.drop_drop, Nat.succ_mul]
      congr 2
      omega
    rw [shift, rest]
    simp

theorem flatten_valueChunks (value : List UInt8) : (valueChunks value).flatten = value :=
  flatten_slices _ value (by omega)

theorem length_mem_valueChunks {value chunk : List UInt8} (mem : chunk ∈ valueChunks value) :
    chunk.length ≤ 520 := by
  obtain ⟨i, -, rfl⟩ := List.mem_map.mp mem
  simp

theorem valueChunks_ne_nil {value : List UInt8} (given : value ≠ []) : valueChunks value ≠ [] := by
  have : 0 < value.length := List.length_pos_iff.mpr given
  simp [valueChunks]
  omega

/-- Every push takes at least a byte. -/
theorem length_le_length_flatten_pushData (chunks : List (List UInt8)) :
    chunks.length ≤ ((chunks.map pushData).flatten).length := by
  induction chunks with
  | nil => simp
  | cons c chunks ih =>
    have := (Instr.push c).encode_length_pos
    simp only [Instr.encode] at this
    simp only [List.map_cons, List.flatten_cons, List.length_append, List.length_cons]
    omega

/-- The markers drop one item for each chunk pushed. -/
theorem endMarkers_weight (n : Nat) :
    ((endMarkers n).map fun m => if m = OP_2DROP then 2 else 1).sum = n := by
  have distinct : OP_DROP ≠ OP_2DROP := by decide
  unfold endMarkers
  split_ifs with odd <;> simp [distinct] <;> omega

theorem mem_endMarkers {nChunks : Nat} {d : UInt8} (mem : d ∈ endMarkers nChunks) :
    d = OP_DROP ∨ d = OP_2DROP := by
  unfold endMarkers at mem
  rcases List.mem_append.mp mem with twoDrops | drop
  · exact .inr (List.mem_replicate.mp twoDrops).2
  · split_ifs at drop
    · exact .inl (List.mem_singleton.mp drop)
    · cases drop

/-! ### Reading the prefix back -/

/-- The value loop reads a run of pushes up to the delimiter after them. -/
theorem readValue_pushes : ∀ (chunks : List (List UInt8)) (A R : Script) (fuel pc : Nat)
    (value : List UInt8) (valueSize : Nat) {d : UInt8},
    (∀ c ∈ chunks, c.length < 2 ^ 32) → (d = OP_DROP ∨ d = OP_2DROP) → chunks.length < fuel →
    pc = A.length →
    readValue (A ++ ((chunks.map pushData).flatten ++ d :: R)) fuel pc value valueSize =
      .ok (value ++ chunks.flatten, valueSize + chunks.length,
        pc + (chunks.map pushData).flatten.length + 1)
  | _, _, _, 0, _, _, _, _, _, _, enough, _ => absurd enough (Nat.not_lt_zero _)
  | [], A, R, fuel + 1, pc, value, valueSize, d, _, delimiter, _, at_ => by
    have above : OP_PUSHDATA4 < d := by rcases delimiter with rfl | rfl <;> decide
    simp [readValue, readOp, getOp_opcode above A R pc at_, delimiter]
  | c :: chunks, A, R, fuel + 1, pc, value, valueSize, d, fits, delimiter, enough, at_ => by
    have read := getOp_push (fits c (by simp)) A ((chunks.map pushData).flatten ++ d :: R) pc at_
    have rest := readValue_pushes chunks (A ++ pushData c) R fuel
      (pc + (pushData c).length) (value ++ c) (valueSize + 1)
      (fun c' mem => fits c' (by simp [mem])) delimiter (by simp at enough; omega)
      (by simp [at_])
    have push := pushOpcode_le c
    have notDelimiter : ¬ (pushOpcode c = OP_DROP ∨ pushOpcode c = OP_2DROP) := by
      rintro (same | same) <;> rw [same] at push <;> revert push <;> decide
    simp only [List.map_cons, List.flatten_cons, List.append_assoc, List.length_append] at rest ⊢
    rw [readValue]
    have notAbove : ¬ OP_PUSHDATA4 < pushOpcode c := UInt8.not_lt.mpr push
    simp [readOp, read, notDelimiter, notAbove, rest]
    omega

/-- The delimiter loop counts a run of end markers, and stops one opcode after them. -/
theorem readDelimiters_markers : ∀ (markers : List UInt8) (A R : Script) (fuel pc : Nat)
    (delimiterSize : Nat) {stop : UInt8},
    (∀ m ∈ markers, m = OP_DROP ∨ m = OP_2DROP) →
    OP_PUSHDATA4 < stop → stop ≠ OP_DROP → stop ≠ OP_2DROP → markers.length < fuel →
    pc = A.length →
    readDelimiters (A ++ (markers ++ stop :: R)) fuel pc delimiterSize =
      (delimiterSize + (markers.map fun m => if m = OP_2DROP then 2 else 1).sum,
        pc + markers.length + 1)
  | _, _, _, 0, _, _, _, _, _, _, _, enough, _ => absurd enough (Nat.not_lt_zero _)
  | [], A, R, fuel + 1, pc, delimiterSize, stop, _, above, notDrop, not2Drop, _, at_ => by
    simp [readDelimiters, getOp_opcode above A R pc at_, notDrop, not2Drop]
  | m :: markers, A, R, fuel + 1, pc, delimiterSize, stop, delimiters, above, notDrop, not2Drop,
      enough, at_ => by
    have delimiter := delimiters m (by simp)
    have mAbove : OP_PUSHDATA4 < m := by rcases delimiter with rfl | rfl <;> decide
    have read := getOp_opcode mAbove A (markers ++ stop :: R) pc at_
    have rest := readDelimiters_markers markers (A ++ [m]) R fuel (pc + 1)
      (delimiterSize + if m = OP_2DROP then 2 else 1)
      (fun m' mem => delimiters m' (by simp [mem])) above notDrop not2Drop
      (by simp at enough; omega) (by simp [at_])
    simp only [List.append_assoc, List.cons_append, List.nil_append] at rest
    rw [readDelimiters]
    rcases delimiter with rfl | rfl
    · have distinct : OP_DROP ≠ OP_2DROP := by decide
      simp [read, distinct] at rest ⊢
      rw [rest, Prod.mk.injEq]
      omega
    · simp [read] at rest ⊢
      rw [rest, Prod.mk.injEq]
      omega

/-- What `DecodeNameScript` reads back from a prefix `createNameScript` wrote: the fields
of a `name_delete` are its operation and name only. -/
def createdInfo (name value : List UInt8) (nRentalDays : Int) (op : NameOp) : NameScriptInfo :=
  if op = .delete then ⟨op, name, [], -1⟩ else ⟨op, name, value, nRentalDays⟩

/-- `DecodeNameScript` reads back a `name_delete` prefix that `createNameScript` wrote. -/
theorem decodeNameScript_createNameScript_delete {name value : List UInt8} {nRentalDays : Int}
    {S : Script} (nameFits : name.length ≤ MAX_NAME_LENGTH)
    (created : createNameScript name value nRentalDays .delete = .ok S) (D : Script) :
    decodeNameScript (S ++ D) 0 = .ok (⟨.delete, name, [], -1⟩, S.length) := by
  have shape := createNameScript_delete created
  subst shape
  have fits : name.length < 2 ^ 32 := by unfold MAX_NAME_LENGTH at nameFits; omega
  have opcode := nameOpcode_small .delete
  have above : OP_PUSHDATA4 < nameOpcode .delete := by decide
  have dropAbove : OP_PUSHDATA4 < OP_DROP := by decide
  -- the four instructions, read where they stand
  have read0 := getOp_opcode above [] (OP_DROP :: (pushData name ++ OP_DROP :: D)) (0) rfl
  have read1 := getOp_opcode dropAbove [nameOpcode .delete] (pushData name ++ OP_DROP :: D)
    (0 + 1) rfl
  have read2 := getOp_push fits [nameOpcode .delete, OP_DROP] (OP_DROP :: D) (0 + 1 + 1) rfl
  have read3 := getOp_opcode dropAbove (nameOpcode .delete :: OP_DROP :: pushData name) D
    (0 + 1 + 1 + (pushData name).length) (by simp; omega)
  simp only [List.cons_append, List.nil_append] at read0 read1 read2 read3
  simp [-Except.bind_eq_ok, Except.ok_bind, decodeNameScript, readOp, read0, read1, read2, read3,
    ofCode_nameOpcode, pushOpcode_not_delimiter, UInt8.not_lt.mpr opcode.1,
    UInt8.not_lt.mpr opcode.2]
  omega

/-- `DecodeNameScript` reads back a `name_new` or `name_update` prefix that
`createNameScript` wrote, in front of any script whose first opcode ends the delimiters:
the fields come back, and the iterator stops at the first byte after the prefix. -/
theorem decodeNameScript_createNameScript_value {name value : List UInt8} {nRentalDays : Int}
    {op : NameOp} {S : Script} (notDelete : op ≠ .delete) (valueGiven : value ≠ [])
    (created : createNameScript name value nRentalDays op = .ok S) {first : UInt8}
    (rest : Script) (firstAbove : OP_PUSHDATA4 < first) (notDrop : first ≠ OP_DROP)
    (not2Drop : first ≠ OP_2DROP) :
    decodeNameScript (S ++ first :: rest) 0 = .ok (⟨op, name, value, nRentalDays⟩, S.length) := by
  obtain ⟨accepted, shape⟩ := createNameScript_value notDelete created
  obtain ⟨nameFits, -, notNew, notUpdate, daysFit⟩ := checkNameValues_eq_empty.mp accepted
  have opcode := nameOpcode_small op
  have opAbove : OP_PUSHDATA4 < nameOpcode op := by cases op <;> decide
  have dropAbove : OP_PUSHDATA4 < OP_DROP := by decide
  have twoDropAbove : OP_PUSHDATA4 < OP_2DROP := by decide
  have nameShort : name.length < 2 ^ 32 := by simp only [MAX_NAME_LENGTH] at nameFits; omega
  have daysShort : (scriptNumSerialize nRentalDays).length < 2 ^ 32 := by
    have := length_scriptNumSerialize_le nRentalDays
    omega
  -- the rental days come back: they are non-negative and below 2^31
  have decoded : scriptNumDecode (scriptNumSerialize nRentalDays) = .ok nRentalDays := by
    simp only [MAX_RENTAL_DAYS] at daysFit
    apply scriptNumDecode_serialize _ (by omega)
    cases op with
    | new =>
      simp only [true_and, not_lt] at notNew
      omega
    | update =>
      simp only [true_and, not_lt] at notUpdate
      omega
    | delete => exact absurd rfl notDelete
  -- the value's chunks, and the markers after them
  have chunksShort : ∀ c ∈ valueChunks value, c.length < 2 ^ 32 :=
    fun c mem => by have := length_mem_valueChunks mem; omega
  obtain ⟨m, ms, markers⟩ : ∃ m ms, endMarkers (valueChunks value).length = m :: ms := by
    have : 0 < (valueChunks value).length :=
      List.length_pos_iff.mpr (valueChunks_ne_nil valueGiven)
    unfold endMarkers
    cases half : (valueChunks value).length / 2 with
    | zero => exact ⟨OP_DROP, [], by simp; omega⟩
    | succ k => exact ⟨OP_2DROP, _, by rw [List.replicate_succ, List.cons_append]⟩
  have delimiters : ∀ d ∈ m :: ms, d = OP_DROP ∨ d = OP_2DROP :=
    fun d mem => mem_endMarkers (markers ▸ mem)
  have weight := endMarkers_weight (valueChunks value).length
  rw [markers] at weight
  have fewChunks : (valueChunks value).length ≤ ((valueChunks value).map pushData).flatten.length :=
    length_le_length_flatten_pushData (valueChunks value)
  -- each instruction, read where it stands
  have read0 := getOp_opcode opAbove [] (OP_DROP :: ((pushData name) ++ ((pushData (scriptNumSerialize nRentalDays)) ++ OP_2DROP ::
    (((valueChunks value).map pushData).flatten ++ m :: (ms ++ first :: rest))))) (0) rfl
  have read1 := getOp_opcode dropAbove [nameOpcode op] ((pushData name) ++ ((pushData (scriptNumSerialize nRentalDays)) ++ OP_2DROP ::
    (((valueChunks value).map pushData).flatten ++ m :: (ms ++ first :: rest)))) (0 + 1) rfl
  have read2 := getOp_push nameShort [nameOpcode op, OP_DROP] ((pushData (scriptNumSerialize nRentalDays)) ++ OP_2DROP ::
    (((valueChunks value).map pushData).flatten ++ m :: (ms ++ first :: rest))) (0 + 1 + 1) rfl
  have read3 := getOp_push daysShort (nameOpcode op :: OP_DROP :: (pushData name)) (OP_2DROP ::
    (((valueChunks value).map pushData).flatten ++ m :: (ms ++ first :: rest))) (0 + 1 + 1 + (pushData name).length) (by simp; omega)
  have read4 := getOp_opcode twoDropAbove (nameOpcode op :: OP_DROP :: ((pushData name) ++ (pushData (scriptNumSerialize nRentalDays))))
    (((valueChunks value).map pushData).flatten ++ m :: (ms ++ first :: rest)) (0 + 1 + 1 + (pushData name).length + (pushData (scriptNumSerialize nRentalDays)).length)
    (by simp; omega)
  have values := readValue_pushes (valueChunks value)
    (nameOpcode op :: OP_DROP :: ((pushData name) ++ ((pushData (scriptNumSerialize nRentalDays)) ++ [OP_2DROP]))) (ms ++ first :: rest)
    ((nameOpcode op :: OP_DROP :: ((pushData name) ++ ((pushData (scriptNumSerialize nRentalDays)) ++ OP_2DROP ::
      (((valueChunks value).map pushData).flatten ++ m :: (ms ++ first :: rest))))).length)
    (0 + 1 + 1 + (pushData name).length + (pushData (scriptNumSerialize nRentalDays)).length + 1) [] 0 chunksShort
    (delimiters m (by simp)) (by simp only [List.length_cons, List.length_append]; omega)
    (by simp only [List.length_cons, List.length_append, List.length_nil]; omega)
  have delims := readDelimiters_markers (m :: ms)
    (nameOpcode op :: OP_DROP :: ((pushData name) ++ ((pushData (scriptNumSerialize nRentalDays)) ++ OP_2DROP :: ((valueChunks value).map pushData).flatten))) rest
    ((nameOpcode op :: OP_DROP :: ((pushData name) ++ ((pushData (scriptNumSerialize nRentalDays)) ++ OP_2DROP ::
      (((valueChunks value).map pushData).flatten ++ m :: (ms ++ first :: rest))))).length)
    (0 + 1 + 1 + (pushData name).length + (pushData (scriptNumSerialize nRentalDays)).length + 1 + ((valueChunks value).map pushData).flatten.length + 1 - 1) 0 delimiters
    firstAbove notDrop not2Drop (by simp only [List.length_cons, List.length_append]; omega) (by simp only [List.length_cons, List.length_append]; omega)
  simp only [List.cons_append, List.nil_append, List.append_assoc] at read0 read1 read2 read3 read4 values delims
  simp at values delims
  simp only [List.map_cons, List.sum_cons] at weight
  rw [shape, markers]
  simp only [List.cons_append, List.append_assoc]
  simp [-Except.bind_eq_ok, Except.ok_bind, Except.mapError, decodeNameScript, readOp, read0, read1, read2, read3,
    read4, values, delims, ofCode_nameOpcode, pushOpcode_not_delimiter, decoded, notDelete,
    UInt8.not_lt.mpr opcode.1, UInt8.not_lt.mpr opcode.2, weight, flatten_valueChunks, accepted]
  omega

/-- A name prefix written by `createNameScript` in front of a destination script reads
back: `DecodeNameScript` returns the operation and name, for `name_new` and `name_update`
also the value and the rental days, and leaves the iterator at the destination's first
byte, so `RemoveNameScriptPrefix` returns the destination. -/
theorem decodeNameScript_createNameScript {name value : List UInt8} {nRentalDays : Int}
    {op : NameOp} {S : Script} (nameFits : name.length ≤ MAX_NAME_LENGTH)
    (valueGiven : op ≠ .delete → value ≠ [])
    (created : createNameScript name value nRentalDays op = .ok S) {dest : TxDestination}
    (paid : dest ≠ .noDestination) :
    decodeNameScript (S ++ getScriptForDestination dest) 0 =
        .ok (createdInfo name value nRentalDays op, S.length) ∧
      removeNameScriptPrefix (S ++ getScriptForDestination dest) =
        .ok (getScriptForDestination dest) := by
  have decoded : decodeNameScript (S ++ getScriptForDestination dest) 0 =
      .ok (createdInfo name value nRentalDays op, S.length) := by
    by_cases delete : op = .delete
    · subst delete
      exact decodeNameScript_createNameScript_delete nameFits created _
    -- both destinations open with an opcode that ends the delimiters
    obtain ⟨first, rest, opens, above, notDrop, not2Drop⟩ : ∃ first rest,
        getScriptForDestination dest = first :: rest ∧ OP_PUSHDATA4 < first ∧
          first ≠ OP_DROP ∧ first ≠ OP_2DROP := by
      cases dest with
      | noDestination => exact absurd rfl paid
      | keyId keyId => exact ⟨OP_DUP, _, rfl, by decide, by decide, by decide⟩
      | scriptId scriptId => exact ⟨OP_HASH160, _, rfl, by decide, by decide, by decide⟩
    rw [opens, createdInfo, if_neg delete]
    exact decodeNameScript_createNameScript_value delete (valueGiven delete) created rest above
      notDrop not2Drop
  refine ⟨decoded, ?_⟩
  simp [removeNameScriptPrefix, decoded]

theorem decodeNameScript_createNameScript_sample :
    decodeNameScript ([0x51, 0x75, 0x01, 0x61, 0x01, 0x01, 0x6d, 0x01, 0x62, 0x75] ++
        getScriptForDestination (.keyId (List.replicate 20 7))) 0 =
        .ok (createdInfo [0x61] [0x62] 1 .new, 10) ∧
      removeNameScriptPrefix ([0x51, 0x75, 0x01, 0x61, 0x01, 0x01, 0x6d, 0x01, 0x62, 0x75] ++
        getScriptForDestination (.keyId (List.replicate 20 7))) =
        .ok (getScriptForDestination (.keyId (List.replicate 20 7))) :=
  decodeNameScript_createNameScript (by decide) (fun _ => by decide) (by decide) (by decide)

end MFCoin.Script
