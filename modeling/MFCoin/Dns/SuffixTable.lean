/-
Module: MFCoin.Dns.SuffixTable
Purpose: The hash table `m_ht_offset` of src/src/mfcdns.cpp for the allowed TLD-suffixes:
  the constructor's backwards scan over `allowed_suff`, which cuts the list in place and
  inserts each suffix by double hashing into 256 `int16_t` slots, and the probe of
  `HandleQuery` that looks a suffix up. A slot holds the suffix's offset in the list, with
  `ENUM_FLAG` or-ed in for a `$` suffix, and the probe masks the flag off again: an offset
  that has that bit of its own reads back as another offset.
Trusted boundary: none; the local names that share the table, with `LocalSearch`, are
  not modelled.
Main exports: ENUM_FLAG, Hash, Hash.push, Hash.pushAll, Table, findFree, AllowedFill,
  fillStep, fillAllowed, allowedTable, strEq, Probe, probeTld, lookupTld,
  fillAllowed_separators, fillAllowed_hashed, lookupTld_of_allowedTable, probe_reaches,
  findFree_isSome, fillStep_isSome, fillStep_frame, fillAllowed_isSome, allowedTable_isSome
-/
import MFCoin.Dns.Buffer

namespace MFCoin.Dns

/-- `ENUM_FLAG`: the bit of a slot that marks an ENUM suffix. -/
def ENUM_FLAG : Int16 := 16384

/-- The double-hash state `pos`, `step` of the constructor and of `HandleQuery`. -/
structure Hash where
  pos : UInt8
  step : UInt8
deriving DecidableEq, Repr

/-- One byte into the hash: `pos = ((pos >> 7) | (pos << 1)) + c` and
`step = ((step << 5) - step) ^ c`. The constructor reads `c` as a signed `char`, but the
sum and the xor are cut to 8 bits, so they are those of the byte. -/
def Hash.push (h : Hash) (c : UInt8) : Hash :=
  ⟨((h.pos >>> 7) ||| (h.pos <<< 1)) + c, ((h.step <<< 5) - h.step) ^^^ c⟩

/-- Bytes into the hash from the last back to the first, as both loops read them. -/
def Hash.pushAll (h : Hash) (bytes : List UInt8) : Hash := bytes.foldr (fun c h => h.push c) h

/-- The hash of a suffix, as the probe of `HandleQuery` computes it. -/
def Hash.ofSuffix (s : List UInt8) : Hash := Hash.pushAll ⟨0, 0⟩ s

/-- `int16_t m_ht_offset[0x100]`, cleared by the constructor's `memset`. -/
abbrev Table := UInt8 → Int16

/-- A slot written. -/
def Table.set (t : Table) (pos : UInt8) (v : Int16) : Table := fun i => if i = pos then v else t i

/-- `do pos += step; while(m_ht_offset[pos] != 0);`: the free slot an insertion takes, within
`fuel` probes; `none` where the source would go on probing for ever. -/
def findFree (t : Table) (step : UInt8) : Nat → UInt8 → Option UInt8
  | 0, _ => none
  | fuel + 1, pos =>
    if t (pos + step) = 0 then some (pos + step) else findFree t step fuel (pos + step)

/-- `c <= 040` on a signed `char`: a control byte, a blank, or a byte of 128 up. -/
def isCut (c : UInt8) : Bool := c ≤ 32 || 128 ≤ c

/-- A byte the constructor's loop only hashes: no bar, cut byte, dot or dollar. -/
def hashedByte (c : UInt8) : Bool := !(c = 124 || isCut c) && c != 46 && c != 36

/-- The digits that stand right before offset `p`, in order: the `pp` loop before `atoi`. -/
def digitRun (buf : Memory) : Nat → List UInt8
  | 0 => []
  | i + 1 => if 48 ≤ buf i && buf i ≤ 57 then digitRun buf i ++ [buf i] else []

/-- `atoi` of a run of digits, stored into a `char`. -/
def atoiByte (digits : List UInt8) : UInt8 :=
  UInt8.ofNat (digits.foldl (fun n d => 10 * n + (d.toNat - 48)) 0)

/-- The state of the constructor's loop over `allowed_suff`: the list as it is cut in place
(`m_allowed_base` on), the table, the hash of the suffix read so far and `m_allowed_qty`. -/
structure AllowedFill where
  buf : Memory
  table : Table
  hash : Hash
  qty : UInt8

/-- The loop's body at `p`, the byte `*--p`. A `'|'` or a cut byte ends a suffix; a `'.'` or
a `'$'` inserts the suffix after it when that suffix is not empty, at the offset `p + 1`
cut to an `int16_t`, and a `'$'` also sets `ENUM_FLAG` and puts the digits before it, read
by `atoi`, in its place; any other byte goes into the hash. -/
def fillStep (p : Nat) (s : AllowedFill) : Option AllowedFill :=
  let c := s.buf p
  if c = 124 || isCut c then
    some { s with buf := s.buf.set p 0, hash := ⟨0, 0⟩ }
  else if c = 46 || c = 36 then
    let buf := s.buf.set p 64
    -- `p[1] > 040`: the suffix after the dot is not empty
    if isCut (buf (p + 1)) then
      some { s with buf, hash := ⟨0, 0⟩ }
    else do
      let slot ← findFree s.table (s.hash.step ||| 1) 256 s.hash.pos
      let off : Int16 := Int16.ofNat (p + 1)
      if c = 36 then
        let digits := digitRun buf p
        some ⟨if digits = [] then buf else buf.set p (atoiByte digits),
          s.table.set slot (off ||| ENUM_FLAG), ⟨0, 0⟩, s.qty + 1⟩
      else
        some ⟨buf, s.table.set slot off, ⟨0, 0⟩, s.qty + 1⟩
  else
    some { s with hash := s.hash.push c }

/-- `for(char *p = m_allowed_base + allowed_len; p > m_allowed_base; )`: the bytes below
`p`, from the last down. -/
def fillAllowed : Nat → AllowedFill → Option AllowedFill
  | 0, s => some s
  | p + 1, s => fillStep p s >>= fillAllowed p

/-- A C string at the start of memory: its bytes, then zeros. -/
def cString (s : List UInt8) : Memory := fun i => s.getD i 0

/-- The constructor over `allowed_suff`: `strcpy` into `m_allowed_base`, a cleared table, and
the loop; `none` where an insertion never ends. -/
def allowedTable (allowedSuff : List UInt8) : Option AllowedFill :=
  fillAllowed allowedSuff.length ⟨cString allowedSuff, fun _ => 0, ⟨0, 0⟩, 0⟩

/-- `strcmp(key, m_allowed_base + off) == 0`, for a key with no zero byte. -/
def strEq (buf : Memory) (off : Nat) : List UInt8 → Bool
  | [] => buf off = 0
  | c :: key => buf off = c && strEq buf (off + 1) key

/-- What the probe of `HandleQuery` ends in. -/
inductive Probe where
  /-- The slot of the suffix, with its `ENUM_FLAG`. -/
  | found (slot : Int16)
  /-- An empty slot: `return 3`, NXDOMAIN. -/
  | nxdomain
  /-- The probe never ends. -/
  | diverges
deriving DecidableEq, Repr

/-- The `do ... while` of `HandleQuery` over the allowed suffixes, from `pos`: a slot of a
local name (`< 0`) or of another suffix is passed over, an empty one ends the search. -/
def probeTld (buf : Memory) (t : Table) (key : List UInt8) (step : UInt8) : Nat → UInt8 → Probe
  | 0, _ => .diverges
  | fuel + 1, pos =>
    let v := t (pos + step)
    if v = 0 then .nxdomain
    else if v < 0 || !strEq buf (v &&& ~~~ENUM_FLAG).toNatClampNeg key then
      probeTld buf t key step fuel (pos + step)
    else .found v

/-- The TLD filter of `HandleQuery` for the suffix `key` after the last dot of a name, over
the table the constructor built from `allowed_suff`. -/
def lookupTld (allowedSuff key : List UInt8) : Probe :=
  match allowedTable allowedSuff with
  | none => .diverges
  | some fill =>
    let h := Hash.ofSuffix key
    probeTld fill.buf fill.table key (h.step ||| 1) 256 h.pos

/-! ## The insertion ends

The step is odd, so the probe from any slot reaches every slot within 256 probes, and an
insertion into a table with a free slot ends. The loop takes a slot only at a dot or a
dollar, so over a list with fewer than 256 of them every insertion ends. -/

/-- `findFree` takes a free slot that lies among its first `fuel` probes. -/
theorem findFree_isSome_of_probe {t : Table} {step : UInt8} :
    ∀ (fuel k : Nat) (pos : UInt8), k < fuel → t (pos + UInt8.ofNat (k + 1) * step) = 0 →
      (findFree t step fuel pos).isSome
  | 0, k, _, hk, _ => absurd hk (Nat.not_lt_zero k)
  | fuel + 1, k, pos, hk, free => by
    by_cases here : t (pos + step) = 0
    · simp [findFree, here]
    · cases k with
      | zero => exact absurd (by simpa using free) here
      | succ k =>
        -- the free slot is one probe nearer from `pos + step`
        have shifted : pos + UInt8.ofNat (k + 1 + 1) * step =
            pos + step + UInt8.ofNat (k + 1) * step := by
          rw [UInt8.ofNat_add _ 1, show UInt8.ofNat 1 = 1 from rfl, add_mul, one_mul]
          ac_rfl
        simp only [findFree, here, if_false]
        exact findFree_isSome_of_probe fuel k (pos + step) (by omega) (shifted ▸ free)

/-- An odd step reaches every slot within 256 probes: `step ^ 63` undoes it. -/
theorem probe_reaches {step : UInt8} (odd : step % 2 = 1) (pos i : UInt8) :
    ∃ k < 256, pos + UInt8.ofNat (k + 1) * step = i := by
  have inverse : step ^ 63 * step = 1 := by
    have units : ∀ s : UInt8, s % 2 = 1 → s ^ 63 * s = 1 := by
      set_option maxRecDepth 10000 in decide +kernel
    exact units step odd
  refine ⟨(((i - pos) * step ^ 63).toNat + 255) % 256, Nat.mod_lt _ (by decide), ?_⟩
  have wrap : UInt8.ofNat ((((i - pos) * step ^ 63).toNat + 255) % 256 + 1) =
      (i - pos) * step ^ 63 := by
    apply UInt8.toNat_inj.mp
    have lt := ((i - pos) * step ^ 63).toNat_lt
    simp
    omega
  rw [wrap, mul_assoc, inverse, mul_one, add_sub_cancel]

/-- An insertion ends while the table has a free slot. -/
theorem findFree_isSome {t : Table} {step : UInt8} (odd : step % 2 = 1) {i : UInt8}
    (free : t i = 0) (pos : UInt8) : (findFree t step 256 pos).isSome := by
  obtain ⟨k, hk, reach⟩ := probe_reaches odd pos i
  exact findFree_isSome_of_probe 256 k pos hk (reach ▸ free)

/-- The loop's body does not hang while the table has a free slot: `step |= 1` makes the step
odd. -/
theorem fillStep_isSome (p : Nat) {s : AllowedFill} {i : UInt8} (free : s.table i = 0) :
    (fillStep p s).isSome := by
  have odd : (s.hash.step ||| 1) % 2 = 1 := by
    have all : ∀ x : UInt8, (x ||| 1) % 2 = 1 := by
      set_option maxRecDepth 10000 in decide +kernel
    exact all _
  obtain ⟨slot, found⟩ := Option.isSome_iff_exists.mp (findFree_isSome odd free s.hash.pos)
  unfold fillStep
  dsimp only
  split_ifs <;> simp [found]

/-- The slots in use. -/
def usedSlots (t : Table) : Nat := (List.range 256).countP fun i => t (UInt8.ofNat i) != 0

/-- The bytes below `p` where the loop may insert a suffix: dots and dollars. -/
def markers (buf : Memory) (p : Nat) : Nat :=
  (List.range p).countP fun i => buf i = 46 || buf i = 36

theorem exists_free_of_usedSlots_lt {t : Table} (lt : usedSlots t < 256) : ∃ i, t i = 0 := by
  by_contra none_free
  have full : ∀ i, t i ≠ 0 := fun i free => none_free ⟨i, free⟩
  have all : usedSlots t = 256 := by
    unfold usedSlots
    rw [List.countP_eq_length.mpr fun i _ => by simpa using full _, List.length_range]
  omega

theorem usedSlots_set_le (t : Table) (slot : UInt8) (v : Int16) :
    usedSlots (t.set slot v) ≤ usedSlots t + 1 := by
  unfold usedSlots
  rw [List.countP_eq_length_filter, List.countP_eq_length_filter]
  have nodup := (List.nodup_range (n := 256)).filter fun i => (t.set slot v) (UInt8.ofNat i) != 0
  have sub : (List.range 256).filter (fun i => (t.set slot v) (UInt8.ofNat i) != 0) ⊆
      slot.toNat :: (List.range 256).filter fun i => t (UInt8.ofNat i) != 0 := by
    intro i hi
    simp only [List.mem_filter, List.mem_range, Table.set, bne_iff_ne, ne_eq] at hi
    by_cases at_slot : UInt8.ofNat i = slot
    · have : i = slot.toNat := by rw [← at_slot]; simp; omega
      exact this ▸ List.mem_cons_self
    · simp only [at_slot, if_false] at hi
      exact List.mem_cons_of_mem _ (by simpa using hi)
  simpa using (nodup.subperm sub).length_le

/-- The loop's body changes no byte below `p`, and takes a slot only at a dot or a dollar. -/
theorem fillStep_frame {p : Nat} {s s' : AllowedFill} (step : fillStep p s = some s') :
    (∀ i < p, s'.buf i = s.buf i) ∧
      usedSlots s'.table ≤
        usedSlots s.table + (if (s.buf p = 46 || s.buf p = 36) then 1 else 0) := by
  have below : ∀ b, ∀ i < p, s.buf.set p b i = s.buf i := fun b i hi =>
    Memory.set_of_ne _ (Nat.ne_of_lt hi)
  unfold fillStep at step
  dsimp only at step
  have taken : ∀ {b : Bool} (slot : UInt8) (v : Int16), b = true →
      usedSlots (s.table.set slot v) ≤ usedSlots s.table + (if b then 1 else 0) := by
    intro b slot v marked
    simp only [marked, if_true]
    exact usedSlots_set_le _ _ _
  split_ifs at step with cut marker after dollar digits
  · -- a bar or a cut byte
    cases step
    exact ⟨below 0, by simp⟩
  · -- a dot or a dollar before an empty suffix
    cases step
    exact ⟨below 64, by simp⟩
  · -- a dollar with no digits before it
    obtain ⟨slot, -, inserted⟩ := Option.bind_eq_some_iff.mp step
    cases inserted
    exact ⟨below 64, taken slot _ marker⟩
  · -- a dollar after digits: their value goes in its place
    obtain ⟨slot, -, inserted⟩ := Option.bind_eq_some_iff.mp step
    cases inserted
    refine ⟨fun i hi => ?_, taken slot _ marker⟩
    show ((s.buf.set p 64).set p _) i = s.buf i
    rw [Memory.set_of_ne _ (Nat.ne_of_lt hi)]
    exact below 64 i hi
  · -- a dot
    obtain ⟨slot, -, inserted⟩ := Option.bind_eq_some_iff.mp step
    cases inserted
    exact ⟨below 64, taken slot _ marker⟩
  · -- a byte of a suffix
    cases step
    exact ⟨fun _ _ => rfl, by simp⟩

/-- The constructor's loop does not hang while the slots in use and the dots and dollars still
to read are fewer than 256: a step takes a slot only at a dot or a dollar, and changes no byte
below it. -/
theorem fillAllowed_isSome (p : Nat) (s : AllowedFill)
    (room : usedSlots s.table + markers s.buf p < 256) : (fillAllowed p s).isSome := by
  induction p generalizing s with
  | zero => rfl
  | succ p ih =>
    obtain ⟨i, free⟩ := exists_free_of_usedSlots_lt (t := s.table) (by omega)
    obtain ⟨s', step⟩ := Option.isSome_iff_exists.mp (fillStep_isSome p free)
    obtain ⟨frame, used⟩ := fillStep_frame step
    have kept : markers s'.buf p = markers s.buf p :=
      List.countP_congr fun i hi => by rw [frame i (List.mem_range.mp hi)]
    have top : markers s.buf (p + 1) =
        markers s.buf p + (if (s.buf p = 46 || s.buf p = 36) then 1 else 0) := by
      simp only [markers, List.range_succ, List.countP_append, List.countP_singleton]
    generalize (if (s.buf p = 46 || s.buf p = 36) then 1 else 0) = taken at used top
    rw [fillAllowed, step, Option.bind_eq_bind, Option.bind_some]
    exact ih s' (by omega)

/-- The bytes of a list read back by offset. -/
theorem map_getD_range (l : List UInt8) : (List.range l.length).map (fun i => l.getD i 0) = l :=
  List.ext_getElem (by simp) fun i _ bound => by
    simp [List.getD_eq_getElem?_getD, List.getElem?_eq_getElem bound]

/-- The constructor ends over a list with fewer than 256 dots and dollars: every insertion
finds a free slot. -/
theorem allowedTable_isSome (allowedSuff : List UInt8)
    (few : allowedSuff.countP (fun c => c = 46 || c = 36) < 256) :
    (allowedTable allowedSuff).isSome := by
  have empty : usedSlots (fun _ => 0) = 0 := by simp [usedSlots]
  have counted : markers (cString allowedSuff) allowedSuff.length =
      allowedSuff.countP (fun c => c = 46 || c = 36) := by
    conv_rhs => rw [← map_getD_range allowedSuff]
    rw [List.countP_map]
    rfl
  exact fillAllowed_isSome _ _ (by simp only [empty, counted]; omega)

/-! ## The loop over `allowed_suff` -/

/-- A run of `'|'` at the start of the list only cuts it: the table, the count and the bytes
from `p` on stay, and the run becomes zeros. -/
theorem fillAllowed_separators (p : Nat) (s : AllowedFill) (bars : ∀ i < p, s.buf i = 124) :
    ∃ s', fillAllowed p s = some s' ∧ s'.table = s.table ∧ s'.qty = s.qty ∧
      (∀ i < p, s'.buf i = 0) ∧ ∀ i, p ≤ i → s'.buf i = s.buf i := by
  induction p generalizing s with
  | zero => exact ⟨s, rfl, rfl, rfl, fun _ h => absurd h (Nat.not_lt_zero _), fun _ _ => rfl⟩
  | succ p ih =>
    -- the bar at `p` is cut to a zero, and the bars below it are untouched
    have cut : fillStep p s = some { s with buf := s.buf.set p 0, hash := ⟨0, 0⟩ } := by
      simp [fillStep, bars p (Nat.lt_succ_self p)]
    have below : ∀ i < p, (s.buf.set p 0) i = 124 := fun i hi => by
      rw [Memory.set_of_ne _ (Nat.ne_of_lt hi)]
      exact bars i (Nat.lt_succ_of_lt hi)
    obtain ⟨s', run, table, qty, zeros, above⟩ :=
      ih { s with buf := s.buf.set p 0, hash := ⟨0, 0⟩ } below
    refine ⟨s', by rw [fillAllowed, cut]; exact run, table, qty, fun i hi => ?_, fun i hi => ?_⟩
    · rcases Nat.lt_succ_iff_lt_or_eq.mp hi with lt | rfl
      · exact zeros i lt
      · rw [above i le_rfl]; simp
    · rw [above i (Nat.le_of_succ_le hi)]
      exact Memory.set_of_ne _ (Nat.ne_of_gt hi)

/-- A C string after a run of one byte, read by offset. -/
theorem cString_replicate_append (n : Nat) (b : UInt8) (l : List UInt8) :
    cString (List.replicate n b ++ l) = fun i => if i < n then b else cString l (i - n) := by
  funext i
  by_cases lt : i < n
  · simp [cString, lt, List.getD_eq_getElem?_getD, List.getElem?_append_left]
  · simp [cString, lt, List.getD_eq_getElem?_getD, List.getElem?_append_right, Nat.le_of_not_lt lt]

/-- A hashed byte only goes into the hash. -/
theorem fillStep_hashed {p : Nat} {s : AllowedFill} (hashed : hashedByte (s.buf p)) :
    fillStep p s = some { s with hash := s.hash.push (s.buf p) } := by
  simp only [hashedByte, Bool.and_eq_true, Bool.not_eq_true', Bool.or_eq_false_iff, bne_iff_ne,
    ne_eq, decide_eq_false_iff_not] at hashed
  obtain ⟨⟨⟨bar, cut⟩, dot⟩, dollar⟩ := hashed
  simp [fillStep, bar, cut, dot, dollar]

/-- The bytes at `p .. p + k` that are all hashed: the loop reads them from the top down into
the hash, as `HandleQuery` reads a suffix, and changes nothing else. -/
theorem fillAllowed_hashed (p k : Nat) (s : AllowedFill)
    (hashed : ∀ j < k, hashedByte (s.buf (p + j))) :
    fillAllowed (p + k) s =
      fillAllowed p
        { s with hash := s.hash.pushAll ((List.range k).map (fun j => s.buf (p + j))) } := by
  induction k generalizing s with
  | zero => rfl
  | succ k ih =>
    have top := fillStep_hashed (hashed k (Nat.lt_succ_self k))
    have rest := ih { s with hash := s.hash.push (s.buf (p + k)) }
      fun j hj => hashed j (Nat.lt_succ_of_lt hj)
    rw [← Nat.add_assoc, fillAllowed, top, Option.bind_eq_bind, Option.bind_some, rest]
    simp [Hash.pushAll, List.range_succ]

/-- A dot before a suffix that is not empty inserts the suffix's offset `p + 1` into the first
free slot of its probe. -/
theorem fillStep_dot {p : Nat} {s : AllowedFill} {slot : UInt8} (dot : s.buf p = 46)
    (suffix : isCut (s.buf (p + 1)) = false)
    (free : findFree s.table (s.hash.step ||| 1) 256 s.hash.pos = some slot) :
    fillStep p s =
      some ⟨s.buf.set p 64, s.table.set slot (Int16.ofNat (p + 1)), ⟨0, 0⟩, s.qty + 1⟩ := by
  have above : s.buf.set p 64 (p + 1) = s.buf (p + 1) := Memory.set_of_ne _ (Nat.succ_ne_self p)
  simp [fillStep, dot, above, suffix, free, show isCut 46 = false from rfl]

/-! ## The probe -/

/-- An empty slot ends the probe: NXDOMAIN. -/
theorem probeTld_empty {buf : Memory} {t : Table} {key : List UInt8} {step pos : UInt8} {fuel : Nat}
    (empty : t (pos + step) = 0) : probeTld buf t key step (fuel + 1) pos = .nxdomain := by
  simp [probeTld, empty]

/-- A slot of another suffix is passed over. -/
theorem probeTld_other {buf : Memory} {t : Table} {key : List UInt8} {step pos : UInt8} {fuel : Nat}
    (used : t (pos + step) ≠ 0)
    (other : strEq buf (t (pos + step) &&& ~~~ENUM_FLAG).toNatClampNeg key = false) :
    probeTld buf t key step (fuel + 1) pos = probeTld buf t key step fuel (pos + step) := by
  simp [probeTld, used, other]

/-- The slot of the key ends the probe. -/
theorem probeTld_found {buf : Memory} {t : Table} {key : List UInt8} {step pos : UInt8} {fuel : Nat}
    (used : t (pos + step) ≠ 0) (suffix : ¬ t (pos + step) < 0)
    (same : strEq buf (t (pos + step) &&& ~~~ENUM_FLAG).toNatClampNeg key = true) :
    probeTld buf t key step (fuel + 1) pos = .found (t (pos + step)) := by
  simp [probeTld, used, suffix, same]

/-- A key that stands at `off` as a C string compares equal. -/
theorem strEq_of_cString {buf : Memory} {key : List UInt8} {off : Nat}
    (stored : ∀ j, buf (off + j) = cString key j) : strEq buf off key = true := by
  induction key generalizing off with
  | nil => simpa [strEq, cString] using stored 0
  | cons c key ih =>
    have head : buf off = c := by simpa [cString] using stored 0
    have tail : ∀ j, buf (off + 1 + j) = cString key j := fun j => by
      rw [Nat.add_assoc, Nat.add_comm 1 j, stored]
      rfl
    simp [strEq, head, ih tail]

/-- Over a table the constructor built, the filter is the probe from the key's hash. -/
theorem lookupTld_of_allowedTable {allowedSuff key : List UInt8} {fill : AllowedFill}
    (built : allowedTable allowedSuff = some fill) :
    lookupTld allowedSuff key = probeTld fill.buf fill.table key
      ((Hash.ofSuffix key).step ||| 1) 256 (Hash.ofSuffix key).pos := by
  simp [lookupTld, built]

/-! ## A suffix past `ENUM_FLAG` -/

/-- The probe for `coin` starts at slot 235. -/
theorem coin_slot :
    (Hash.ofSuffix [99, 111, 105, 110]).pos + ((Hash.ofSuffix [99, 111, 105, 110]).step ||| 1) =
      235 := by
  decide

/-- The first probe for `coin` in a table with one slot, 235, written reads that slot. -/
theorem coin_firstProbe (v : Int16) :
    Table.set (fun _ => 0) 235 v
      ((Hash.ofSuffix [99, 111, 105, 110]).pos + ((Hash.ofSuffix [99, 111, 105, 110]).step ||| 1)) =
      v := by
  rw [coin_slot]
  simp [Table.set]

/-- The list `.coin` after `n` bars: the constructor counts one suffix, inserts `coin` at
offset `n + 1`, cut to 16 bits, into slot 235, and cuts the bars to zeros. -/
theorem allowedTable_coinAfterBars (n : Nat) : ∃ f,
    allowedTable (List.replicate n 124 ++ [46, 99, 111, 105, 110]) = some f ∧ f.qty = 1 ∧
      f.table = Table.set (fun _ => 0) 235 (Int16.ofNat (n + 1)) ∧ (∀ i < n, f.buf i = 0) ∧
      ∀ j, f.buf (n + 1 + j) = cString [99, 111, 105, 110] j := by
  unfold allowedTable
  rw [List.length_append, List.length_replicate, cString_replicate_append]
  set s0 : AllowedFill :=
    ⟨fun i => if i < n then 124 else cString [46, 99, 111, 105, 110] (i - n),
    fun _ => 0, ⟨0, 0⟩, 0⟩
  have byte : ∀ j, s0.buf (n + j) = [46, 99, 111, 105, 110].getD j 0 := fun j => by
    simp [s0, cString]
  have letters : ((List.range 4).map fun j => s0.buf (n + 1 + j)) = [99, 111, 105, 110] := by
    simp [List.range_succ, Nat.add_assoc, byte]
  -- the four letters go into the hash, then the dot inserts them
  rw [show n + ([46, 99, 111, 105, 110] : List UInt8).length = n + 1 + 4 from rfl,
    fillAllowed_hashed _ _ _ (fun j hj => by rw [Nat.add_assoc, byte]; interval_cases j <;> decide),
    letters, fillAllowed, fillStep_dot (by simpa using byte 0) (by simp only [byte 1]; rfl) rfl,
    Option.bind_eq_bind, Option.bind_some]
  -- and the bars below only cut
  obtain ⟨f, run, table, qty, zeros, above⟩ :=
    fillAllowed_separators n ⟨s0.buf.set n 64, _, _, _⟩
    fun i hi => (Memory.set_of_ne _ (Nat.ne_of_lt hi)).trans (if_pos hi)
  refine ⟨f, run, qty, ?_, zeros, fun j => ?_⟩
  · rw [table]
    show Table.set (fun _ => 0) ((Hash.ofSuffix [99, 111, 105, 110]).pos +
      ((Hash.ofSuffix [99, 111, 105, 110]).step ||| 1)) _ = _
    rw [coin_slot]
  · rw [above _ (by omega)]
    show (s0.buf.set n 64) (n + 1 + j) = _
    rw [Memory.set_of_ne _ (by omega), Nat.add_assoc, byte]
    simp [cString, Nat.add_comm 1 j]

/-- The filter loses an allowed suffix whose offset in `allowed_suff` has the bit of
`ENUM_FLAG`: `.coin` after 16383 bars is stored at offset 16384, the probe masks the flag off
and compares `coin` with the cut bar at offset 0, and the query ends in NXDOMAIN; one bar
fewer and the same suffix is found. -/
theorem lookupTld_offsetPastEnumFlag :
    (allowedTable (List.replicate 16383 124 ++ [46, 99, 111, 105, 110])).map AllowedFill.qty =
        some 1 ∧
      lookupTld (List.replicate 16383 124 ++ [46, 99, 111, 105, 110]) [99, 111, 105, 110] =
        .nxdomain ∧
      lookupTld (List.replicate 16382 124 ++ [46, 99, 111, 105, 110]) [99, 111, 105, 110] =
        .found 16383 := by
  obtain ⟨f, fill, qty, table, zeros, -⟩ := allowedTable_coinAfterBars 16383
  obtain ⟨f', fill', -, table', -, letters⟩ := allowedTable_coinAfterBars 16382
  refine ⟨by rw [fill, Option.map_some, qty], ?_, ?_⟩
  · -- the slot holds 16384, which is `ENUM_FLAG` itself: the mask leaves offset 0, a cut bar
    have masked : (Int16.ofNat (16383 + 1) &&& ~~~ENUM_FLAG).toNatClampNeg = 0 := by decide
    rw [lookupTld_of_allowedTable fill, table, show (256 : Nat) = 254 + 1 + 1 from rfl,
      probeTld_other (by rw [coin_firstProbe]; decide)
        (by rw [coin_firstProbe, masked]; simp [strEq, zeros 0 (by decide)]),
      probeTld_empty (by decide)]
  · -- one bar fewer: offset 16383 is below the flag and reads back as itself
    have masked : (Int16.ofNat (16382 + 1) &&& ~~~ENUM_FLAG).toNatClampNeg = 16382 + 1 := by decide
    rw [lookupTld_of_allowedTable fill', table', show (256 : Nat) = 255 + 1 from rfl,
      probeTld_found (by rw [coin_firstProbe]; decide) (by rw [coin_firstProbe]; decide)
        (by rw [coin_firstProbe, masked]; exact strEq_of_cString letters), coin_firstProbe]
    rfl

end MFCoin.Dns
