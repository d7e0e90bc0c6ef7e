/-
Module: MFCoin.Dns.Answer
Purpose: The answer side of `HandleQuery` in src/src/mfcdns.cpp, the `lookup` of
  MFCoin.Dns.Query: the cut of the gateway suffix, the local search and the TLD filter, the
  search in the name index with its step down through `SD=` lists and the referral of
  `TryMakeref`, the TTL, and the records of `Answer_ALL` (`Tokenize`, the shuffle,
  `Fill_RD_IP`, `Fill_RD_DName`); the ENUM answers of `SpfunENUM`, `Answer_ENUM`,
  `HandleE2U` and `OutS`. Every writer extends the output by recorded writes. `HandleE2U`
  checks `m_bufend` before it writes; a record of `Answer_ALL` does not, and a name of
  `Fill_RD_DName` stores at least one byte wherever `m_snd` stands.
Trusted boundary: the name index (`hooks->getNameValue`), `inet_pton`, `GetRand`, the local
  names and the TLD filter as the maps they implement (MFCoin.Dns.SuffixTable models the
  filter's table), the ENUM signature check and the toll-free regular expressions, all
  fields of `Resolver`.
Main exports: tokenize, Resolver, Output.fillRdDName, Resolver.answerAll,
  Output.handleE2U, Resolver.lookup, Resolver.lookup_extends
-/
import MFCoin.Dns.Packet

namespace MFCoin.Dns

/-! ### C strings and `Tokenize` -/

/-- `MAX_TOK`: the most tokens `Tokenize` returns for one key. -/
def MAX_TOK : Nat := 64

/-- The C string a buffer holds: its bytes before the first NUL, what `strcpy` copies. -/
def cstr (s : List UInt8) : List UInt8 := s.takeWhile (· != 0)

/-- `strtok` called until it returns `NULL`, with the delimiter set `delim`: the maximal runs
of bytes outside `delim`, the empty ones skipped. -/
def strtok (delim s : List UInt8) : List (List UInt8) :=
  (s.splitOnP delim.contains).filter (!·.isEmpty)

/-- A string that starts with `~c` names its own separator `c` (`mainsep` and `sepulka` of
`Tokenize`); otherwise the default applies. A lone `~` leaves no separator and nothing to
split, where the source steps past the string's NUL. -/
def sepOverride (dflt s : List UInt8) : List UInt8 × List UInt8 :=
  match s with
  | t :: rest => if t = 0x7e then (rest.take 1, rest.drop 1) else (dflt, s)
  | [] => (dflt, [])

/-- Whether a `strtok` token of the main list is the entry `key=...`. -/
def entryOf (key tok : List UInt8) : Bool :=
  tok.contains 0x3d && tok.takeWhile (· != 0x3d) == key

/-- `Tokenize(key, sep2, tokens, buf)`: the value of the first entry `key=value` among the
`|`-separated entries of `buf`, split at `sep2` into at most `MAX_TOK` tokens, or whole when
`sep2` is `NULL` or empty (`[]` here). -/
def tokenize (key sep2 buf : List UInt8) : List (List UInt8) :=
  let main := sepOverride [0x7c] buf
  match (strtok main.1 main.2).find? (entryOf key) with
  | none => []
  | some tok =>
    let val := (tok.dropWhile (· != 0x3d)).drop 1
    if sep2 = [] then [val]
    else
      let sub := sepOverride sep2 val
      (strtok sub.1 sub.2).take MAX_TOK

/-- `isspace` of the C locale. -/
def isSpace (c : UInt8) : Bool := c == 0x20 || (0x09 ≤ c && c ≤ 0x0d)

/-- `isdigit`. -/
def isDigit (c : UInt8) : Bool := 0x30 ≤ c && c ≤ 0x39

/-- The value of the decimal digits at the front of `s`. -/
def decimalPrefix (s : List UInt8) : Nat :=
  (s.takeWhile isDigit).foldl (fun n c => 10 * n + (c.toNat - 0x30)) 0

/-- `atoi`: white space, an optional sign, then decimal digits. Its overflow, undefined in
C, is left unbounded here. -/
def atoi (s : List UInt8) : Int :=
  match s.dropWhile isSpace with
  | c :: t => if c = 0x2d then -(decimalPrefix t : Int) else if c = 0x2b then decimalPrefix t
      else decimalPrefix (c :: t)
  | [] => 0

/-- `strncmp(a, b, n) == 0` on two C strings. -/
def strncmpEq : Nat → List UInt8 → List UInt8 → Bool
  | 0, _, _ => true
  | _ + 1, [], [] => true
  | n + 1, a :: as, b :: bs => a == b && strncmpEq n as bs
  | _ + 1, _, _ => false

/-- `sprintf("%u", n)`. -/
def decimal (n : Nat) : List UInt8 := (Nat.toDigits 10 n).map fun c => c.toNat.toUInt8

/-- `strchr(s, c)`: the rest of `s` from its first `c` on, if it has one. -/
def strchr (s : List UInt8) (c : UInt8) : Option (List UInt8) :=
  match s.dropWhile (· != c) with
  | [] => none
  | rest => some rest

/-! ### The resolver -/

/-- The address families of `Fill_RD_IP`. -/
inductive Family
  | inet
  | inet6
deriving DecidableEq, Repr

/-- `out_sz`: the bytes of an address. -/
def Family.size : Family → Nat
  | .inet => 4
  | .inet6 => 16

/-- What the answer side consults: the name index; `inet_pton`, which writes `size` bytes of
an address it parses; the draws of `GetRand(i)` by bound; `m_gw_suffix` (empty when none is
configured); the local names, when `m_local_base` is set; the TLD filter, when
`m_allowed_qty` is not zero, giving for an allowed suffix the ENUM length byte of an ENUM
suffix; whether ENUM verifiers are configured, and `CheckEnumSig`; the toll-free entries,
each a regular expression on the number and its `E2U` strings. -/
structure Resolver where
  getNameValue : List UInt8 → Option (List UInt8)
  inetPton : Family → List UInt8 → Option (List UInt8)
  getRand : Nat → Nat
  gwSuffix : List UInt8
  localSearch : Option (List UInt8 → Option (List UInt8))
  tldFilter : Option (List UInt8 → Option (Option UInt8))
  enumVerifiers : Bool
  checkEnumSig : List UInt8 → Option (List UInt8) → Bool
  tollFree : List ((List UInt8 → Bool) × List (List UInt8))

/-- `Search(key)`: the value of `dns:key` in the name index, as `strcpy` leaves it in
`m_value`. -/
def Resolver.search (r : Resolver) (key : List UInt8) : Option (List UInt8) :=
  (r.getNameValue ([0x64, 0x6e, 0x73, 0x3a] ++ key)).map cstr

/-! ### The writers -/

namespace Output

/-- Bytes stored from `m_snd` on, one `*m_snd++` each. -/
def putBytes (o : Output) (bs : List UInt8) : Output := bs.foldl put o

/-- The ten bytes every record starts with: the owner name as a reference, the type, class
IN and the TTL. -/
def rrHeader (o : Output) (labelRef qtype : UInt16) (ttl : UInt32) : Output :=
  (((o.out2 labelRef).out2 qtype).out2 1).out4 ttl

/-- `OutS(p)`: `p` with its NUL copied after `m_snd`, then its length byte at `m_snd`. -/
def outS (o : Output) (p : List UInt8) : Output :=
  let copied := ({ o with snd := o.snd + 1 }).putBytes (p ++ [0])
  { copied.poke o.snd (UInt8.ofNat p.length) with snd := o.snd + p.length + 1 }

/-- `m_hdr->ANCount += n`. -/
def addAnswers (o : Output) (n : UInt16) : Output :=
  { o with hdr := { o.hdr with ANCount := o.hdr.ANCount + n } }

/-- `m_hdr->NSCount += n`. -/
def addAuthority (o : Output) (n : UInt16) : Output :=
  { o with hdr := { o.hdr with NSCount := o.hdr.NSCount + n } }

end Output

/-- `Fill_RD_IP(txt, af)`: the length `out_sz`, then the address `inet_pton` stores at
`m_snd`. A text that does not parse takes the record back, its ten header bytes included
(`m_snd -= 12`), and one answer off `ANCount`. -/
def Resolver.fillRdIp (r : Resolver) (o : Output) (txt : List UInt8) (af : Family) : Output :=
  let o := o.out2 (UInt16.ofNat af.size)
  match r.inetPton af txt with
  | some addr => o.putBytes ((List.range af.size).map fun i => addr.getD i 0)
  | none => { o.addAnswers (-1) with snd := o.snd - 12 }

/-- The loop of `Fill_RD_DName` as far as it has got: the output, `tok_sz` (the offset of
the length byte of the current label) and `mx_pri`. -/
structure DName where
  out : Output
  tokSz : Nat
  mxPri : UInt16

/-- The `do ... while(c && m_snd < bufend)` loop of `Fill_RD_DName` over the rest of the
name, its NUL included: each byte is stored; a dot closes a label by storing its length at
`tok_sz`; for MX a colon ends the name and the priority is read after it. -/
def copyName (mx : Bool) (bufend : Nat) : List UInt8 → DName → DName
  | [], d => d
  | c :: txt, d =>
    let out := d.out.put c
    if c = 0x2e then
      let closed : DName :=
        ⟨out.poke d.tokSz (UInt8.ofInt ((out.snd : Int) - d.tokSz - 2)), out.snd - 1, d.mxPri⟩
      if out.snd < bufend then copyName mx bufend txt closed else closed
    else if c = 0x3a ∧ mx = true then ⟨out.poke (out.snd - 1) 0, d.tokSz, UInt16.ofInt (atoi txt)⟩
    else if c ≠ 0 ∧ out.snd < bufend then copyName mx bufend txt { d with out := out }
    else { d with out := out }

namespace Output

/-- `Fill_RD_DName(txt, mxsz, txtcor)`: the name `txt` as labels after the two length bytes
(and for MX the two priority bytes). The copy stops where `m_snd` reaches 255 bytes past the
name's start or `m_bufend`, whichever comes first, but after storing one byte at least:
a name that starts past `m_bufend` still takes its first byte. `txtcor` takes the NUL back
for TXT. -/
def fillRdDName (o : Output) (txt : List UInt8) (mxsz txtcor : Nat) : Output :=
  let snd0 := o.snd
  let start := snd0 + 3 + mxsz
  let bufend := min (start + 255) MAX_OUT
  let d := copyName (mxsz != 0) bufend (txt ++ [0]) ⟨{ o with snd := start }, start - 1, 1⟩
  -- `m_snd - tok_sz - 2` is an `int`: `-1` when the copy stopped right after a dot
  let o := d.out.poke d.tokSz (UInt8.ofInt ((d.out.snd : Int) - d.tokSz - 2))
  let o := { o with snd := o.snd - txtcor }
  let len : UInt16 := UInt16.ofNat (o.snd - snd0 - 2)
  let o := (o.poke snd0 (len >>> 8).toUInt8).poke (snd0 + 1) len.toUInt8
  if mxsz ≠ 0 then (o.poke (snd0 + 2) (d.mxPri >>> 8).toUInt8).poke (snd0 + 3) d.mxPri.toUInt8
  else o

end Output

/-- The key `Answer_ALL` looks up for a record type: `A`, `NS`, `CNAME`, `PTR`, `MX`, `TXT`
and `AAAA`; it answers no other type. -/
def rrKey (qtype : UInt16) : Option (List UInt8) :=
  if qtype = 1 then some [0x41]
  else if qtype = 2 then some [0x4e, 0x53]
  else if qtype = 5 then some [0x43, 0x4e, 0x41, 0x4d, 0x45]
  else if qtype = 12 then some [0x50, 0x54, 0x52]
  else if qtype = 15 then some [0x4d, 0x58]
  else if qtype = 16 then some [0x54, 0x58, 0x54]
  else if qtype = 28 then some [0x41, 0x41, 0x41, 0x41]
  else none

/-- The RDATA of one record of `Answer_ALL`, by type. -/
def Resolver.fillRd (r : Resolver) (qtype : UInt16) (o : Output) (tok : List UInt8) : Output :=
  if qtype = 1 then r.fillRdIp o tok .inet
  else if qtype = 28 then r.fillRdIp o tok .inet6
  else if qtype = 2 ∨ qtype = 5 ∨ qtype = 12 then o.fillRdDName tok 0 0
  else if qtype = 15 then o.fillRdDName tok 2 0
  else if qtype = 16 then o.fillRdDName tok 0 1
  else o

/-- The shuffle of `Answer_ALL`: for `i` from the number of tokens down to 2, the token at
`GetRand(i)` changes places with the one at `i - 1`. -/
def shuffle {α : Type} [Inhabited α] (getRand : Nat → Nat) : Nat → List α → List α
  | 0, toks => toks
  | 1, toks => toks
  | i + 2, toks =>
    let j := getRand (i + 2) % (i + 2)
    shuffle getRand (i + 1) ((toks.set j (toks.getD (i + 1) default)).set (i + 1) (toks.getD j default))

/-- The records of `Answer_ALL`, one per token, each the ten header bytes and the RDATA. No
record checks `m_bufend`. -/
def Resolver.records (r : Resolver) (labelRef qtype : UInt16) (ttl : UInt32) :
    List (List UInt8) → Output → Output
  | [], o => o
  | tok :: toks, o => r.records labelRef qtype ttl toks (r.fillRd qtype (o.rrHeader labelRef qtype ttl) tok)

/-- `Answer_ALL(qtype, buf)`: a record for each token of the entry of the type, in shuffled
order, counted as answers, or as authority when `qtype` carries `0x80`. -/
def Resolver.answerAll (r : Resolver) (labelRef : UInt16) (ttl : UInt32) (qtype : UInt16)
    (buf : List UInt8) (o : Output) : Output :=
  let neededAddl := qtype &&& 0x80
  let qtype := qtype ^^^ neededAddl
  match rrKey qtype with
  | none => o
  | some key =>
    let toks := tokenize key [0x2c] buf
    let o := r.records labelRef qtype ttl (shuffle r.getRand toks.length toks) o
    if neededAddl ≠ 0 then o.addAuthority (UInt16.ofNat toks.length)
    else o.addAnswers (UInt16.ofNat toks.length)

/-- `m_ttl` from the `TTL=` entry of a value, or the default. -/
def ttlOf (dflt : UInt32) (value : List UInt8) : UInt32 :=
  match tokenize [0x54, 0x54, 0x4c] [] value with
  | tok :: _ => UInt32.ofInt (atoi tok)
  | [] => dflt

/-- `TryMakeref(label_ref)`: the NS records of the value under the given owner, as a
referral: `NSCount` takes `ANCount`, which is cleared. It returns the new `NSCount`. -/
def Resolver.tryMakeref (r : Resolver) (labelRef : UInt16) (value : List UInt8) (o : Output) :
    Output :=
  let o := r.answerAll labelRef (ttlOf (24 * 3600) value) 2 value o
  { o with hdr := { o.hdr with NSCount := o.hdr.ANCount, ANCount := 0 } }

/-- The answer section from the value found: the records of the type asked; for `ANY` those
of A, NS, CNAME, PTR, MX and AAAA; for A and AAAA with no answer in the packet yet the CNAME
records, and failing those the NS records as authority. -/
def Resolver.answer (r : Resolver) (labelRef qtype : UInt16) (value : List UInt8) (o : Output) :
    Output :=
  let ttl := ttlOf 3600 value
  if qtype = 0xff then
    [1, 2, 5, 12, 15, 28].foldl (fun o t => r.answerAll labelRef ttl t value o) o
  else if qtype = 1 ∨ qtype = 28 then
    let o := r.answerAll labelRef ttl qtype value o
    let o := if o.hdr.ANCount = 0 then r.answerAll labelRef ttl 5 value o else o
    if o.hdr.ANCount ≠ 0 then o else r.answerAll labelRef ttl (2 ||| 0x80) value o
  else r.answerAll labelRef ttl qtype value o

/-! ### ENUM -/

namespace Output

/-- The service part of an `E2U` entry: the bytes before `=` with the blanks before `=` cut,
a blank being a byte at most `040` as a signed `char` (so also every byte from `0x80`). -/
def e2uService (e2u : List UInt8) : List UInt8 :=
  ((e2u.takeWhile (· != 0x3d)).reverse.dropWhile fun c => c ≤ 0x20 || 0x80 ≤ c).reverse

/-- `%u` of `sscanf`: white space, an optional sign, at least one digit; the value as `Out2`
keeps it, modulo `2^16`. -/
def scanUnsigned (s : List UInt8) : Option (UInt16 × List UInt8) :=
  match s.dropWhile isSpace with
  | c :: t =>
    let neg := c = 0x2d
    let digits := if c = 0x2d ∨ c = 0x2b then t else c :: t
    match digits.takeWhile isDigit with
    | [] => none
    | ds => some (UInt16.ofInt (if neg then -(decimalPrefix ds : Int) else decimalPrefix ds),
        digits.drop ds.length)
  | [] => none

/-- The `" | "` of the format: white space, a bar, white space. -/
def scanBar (s : List UInt8) : Option (List UInt8) :=
  match s.dropWhile isSpace with
  | c :: t => if c = 0x7c then some (t.dropWhile isSpace) else none
  | [] => none

/-- `%s` of `sscanf`: white space, then a nonempty word. -/
def scanWord (s : List UInt8) : Option (List UInt8) :=
  match (s.dropWhile isSpace).takeWhile (!isSpace ·) with
  | [] => none
  | w => some w

/-- `sscanf(data, "%u | %u | %s", &ord, &pref, re) == 3`. -/
def scanE2U (data : List UInt8) : Option (UInt16 × UInt16 × List UInt8) :=
  (scanUnsigned data).bind fun ord =>
    (scanBar ord.2).bind fun s =>
      (scanUnsigned s).bind fun pref =>
        (scanBar pref.2).bind fun s =>
          (scanWord s).map fun re => (ord.1, pref.1, re)

/-- The NAPTR record of `HandleE2U`: the ten header bytes, room for the length, order and
preference, the flags `u`, the service and the regular expression as counted strings, the
empty replacement, and the length stored last; one more answer. -/
def naptr (o : Output) (labelRef : UInt16) (ttl : UInt32) (ord pref : UInt16)
    (service re : List UInt8) : Output :=
  let head := o.rrHeader labelRef 0x23 ttl
  let body := (((((({ head with snd := head.snd + 2 }).out2 ord).out2 pref).outS [0x75]).outS
    service).outS re).put 0
  let len : UInt16 := UInt16.ofNat (body.snd - head.snd - 2)
  ((body.poke head.snd (len >>> 8).toUInt8).poke (head.snd + 1) len.toUInt8).addAnswers 1

/-- `HandleE2U(e2u)`: an entry `service=order | preference | regexp` becomes a NAPTR record,
written only when it ends 24 bytes or more before `m_bufend`. -/
def handleE2U (o : Output) (labelRef : UInt16) (ttl : UInt32) (e2u : List UInt8) : Output :=
  if e2u.contains 0x3d then
    let service := e2uService e2u
    match scanE2U ((e2u.dropWhile (· != 0x3d)).drop 1) with
    | none => o
    | some scanned =>
      if MAX_OUT ≤ o.snd + scanned.2.2.length + service.length + 24 then o
      else o.naptr labelRef ttl scanned.1 scanned.2.1 service scanned.2.2
  else o

/-- The first three bytes of a line of an ENUM value, each or-ed with `0x20`, are `word`. -/
def linePrefix (word line : List UInt8) : Bool := (line.take 3).map (· ||| 0x20) == word

/-- `m_ttl` as the `ttl` lines of an ENUM value leave it, from 24 hours. -/
def enumTtl (lines : List (List UInt8)) : UInt32 :=
  lines.foldl (fun ttl line =>
    if linePrefix [0x74, 0x74, 0x6c] line then
      match strchr (line.drop 3) 0x3d with
      | some rest => UInt32.ofInt (atoi (rest.drop 1))
      | none => ttl
    else ttl) (24 * 3600)

end Output

/-- `Answer_ENUM(q_str)`: the lines of the value; the `E2U` lines are answered when a `SIG`
line passes `CheckEnumSig`, each while `m_snd` is more than 24 bytes before `m_bufend`. -/
def Resolver.answerENUM (r : Resolver) (qStr : List UInt8) (labelRef : UInt16)
    (value : List UInt8) (o : Output) : Output :=
  let lines := value.splitOnP fun c => c == 0x0a || c == 0x0d
  let ttl := Output.enumTtl lines
  let sigOK := lines.any fun line =>
    Output.linePrefix [0x73, 0x69, 0x67] line && r.checkEnumSig qStr (strchr (line.drop 3) 0x3d)
  if sigOK then
    (lines.filter (Output.linePrefix [0x65, 0x32, 0x75])).foldl
      (fun o e2u => if o.snd < MAX_OUT - 24 then o.handleE2U labelRef ttl e2u else o) o
  else o

/-- The ENUM records `SpfunENUM` asks the name index for, `tld:number:0`, `tld:number:1` and
on, until one is missing or `qno` has passed 32767. -/
def Resolver.enumRecords (r : Resolver) (tld itut : List UInt8) (labelRef : UInt16) :
    Nat → Nat → Output → Output
  | 0, _, o => o
  | fuel + 1, qno, o =>
    let qStr := tld ++ [0x3a] ++ itut ++ [0x3a] ++ decimal qno
    match r.getNameValue qStr with
    | none => o
    | some v => r.enumRecords tld itut labelRef fuel (qno + 1) (r.answerENUM qStr labelRef (cstr v) o)

/-- The toll-free entries, tried while the packet has no answer: each whose expression
matches the number has its `E2U` strings answered, with a TTL of 24 hours. -/
def Resolver.tollFreeAnswers (r : Resolver) (itut : List UInt8) (labelRef : UInt16) :
    List ((List UInt8 → Bool) × List (List UInt8)) → Output → Output
  | [], o => o
  | tf :: tfs, o =>
    if o.hdr.ANCount = 0 then
      let o := if tf.1 itut then tf.2.foldl (fun o e2u => o.handleE2U labelRef (24 * 3600) (cstr e2u)) o
        else o
      r.tollFreeAnswers itut labelRef tfs o
    else o

/-- `SpfunENUM(len, domain_ndx, domain_ndx_p)` for an ENUM suffix: the digits before the
suffix, last first, at most `len` of them (one at least), looked up in the name index and
in the toll-free entries; NXDOMAIN when nothing is answered. -/
def Resolver.spfunENUM (r : Resolver) (len : UInt8) (key : List UInt8) (domains : List Nat)
    (count : Nat) (labelRef : UInt16) (o : Output) : UInt16 × Output :=
  let tldAt := domains.getD (count - 1) 0
  if count < 2 then (3, o)
  else if !r.enumVerifiers && r.tollFree.isEmpty then (3, o)
  else
    let itut := (((key.take tldAt).drop (domains.getD 0 0)).reverse.filter isDigit).take (max len.toNat 1)
    if itut = [] then (3, o)
    else
      let o := if r.enumVerifiers then r.enumRecords (key.drop tldAt) itut labelRef 32768 0 o else o
      let o := r.tollFreeAnswers itut labelRef r.tollFree o
      if o.hdr.ANCount ≠ 0 then (0, o) else (3, o)

/-! ### `HandleQuery` after QCLASS -/

/-- The cut of the gateway suffix: the key without `m_gw_suffix` and the labels left; a key
that is the suffix without its leading dot becomes the empty key. -/
def Resolver.cutSuffix (r : Resolver) (key : List UInt8) (count : Nat) : List UInt8 × Nat :=
  let suf := r.gwSuffix
  if suf = [] then (key, count)
  else if suf.length ≤ key.length ∧ key.drop (key.length - suf.length) = suf then
    (key.take (key.length - suf.length), count - suf.count 0x2e)
  else if key.length + 1 = suf.length ∧ key = suf.drop 1 then ([], 0)
  else (key, count)

/-- Where the scan for the TLD suffix stops: the offset of the last dot of the key, or `0`
(`p == key`) when only the first byte, or none, is a dot. -/
def tldIndex (key : List UInt8) : Nat :=
  let tail := (key.reverse.takeWhile (· != 0x2e)).length
  if tail < key.length then key.length - tail - 1 else 0

/-- How the search in the name index ends: a value to answer from, with the output the
search left, or a return code. -/
inductive Searched
  | value (v : List UInt8) (o : Output)
  | done (rc : UInt16) (o : Output)

/-- The `do ... while(step_next)` search from the label at `cur`: NXDOMAIN when its name is
missing; the value of the first label's name; otherwise a step down to the label before when
an `SD=` token names it, or else the referral of `TryMakeref` when it has NS records, or else
the value of this name. -/
def Resolver.stepDown (r : Resolver) (key : List UInt8) (domains : List Nat) (labelRef : UInt16) :
    Nat → Output → Searched
  | cur, o =>
    match r.search (key.drop (domains.getD cur 0)) with
    | none => .done 3 o
    | some v =>
      match cur with
      | 0 => .value v o
      | prev + 1 =>
        let domainLen := domains.getD (prev + 1) 0 - domains.getD prev 0 - 1
        let stepNext := (tokenize [0x53, 0x44] [0x2c] v).any
          (strncmpEq domainLen (key.drop (domains.getD prev 0)))
        if stepNext then r.stepDown key domains labelRef prev o
        else
          let ref := r.tryMakeref (labelRef + UInt16.ofNat (domains.getD (prev + 1) 0)) v o
          if ref.hdr.NSCount ≠ 0 then .done 0 ref else .value v ref

/-- The search in the name index from the second-level name of the key. -/
def Resolver.searchIndex (r : Resolver) (q : Question) (key : List UInt8) (count : Nat)
    (o : Output) : UInt16 × Output :=
  match r.stepDown key q.domains q.labelRef (count - 2) o with
  | .done rc o => (rc, o)
  | .value v o => (0, r.answer q.labelRef q.qtype v o)

/-- `HandleQuery` after the QCLASS check, the `lookup` of a `Handler`: the gateway suffix cut,
the local search for a key without a TLD suffix, the TLD filter with its ENUM suffixes, the
search in the name index, and the answer. -/
def Resolver.lookup (r : Resolver) (q : Question) (o : Output) : UInt16 × Output :=
  let cut := r.cutSuffix q.key q.domains.length
  let key := cut.1
  let p := tldIndex key
  match (if p = 0 then r.localSearch.bind fun f => f key else none) with
  | some v => (0, r.answer q.labelRef q.qtype (cstr v) o)
  | none =>
    match r.tldFilter with
    | none => r.searchIndex q key cut.2 o
    | some filter =>
      if key.getD p 0 ≠ 0x2e then (3, o)
      else
        match filter (key.drop (p + 1)) with
        | none => (3, o)
        | some none => r.searchIndex q key cut.2 o
        | some (some len) => r.spfunENUM len key q.domains cut.2 q.labelRef o

/-! ### Frames of the writers -/

namespace Output

variable (o : Output)

@[simp] theorem putBytes_hdr (bs : List UInt8) : (o.putBytes bs).hdr = o.hdr := by
  induction bs generalizing o with
  | nil => rfl
  | cons b bs ih => exact ih (o.put b)

@[simp] theorem putBytes_snd (bs : List UInt8) : (o.putBytes bs).snd = o.snd + bs.length := by
  induction bs generalizing o with
  | nil => rfl
  | cons b bs ih =>
    rw [putBytes, List.foldl_cons, ← putBytes, ih, put_snd, List.length_cons]
    omega

@[simp] theorem putBytes_writes (bs : List UInt8) :
    (o.putBytes bs).writes = o.writes ++ List.range' o.snd bs.length := by
  induction bs generalizing o with
  | nil => simp [putBytes]
  | cons b bs ih =>
    rw [putBytes, List.foldl_cons, ← putBytes, ih, put_writes, put_snd, List.length_cons,
      List.range'_succ, List.append_assoc, List.singleton_append]

@[simp] theorem rrHeader_hdr (labelRef qtype : UInt16) (ttl : UInt32) :
    (o.rrHeader labelRef qtype ttl).hdr = o.hdr := by
  simp only [rrHeader, out2_hdr, out4_hdr]
@[simp] theorem rrHeader_snd (labelRef qtype : UInt16) (ttl : UInt32) :
    (o.rrHeader labelRef qtype ttl).snd = o.snd + 10 := by
  simp only [rrHeader, out2_snd, out4_snd]
@[simp] theorem rrHeader_writes (labelRef qtype : UInt16) (ttl : UInt32) :
    (o.rrHeader labelRef qtype ttl).writes = o.writes ++ List.range' o.snd 10 := by
  simp [rrHeader, List.range'_succ]

@[simp] theorem outS_hdr (p : List UInt8) : (o.outS p).hdr = o.hdr := by simp [outS]
@[simp] theorem outS_snd (p : List UInt8) : (o.outS p).snd = o.snd + p.length + 1 := rfl
@[simp] theorem outS_writes (p : List UInt8) :
    (o.outS p).writes = o.writes ++ List.range' (o.snd + 1) (p.length + 1) ++ [o.snd] := by
  simp [outS]

@[simp] theorem addAnswers_buf (n : UInt16) : (o.addAnswers n).buf = o.buf := rfl
@[simp] theorem addAnswers_snd (n : UInt16) : (o.addAnswers n).snd = o.snd := rfl
@[simp] theorem addAnswers_writes (n : UInt16) : (o.addAnswers n).writes = o.writes := rfl
@[simp] theorem addAuthority_buf (n : UInt16) : (o.addAuthority n).buf = o.buf := rfl
@[simp] theorem addAuthority_snd (n : UInt16) : (o.addAuthority n).snd = o.snd := rfl
@[simp] theorem addAuthority_writes (n : UInt16) : (o.addAuthority n).writes = o.writes := rfl

/-- A change of the header or of `m_snd` alone writes nothing. -/
theorem Extends.of_eq {o o' : Output} (buf : o'.buf = o.buf) (writes : o'.writes = o.writes) :
    Extends o o' :=
  ⟨writes ▸ List.prefix_refl _, fun _ _ => by rw [buf]⟩

theorem Extends.poke_right {o o' : Output} (h : Extends o o') (i : Nat) (b : UInt8) :
    Extends o (o'.poke i b) :=
  h.trans (Extends.poke o' i b)

theorem Extends.with_snd {o o' : Output} (h : Extends o o') (n : Nat) :
    Extends o { o' with snd := n } :=
  h.trans (Extends.of_eq rfl rfl)

theorem Extends.ite {o o₁ o₂ : Output} {c : Prop} [Decidable c] (h₁ : Extends o o₁)
    (h₂ : Extends o o₂) : Extends o (if c then o₁ else o₂) := by
  split
  · exact h₁
  · exact h₂

theorem Extends.putBytes (bs : List UInt8) : Extends o (o.putBytes bs) := by
  induction bs generalizing o with
  | nil => exact Extends.refl o
  | cons b bs ih => exact (Extends.put o b).trans (ih (o.put b))

theorem Extends.rrHeader (labelRef qtype : UInt16) (ttl : UInt32) :
    Extends o (o.rrHeader labelRef qtype ttl) :=
  (((Extends.out2 _ _).trans (Extends.out2 _ _)).trans (Extends.out2 _ _)).trans (Extends.out4 _ _)

theorem Extends.outS (p : List UInt8) : Extends o (o.outS p) := by
  have moved : Extends o { o with snd := o.snd + 1 } := Extends.of_eq rfl rfl
  have copied := moved.trans (Extends.putBytes _ (p ++ [0]))
  exact (copied.trans (Extends.poke _ o.snd (UInt8.ofNat p.length))).trans (Extends.of_eq rfl rfl)

theorem Extends.addAnswers (n : UInt16) : Extends o (o.addAnswers n) := Extends.of_eq rfl rfl

theorem Extends.addAuthority (n : UInt16) : Extends o (o.addAuthority n) := Extends.of_eq rfl rfl

/-- A fold of writers that each extend the output extends it. -/
theorem Extends.foldl {α : Type} {f : Output → α → Output} (step : ∀ o a, Extends o (f o a)) :
    ∀ (l : List α) (o : Output), Extends o (l.foldl f o)
  | [], o => Extends.refl o
  | a :: l, o => (step o a).trans (Extends.foldl step l (f o a))

end Output

open Output

theorem copyName_extends (mx : Bool) (bufend : Nat) :
    ∀ (txt : List UInt8) (d : DName), Extends d.out (copyName mx bufend txt d).out
  | [], d => Extends.refl _
  | c :: txt, d => by
    have put := Extends.put d.out c
    unfold copyName
    dsimp only
    split
    · have closed := put.trans (Extends.poke _ d.tokSz (UInt8.ofInt (((d.out.put c).snd : Int) - d.tokSz - 2)))
      split
      · exact closed.trans (copyName_extends mx bufend txt ⟨_, _, _⟩)
      · exact closed
    · split
      · exact put.trans (Extends.poke _ _ _)
      · split
        · exact put.trans (copyName_extends mx bufend txt ⟨_, _, _⟩)
        · exact put

theorem Output.Extends.fillRdDName (o : Output) (txt : List UInt8) (mxsz txtcor : Nat) :
    Extends o (o.fillRdDName txt mxsz txtcor) := by
  have moved : Extends o { o with snd := o.snd + 3 + mxsz } := Extends.of_eq rfl rfl
  have named := moved.trans (copyName_extends (mxsz != 0) (min (o.snd + 3 + mxsz + 255) MAX_OUT) (txt ++ [0])
      ⟨_, o.snd + 3 + mxsz - 1, 1⟩)
  unfold Output.fillRdDName
  dsimp only
  -- the label length, `m_snd -= txtcor`, the two length bytes and for MX the priority
  split <;> repeat (first | exact named | apply Extends.poke_right | apply Extends.with_snd)

theorem Resolver.fillRdIp_extends (r : Resolver) (o : Output) (txt : List UInt8) (af : Family) :
    Extends o (r.fillRdIp o txt af) := by
  unfold Resolver.fillRdIp
  dsimp only
  split
  · exact (Extends.out2 _ _).trans (Extends.putBytes _ _)
  · exact ((Extends.out2 _ _).trans (Extends.addAnswers _ _)).with_snd _

theorem Resolver.fillRd_extends (r : Resolver) (qtype : UInt16) (o : Output) (tok : List UInt8) :
    Extends o (r.fillRd qtype o tok) := by
  unfold Resolver.fillRd
  repeat' split
  all_goals first
    | exact r.fillRdIp_extends _ _ _
    | exact Extends.fillRdDName _ _ _ _
    | exact Extends.refl _

theorem Resolver.records_extends (r : Resolver) (labelRef qtype : UInt16) (ttl : UInt32) :
    ∀ (toks : List (List UInt8)) (o : Output), Extends o (r.records labelRef qtype ttl toks o)
  | [], o => Extends.refl o
  | _ :: toks, o =>
    ((Extends.rrHeader o _ _ _).trans (r.fillRd_extends _ _ _)).trans (r.records_extends _ _ _ toks _)

theorem Resolver.answerAll_extends (r : Resolver) (labelRef : UInt16) (ttl : UInt32)
    (qtype : UInt16) (buf : List UInt8) (o : Output) :
    Extends o (r.answerAll labelRef ttl qtype buf o) := by
  unfold Resolver.answerAll
  dsimp only
  split
  · exact Extends.refl o
  · rename_i key _
    have records := r.records_extends labelRef (qtype ^^^ (qtype &&& 0x80)) ttl
      (shuffle r.getRand (tokenize key [0x2c] buf).length (tokenize key [0x2c] buf)) o
    exact Extends.ite (records.trans (Extends.addAuthority _ _)) (records.trans (Extends.addAnswers _ _))

theorem Resolver.tryMakeref_extends (r : Resolver) (labelRef : UInt16) (value : List UInt8)
    (o : Output) : Extends o (r.tryMakeref labelRef value o) :=
  (r.answerAll_extends _ _ _ _ o).trans (Extends.of_eq rfl rfl)

theorem Resolver.answer_extends (r : Resolver) (labelRef qtype : UInt16) (value : List UInt8)
    (o : Output) : Extends o (r.answer labelRef qtype value o) := by
  have each := fun t o => r.answerAll_extends labelRef (ttlOf 3600 value) t value o
  unfold Resolver.answer
  dsimp only
  refine Extends.ite (Extends.foldl (fun o t => each t o) _ o) (Extends.ite ?_ (each qtype o))
  -- A and AAAA: the CNAME records when nothing was answered, then the NS records
  have cname := Extends.ite (c := (r.answerAll labelRef (ttlOf 3600 value) qtype value o).hdr.ANCount = 0)
    ((each qtype o).trans (each 5 _)) (each qtype o)
  exact Extends.ite cname (cname.trans (each _ _))

theorem Output.Extends.naptr (o : Output) (labelRef : UInt16) (ttl : UInt32) (ord pref : UInt16)
    (service re : List UInt8) : Extends o (o.naptr labelRef ttl ord pref service re) := by
  have head := Extends.rrHeader o labelRef 0x23 ttl
  have body := ((((((head.with_snd ((o.rrHeader labelRef 0x23 ttl).snd + 2)).trans (Extends.out2 _ ord)).trans (Extends.out2 _ pref)).trans
    (Extends.outS _ [0x75])).trans (Extends.outS _ service)).trans (Extends.outS _ re)).trans
    (Extends.put _ 0)
  unfold Output.naptr
  exact ((body.poke_right _ _).poke_right _ _).trans (Extends.addAnswers _ _)

theorem Output.Extends.handleE2U (o : Output) (labelRef : UInt16) (ttl : UInt32)
    (e2u : List UInt8) : Extends o (o.handleE2U labelRef ttl e2u) := by
  unfold Output.handleE2U
  dsimp only
  split
  · split
    · exact Extends.refl o
    · exact Extends.ite (Extends.refl o) (Extends.naptr _ _ _ _ _ _ _)
  · exact Extends.refl o

theorem Resolver.answerENUM_extends (r : Resolver) (qStr : List UInt8) (labelRef : UInt16)
    (value : List UInt8) (o : Output) : Extends o (r.answerENUM qStr labelRef value o) := by
  unfold Resolver.answerENUM
  dsimp only
  refine Extends.ite (Extends.foldl (fun o e2u => ?_) _ o) (Extends.refl o)
  exact Extends.ite (Extends.handleE2U _ _ _ _) (Extends.refl o)

theorem Resolver.enumRecords_extends (r : Resolver) (tld itut : List UInt8) (labelRef : UInt16) :
    ∀ (fuel qno : Nat) (o : Output), Extends o (r.enumRecords tld itut labelRef fuel qno o)
  | 0, _, o => Extends.refl o
  | fuel + 1, qno, o => by
    unfold Resolver.enumRecords
    dsimp only
    split
    · exact Extends.refl o
    · exact (r.answerENUM_extends _ _ _ o).trans (r.enumRecords_extends tld itut labelRef fuel _ _)

theorem Resolver.tollFreeAnswers_extends (r : Resolver) (itut : List UInt8) (labelRef : UInt16) :
    ∀ (tfs : List ((List UInt8 → Bool) × List (List UInt8))) (o : Output),
      Extends o (r.tollFreeAnswers itut labelRef tfs o)
  | [], o => Extends.refl o
  | tf :: tfs, o => by
    unfold Resolver.tollFreeAnswers
    have matched := Extends.ite (c := tf.1 itut = true)
      (Extends.foldl (fun o e2u => Extends.handleE2U o labelRef (24 * 3600) (cstr e2u)) tf.2 o)
      (Extends.refl o)
    exact Extends.ite (matched.trans (r.tollFreeAnswers_extends itut labelRef tfs _)) (Extends.refl o)

theorem Resolver.spfunENUM_extends (r : Resolver) (len : UInt8) (key : List UInt8)
    (domains : List Nat) (count : Nat) (labelRef : UInt16) (o : Output) :
    Extends o (r.spfunENUM len key domains count labelRef o).2 := by
  unfold Resolver.spfunENUM
  dsimp only
  split
  · exact Extends.refl o
  · split
    · exact Extends.refl o
    · split
      · exact Extends.refl o
      · -- the records of the name index when verifiers are configured, then the toll-free
        -- entries
        have withIndex := fun tld itut => (r.enumRecords_extends tld itut labelRef 32768 0 o).trans
          (r.tollFreeAnswers_extends itut labelRef r.tollFree _)
        have tollFreeOnly := fun itut => r.tollFreeAnswers_extends itut labelRef r.tollFree o
        split
        · split <;> exact withIndex _ _
        · split <;> exact tollFreeOnly _

/-- The output a search leaves. -/
def Searched.out : Searched → Output
  | .value _ o => o
  | .done _ o => o

theorem Resolver.stepDown_extends (r : Resolver) (key : List UInt8) (domains : List Nat)
    (labelRef : UInt16) : ∀ (cur : Nat) (o : Output),
      Extends o (r.stepDown key domains labelRef cur o).out
  | cur, o => by
    rw [Resolver.stepDown]
    split
    · exact Extends.refl o
    · cases cur with
      | zero => exact Extends.refl o
      | succ prev =>
        dsimp only
        split
        · exact r.stepDown_extends key domains labelRef prev o
        · split
          · exact r.tryMakeref_extends _ _ o
          · exact r.tryMakeref_extends _ _ o

theorem Resolver.searchIndex_extends (r : Resolver) (q : Question) (key : List UInt8)
    (count : Nat) (o : Output) : Extends o (r.searchIndex q key count o).2 := by
  have searched := r.stepDown_extends key q.domains q.labelRef (count - 2) o
  unfold Resolver.searchIndex
  split
  · rename_i rc o' found
    rw [found] at searched
    exact searched
  · rename_i v o' found
    rw [found] at searched
    exact searched.trans (r.answer_extends _ _ _ _)

/-- The answer side only adds recorded writes to the output. -/
theorem Resolver.lookup_extends (r : Resolver) (q : Question) (o : Output) :
    Extends o (r.lookup q o).2 := by
  unfold Resolver.lookup
  dsimp only
  split
  · exact r.answer_extends _ _ _ o
  · split
    · exact r.searchIndex_extends _ _ _ o
    · split
      · exact Extends.refl o
      · split
        · exact Extends.refl o
        · exact r.searchIndex_extends _ _ _ o
        · exact r.spfunENUM_extends _ _ _ _ _ o

/-! ### The path of a plain query -/

/-- With no gateway suffix, no local names and no TLD filter, a question goes to the name
index as it stands. -/
theorem Resolver.lookup_plain (r : Resolver) (noSuffix : r.gwSuffix = [])
    (noLocal : r.localSearch = none) (noFilter : r.tldFilter = none) (q : Question) (o : Output) :
    r.lookup q o = r.searchIndex q q.key q.domains.length o := by
  unfold Resolver.lookup
  simp [Resolver.cutSuffix, noSuffix, noLocal, noFilter]

/-- The search from the first label is the search for the whole key. -/
theorem Resolver.stepDown_zero (r : Resolver) (key : List UInt8) (domains : List Nat)
    (labelRef : UInt16) (o : Output) :
    r.stepDown key domains labelRef 0 o =
      match r.search (key.drop (domains.getD 0 0)) with
      | none => .done 3 o
      | some v => .value v o := by
  rw [Resolver.stepDown]

/-- Any type but `ANY`, A and AAAA is answered with the records of its own entry. -/
theorem Resolver.answer_other (r : Resolver) (labelRef qtype : UInt16) (value : List UInt8)
    (o : Output) (notAny : qtype ≠ 0xff) (notA : qtype ≠ 1) (notAAAA : qtype ≠ 28) :
    r.answer labelRef qtype value o = r.answerAll labelRef (ttlOf 3600 value) qtype value o := by
  simp [Resolver.answer, notAny, notA, notAAAA]

/-- `Answer_ALL` for NS: a record for each shuffled name of the `NS` entry, counted as
answers. -/
theorem Resolver.answerAll_ns (r : Resolver) (labelRef : UInt16) (ttl : UInt32)
    (buf : List UInt8) (o : Output) :
    r.answerAll labelRef ttl 2 buf o =
      (r.records labelRef 2 ttl (shuffle r.getRand (tokenize [0x4e, 0x53] [0x2c] buf).length
        (tokenize [0x4e, 0x53] [0x2c] buf)) o).addAnswers
        (UInt16.ofNat (tokenize [0x4e, 0x53] [0x2c] buf).length) := by
  have key : rrKey 2 = some [0x4e, 0x53] := by decide
  have plain : (2 : UInt16) &&& 0x80 = 0 := by decide
  have same : (2 : UInt16) ^^^ 0 = 2 := by decide
  unfold Resolver.answerAll
  simp only [plain, same, key, ne_eq, not_true_eq_false, if_false]

/-! ### Where a record of `Answer_ALL` lands -/

/-- A name `Fill_RD_DName` copies in one piece: no NUL, no dot and no colon in it. -/
def PlainName (txt : List UInt8) : Prop := ∀ c ∈ txt, c ≠ 0 ∧ c ≠ 0x2e ∧ c ≠ 0x3a

/-- How many bytes the loop of `Fill_RD_DName` stores for a plain name of `len` bytes from
`m_snd = snd`: the name and its NUL, cut at `bufend`, and one byte at least. -/
def namedBytes (len bufend snd : Nat) : Nat := min (len + 1) (max 1 (bufend - snd))

theorem copyName_plain (mx : Bool) (bufend : Nat) :
    ∀ {txt : List UInt8}, PlainName txt → ∀ d : DName,
      (copyName mx bufend (txt ++ [0]) d).tokSz = d.tokSz ∧
      (copyName mx bufend (txt ++ [0]) d).out.snd = d.out.snd + namedBytes txt.length bufend d.out.snd ∧
      (copyName mx bufend (txt ++ [0]) d).out.writes =
        d.out.writes ++ List.range' d.out.snd (namedBytes txt.length bufend d.out.snd)
  | [], _, d => by
    simp [copyName, namedBytes]
  | c :: txt, plain, d => by
    obtain ⟨nul, dot, colon⟩ := plain c (List.mem_cons_self ..)
    have rest : PlainName txt := fun b hb => plain b (List.mem_cons_of_mem _ hb)
    rw [List.cons_append, copyName]
    simp only [if_neg dot, colon, false_and, if_false, ne_eq, nul, not_false_eq_true, true_and,
      Output.put_snd]
    split
    · -- room left: the loop goes on with the rest of the name
      rename_i room
      obtain ⟨tok, snd, writes⟩ := copyName_plain mx bufend rest { d with out := d.out.put c }
      have more : namedBytes (txt.length + 1) bufend d.out.snd =
          namedBytes txt.length bufend (d.out.snd + 1) + 1 := by
        simp only [namedBytes]
        omega
      refine ⟨tok, ?_, ?_⟩
      · rw [snd, List.length_cons, more, Output.put_snd]
        omega
      · rw [writes, List.length_cons, more, List.range'_succ, Output.put_writes, Output.put_snd,
          List.append_assoc, List.singleton_append]
    · -- `m_snd` reached `bufend`: this byte was the last
      rename_i full
      have one : namedBytes (txt.length + 1) bufend d.out.snd = 1 := by
        simp only [namedBytes]
        omega
      refine ⟨rfl, ?_, ?_⟩
      · simp [List.length_cons, one]
      · simp [List.length_cons, one]

@[simp] theorem copyName_hdr (mx : Bool) (bufend : Nat) :
    ∀ (txt : List UInt8) (d : DName), (copyName mx bufend txt d).out.hdr = d.out.hdr
  | [], d => rfl
  | c :: txt, d => by
    unfold copyName
    dsimp only
    split
    · split
      · rw [copyName_hdr]
        simp
      · simp
    · split
      · simp
      · split
        · rw [copyName_hdr]
          simp
        · simp

@[simp] theorem Output.fillRdDName_hdr (o : Output) (txt : List UInt8) (mxsz txtcor : Nat) :
    (o.fillRdDName txt mxsz txtcor).hdr = o.hdr := by
  unfold Output.fillRdDName
  dsimp only
  split <;> simp [copyName_hdr]

/-- An NS, CNAME or PTR name in one piece: the two length bytes and the label length byte
around the bytes the loop stores, `m_snd` just past them. -/
theorem Output.fillRdDName_plain (o : Output) {txt : List UInt8} (plain : PlainName txt) :
    (o.fillRdDName txt 0 0).snd =
        o.snd + 3 + namedBytes txt.length (min (o.snd + 258) MAX_OUT) (o.snd + 3) ∧
      (o.fillRdDName txt 0 0).writes = o.writes ++
        List.range' (o.snd + 3) (namedBytes txt.length (min (o.snd + 258) MAX_OUT) (o.snd + 3)) ++
        [o.snd + 2, o.snd, o.snd + 1] := by
  obtain ⟨tok, snd, writes⟩ := copyName_plain false (min (o.snd + 258) MAX_OUT) plain
    ⟨{ o with snd := o.snd + 3 }, o.snd + 2, 1⟩
  unfold Output.fillRdDName
  simp only [Nat.add_zero, bne_self_eq_false, ne_eq, not_true_eq_false, if_false,
    show o.snd + 3 + 255 = o.snd + 258 by omega, show o.snd + 3 - 1 = o.snd + 2 by omega]
  generalize copyName false (min (o.snd + 258) MAX_OUT) (txt ++ [0])
    ⟨{ o with snd := o.snd + 3 }, o.snd + 2, 1⟩ = d at tok snd writes ⊢
  simp [tok, snd, writes]

/-- An NS record: `Answer_ALL` answers type 2 with names. -/
theorem Resolver.fillRd_ns (r : Resolver) (o : Output) (tok : List UInt8) :
    r.fillRd 2 o tok = o.fillRdDName tok 0 0 := by
  simp [Resolver.fillRd]

/-- One NS record of a plain name from `m_snd`: the ten header bytes, the three length bytes
and the bytes of the name `Fill_RD_DName` stores. -/
theorem Resolver.record_ns (r : Resolver) (labelRef : UInt16) (ttl : UInt32) (o : Output)
    {tok : List UInt8} (plain : PlainName tok) :
    (r.fillRd 2 (o.rrHeader labelRef 2 ttl) tok).snd =
        o.snd + 13 + namedBytes tok.length (min (o.snd + 268) MAX_OUT) (o.snd + 13) ∧
      (r.fillRd 2 (o.rrHeader labelRef 2 ttl) tok).writes = o.writes ++ List.range' o.snd 10 ++
        List.range' (o.snd + 13) (namedBytes tok.length (min (o.snd + 268) MAX_OUT) (o.snd + 13)) ++
        [o.snd + 12, o.snd + 10, o.snd + 11] := by
  obtain ⟨snd, writes⟩ := (o.rrHeader labelRef 2 ttl).fillRdDName_plain plain
  rw [r.fillRd_ns, snd, writes, Output.rrHeader_snd, Output.rrHeader_writes,
    show o.snd + 10 + 258 = o.snd + 268 by omega, show o.snd + 10 + 3 = o.snd + 13 by omega,
    show o.snd + 10 + 2 = o.snd + 12 by omega]
  exact ⟨by omega, rfl⟩

theorem Resolver.records_append (r : Resolver) (labelRef qtype : UInt16) (ttl : UInt32) :
    ∀ (l₁ l₂ : List (List UInt8)) (o : Output),
      r.records labelRef qtype ttl (l₁ ++ l₂) o =
        r.records labelRef qtype ttl l₂ (r.records labelRef qtype ttl l₁ o)
  | [], _, _ => rfl
  | _ :: l₁, l₂, _ => r.records_append labelRef qtype ttl l₁ l₂ _

section NameRecords

variable (r : Resolver) (labelRef : UInt16) (ttl : UInt32) {tok : List UInt8}
  (plain : PlainName tok)

include plain

/-- While they fit below `m_bufend`, NS records of one plain name of fewer than 255 bytes
take its bytes, its NUL and 13 more each. -/
theorem Resolver.records_ns_fit (short : tok.length < 255) :
    ∀ (k : Nat) (o : Output), o.snd + k * (tok.length + 14) ≤ MAX_OUT →
      (r.records labelRef 2 ttl (List.replicate k tok) o).snd = o.snd + k * (tok.length + 14)
  | 0, o, _ => by simp [Resolver.records]
  | k + 1, o, fits => by
    obtain ⟨snd, -⟩ := r.record_ns labelRef ttl o plain
    have whole : namedBytes tok.length (min (o.snd + 268) MAX_OUT) (o.snd + 13) = tok.length + 1 := by
      simp only [namedBytes]
      rw [Nat.succ_mul] at fits
      omega
    rw [Nat.succ_mul] at fits ⊢
    rw [List.replicate_succ, Resolver.records,
      Resolver.records_ns_fit short k _ (by rw [snd, whole]; omega), snd, whole]
    omega

/-- Once `m_snd` is within 13 bytes of `m_bufend` or past it, every NS record of a plain name
still takes 14 bytes, and stores the first byte of the name 13 bytes after its start. -/
theorem Resolver.records_ns_past :
    ∀ (k : Nat) (o : Output), MAX_OUT ≤ o.snd + 13 →
      (r.records labelRef 2 ttl (List.replicate (k + 1) tok) o).snd = o.snd + 14 * (k + 1) ∧
        o.snd + 14 * k + 13 ∈ (r.records labelRef 2 ttl (List.replicate (k + 1) tok) o).writes
  | k, o, past => by
    obtain ⟨snd, writes⟩ := r.record_ns labelRef ttl o plain
    have one : namedBytes tok.length (min (o.snd + 268) MAX_OUT) (o.snd + 13) = 1 := by
      simp only [namedBytes]
      omega
    rw [one] at snd writes
    cases k with
    | zero =>
      refine ⟨by simp [Resolver.records, snd], ?_⟩
      simp [Resolver.records, writes]
    | succ k =>
      obtain ⟨sndRest, writesRest⟩ := Resolver.records_ns_past k _ (by rw [snd]; omega)
      rw [List.replicate_succ, Resolver.records]
      rw [snd] at sndRest writesRest
      refine ⟨by rw [sndRest]; omega, ?_⟩
      rw [show o.snd + 14 * (k + 1) + 13 = o.snd + 13 + 1 + 14 * k + 13 by omega]
      exact writesRest

end NameRecords

theorem shuffle_replicate {α : Type} [Inhabited α] (getRand : Nat → Nat) (a : α) {k : Nat} :
    ∀ n ≤ k, shuffle getRand n (List.replicate k a) = List.replicate k a
  | 0, _ => rfl
  | 1, _ => rfl
  | i + 2, le => by
    have drawn : getRand (i + 2) % (i + 2) < k :=
      Nat.lt_of_lt_of_le (Nat.mod_lt _ (by omega)) le
    have each : ∀ j < k, (List.replicate k a).getD j default = a := fun j lt => by
      simp [List.getD_eq_getElem?_getD, lt]
    rw [shuffle, each _ (by omega), each _ drawn, List.set_replicate_self, List.set_replicate_self]
    exact shuffle_replicate getRand a (i + 1) (by omega)

end MFCoin.Dns
