import AelfApp.Libsol.Parser
import AelfApp.Lib.Numeral

/-!
The printers (`printer.c`, and `rfc3339.c` for timestamps). Each fills a
character buffer given with its length and returns zero, or a code that says
why it did not. The buffer is an array of its own, so an access outside it is a
fault whatever the length says.
-/

namespace AelfApp.Libsol

open Memory Numeral

def exceptionOverflow : Nat := 3
def invalidParameter : Nat := 2

def summaryLength : Nat := 7
def titleSize : Nat := 32
def base58PubkeyLength : Nat := 45
def base58PubkeyShort : Nat := summaryLength + 2 + summaryLength + 1

def charSpace : UInt8 := 0x20
def charMinus : UInt8 := 0x2D
def charTilde : UInt8 := 0x7E
def charColon : UInt8 := 0x3A

/-- `strncpy(out + i, in, n)`. -/
def strncpyAt (out : List UInt8) (i : Int) (src : List UInt8) (n : Nat) : Checked (List UInt8) :=
  writeBytes out i (strncpyBytes src n)

/-- The loop that exchanges `out[j]` and `out[k]` and moves both inwards. -/
def reverseLoop : Nat → Int → Int → List UInt8 → Checked (List UInt8)
  | 0, j, k, out => if j < k then .error .endlessLoop else .ok out
  | fuel + 1, j, k, out => do
    if j < k then
      let tmp ← readAt out j
      let other ← readAt out k
      let out ← writeAt out j other
      let out ← writeAt out k tmp
      reverseLoop fuel (j + 1) (k - 1) out
    else
      return out

/-- The point of `print_token_amount`, where the integer part begins. -/
def putPoint (decimals i : Nat) (out : List UInt8) : Checked (Nat × List UInt8) :=
  if i = decimals then do
    let out ← writeAt out i charPoint
    return (i + 1, out)
  else
    return (i, out)

/-- The digits of `print_token_amount`, least significant first. Returns the
end of what it wrote. -/
def tokenDigitLoop (decimals minChars outlen : Nat) :
    Nat → UInt64 → Nat → List UInt8 → Checked (Nat × List UInt8)
  | 0, _, _, _ => .error .endlessLoop
  | fuel + 1, dVal, i, out => do
    let (i, out) ← putPoint decimals i out
    let out ← writeAt out i (digitChar (dVal % 10).toNat)
    let dVal := dVal / 10
    let i := i + 1
    if (dVal > 0 ∨ i < minChars) ∧ i < outlen then
      tokenDigitLoop decimals minChars outlen fuel dVal i out
    else
      return (i, out)

/-- The loop runs only if there is room for more than the terminator. -/
def tokenDigits (amount : UInt64) (decimals outlen : Nat) (out : List UInt8) :
    Checked (Nat × List UInt8) :=
  if (0 : Int) < (outlen : Int) - 1 then
    tokenDigitLoop decimals (decimals + 1) outlen outlen amount 0 out
  else .ok (0, out)

/-- Moves `i` down over trailing zeros, but not below zero. -/
def stripZerosLoop : Nat → Int → List UInt8 → Checked Int
  | 0, i, _ => if i > 0 then .error .endlessLoop else .ok i
  | fuel + 1, i, out => do
    if i > 0 then
      let c ← readAt out i
      if c ≠ charZero then
        return i
      stripZerosLoop fuel (i - 1) out
    else
      return i

/-- The end of the numeral without trailing zeros and a trailing point. -/
def stripNumeral (outlen i : Nat) (out : List UInt8) : Checked Int := do
  let i ← stripZerosLoop outlen ((i : Int) - 1) out
  let i := i + 1
  let last ← readAt out (i - 1)
  return if last = charPoint then i - 1 else i

/-- A `strlen` that is stored in an `int`: from 2^31 on it comes out negative.
No string has more characters than the address space has room for. -/
def intLength (n : Nat) : Checked Int :=
  if n ≤ intMax then .ok n
  else if n < SizeT.bits32.max then .ok ((n : Int) - 2 ^ 32)
  else .error .sizeWrap

/-- `a + b` on `int`. -/
def addInt (a b : Int) : Checked Int :=
  if -2 ^ 31 ≤ a + b ∧ a + b ≤ intMax then .ok (a + b) else .error .intOverflow

/-- An `int` passed as the number of characters of a `strncpy`. -/
def charCount (n : Int) : Nat := (n % 2 ^ 32).toNat

/-- Ends the text at `i`, behind the asset if there is one: `asset` is `none`
where the source has `NULL`. -/
def qualifyAmount (asset : Option CString) (i : Int) (out : List UInt8) (outlen : Nat) :
    Checked (Nat × List UInt8) :=
  match asset with
  | some asset => do
    let assetLength ← intLength asset.chars.length
    let needed ← addInt (i + 1) assetLength
    let needed ← addInt needed 1
    if needed > outlen then
      return (1, out)
    let out ← writeAt out i charSpace
    let out ← strncpyAt out (i + 1) asset.chars (charCount (assetLength + 1))
    return (0, out)
  | none => do
    let out ← writeAt out i 0
    return (0, out)

def printTokenAmount (amount : UInt64) (asset : Option CString) (decimals : UInt8)
    (out : List UInt8) (outLength : Nat) : Checked (Nat × List UInt8) := do
  if outLength > intMax then
    return (1, out)
  let outlen := outLength
  let (i, out) ← tokenDigits amount decimals.toNat outlen out
  if i ≥ outlen then
    return (1, out)
  let out ← reverseLoop outlen 0 ((i : Int) - 1) out
  let i ← stripNumeral outlen i out
  qualifyAmount asset i out outlen

def elfDecimals : UInt8 := 8

def printAmount (amount : UInt64) (out : List UInt8) (outLength : Nat) :
    Checked (Nat × List UInt8) :=
  printTokenAmount amount (some (.lit "ELF")) elfDecimals out outLength

/-- `~` in front of the terminator, if there is room for it. -/
def signalTruncation (out : List UInt8) (outLength : Nat) : Checked (List UInt8) :=
  if outLength ≠ 0 then writeAt out ((outLength : Int) - 1) charTilde else .ok out

def printSizedString {β : Type} (mem : Mem β) (string : SizedString β) (out : List UInt8)
    (outLength : Nat) : Checked (Nat × List UInt8) := do
  let len := min outLength string.length.toNat
  let src ← mem.loadBytes string.string len
  let out ← strncpyAt out 0 src len
  if string.length.toNat < outLength then
    let out ← writeAt out string.length.toNat 0
    return (0, out)
  else
    let outLength ← subSize outLength 1
    let out ← writeAt out outLength 0
    let out ← signalTruncation out outLength
    return (1, out)

def printString (text : List UInt8) (out : List UInt8) (outLength : Nat) :
    Checked (Nat × List UInt8) := do
  let out ← strncpyAt out 0 text outLength
  let outLength ← subSize outLength 1
  let last ← readAt out outLength
  if last ≠ 0 then
    let out ← writeAt out outLength 0
    let out ← signalTruncation out outLength
    return (1, out)
  return (0, out)

def printSummary (text : List UInt8) (out : List UInt8) (outLength leftLength rightLength : Nat) :
    Checked (Nat × List UInt8) := do
  if outLength ≤ leftLength + rightLength + 2 then
    return (1, out)
  let inLength := (cString text).length
  if inLength + 1 > outLength then
    let left ← readBytes text 0 leftLength
    let out ← writeBytes out 0 left
    let out ← writeAt out leftLength charPoint
    let out ← writeAt out ((leftLength + 1 : Nat) : Int) charPoint
    let right ← readBytes text ((inLength : Int) - rightLength) rightLength
    let out ← writeBytes out ((leftLength + 2 : Nat) : Int) right
    let out ← writeAt out ((leftLength + rightLength + 2 : Nat) : Int) 0
    return (0, out)
  else
    let (_, out) ← printString text out outLength
    return (0, out)

def base58Alphabet : List UInt8 :=
  ascii "123456789ABCDEFGHJKLMNPQRSTUVWXYZabcdefghijkmnopqrstuvwxyz"

/-- The character of a base58 digit, `BASE58_ALPHABET[digit]`. -/
def base58Char (digit : Nat) : UInt8 := base58Alphabet.getD digit 0

/-- One pass of the division by 58 over the bytes from `start_at` on: the
quotient in place of the bytes, and the remainder. -/
def divLoop : List UInt8 → UInt16 → List UInt8 × UInt16
  | [], remainder => ([], remainder)
  | digit256 :: rest, remainder =>
    let tmpDiv := remainder * 256 + digit256.toUInt16
    let (tail, final) := divLoop rest (tmpDiv % 58)
    ((tmpDiv / 58).toUInt8 :: tail, final)

/-- The passes of the division. `tmp` is the input from `start_at` on, and
each pass puts one digit before those already in `buffer`. -/
def base58Loop : Nat → List UInt8 → UInt8 → List UInt8 → Checked (UInt8 × List UInt8)
  | _, [], j, buffer => .ok (j, buffer)
  | 0, _ :: _, _, _ => .error .endlessLoop
  | fuel + 1, top :: rest, j, buffer => do
    let (tmp, remainder) := divLoop (top :: rest) 0
    let tmp := if tmp.head? = some 0 then tmp.tail else tmp
    let j := j - 1
    let buffer ← writeAt buffer j.toNat (base58Char remainder.toNat)
    base58Loop fuel tmp j buffer

/-- Moves `j` up over surplus high digits. -/
def skipZerosLoop (length : Nat) : Nat → UInt8 → List UInt8 → Checked UInt8
  | 0, _, _ => .error .endlessLoop
  | fuel + 1, j, buffer => do
    if j.toNat < 2 * length then
      let c ← readAt buffer j.toNat
      if c = base58Char 0 then
        skipZerosLoop length fuel (j + 1) buffer
      else
        return j
    else
      return j

/-- Puts one leading character for each leading zero byte. -/
def leadingOnesLoop : Nat → UInt8 → List UInt8 → Checked (UInt8 × List UInt8)
  | 0, j, buffer => .ok (j, buffer)
  | zeroCount + 1, j, buffer => do
    let j := j - 1
    let buffer ← writeAt buffer j.toNat (base58Char 0)
    leadingOnesLoop zeroCount j buffer

def base58BufferSize : Nat := 64

/-- The local `buffer` is not initialised, and no part of it is read before it
is written. -/
def encodeBase58 (input : List UInt8) (out : List UInt8) (maxoutlen : Nat) :
    Checked (Nat × List UInt8) := do
  let length := input.length
  if length > base58BufferSize then
    return (invalidParameter, out)
  let zeroCount := (input.takeWhile (· = 0)).length
  let buffer := List.replicate base58BufferSize 0
  let (j, buffer) ← base58Loop (2 * length) (input.drop zeroCount) (UInt8.ofNat (2 * length)) buffer
  let j ← skipZerosLoop length (2 * length + 1) j buffer
  let (j, buffer) ← leadingOnesLoop zeroCount j buffer
  let length ← subSize (2 * length) j.toNat
  if maxoutlen < length + 1 then
    return (exceptionOverflow, out)
  let text ← readBytes buffer j.toNat length
  let out ← writeBytes out 0 text
  let out ← writeAt out length 0
  return (0, out)

/-- One digit of `print_u64`, and the number without it. -/
def putDigit (dVal : UInt64) (i : Nat) (out : List UInt8) : Checked (UInt64 × List UInt8) :=
  if dVal > 0 then do
    let out ← writeAt out i (digitChar (dVal % 10).toNat)
    return (dVal / 10, out)
  else do
    let out ← writeAt out i charZero
    return (dVal, out)

/-- The digits of `print_u64`, least significant first. -/
def digitLoop (outlen : Nat) : Nat → UInt64 → Nat → List UInt8 → Checked (Nat × List UInt8)
  | 0, _, _, _ => .error .endlessLoop
  | fuel + 1, dVal, i, out => do
    let (dVal, out) ← putDigit dVal i out
    let i := i + 1
    if dVal > 0 ∧ i < outlen then
      digitLoop outlen fuel dVal i out
    else
      return (i, out)

/-- The loop runs only if there is room for more than the terminator. -/
def u64Digits (u64 : UInt64) (outlen : Nat) (out : List UInt8) : Checked (Nat × List UInt8) :=
  if (0 : Int) < (outlen : Int) - 1 then digitLoop outlen outlen u64 0 out else .ok (0, out)

def printU64 (u64 : UInt64) (out : List UInt8) (outLength : Nat) : Checked (Nat × List UInt8) := do
  if outLength > intMax then
    return (1, out)
  let outlen := outLength
  let (i, out) ← u64Digits u64 outlen out
  if i ≥ outlen then
    return (1, out)
  let out ← writeAt out i 0
  let out ← reverseLoop outlen 0 ((i : Int) - 1) out
  return (0, out)

/-- The value is the bit pattern of the `int64_t`. -/
def printI64 (i64 : UInt64) (out : List UInt8) (outLength : Nat) : Checked (Nat × List UInt8) := do
  if outLength < 1 then
    return (1, out)
  if i64.toNat ≥ 2 ^ 63 then
    let out ← writeAt out 0 charMinus
    let u64 := (i64 ^^^ 0xffffffffffffffff) + 1
    let (ret, tail) ← printU64 u64 (out.drop 1) (outLength - 1)
    return (ret, out.take 1 ++ tail)
  printU64 i64 out outLength

def dayOffset : List UInt32 := [0, 306, 337, 0, 31, 61, 92, 122, 153, 184, 214, 245, 275]

/-- Year, month and day of a day number, in 32-bit arithmetic. -/
def rdnToYmd (rdn : UInt32) : Option (UInt16 × UInt16 × UInt16) :=
  let z := rdn + 306
  let h := 100 * z - 25
  let a := h / 3652425
  let b := a - a >>> 2
  let y := (100 * b + h) / 36525
  let d := b + z - (1461 * y) >>> 2
  let m := (535 * d + 48950) >>> 14
  let (y, m) := if m > 12 then (y + 1, m - 12) else (y, m)
  if y > 9999 ∨ m > 12 ∨ d > 31 + dayOffset.getD m.toNat 0 then none
  else some (y.toUInt16, m.toUInt16, (d - dayOffset.getD m.toNat 0).toUInt16)

/-- Seconds from the first day number to 1970-01-01 00:00:00. -/
def epoch : UInt64 := 62135683200

/-- `YYYY-MM-DD hh:mm:ss` of a date and a second of the day. -/
def rfc3339Text (y m d : UInt16) (v : UInt32) : List UInt8 :=
  [digitChar (y / 1000 % 10).toNat, digitChar (y / 100 % 10).toNat,
    digitChar (y / 10 % 10).toNat, digitChar (y % 10).toNat, charMinus,
    digitChar (m / 10 % 10).toNat, digitChar (m % 10).toNat, charMinus,
    digitChar (d / 10 % 10).toNat, digitChar (d % 10).toNat, charSpace,
    digitChar (v / 10 / 6 / 10 / 6 / 10 % 10).toNat, digitChar (v / 10 / 6 / 10 / 6 % 10).toNat,
    charColon, digitChar (v / 10 / 6 / 10 % 6).toNat, digitChar (v / 10 / 6 % 10).toNat,
    charColon, digitChar (v / 10 % 6).toNat, digitChar (v % 10).toNat]

/-- `a + b` on `int64_t`, on bit patterns. -/
def addInt64 (a b : UInt64) : Checked UInt64 :=
  let sum := a.toInt64.toInt + b.toInt64.toInt
  if -2 ^ 63 ≤ sum ∧ sum < 2 ^ 63 then .ok (a + b) else .error .intOverflow

/-- The value is the bit pattern of the `int64_t`. -/
def rfc3339Format (out : List UInt8) (len : Nat) (seconds : UInt64) :
    Checked (Nat × List UInt8) := do
  let dlen := 19
  if dlen ≥ len then
    return (1, out)
  let sec ← addInt64 seconds epoch
  let rdn := (sec / 86400).toUInt32
  match rdnToYmd rdn with
  | none => return (1, out)
  | some (y, m, d) =>
    let out ← writeBytes out 0 (rfc3339Text y m d (sec % 86400).toUInt32)
    let out ← writeAt out dlen 0
    return (0, out)

def printTimestamp (timestamp : UInt64) (out : List UInt8) (outLength : Nat) :
    Checked (Nat × List UInt8) :=
  rfc3339Format out outLength timestamp

section Sizes

/-- What a printer returns is the buffer it was given, filled. -/
abbrev KeepsSize (size : Nat) (call : Checked (Nat × List UInt8)) : Prop :=
  Ensures call fun result => result.2.length = size

theorem writeAt_size {out : List UInt8} {size : Nat} (h : out.length = size) (i : Int) (c : UInt8) :
    Ensures (writeAt out i c) fun out => out.length = size :=
  fun _ hwrite => (writeAt_length hwrite).trans h

theorem writeBytes_size {out : List UInt8} {size : Nat} (h : out.length = size) (i : Int)
    (data : List UInt8) : Ensures (writeBytes out i data) fun out => out.length = size :=
  fun _ hwrite => (writeBytes_length hwrite).trans h

theorem reverseLoop_size {size : Nat} (fuel : Nat) (j k : Int) (out : List UInt8)
    (h : out.length = size) : Ensures (reverseLoop fuel j k out) fun out => out.length = size := by
  induction fuel generalizing j k out with
  | zero =>
      simp only [reverseLoop]
      split
      · rintro _ ⟨⟩
      · exact ensures_ok h
  | succ fuel ih =>
      simp only [reverseLoop]
      split
      · refine ensures_bind fun tmp => ?_
        refine ensures_bind fun other => ?_
        refine (writeAt_size h _ _).bind fun out hout => ?_
        refine (writeAt_size hout _ _).bind fun out hout => ?_
        exact ih _ _ out hout
      · exact ensures_ok h

theorem putPoint_size {size : Nat} (decimals i : Nat) {out : List UInt8} (h : out.length = size) :
    KeepsSize size (putPoint decimals i out) := by
  simp only [putPoint]
  split
  · exact (writeAt_size h _ _).bind fun out hout => ensures_ok hout
  · exact ensures_ok h

theorem tokenDigitLoop_size {size : Nat} (decimals minChars outlen fuel : Nat) (dVal : UInt64)
    (i : Nat) (out : List UInt8) (h : out.length = size) :
    KeepsSize size (tokenDigitLoop decimals minChars outlen fuel dVal i out) := by
  induction fuel generalizing dVal i out with
  | zero => rintro _ ⟨⟩
  | succ fuel ih =>
      simp only [tokenDigitLoop]
      refine (putPoint_size decimals i h).bind ?_
      rintro ⟨i, out⟩ hout
      refine (writeAt_size hout _ _).bind fun out hout => ?_
      split
      · exact ih _ _ out hout
      · exact ensures_ok hout

theorem tokenDigits_size {size : Nat} (amount : UInt64) (decimals outlen : Nat)
    {out : List UInt8} (h : out.length = size) :
    KeepsSize size (tokenDigits amount decimals outlen out) := by
  unfold tokenDigits
  split
  · exact tokenDigitLoop_size _ _ _ _ _ _ _ h
  · exact ensures_ok h

theorem strncpyAt_size {out : List UInt8} {size : Nat} (h : out.length = size) (i : Int)
    (src : List UInt8) (n : Nat) : Ensures (strncpyAt out i src n) fun out => out.length = size :=
  writeBytes_size h i _

theorem qualifyAmount_size {size : Nat} (asset : Option CString) (i : Int) (outlen : Nat)
    {out : List UInt8} (h : out.length = size) :
    KeepsSize size (qualifyAmount asset i out outlen) := by
  cases asset with
  | some asset =>
      simp only [qualifyAmount]
      refine ensures_bind fun assetLength => ?_
      refine ensures_bind fun needed => ?_
      refine ensures_bind fun needed => ?_
      split
      · exact ensures_ok h
      refine (writeAt_size h _ _).bind fun out hout => ?_
      exact (strncpyAt_size hout _ _ _).bind fun out hout => ensures_ok hout
  | none => exact (writeAt_size h _ _).bind fun out hout => ensures_ok hout

theorem printTokenAmount_size {size : Nat} (amount : UInt64) (asset : Option CString)
    (decimals : UInt8) (out : List UInt8) (outLength : Nat) (h : out.length = size) :
    KeepsSize size (printTokenAmount amount asset decimals out outLength) := by
  simp only [printTokenAmount]
  split
  · exact ensures_ok h
  refine (tokenDigits_size amount _ _ h).bind ?_
  rintro ⟨i, out⟩ hout
  dsimp only at hout ⊢
  split
  · exact ensures_ok hout
  refine (reverseLoop_size _ _ _ _ hout).bind fun out hout => ?_
  exact ensures_bind fun i => qualifyAmount_size asset i outLength hout

theorem printAmount_size {size : Nat} (amount : UInt64) (out : List UInt8) (outLength : Nat)
    (h : out.length = size) : KeepsSize size (printAmount amount out outLength) :=
  printTokenAmount_size _ _ _ _ _ h

theorem signalTruncation_size {out : List UInt8} {size : Nat} (h : out.length = size) (n : Nat) :
    Ensures (signalTruncation out n) fun out => out.length = size := by
  unfold signalTruncation
  split
  · exact writeAt_size h _ _
  · exact ensures_ok h

theorem printSizedString_size {β : Type} {size : Nat} (mem : Mem β) (string : SizedString β)
    (out : List UInt8) (outLength : Nat) (h : out.length = size) :
    KeepsSize size (printSizedString mem string out outLength) := by
  simp only [printSizedString]
  refine ensures_bind fun src => ?_
  refine (strncpyAt_size h _ _ _).bind fun out hout => ?_
  split
  · exact (writeAt_size hout _ _).bind fun out hout => ensures_ok hout
  · refine ensures_bind fun n => ?_
    refine (writeAt_size hout _ _).bind fun out hout => ?_
    exact (signalTruncation_size hout n).bind fun out hout => ensures_ok hout

theorem printString_size {size : Nat} (text out : List UInt8) (outLength : Nat)
    (h : out.length = size) : KeepsSize size (printString text out outLength) := by
  simp only [printString]
  refine (strncpyAt_size h _ _ _).bind fun out hout => ?_
  refine ensures_bind fun n => ?_
  refine ensures_bind fun last => ?_
  split
  · refine (writeAt_size hout _ _).bind fun out hout => ?_
    exact (signalTruncation_size hout n).bind fun out hout => ensures_ok hout
  · exact ensures_ok hout

theorem printSummary_size {size : Nat} (text out : List UInt8)
    (outLength leftLength rightLength : Nat) (h : out.length = size) :
    KeepsSize size (printSummary text out outLength leftLength rightLength) := by
  simp only [printSummary]
  split
  · exact ensures_ok h
  split
  · refine ensures_bind fun left => ?_
    refine (writeBytes_size h _ _).bind fun out hout => ?_
    refine (writeAt_size hout _ _).bind fun out hout => ?_
    refine (writeAt_size hout _ _).bind fun out hout => ?_
    refine ensures_bind fun right => ?_
    refine (writeBytes_size hout _ _).bind fun out hout => ?_
    exact (writeAt_size hout _ _).bind fun out hout => ensures_ok hout
  · exact (printString_size text out outLength h).bind fun result hresult => ensures_ok hresult

theorem encodeBase58_size {size : Nat} (input out : List UInt8) (maxoutlen : Nat)
    (h : out.length = size) : KeepsSize size (encodeBase58 input out maxoutlen) := by
  simp only [encodeBase58]
  split
  · exact ensures_ok h
  refine ensures_bind fun _ => ?_
  refine ensures_bind fun _ => ?_
  refine ensures_bind fun _ => ?_
  refine ensures_bind fun _ => ?_
  split
  · exact ensures_ok h
  refine ensures_bind fun text => ?_
  refine (writeBytes_size h _ _).bind fun out hout => ?_
  exact (writeAt_size hout _ _).bind fun out hout => ensures_ok hout

theorem putDigit_size {size : Nat} (dVal : UInt64) (i : Nat) {out : List UInt8}
    (h : out.length = size) :
    Ensures (putDigit dVal i out) fun result => result.2.length = size := by
  unfold putDigit
  split
  · exact (writeAt_size h _ _).bind fun out hout => ensures_ok hout
  · exact (writeAt_size h _ _).bind fun out hout => ensures_ok hout

theorem digitLoop_size {size : Nat} (outlen fuel : Nat) (dVal : UInt64) (i : Nat)
    (out : List UInt8) (h : out.length = size) :
    KeepsSize size (digitLoop outlen fuel dVal i out) := by
  induction fuel generalizing dVal i out with
  | zero => rintro _ ⟨⟩
  | succ fuel ih =>
      simp only [digitLoop]
      refine (putDigit_size dVal i h).bind ?_
      rintro ⟨dVal, out⟩ hout
      dsimp only
      split
      · exact ih _ _ out hout
      · exact ensures_ok hout

theorem u64Digits_size {size : Nat} (u64 : UInt64) (outlen : Nat) {out : List UInt8}
    (h : out.length = size) : KeepsSize size (u64Digits u64 outlen out) := by
  unfold u64Digits
  split
  · exact digitLoop_size _ _ _ _ _ h
  · exact ensures_ok h

theorem printU64_size {size : Nat} (u64 : UInt64) (out : List UInt8) (outLength : Nat)
    (h : out.length = size) : KeepsSize size (printU64 u64 out outLength) := by
  simp only [printU64]
  split
  · exact ensures_ok h
  refine (u64Digits_size u64 _ h).bind ?_
  rintro ⟨i, out⟩ hout
  dsimp only at hout ⊢
  split
  · exact ensures_ok hout
  refine (writeAt_size hout _ _).bind fun out hout => ?_
  exact (reverseLoop_size _ _ _ _ hout).bind fun out hout => ensures_ok hout

theorem printI64_size {size : Nat} (i64 : UInt64) (out : List UInt8) (outLength : Nat)
    (h : out.length = size) : KeepsSize size (printI64 i64 out outLength) := by
  simp only [printI64]
  split
  · exact ensures_ok h
  split
  · intro result hresult
    obtain ⟨filled, hwrite, hresult⟩ := bind_eq_ok.mp hresult
    obtain ⟨⟨ret, tail⟩, hprint, hresult⟩ := bind_eq_ok.mp hresult
    cases hresult
    have hfilled : filled.length = size := (writeAt_length hwrite).trans h
    have htail := printU64_size _ _ _ rfl _ hprint
    simp only [List.length_drop] at htail
    simp only [List.length_append, List.length_take, htail]
    omega
  · exact printU64_size _ _ _ h

theorem rfc3339Format_size {size : Nat} (out : List UInt8) (len : Nat) (seconds : UInt64)
    (h : out.length = size) : KeepsSize size (rfc3339Format out len seconds) := by
  simp only [rfc3339Format]
  split
  · exact ensures_ok h
  refine ensures_bind fun sec => ?_
  split
  · exact ensures_ok h
  · refine (writeBytes_size h _ _).bind fun out hout => ?_
    exact (writeAt_size hout _ _).bind fun out hout => ensures_ok hout

theorem printTimestamp_size {size : Nat} (timestamp : UInt64) (out : List UInt8) (outLength : Nat)
    (h : out.length = size) : KeepsSize size (printTimestamp timestamp out outLength) :=
  rfc3339Format_size out outLength timestamp h

end Sizes

end AelfApp.Libsol
