import AelfApp.Lib.Wire

/-!
The field parsers (`parser.c`): a cursor into a message, the readers of its
fields, and the code that ends a chain of readers at the first that fails. An
output parameter is passed in and handed back, since some readers set it
before they fail.
-/

namespace AelfApp.Libsol

open Memory Wire

def pubkeySize : Nat := 32
def hashSize : Nat := 32

/-- The pointer widths the parsers are built for. -/
inductive SizeT where
  | bits32
  | bits64
  deriving Repr, DecidableEq

/-- `SIZE_MAX`. -/
def SizeT.max : SizeT → Nat
  | .bits32 => 2 ^ 32 - 1
  | .bits64 => 2 ^ 64 - 1

/-- A wider number converted to `size_t`. -/
def SizeT.cast (size : SizeT) (n : Nat) : Nat := n % (size.max + 1)

/-- `INT_MAX`. -/
def intMax : Nat := 2 ^ 31 - 1

theorem SizeT.intMax_le_max (size : SizeT) : intMax ≤ size.max := by
  cases size <;> decide

/-- What `size_t` holds is converted as it is. -/
theorem SizeT.cast_eq {size : SizeT} {n : Nat} (h : n ≤ size.max) : size.cast n = n :=
  Nat.mod_eq_of_lt (Nat.lt_succ_of_le h)

structure Parser (β : Type) where
  buffer : Ptr β
  bufferLength : Nat
  deriving Repr, DecidableEq

/-- `string` is `none` where the source has `NULL`. -/
structure SizedString (β : Type) where
  length : UInt64
  string : Option (Ptr β)
  deriving Repr, DecidableEq

structure Instruction (β : Type) where
  tickerLength : Nat
  ticker : Option (Ptr β)
  deriving Repr, DecidableEq

variable {β σ τ : Type} (mem : Mem β)

def parserIsEmpty (parser : Parser β) : Bool := decide (parser.bufferLength = 0)

def checkBufferLength (parser : Parser β) (num : Nat) : Nat :=
  if parser.bufferLength < num then 1 else 0

def advance (parser : Parser β) (num : Nat) : Checked (Parser β) := do
  let bufferLength ← subSize parser.bufferLength num
  return { buffer := parser.buffer.add num, bufferLength }

/-- `BAIL_IF`: ends the caller with the code of a call that did not return zero. -/
def bailIf (call : Checked (Nat × Parser β × σ))
    (next : Parser β → σ → Checked (Nat × Parser β × σ)) : Checked (Nat × Parser β × σ) := do
  let (ret, parser, s) ← call
  if ret ≠ 0 then
    return (ret, parser, s)
  next parser s

/-- A call whose output parameter is a part of what the caller fills. -/
def storing (call : Checked (Nat × Parser β × τ)) (store : τ → σ) :
    Checked (Nat × Parser β × σ) := do
  let (ret, parser, value) ← call
  return (ret, parser, store value)

def parseU8 (parser : Parser β) (value : UInt8) : Checked (Nat × Parser β × UInt8) := do
  if checkBufferLength parser 1 ≠ 0 then
    return (1, parser, value)
  let value := mem.load parser.buffer
  let parser ← advance parser 1
  return (0, parser, value)

def parseU16 (parser : Parser β) (value : UInt16) : Checked (Nat × Parser β × UInt16) := do
  let (ret, parser, lower) ← parseU8 mem parser 0
  if ret ≠ 0 then
    return (ret, parser, value)
  let (ret, parser, upper) ← parseU8 mem parser 0
  if ret ≠ 0 then
    return (ret, parser, value)
  return (0, parser, lower.toUInt16 + upper.toUInt16 <<< 8)

def parseU32 (parser : Parser β) (value : UInt32) : Checked (Nat × Parser β × UInt32) := do
  let (ret, parser, lower) ← parseU16 mem parser 0
  if ret ≠ 0 then
    return (ret, parser, value)
  let (ret, parser, upper) ← parseU16 mem parser 0
  if ret ≠ 0 then
    return (ret, parser, value)
  return (0, parser, lower.toUInt32 + upper.toUInt32 <<< 16)

def parseU64 (parser : Parser β) (value : UInt64) : Checked (Nat × Parser β × UInt64) := do
  if checkBufferLength parser 8 ≠ 0 then
    return (1, parser, value)
  let (ret, parser, lower) ← parseU32 mem parser 0
  if ret ≠ 0 then
    return (ret, parser, value)
  let (ret, parser, upper) ← parseU32 mem parser 0
  if ret ≠ 0 then
    return (ret, parser, value)
  return (0, parser, lower.toUInt64 + upper.toUInt64 <<< 32)

def parseLength (parser : Parser β) (value : Nat) : Checked (Nat × Parser β × Nat) := do
  let (ret, parser, valueU8) ← parseU8 mem parser 0
  if ret ≠ 0 then
    return (ret, parser, value)
  let value := (valueU8 &&& 0x7f).toNat
  if valueU8 &&& 0x80 ≠ 0 then
    let (ret, parser, valueU8) ← parseU8 mem parser valueU8
    if ret ≠ 0 then
      return (ret, parser, value)
    let value := (valueU8 &&& 0x7f).toNat <<< 7 ||| value
    if valueU8 &&& 0x80 ≠ 0 then
      let (ret, parser, valueU8) ← parseU8 mem parser valueU8
      if ret ≠ 0 then
        return (ret, parser, value)
      return (0, parser, (valueU8 &&& 0x7f).toNat <<< 14 ||| value)
    return (0, parser, value)
  return (0, parser, value)

def parseSizedString (size : SizeT) (parser : Parser β) (string : SizedString β) :
    Checked (Nat × Parser β × SizedString β) := do
  let (ret, parser, length) ← parseU64 mem parser string.length
  let string := { string with length }
  if ret ≠ 0 then
    return (ret, parser, string)
  if string.length.toNat > size.max then
    return (1, parser, string)
  let len := size.cast string.length.toNat
  if checkBufferLength parser len ≠ 0 then
    return (1, parser, string)
  let string := { string with string := some parser.buffer }
  let parser ← advance parser len
  return (0, parser, string)

def parsePubkey (parser : Parser β) (pubkey : Option (Ptr β)) :
    Checked (Nat × Parser β × Option (Ptr β)) := do
  if checkBufferLength parser pubkeySize ≠ 0 then
    return (1, parser, pubkey)
  let pubkey := some parser.buffer
  let parser ← advance parser pubkeySize
  return (0, parser, pubkey)

/-- `parse_hash`, which `parse_blockhash` is a name for. -/
def parseHash (parser : Parser β) (hash : Option (Ptr β)) :
    Checked (Nat × Parser β × Option (Ptr β)) := do
  if checkBufferLength parser hashSize ≠ 0 then
    return (1, parser, hash)
  let hash := some parser.buffer
  let parser ← advance parser hashSize
  return (0, parser, hash)

/-- The block hash is all that is read of a message header. -/
def parseMessageHeader (parser : Parser β) (blockhash : Option (Ptr β)) :
    Checked (Nat × Parser β × Option (Ptr β)) :=
  parseHash parser blockhash

def parseData (parser : Parser β) (instruction : Instruction β) :
    Checked (Nat × Parser β × Instruction β) := do
  let (ret, parser, tickerLength) ← parseLength mem parser instruction.tickerLength
  let instruction := { instruction with tickerLength }
  if ret ≠ 0 then
    return (ret, parser, instruction)
  if checkBufferLength parser instruction.tickerLength ≠ 0 then
    return (1, parser, instruction)
  let instruction := { instruction with ticker := some parser.buffer }
  let parser ← advance parser instruction.tickerLength
  return (0, parser, instruction)

namespace Parser

/-- What is left to read. -/
def rest (parser : Parser β) : List UInt8 := mem.bytes parser.buffer parser.bufferLength

def skip (parser : Parser β) (n : Nat) : Parser β :=
  { buffer := parser.buffer.add n, bufferLength := parser.bufferLength - n }

@[simp] theorem rest_length (parser : Parser β) :
    (parser.rest mem).length = parser.bufferLength := by
  simp [rest]

@[simp] theorem skip_buffer (parser : Parser β) (n : Nat) :
    (parser.skip n).buffer = parser.buffer.add n := rfl

@[simp] theorem skip_bufferLength (parser : Parser β) (n : Nat) :
    (parser.skip n).bufferLength = parser.bufferLength - n := rfl

@[simp] theorem skip_zero (parser : Parser β) : parser.skip 0 = parser := rfl

@[simp] theorem skip_skip (parser : Parser β) (m n : Nat) :
    (parser.skip m).skip n = parser.skip (m + n) := by
  simp [skip, Nat.sub_sub]

variable {mem}

theorem bufferLength_of_rest {parser : Parser β} {before after : List UInt8}
    (h : parser.rest mem = before ++ after) :
    parser.bufferLength = before.length + after.length := by
  have hlength := congrArg List.length h
  simpa using hlength

theorem rest_skip {parser : Parser β} {before after : List UInt8}
    (h : parser.rest mem = before ++ after) : (parser.skip before.length).rest mem = after := by
  have hlength := bufferLength_of_rest h
  have hdrop := mem.bytes_drop parser.buffer (m := before.length) (n := parser.bufferLength)
    (by omega)
  have hrest : mem.bytes parser.buffer parser.bufferLength = before ++ after := h
  rw [hrest, List.drop_left] at hdrop
  exact hdrop.symm

theorem rest_skip_one {parser : Parser β} {b : UInt8} {after : List UInt8}
    (h : parser.rest mem = b :: after) : (parser.skip 1).rest mem = after := by
  have hsplit : parser.rest mem = [b] ++ after := h
  exact rest_skip hsplit

/-- The bytes a pointer handed out leads to. -/
theorem bytes_of_rest {parser : Parser β} {before after : List UInt8}
    (h : parser.rest mem = before ++ after) :
    mem.bytes parser.buffer before.length = before := by
  have hlength := bufferLength_of_rest h
  have htake := mem.bytes_take parser.buffer (m := before.length) (n := parser.bufferLength)
    (by omega)
  have hrest : mem.bytes parser.buffer parser.bufferLength = before ++ after := h
  rw [← htake, hrest, List.take_left]

end Parser

end AelfApp.Libsol
