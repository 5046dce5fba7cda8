import AelfApp.Globals

/-!
The command assembler: `apdu_handle_message` (`apdu.c`) with
`read_derivation_path` (`utils.c`). Both pointers it is given are the addresses
of globals, so the null checks on them are left out; every other access is
checked.
-/

namespace AelfApp.Apdu

open Memory

inductive ApduReply where
  | sdkInvalidParameter
  | sdkNotSupported
  | sdkExceptionIoOverflow
  | noApduReceived
  | aelfInvalidMessage
  | aelfInvalidMessageHeader
  | aelfInvalidMessageSize
  | aelfSummaryFinalizeFailed
  | aelfSummaryUpdateFailed
  | unimplementedInstruction
  | success
  deriving Repr, DecidableEq

def ApduReply.code : ApduReply → Nat
  | .sdkInvalidParameter => 0x6802
  | .sdkNotSupported => 0x6808
  | .sdkExceptionIoOverflow => 0x6813
  | .noApduReceived => 0x6982
  | .aelfInvalidMessage => 0x6a80
  | .aelfInvalidMessageHeader => 0x6a81
  | .aelfInvalidMessageSize => 0x6a83
  | .aelfSummaryFinalizeFailed => 0x6f00
  | .aelfSummaryUpdateFailed => 0x6f01
  | .unimplementedInstruction => 0x6d00
  | .success => 0x9000

theorem ApduReply.code_ne_zero (reply : ApduReply) : reply.code ≠ 0 := by
  cases reply <;> decide

inductive ApduState where
  | uninitialized
  | payloadInProgress
  | payloadComplete
  deriving Repr, DecidableEq

/-- `data` is an offset into the APDU, `none` where the source has `NULL`. -/
structure ApduHeader where
  instruction : InstructionCode
  p1 : UInt8
  p2 : UInt8
  data : Option Nat
  dataLength : Nat
  deprecatedHost : Bool
  deriving Repr, DecidableEq

structure ApduCommand where
  state : ApduState
  instruction : InstructionCode
  numDerivationPaths : UInt8
  derivationPath : Buffer UInt32 maxBip32PathLength
  derivationPathLength : Nat
  nonConfirm : Bool
  deprecatedHost : Bool
  message : Buffer UInt8 maxMessageLength
  messageLength : Int
  messageHash : Buffer UInt8 hashLength
  deriving DecidableEq

/-- The command after `explicit_bzero`, and the one the device boots with. -/
def ApduCommand.zero : ApduCommand where
  state := .uninitialized
  instruction := .unset
  numDerivationPaths := 0
  derivationPath := .replicate _ 0
  derivationPathLength := 0
  nonConfirm := false
  deprecatedHost := false
  message := .replicate _ 0
  messageLength := 0
  messageHash := .replicate _ 0

/-- `message[0..message_length)`. -/
def ApduCommand.messageBytes (command : ApduCommand) : List UInt8 :=
  command.message.toList.take command.messageLength.toNat

/-- `derivation_path[0..derivation_path_length)`. -/
def ApduCommand.path (command : ApduCommand) : List UInt32 :=
  command.derivationPath.toList.take command.derivationPathLength

/-- The value of an `int` after its conversion to `size_t`. -/
def sizeOfInt (i : Int) : Nat := (i % 2 ^ sizeBits).toNat

/-- `data[i]`. -/
def dataAt (apduMessage : List UInt8) (data : Option Nat) (i : Nat) : Checked UInt8 :=
  match data with
  | some offset => readAt apduMessage ((offset + i : Nat) : Int)
  | none => .error .nullPointer

/-- The checks of `apdu_handle_message` that come before any access to the
command: the header, or the reply that refuses the APDU. -/
def parseHeader (apduMessage : List UInt8) : Checked (Except ApduReply ApduHeader) := do
  if apduMessage.length ≤ offsetIns then
    return .error .aelfInvalidMessageSize
  let headerClass ← readAt apduMessage offsetCla
  if headerClass ≠ cla then
    return .error .aelfInvalidMessageHeader
  let instructionByte ← readAt apduMessage offsetIns
  match InstructionCode.ofByte? instructionByte with
  | none => return .error .unimplementedInstruction
  | some instruction =>
    if apduMessage.length < offsetCdata then
      return .error .aelfInvalidMessageSize
    if apduMessage.length > 255 + offsetCdata then
      return .error .aelfInvalidMessageSize
    let dataLength ← readAt apduMessage offsetLc
    if apduMessage.length ≠ dataLength.toNat + offsetCdata then
      return .error .aelfInvalidMessageSize
    let p1 ← readAt apduMessage offsetP1
    let p2 ← readAt apduMessage offsetP2
    return .ok {
      instruction, p1, p2
      data := if dataLength.toNat > 0 then some offsetCdata else none
      dataLength := dataLength.toNat
      deprecatedHost := false }

/-- Four bytes, most significant first. -/
def be32 (b0 b1 b2 b3 : UInt8) : UInt32 :=
  (b0.toUInt32 <<< 24) ||| (b1.toUInt32 <<< 16) ||| (b2.toUInt32 <<< 8) ||| b3.toUInt32

/-- The loop of `read_derivation_path`, with `count` indices left to read. -/
def readPathLoop (apduMessage : List UInt8) :
    Nat → Nat → Nat → Buffer UInt32 maxBip32PathLength →
      Checked (Buffer UInt32 maxBip32PathLength)
  | 0, _, _, derivationPath => .ok derivationPath
  | count + 1, i, dataBuffer, derivationPath => do
    let b0 ← readAt apduMessage dataBuffer
    let b1 ← readAt apduMessage ((dataBuffer + 1 : Nat) : Int)
    let b2 ← readAt apduMessage ((dataBuffer + 2 : Nat) : Int)
    let b3 ← readAt apduMessage ((dataBuffer + 3 : Nat) : Int)
    let derivationPath ← derivationPath.writeAt i (be32 b0 b1 b2 b3)
    readPathLoop apduMessage count (i + 1) (dataBuffer + 4) derivationPath

/-- Returns the result code with the path and its length, both as they were
unless the code is zero. -/
def readDerivationPath (apduMessage : List UInt8) (dataBuffer : Option Nat) (dataSize : Nat)
    (derivationPath : Buffer UInt32 maxBip32PathLength) (derivationPathLength : Nat) :
    Checked (Nat × Buffer UInt32 maxBip32PathLength × Nat) := do
  match dataBuffer with
  | none => return (ApduReply.sdkInvalidParameter.code, derivationPath, derivationPathLength)
  | some offset =>
    if dataSize = 0 then
      return (ApduReply.aelfInvalidMessageSize.code, derivationPath, derivationPathLength)
    let first ← readAt apduMessage offset
    let len := first.toNat
    if len < 1 ∨ len > maxBip32PathLength then
      return (ApduReply.aelfInvalidMessage.code, derivationPath, derivationPathLength)
    if 1 + 4 * len > dataSize then
      return (ApduReply.aelfInvalidMessageSize.code, derivationPath, derivationPathLength)
    let derivationPath ← readPathLoop apduMessage len 0 (offset + 1) derivationPath
    return (0, derivationPath, len)

/-- Validates the command in progress for an extension of `InsSignMessage`,
and clears the command in every other case. `none` refuses the extension. -/
def prepareCommand (header : ApduHeader) (firstDataChunk : Bool) (command : ApduCommand) :
    Option ApduCommand :=
  if header.instruction = .signMessage then
    if !firstDataChunk then
      if command.state ≠ .payloadInProgress ∨ command.instruction ≠ header.instruction ∨
          command.nonConfirm ≠ decide (header.p1 = p1NonConfirm) ∨
          command.deprecatedHost ≠ header.deprecatedHost ∨
          command.numDerivationPaths ≠ 1 then none
      else some command
    else some .zero
  else some .zero

/-- The number of derivation paths, which only a `GetPubkey` leaves out. -/
def readPathCount (apduMessage : List UInt8) (header : ApduHeader) (command : ApduCommand) :
    Checked (Nat × ApduHeader × ApduCommand) := do
  if header.deprecatedHost = false ∧ header.instruction ≠ .getPubkey then
    if header.dataLength = 0 then
      return (ApduReply.aelfInvalidMessageSize.code, header, command)
    let numDerivationPaths ← dataAt apduMessage header.data 0
    let command := { command with numDerivationPaths }
    let dataLength ← subSize header.dataLength 1
    let header := { header with data := header.data.map (· + 1), dataLength }
    if numDerivationPaths ≠ 1 then
      return (ApduReply.aelfInvalidMessage.code, header, command)
    return (0, header, command)
  else
    return (0, header, { command with numDerivationPaths := 1 })

/-- The part of a first chunk before the message: the path count and the path.
Returns the header with its data moved past both. -/
def readFirstChunk (apduMessage : List UInt8) (header : ApduHeader) (command : ApduCommand) :
    Checked (Nat × ApduHeader × ApduCommand) := do
  let (ret, header, command) ← readPathCount apduMessage header command
  if ret ≠ 0 then
    return (ret, header, command)
  let (ret, derivationPath, derivationPathLength) ← readDerivationPath apduMessage header.data
    header.dataLength command.derivationPath command.derivationPathLength
  let command := { command with derivationPath, derivationPathLength }
  if ret ≠ 0 then
    return (ret, header, command)
  let dataLength ← subSize header.dataLength (1 + derivationPathLength * 4)
  let header := { header with
    data := header.data.map (· + (1 + derivationPathLength * 4)), dataLength }
  return (0, header, command)

/-- Stores the rest of the data and settles the command's state. -/
def appendData (apduMessage : List UInt8) (header : ApduHeader) (command : ApduCommand) :
    Checked (Nat × ApduCommand) := do
  let command := { command with
    state := .payloadInProgress
    instruction := header.instruction
    nonConfirm := decide (header.p1 = p1NonConfirm)
    deprecatedHost := header.deprecatedHost }
  match header.data with
  | some offset =>
    if (sizeOfInt command.messageLength + header.dataLength) % 2 ^ sizeBits > maxMessageLength then
      return (ApduReply.aelfInvalidMessageSize.code, command)
    let data ← readBytes apduMessage offset header.dataLength
    let message ← command.message.writeBytes command.messageLength data
    let command := { command with
      message, messageLength := command.messageLength + header.dataLength }
    if header.p2 &&& p2More ≠ 0 then
      return (0, command)
    return (0, { command with state := .payloadComplete })
  | none =>
    if header.instruction ≠ .getPubkey then
      return (ApduReply.aelfInvalidMessageSize.code, command)
    if header.p2 &&& p2More ≠ 0 then
      return (0, command)
    return (0, { command with state := .payloadComplete })

/-- Deserializes an APDU into the command: zero on success, the code of a
reply otherwise, with the command as the call leaves it either way. -/
def apduHandleMessage (apduMessage : List UInt8) (apduCommand : ApduCommand) :
    Checked (Nat × ApduCommand) := do
  match ← parseHeader apduMessage with
  | .error reply => return (reply.code, apduCommand)
  | .ok header =>
    -- P2_EXTEND is set to signal that this APDU buffer extends, rather
    -- than replaces, the current message buffer
    let firstDataChunk := decide (header.p2 &&& p2Extend = 0)
    if header.instruction = .getAppConfiguration then
      return (0, { ApduCommand.zero with
        state := .payloadComplete
        instruction := header.instruction
        nonConfirm := decide (header.p1 = p1NonConfirm)
        deprecatedHost := header.deprecatedHost })
    match prepareCommand header firstDataChunk apduCommand with
    | none => return (ApduReply.aelfInvalidMessage.code, apduCommand)
    | some command =>
      if firstDataChunk then
        let (ret, header, command) ← readFirstChunk apduMessage header command
        if ret ≠ 0 then
          return (ret, command)
        appendData apduMessage header command
      else
        appendData apduMessage header command

end AelfApp.Apdu
