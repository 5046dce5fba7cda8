import AelfApp.Apdu.Runs
import AelfApp.Apdu.Upload
import AelfApp.Lib.Pieces
import AelfApp.Libsol.Printer.Base58

/-!
The host's side of the protocol, as the tests drive it (`aelf.py` and
`aelf_cmd_builder.py`): how a request is serialized, cut into chunks and sent.
A function that raises has no result.
-/

namespace AelfApp.Client

open Memory Apdu Libsol Machine Wire Numeral Pieces

section Messages

/-- `n.to_bytes(width, byteorder='little')`, which raises if `n` does not fit. -/
def toBytes (n : Int) (width : Nat) : Option (List UInt8) :=
  if 0 ≤ n ∧ n < 256 ^ width then some (leBytes width n.toNat) else none

structure Instruction where
  data : List UInt8
  toPubkey : List UInt8
  ticker : List UInt8

def Instruction.serialize (instruction : Instruction) : Option (List UInt8) := do
  let tickerLength ← toBytes instruction.ticker.length 1
  return instruction.toPubkey ++ tickerLength ++ instruction.ticker ++ instruction.data

structure TxResultInstruction where
  fromPubkey : List UInt8
  chainPubkey : List UInt8
  refBlockNumber : List UInt8
  methodName : List UInt8
  toPubkey : List UInt8
  ticker : List UInt8
  data : List UInt8

def TxResultInstruction.serialize (instruction : TxResultInstruction) : Option (List UInt8) := do
  let methodNameLength ← toBytes instruction.methodName.length 8
  let tickerLength ← toBytes instruction.ticker.length 1
  return instruction.fromPubkey ++ instruction.chainPubkey ++ instruction.refBlockNumber ++
    methodNameLength ++ instruction.methodName ++ instruction.toPubkey ++ tickerLength ++
    instruction.ticker ++ instruction.data

def systemInstructionTransfer (toPubkey ticker : List UInt8) (amount : Int) :
    Option Instruction := do
  let data ← toBytes amount 8
  return { data, toPubkey, ticker }

def systemInstructionGetTxResult (fromPubkey chainPubkey : List UInt8) (refBlockNumber : Int)
    (methodName toPubkey ticker : List UInt8) (amount : Int) : Option TxResultInstruction := do
  let refBlockNumber ← toBytes refBlockNumber 8
  let data ← toBytes amount 8
  return { fromPubkey, chainPubkey, refBlockNumber, methodName, toPubkey, ticker, data }

def fakeRecentBlockhash : List UInt8 := ascii "11111111111111111111111111111111"

def messageTransfer (instruction : Instruction) : Option (List UInt8) := do
  let recentBlockhash ← base58Decode fakeRecentBlockhash
  let body ← instruction.serialize
  return recentBlockhash ++ body

def messageTxResult (txResultInstruction : TxResultInstruction) : Option (List UInt8) := do
  let recentBlockhash ← base58Decode fakeRecentBlockhash
  let body ← txResultInstruction.serialize
  return recentBlockhash ++ body

end Messages

section Sending

def insGetPubkey : UInt8 := 0x02
def insSignTransfer : UInt8 := 0x03
def insGetTxResult : UInt8 := 0x04

def p1Confirm : UInt8 := 0x01
def p2None : UInt8 := 0x00

def maxChunkSize : Nat := 255

/-- The arguments of `exchange`. -/
structure Exchange where
  ins : UInt8
  p1 : UInt8
  p2 : UInt8
  data : List UInt8

/-- The APDU that `exchange` sends. -/
def Exchange.apdu (exchange : Exchange) : List UInt8 :=
  [cla, exchange.ins, exchange.p1, exchange.p2, UInt8.ofNat exchange.data.length] ++ exchange.data

/-- The data of a response, if its status word is `STATUS_OK`. -/
def rapduData (response : List UInt8) : Option (List UInt8) :=
  if response.drop (response.length - 2) = [0x90, 0x00] then
    some (response.take (response.length - 2))
  else none

/-- `pack_derivation_path`, for a path that has been read. -/
def packDerivationPath (path : List UInt32) : List UInt8 :=
  UInt8.ofNat path.length :: encodePath path

def extendAndSerializeMultipleDerivationsPaths (derivationsPaths : List (List UInt8)) :
    Option (List UInt8) := do
  let count ← toBytes derivationsPaths.length 1
  return count ++ derivationsPaths.flatten

def splitAndPrefixMessage (derivationPath message : List UInt8) :
    Option (List (List UInt8)) := do
  guard (message.length ≤ 65535)
  let header ← extendAndSerializeMultipleDerivationsPaths [derivationPath]
  -- A `range` must not have the step zero, and is empty with a negative one.
  if header.length = maxChunkSize then none
  else if header.length > maxChunkSize then some []
  else some ((pieces (maxChunkSize - header.length) message).map (header ++ ·))

def sendFirstMessageBatch (messages : List (List UInt8)) (p1 : UInt8) : Option (List Exchange) :=
  match messages with
  | [] => none
  | first :: rest => some (⟨insSignTransfer, p1, p2More, first⟩ ::
      rest.map fun m => ⟨insSignTransfer, p1, p2More ||| p2Extend, m⟩)

/-- The body that `send_async_sign_transfer` and `send_async_get_tx_result`
share: what is sent as long as every exchange is accepted. Only the last one has
the instruction of the request. -/
def sendAsync (ins : UInt8) (derivationPath message : List UInt8) : Option (List Exchange) := do
  let messageSplitedPrefixed ← splitAndPrefixMessage derivationPath message
  let last ← messageSplitedPrefixed.getLast?
  if messageSplitedPrefixed.length > 1 then
    let batch ← sendFirstMessageBatch messageSplitedPrefixed.dropLast p1Confirm
    return batch ++ [⟨ins, p1Confirm, p2Extend, last⟩]
  else
    return [⟨ins, p1Confirm, 0, last⟩]

def sendAsyncSignTransfer : List UInt8 → List UInt8 → Option (List Exchange) :=
  sendAsync insSignTransfer

def sendAsyncGetTxResult : List UInt8 → List UInt8 → Option (List Exchange) :=
  sendAsync insGetTxResult

/-- With more than one chunk `final_p2` is used before it has a value, which
raises. -/
def sendBlindSignMessage (derivationPath message : List UInt8) : Option (List Exchange) := do
  let messageSplitedPrefixed ← splitAndPrefixMessage derivationPath message
  let last ← messageSplitedPrefixed.getLast?
  if messageSplitedPrefixed.length > 1 then none
  else return [⟨insSignTransfer, p1NonConfirm, 0, last⟩]

def getPublicKey (derivationPath : List UInt8) : Exchange :=
  ⟨insGetPubkey, p1NonConfirm, p2None, derivationPath⟩

end Sending

section Splitting

variable {path : List UInt32} {message : List UInt8} {ins : UInt8}

/-- How much of a message fits behind the path in one chunk. -/
def room (path : List UInt32) : Nat := maxChunkSize - (2 + 4 * path.length)

theorem room_add (hhigh : path.length ≤ maxBip32PathLength) :
    2 + 4 * path.length + room path = 255 := by
  rw [maxBip32PathLength_eq] at hhigh
  unfold room maxChunkSize
  omega

theorem room_pos (hhigh : path.length ≤ maxBip32PathLength) : 0 < room path := by
  have hroom := room_add hhigh
  rw [maxBip32PathLength_eq] at hhigh
  omega

theorem header_eq (path : List UInt32) :
    extendAndSerializeMultipleDerivationsPaths [packDerivationPath path] =
      some (1 :: packDerivationPath path) := by
  simp [extendAndSerializeMultipleDerivationsPaths, toBytes, leBytes]

theorem packDerivationPath_length (path : List UInt32) :
    (packDerivationPath path).length = 1 + 4 * path.length := by
  rw [packDerivationPath, List.length_cons, encodePath_length, Nat.add_comm]

/-- Every chunk begins with the path. -/
theorem splitAndPrefixMessage_eq (hhigh : path.length ≤ maxBip32PathLength)
    (hmessage : message.length ≤ 65535) :
    splitAndPrefixMessage (packDerivationPath path) message =
      some ((pieces (room path) message).map (firstData path)) := by
  have hlength : (1 :: packDerivationPath path).length = 2 + 4 * path.length := by
    rw [List.length_cons, packDerivationPath_length]
    omega
  have hsmall : 2 + 4 * path.length < maxChunkSize := by
    rw [maxBip32PathLength_eq] at hhigh
    unfold maxChunkSize
    omega
  have hne : ¬ 2 + 4 * path.length = maxChunkSize := hsmall.ne
  have hle : ¬ 2 + 4 * path.length > maxChunkSize := hsmall.le.not_gt
  simp only [splitAndPrefixMessage, header_eq, guard, hmessage, ↓reduceIte, Option.pure_def,
    Option.bind_eq_bind, Option.bind_some, hlength, hne, hle]
  rfl

theorem firstData_length (path : List UInt32) (piece : List UInt8) :
    (firstData path piece).length = 2 + 4 * path.length + piece.length := by
  simp only [firstData, List.length_cons, List.length_append, encodePath_length]
  omega

/-- A message that fits behind the path is sent in one exchange. -/
theorem sendAsync_fits (ins : UInt8) (hhigh : path.length ≤ maxBip32PathLength)
    (hne : message ≠ []) (hfits : message.length ≤ room path) :
    sendAsync ins (packDerivationPath path) message =
      some [⟨ins, p1Confirm, 0, firstData path message⟩] := by
  have hroom := room_add hhigh
  have hpieces : pieces (room path) message = [message] := by
    rw [pieces_cons (room_pos hhigh) hne, List.take_of_length_le hfits,
      List.drop_of_length_le hfits, pieces_nil]
  rw [sendAsync, splitAndPrefixMessage_eq hhigh (by omega), hpieces]
  rfl

/-- Several exchanges, all but the last with the instruction of a transfer. -/
def batch (ins : UInt8) (path : List UInt32) (first : List UInt8) (middle : List (List UInt8))
    (last : List UInt8) : List Exchange :=
  ⟨insSignTransfer, p1Confirm, p2More, firstData path first⟩ ::
    (middle.map fun piece =>
      ⟨insSignTransfer, p1Confirm, p2More ||| p2Extend, firstData path piece⟩) ++
    [⟨ins, p1Confirm, p2Extend, firstData path last⟩]

/-- Any other message is sent in such a batch. -/
theorem sendAsync_exceeds (ins : UInt8) (hhigh : path.length ≤ maxBip32PathLength)
    (hexceeds : room path < message.length) (hmessage : message.length ≤ 65535) :
    ∃ first middle last, pieces (room path) message = first :: (middle ++ [last]) ∧
      sendAsync ins (packDerivationPath path) message =
        some (batch ins path first middle last) := by
  have hne : message ≠ [] := List.ne_nil_of_length_pos (by omega)
  have hrest : message.drop (room path) ≠ [] := by
    apply List.ne_nil_of_length_pos
    rw [List.length_drop]
    omega
  have hcons := pieces_cons (room_pos hhigh) hne
  rw [pieces_cons (room_pos hhigh) hrest] at hcons
  rcases List.eq_nil_or_concat (pieces (room path) message).tail with hnil | ⟨middle, last, hlater⟩
  · rw [hcons] at hnil
    cases hnil
  · rw [hcons, List.tail_cons] at hlater
    rw [hlater, List.concat_eq_append] at hcons
    refine ⟨_, middle, last, hcons, ?_⟩
    generalize message.take (room path) = first at hcons
    have hprefixed : (pieces (room path) message).map (firstData path) =
        (firstData path first :: middle.map (firstData path)) ++ [firstData path last] := by
      simp [hcons]
    rw [sendAsync, splitAndPrefixMessage_eq hhigh hmessage, hprefixed]
    simp only [Option.bind_eq_bind, Option.bind_some, List.getLast?_concat, List.dropLast_concat]
    simp [sendFirstMessageBatch, batch]

end Splitting

section Arriving

variable {path : List UInt32} {message : List UInt8}

/-- Every chunk is accepted, and the command is then the request. -/
def Delivered (exchanges : List Exchange) (command : ApduCommand) (instruction : InstructionCode)
    (path : List UInt32) (message : List UInt8) : Prop :=
  ∃ final, run apduHandleMessage (exchanges.map Exchange.apdu) command =
      .ok (allAccepted (exchanges.map Exchange.apdu), final) ∧
    final.state = .payloadComplete ∧ final.instruction = instruction ∧ final.path = path ∧
    final.messageBytes = message

/-- The chunk of a request in one exchange. -/
def requestChunk (instruction : InstructionCode) (hins : instruction ≠ .unset) (p1 : UInt8)
    (path : List UInt32) (message : List UInt8)
    (hfits : 2 + 4 * path.length + message.length ≤ 255) : Chunk :=
  ⟨instruction, p1, 0, firstData path message, hins, (firstData_length path message).trans_le hfits⟩

/-- A request in one exchange, from any command. -/
theorem requestChunk_handled {instruction : InstructionCode}
    (hins : instruction = .signMessage ∨ instruction = .getTxResult) (p1 : UInt8)
    (hlow : 1 ≤ path.length) (hhigh : path.length ≤ maxBip32PathLength)
    (hfits : message.length ≤ room path) (command : ApduCommand) :
    ∃ final, apduHandleMessage
        (Exchange.apdu ⟨instruction.toByte, p1, 0, firstData path message⟩) command =
          .ok (0, final) ∧
      final.state = .payloadComplete ∧ final.instruction = instruction ∧ final.path = path ∧
      final.nonConfirm = decide (p1 = p1NonConfirm) ∧ final.Holds message := by
  have hroom := room_add hhigh
  have hne : instruction ≠ .unset ∧ instruction ≠ .getAppConfiguration ∧
      instruction ≠ .getPubkey := by
    rcases hins with rfl | rfl <;> decide
  have hsplit : (requestChunk instruction hne.1 p1 path message (by omega)).split =
      some (path, message) := by
    have hpath := splitPath_encodePath path message hlow hhigh
    simp only [List.cons_append] at hpath
    simp [Chunk.split, requestChunk, firstData, hne.2.2, hpath]
  refine ⟨_, apduHandleMessage_started
    (requestChunk instruction hne.1 p1 path message (by omega)) command hne.2.1 ?_ hsplit,
    ?_, rfl, assembled_path hhigh, rfl, assembled_holds (le_maxMessageLength (by omega))⟩
  · simp [Chunk.extending, requestChunk]
  · simp [assembled, Chunk.stateAfter, Chunk.more, requestChunk]

/-- A message that is prefixed in each of its chunks, as the device takes it:
the later prefixes are bytes of the message. -/
def prefixedUpload (path : List UInt32) (first : List UInt8) (later : List (List UInt8))
    (hfirst : 2 + 4 * path.length + first.length ≤ 255)
    (hlater : ∀ piece ∈ later, 2 + 4 * path.length + piece.length ≤ 255) :
    Cutting path (first ++ (later.map (firstData path)).flatten) where
  first := first
  later := later.map (firstData path)
  joined := rfl
  first_fits := hfirst
  later_fits := by
    intro part member
    obtain ⟨piece, hpiece, rfl⟩ := List.mem_map.mp member
    exact ⟨List.cons_ne_nil _ _, (firstData_length path piece).trans_le (hlater piece hpiece)⟩

theorem prefixed_length (path : List UInt32) (later : List (List UInt8)) :
    (later.map (firstData path)).flatten.length =
      later.length * (2 + 4 * path.length) + later.flatten.length := by
  induction later with
  | nil => simp
  | cons piece later ih =>
      rw [List.map_cons, List.flatten_cons, List.length_append, ih, firstData_length,
        List.length_cons, List.flatten_cons, List.length_append]
      ring

/-- It is what the client sends for a transfer. -/
theorem prefixedUpload_apdus (path : List UInt32) (first last : List UInt8)
    (middle : List (List UInt8)) (hfirst : 2 + 4 * path.length + first.length ≤ 255)
    (hlater : ∀ piece ∈ middle ++ [last], 2 + 4 * path.length + piece.length ≤ 255) :
    (prefixedUpload path first (middle ++ [last]) hfirst hlater).apdus p1Confirm =
      (batch insSignTransfer path first middle last).map Exchange.apdu := by
  simp only [prefixedUpload, Cutting.apdus, batch, List.map_append, List.map_cons, List.map_nil,
    isEmpty_concat, laterApdus_append, laterApdus, List.isEmpty_nil, List.map_map,
    List.cons_append]
  rfl

/-- The instruction of a transfer is extended: the later prefixes become part
of the message. -/
theorem sendAsyncSignTransfer_exceeds {exchanges : List Exchange} (hlow : 1 ≤ path.length)
    (hhigh : path.length ≤ maxBip32PathLength) (hexceeds : room path < message.length)
    (hmessage : message.length ≤ 65535)
    (hsend : sendAsyncSignTransfer (packDerivationPath path) message = some exchanges)
    (command : ApduCommand) : ¬ Delivered exchanges command .signMessage path message := by
  have hroom := room_add hhigh
  obtain ⟨first, middle, last, hpieces, hsent⟩ :=
    sendAsync_exceeds insSignTransfer hhigh hexceeds hmessage
  cases hsend.symm.trans hsent
  have hfits : ∀ piece ∈ first :: (middle ++ [last]), 2 + 4 * path.length + piece.length ≤ 255 := by
    intro piece member
    obtain ⟨-, hpiece⟩ := mem_pieces (room_pos hhigh) (hpieces ▸ member)
    omega
  let cut := prefixedUpload path first (middle ++ [last]) (hfits first List.mem_cons_self)
    fun piece member => hfits piece (List.mem_cons_of_mem _ member)
  have hlonger : message.length <
      (first ++ ((middle ++ [last]).map (firstData path)).flatten).length := by
    have hflatten := pieces_flatten (room_pos hhigh) message
    rw [hpieces, List.flatten_cons] at hflatten
    rw [← hflatten, List.length_append, List.length_append, prefixed_length, List.length_append,
      List.length_singleton, Nat.add_mul, Nat.one_mul]
    omega
  rintro ⟨final, hrun, -, -, -, hbytes⟩
  apply cut.not_accepted p1Confirm command final hlow hhigh hlonger ?_ hbytes
  rw [prefixedUpload_apdus, hrun]

/-- That of a result is not: the last chunk starts over, without a path. -/
theorem sendAsyncGetTxResult_exceeds {exchanges : List Exchange} (hlow : 1 ≤ path.length)
    (hhigh : path.length ≤ maxBip32PathLength) (hexceeds : room path < message.length)
    (hmessage : message.length ≤ 65535)
    (hsend : sendAsyncGetTxResult (packDerivationPath path) message = some exchanges)
    (command : ApduCommand) : ¬ Delivered exchanges command .getTxResult path message := by
  have hroom := room_add hhigh
  obtain ⟨first, middle, last, hpieces, hsent⟩ :=
    sendAsync_exceeds insGetTxResult hhigh hexceeds hmessage
  cases hsend.symm.trans hsent
  obtain ⟨-, hlast⟩ := mem_pieces (room_pos hhigh)
    (show last ∈ pieces (room path) message by simp [hpieces])
  rintro ⟨final, hrun, -, -, hpath, -⟩
  rw [batch, List.map_append] at hrun
  obtain ⟨middle, ret, hcall⟩ := run_concat hrun
  let chunk : Chunk := ⟨.getTxResult, p1Confirm, p2Extend, firstData path last, by decide,
    (firstData_length path last).trans_le (by omega)⟩
  have hpathless := apduHandleMessage_pathless chunk middle (.inr rfl)
    (by simp [Chunk.extending, chunk, p2Extend])
  rw [if_neg (by simp [chunk, firstData])] at hpathless
  cases hcall.symm.trans hpathless
  rw [← hpath] at hlow
  simp [assembled, ApduCommand.path] at hlow

/-- What is sent has bytes, and not too many of them. -/
theorem sendAsync_some {ins : UInt8} {exchanges : List Exchange}
    (hhigh : path.length ≤ maxBip32PathLength)
    (hsend : sendAsync ins (packDerivationPath path) message = some exchanges) :
    message ≠ [] ∧ message.length ≤ 65535 := by
  by_cases hmessage : message.length ≤ 65535
  · refine ⟨?_, hmessage⟩
    rintro rfl
    rw [sendAsync, splitAndPrefixMessage_eq hhigh hmessage, pieces_nil] at hsend
    cases hsend
  · rw [sendAsync, splitAndPrefixMessage, guard, if_neg hmessage] at hsend
    cases hsend

theorem delivered_iff {instruction : InstructionCode} {exchanges : List Exchange}
    (hins : instruction = .signMessage ∨ instruction = .getTxResult) (hlow : 1 ≤ path.length)
    (hhigh : path.length ≤ maxBip32PathLength)
    (hsend : sendAsync instruction.toByte (packDerivationPath path) message = some exchanges)
    (command : ApduCommand)
    (hexceeds : room path < message.length → message.length ≤ 65535 →
      ¬ Delivered exchanges command instruction path message) :
    Delivered exchanges command instruction path message ↔
      message.length + 2 + 4 * path.length ≤ maxChunkSize := by
  have hroom := room_add hhigh
  have hsize : maxChunkSize = 255 := rfl
  obtain ⟨hne, hmessage⟩ := sendAsync_some hhigh hsend
  constructor
  · intro hdelivered
    by_contra hlong
    exact hexceeds (by omega) hmessage hdelivered
  · intro hfits
    have hfits' : message.length ≤ room path := by omega
    cases hsend.symm.trans (sendAsync_fits instruction.toByte hhigh hne hfits')
    obtain ⟨final, hcall, hstate, hinstruction, hpath, -, hholds⟩ :=
      requestChunk_handled hins p1Confirm hlow hhigh hfits' command
    exact ⟨final, run_cons_ok hcall rfl, hstate, hinstruction, hpath, hholds.messageBytes⟩

/-- A request arrives at the device as it was meant exactly if it fits into one
chunk, whatever command the device was left with: the prefixes of later chunks
are taken as bytes of a transfer, or refused where the message then grows too
long, and a result in chunks loses its path. -/
theorem request_arrives_iff (path : List UInt32) (message : List UInt8) (command : ApduCommand)
    (hlow : 1 ≤ path.length) (hhigh : path.length ≤ maxBip32PathLength) :
    (∀ exchanges, sendAsyncSignTransfer (packDerivationPath path) message = some exchanges →
      (Delivered exchanges command .signMessage path message ↔
        message.length + 2 + 4 * path.length ≤ maxChunkSize)) ∧
    (∀ exchanges, sendAsyncGetTxResult (packDerivationPath path) message = some exchanges →
      (Delivered exchanges command .getTxResult path message ↔
        message.length + 2 + 4 * path.length ≤ maxChunkSize)) := by
  constructor
  · intro exchanges hsend
    exact delivered_iff (.inl rfl) hlow hhigh hsend command fun hexceeds hmessage =>
      sendAsyncSignTransfer_exceeds hlow hhigh hexceeds hmessage hsend command
  · intro exchanges hsend
    exact delivered_iff (.inr rfl) hlow hhigh hsend command fun hexceeds hmessage =>
      sendAsyncGetTxResult_exceeds hlow hhigh hexceeds hmessage hsend command

/-- Three hundred bytes do not arrive. -/
theorem request_arrives_iff_long :
    ∃ exchanges, sendAsyncSignTransfer (packDerivationPath [0x8000002C]) (List.replicate 300 7) =
        some exchanges ∧
      ¬ Delivered exchanges .zero .signMessage [0x8000002C] (List.replicate 300 7) := by
  have hlength : (List.replicate 300 (7 : UInt8)).length = 300 := List.length_replicate
  obtain ⟨first, middle, last, -, hsend⟩ := sendAsync_exceeds insSignTransfer
    (show [(0x8000002C : UInt32)].length ≤ maxBip32PathLength by decide)
    (by rw [hlength]; decide) (by rw [hlength]; decide)
  refine ⟨_, hsend, fun hdelivered => ?_⟩
  have hiff := (request_arrives_iff [0x8000002C] (List.replicate 300 7) .zero (by decide)
    (by decide)).1 _ hsend
  rw [hlength] at hiff
  exact absurd (hiff.mp hdelivered) (by decide)

end Arriving

end AelfApp.Client
