import AelfApp.Apdu.Step
import AelfApp.Libsol.Message

/-!
The application's globals, what it takes from the SDK, and what its handlers
leave behind. Cryptography is opaque, and may end with an exception: the system
refuses paths that the application is not installed for. A flow of the SDK is
its steps and the index of the one shown; its callbacks run between two APDUs.
-/

namespace AelfApp

open Memory Apdu Libsol

def privateKeyLength : Nat := 32
def signatureLength : Nat := 64

/-- `ApduReplySdkExceptionIoReset`, which `app_main` hands on to start over. -/
def sdkExceptionIoReset : Nat := 0x6816

/-- An exception out of deriving a key or signing. Its code has 16 bits and is
one of an error: it is not the status word of success, and not the reset, which
only the transport asks for. -/
structure SdkException where
  code : Nat
  bits : code < 2 ^ 16
  notSuccess : code ≠ ApduReply.success.code
  notReset : code ≠ sdkExceptionIoReset
  deriving Repr, DecidableEq

/-- Functions of the SDK, with the derivation of the key from its path. -/
structure Sdk where
  /-- `cx_hash_sha256`. -/
  sha256 : List UInt8 → Buffer UInt8 hashLength
  /-- `get_private_key`, and the uncompressed point `W` of `cx_ecfp_generate_pair`. -/
  generatePair : List UInt32 →
    Except SdkException (Buffer UInt8 (1 + pubkeySize + privateKeyLength))
  /-- `get_private_key_with_seed` and `cx_eddsa_sign`. -/
  eddsaSign : List UInt32 → List UInt8 → Except SdkException (Buffer UInt8 signatureLength)

/-- The blocks of memory that the summary points into. -/
inductive Block where
  | message
  | messageHash
  deriving Repr, DecidableEq

/-- The command's arrays, as memory. Their ends are those of the buffers, and what
lies behind one reads as zero. -/
def commandMem (command : ApduCommand) : Mem Block
  | .message, i => command.message.toList.getD i 0
  | .messageHash, i => command.messageHash.toList.getD i 0

/-- The flow on the screen, with the index of its step. The steps of a message
are its summary steps, Approve and Reject; those of a key are the key, Approve
and Reject. The menus count as idle. -/
inductive Flow where
  | idle
  | pubkey (index : Nat)
  | signMessage (numSummarySteps index : Nat)
  deriving Repr, DecidableEq

structure Device where
  command : ApduCommand
  summary : SummaryGlobals Block
  settings : AppSettings
  publicKey : Buffer UInt8 pubkeySize
  publicKeyStr : Buffer UInt8 base58PubkeyLength
  flow : Flow

/-- The device when `app_main` begins for the first time. -/
def Device.boot (settings : AppSettings) : Device where
  command := .zero
  summary := ⟨.empty, .replicate _ 0, .replicate _ 0⟩
  settings := settings
  publicKey := .replicate _ 0
  publicKeyStr := .replicate _ 0
  flow := .idle

/-- What the device does that can be observed: a review it puts up for a
command, a signature it makes, a response it sends. -/
inductive Output where
  | reviewed (path : List UInt32) (message : List UInt8)
  | signed (path : List UInt32) (message : List UInt8)
  | sent (response : List UInt8)
  deriving Repr, DecidableEq

/-- How a handler ends: with `IO_ASYNCH_REPLY`, or with an exception and the
data for the host. -/
inductive Ending where
  | asynch
  | thrown (e : Nat) (data : List UInt8)
  deriving Repr, DecidableEq

/-- The status word for an exception. -/
def statusWord (e : Nat) : Nat :=
  if e &&& 0xF000 = 0x6000 then e
  else if e &&& 0xF000 = 0x9000 then e
  else 0x6800 ||| e &&& 0x7FF

/-- The response to a command that has ended. -/
def respond : Ending → List Output
  | .asynch => []
  | .thrown e data =>
    let sw := statusWord e
    [.sent (data ++ [UInt8.ofNat (sw >>> 8), UInt8.ofNat sw])]

def uiIdle (device : Device) : Device := { device with flow := .idle }

/-- The response of a flow that the user ends, and the idle flow after it. -/
def sendResponse (data : List UInt8) (approve : Bool) (device : Device) : List Output × Device :=
  ([.sent (data ++ if approve then [0x90, 0x00] else [0x69, 0x85])], uiIdle device)

/-- The key of a point: the second coordinate, least significant byte first, with
the parity of the first. -/
def encodePoint (point : Buffer UInt8 (1 + pubkeySize + privateKeyLength)) :
    Buffer UInt8 pubkeySize :=
  let w := point.toList
  let publicKeyArray :=
    (List.range pubkeySize).map fun i => w.getD (pubkeySize + privateKeyLength - i) 0
  if w.getD pubkeySize 0 &&& 1 ≠ 0 then
    ⟨publicKeyArray.set (pubkeySize - 1) (publicKeyArray.getD (pubkeySize - 1) 0 ||| 0x80),
      by simp [publicKeyArray]⟩
  else
    ⟨publicKeyArray, by simp [publicKeyArray]⟩

def getPublicKey (sdk : Sdk) (path : List UInt32) :
    Except SdkException (Buffer UInt8 pubkeySize) := do
  let w ← sdk.generatePair path
  return encodePoint w

/-- An exception of the SDK goes past the handler before it has changed anything. -/
def handleGetPubkey (sdk : Sdk) (device : Device) : Checked (Ending × Device) := do
  if device.command.instruction ≠ .getPubkey ∨ device.command.state ≠ .payloadComplete then
    return (.thrown ApduReply.sdkInvalidParameter.code [], device)
  match getPublicKey sdk device.command.path with
  | .error e => return (.thrown e.code [], device)
  | .ok publicKey => do
    let (_, publicKeyStr) ← device.publicKeyStr.fill
      (encodeBase58 publicKey.toList · base58PubkeyLength)
      (encodeBase58_size publicKey.toList _ _ device.publicKeyStr.length_eq)
    let device := { device with publicKey, publicKeyStr }
    if device.command.nonConfirm then
      return (.thrown ApduReply.success.code publicKey.toList, device)
    else
      return (.asynch, { device with flow := .pubkey 0 })

section Memory

theorem bytes_message (command : ApduCommand) {offset n : Nat}
    (h : offset + n ≤ maxMessageLength) :
    (commandMem command).bytes ⟨.message, offset⟩ n =
      (command.message.toList.drop offset).take n :=
  Mem.bytes_of_block (fun _ => rfl) (h.trans_eq command.message.length_eq.symm)

theorem bytes_messageHash (command : ApduCommand) :
    (commandMem command).bytes ⟨.messageHash, 0⟩ hashSize = command.messageHash.toList := by
  have hlength := command.messageHash.length_eq
  have hbytes : (commandMem command).bytes ⟨.messageHash, 0⟩ hashSize =
      (command.messageHash.toList.drop 0).take hashSize :=
    Mem.bytes_of_block (fun _ => rfl) (by rw [hlength]; decide)
  rwa [List.drop_zero, List.take_of_length_le (by rw [hlength]; decide)] at hbytes

/-- The bytes of the message behind its first ones. -/
theorem bytes_of_holds {command : ApduCommand} {message : List UInt8} (h : command.Holds message)
    {offset : Nat} (hoffset : offset ≤ message.length) :
    (commandMem command).bytes ⟨.message, offset⟩ (message.length - offset) =
      message.drop offset := by
  have hfits := h.fits
  rw [bytes_message command (by omega), h.buffer, Buffer.padded_toList hfits,
    List.drop_append_of_le_length hoffset, List.take_append_of_le_length (by simp),
    List.take_of_length_le (by simp)]

end Memory

end AelfApp
