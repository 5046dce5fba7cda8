import AelfApp.Lib.Memory

/-! The constants and settings shared by the whole application (`globals.h`). -/

namespace AelfApp

open Memory

def cla : UInt8 := 0xE0

/-! Offsets of the fields of an APDU. -/

def offsetCla : Nat := 0
def offsetIns : Nat := 1
def offsetP1 : Nat := 2
def offsetP2 : Nat := 3
def offsetLc : Nat := 4
def offsetCdata : Nat := 5

def p1NonConfirm : UInt8 := 0x00

def p2Extend : UInt8 := 0x01
def p2More : UInt8 := 0x02

/-- `size_t` is 32 bits wide on the device. -/
def sizeBits : Nat := 32

def usbSegmentSize : Nat := 64

def roundToNext (x next : Nat) : Nat :=
  if x = 0 then 0 else ((x - 1) / next + 1) * next

def packetDataSize : Nat := 1280 - 40 - 8

def maxBip32PathLength : Nat := 5
def maxDerivationPathBufferLength : Nat := 1 + maxBip32PathLength * 4
def totalSignMessageBufferLength : Nat := packetDataSize + maxDerivationPathBufferLength

def maxMessageLength : Nat := roundToNext totalSignMessageBufferLength usbSegmentSize

def hashLength : Nat := 32

theorem maxMessageLength_eq : maxMessageLength = 1280 := rfl

/-- The data of one APDU fits into a message. -/
theorem le_maxMessageLength {n : Nat} (h : n ≤ 255) : n ≤ maxMessageLength := by
  rw [maxMessageLength_eq]
  omega

theorem maxBip32PathLength_eq : maxBip32PathLength = 5 := rfl

/-- The instruction of a command. `unset` is the zero that `explicit_bzero`
leaves in the field, which is not an enumerator of the source. -/
inductive InstructionCode where
  | unset
  | getAppConfiguration
  | getPubkey
  | signMessage
  | getTxResult
  deriving Repr, DecidableEq

def InstructionCode.toByte : InstructionCode → UInt8
  | .unset => 0x00
  | .getAppConfiguration => 0x01
  | .getPubkey => 0x02
  | .signMessage => 0x03
  | .getTxResult => 0x04

theorem InstructionCode.toByte_injective : Function.Injective toByte := by
  intro a b h
  cases a <;> cases b <;> first | rfl | exact absurd h (by decide)

/-- The cases of the `switch` on `header.instruction`. -/
def InstructionCode.ofByte? (b : UInt8) : Option InstructionCode :=
  if b = 0x01 then some .getAppConfiguration
  else if b = 0x02 then some .getPubkey
  else if b = 0x03 then some .signMessage
  else if b = 0x04 then some .getTxResult
  else none

theorem InstructionCode.ofByte?_toByte (instruction : InstructionCode)
    (h : instruction ≠ .unset) : ofByte? instruction.toByte = some instruction := by
  cases instruction with
  | unset => exact absurd rfl h
  | getAppConfiguration => rfl
  | getPubkey => rfl
  | signMessage => rfl
  | getTxResult => rfl

theorem InstructionCode.toByte_of_ofByte? {b : UInt8} {instruction : InstructionCode}
    (h : ofByte? b = some instruction) : b = instruction.toByte ∧ instruction ≠ .unset := by
  unfold ofByte? at h
  split at h
  · rename_i hb
    cases h
    exact ⟨hb, by decide⟩
  · split at h
    · rename_i hb
      cases h
      exact ⟨hb, by decide⟩
    · split at h
      · rename_i hb
        cases h
        exact ⟨hb, by decide⟩
      · split at h
        · rename_i hb
          cases h
          exact ⟨hb, by decide⟩
        · cases h

inductive BlindSign where
  | disabled
  | enabled
  deriving Repr, DecidableEq

inductive PubkeyDisplay where
  | long
  | short
  deriving Repr, DecidableEq

/-- The user's settings. `display_mode` is left out: it only fills the
`expert_mode` of a configuration that nothing reads. -/
structure AppSettings where
  allowBlindSign : BlindSign
  pubkeyDisplay : PubkeyDisplay
  deriving Repr, DecidableEq

end AelfApp
