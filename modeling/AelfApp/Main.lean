import AelfApp.SignMessage
import AelfApp.Lib.Machine

/-!
The main loop (`main.c`): one APDU or one event of the user after the other,
in any order. A flow stays on the screen while further APDUs are handled.

The engine that runs a flow belongs to the SDK. What is assumed of it is what
the flows are written for: it begins at the first step, moves to a neighbour of
the step on the screen without leaving the flow at either end, runs the
initialization of a step that it moves to, and runs the callback of the step on
the screen when both buttons are pressed. It turns the pages of a step with a
long text by itself; a press that turns one runs nothing of the application.
The transport sends every response that it is given.
-/

namespace AelfApp

open Memory Apdu Libsol

def majorVersion : UInt8 := 1
def minorVersion : UInt8 := 0
def patchVersion : UInt8 := 0

def BlindSign.toByte : BlindSign → UInt8
  | .disabled => 0
  | .enabled => 1

def PubkeyDisplay.toByte : PubkeyDisplay → UInt8
  | .long => 0
  | .short => 1

/-- The `switch` of `handleApdu` on the instruction of a complete command. -/
def dispatch (sdk : Sdk) (device : Device) : Checked (Ending × List Output × Device) :=
  match device.command.instruction with
  | .getAppConfiguration =>
    .ok (.thrown ApduReply.success.code [device.settings.allowBlindSign.toByte,
      device.settings.pubkeyDisplay.toByte, majorVersion, minorVersion, patchVersion], [], device)
  | .getPubkey => do
    let (ending, device) ← handleGetPubkey sdk device
    return (ending, [], device)
  | .signMessage | .getTxResult => do
    let (thrown, device) ← handleSignMessageParseMessage sdk device
    match thrown with
    | none => handleSignMessageUi device
    | some e => return (.thrown e [], [], device)
  | .unset => .ok (.thrown ApduReply.unimplementedInstruction.code [], [], device)

def handleApdu (sdk : Sdk) (apdu : List UInt8) (device : Device) :
    Checked (Ending × List Output × Device) := do
  let (ret, command) ← apduHandleMessage apdu device.command
  let device := { device with command }
  if ret ≠ 0 then
    return (.thrown ret [], [], device)
  if device.command.state = .payloadInProgress then
    return (.thrown ApduReply.success.code [], [], device)
  dispatch sdk device

/-- What the main loop waits for. `left` and `right` are the presses that move a
flow, and `pageTurn` is one that only turns a page of the step on the screen.
The settings are changed in the menus, and `ioReset` is the exception that
starts the application over. -/
inductive Event where
  | apdu (bytes : List UInt8)
  | left
  | right
  | pageTurn
  | both
  | settings (settings : AppSettings)
  | ioReset
  deriving DecidableEq

/-- Moves a flow to another of its steps. -/
def goToStep (flow : Flow) (device : Device) : Checked (List Output × Device) := do
  let (thrown, device) ← initStep { device with flow }
  match thrown with
  | none => return ([], device)
  | some e => return (respond (.thrown e []), device)

/-- Both buttons, at the step on the screen. -/
def validateStep (sdk : Sdk) (device : Device) : List Output × Device :=
  match device.flow with
  | .idle => ([], device)
  | .pubkey index =>
    if index = 1 then sendResponse device.publicKey.toList true device
    else if index = 2 then sendResponse [] false device
    else ([], device)
  | .signMessage numSummarySteps index =>
    if index = numSummarySteps then sendResultSignMessage sdk device
    else if index = numSummarySteps + 1 then sendResponse [] false device
    else ([], device)

/-- One round of `app_main`. -/
def appStep (sdk : Sdk) (event : Event) (device : Device) : Checked (List Output × Device) :=
  match event with
  | .apdu bytes => do
    if bytes.length = 0 then
      return (respond (.thrown ApduReply.noApduReceived.code []), device)
    let (ending, outputs, device) ← handleApdu sdk bytes device
    return (outputs ++ respond ending, device)
  | .right =>
    match device.flow with
    | .idle => .ok ([], device)
    | .pubkey index =>
      if index + 1 < 3 then goToStep (.pubkey (index + 1)) device else .ok ([], device)
    | .signMessage numSummarySteps index =>
      if index + 1 < numSummarySteps + 2 then
        goToStep (.signMessage numSummarySteps (index + 1)) device
      else .ok ([], device)
  | .left =>
    match device.flow with
    | .idle => .ok ([], device)
    | .pubkey index => if index = 0 then .ok ([], device) else goToStep (.pubkey (index - 1)) device
    | .signMessage numSummarySteps index =>
      if index = 0 then .ok ([], device)
      else goToStep (.signMessage numSummarySteps (index - 1)) device
  | .pageTurn => .ok ([], device)
  | .both => .ok (validateStep sdk device)
  | .settings settings =>
    match device.flow with
    | .idle => .ok ([], { device with settings })
    | _ => .ok ([], device)
  | .ioReset => .ok ([], uiIdle { device with
      command := .zero, publicKey := .replicate _ 0, publicKeyStr := .replicate _ 0 })

end AelfApp
