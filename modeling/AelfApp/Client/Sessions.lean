import AelfApp.Client
import AelfApp.Signing

/-!
Whole sessions of the client, as in `test_aelf.py`: it asks for the key, sends
a request and takes the signature of what the user has read and approved.
-/

namespace AelfApp.Client

open Memory Apdu Libsol Machine Wire Numeral Pieces

section Serialized

variable {toPubkey ticker : List UInt8}

theorem recentBlockhash_eq :
    base58Decode fakeRecentBlockhash = some (List.replicate hashSize 0) := by
  decide +kernel

theorem toBytes_le {n width : Nat} (h : n < 256 ^ width) :
    toBytes n width = some (leBytes width n) := by
  have hrange : (0 : Int) ≤ n ∧ (n : Int) < 256 ^ width := by
    exact_mod_cast And.intro (Nat.zero_le n) h
  rw [toBytes, if_pos hrange]
  rfl

theorem toBytes_u64 (n : UInt64) : toBytes n.toNat 8 = some (leBytes 8 n.toNat) :=
  toBytes_le n.toNat_lt

theorem toBytes_some {n width : Nat} {bytes : List UInt8} (h : toBytes n width = some bytes) :
    n < 256 ^ width := by
  rw [toBytes] at h
  split at h
  · rename_i hrange
    exact_mod_cast hrange.2
  · cases h

/-- A byte is read as a length up to where it would ask for another one. -/
theorem announces_length_iff (n : Nat) :
    (continuation 3).Announces (leBytes 1 n) n ↔ n < 128 := by
  have hbytes : leBytes 1 n = [UInt8.ofNat (n % 256)] := rfl
  rw [hbytes]
  constructor
  · generalize UInt8.ofNat (n % 256) = b
    intro h
    cases h with
    | last hlow => exact hlow
    | more _ hrest => cases hrest
  · intro h
    have hbyte : (UInt8.ofNat (n % 256)).toNat = n := by
      simp only [UInt8.toNat_ofNat']
      omega
    have hlast : Continued 3 [UInt8.ofNat (n % 256)] _ := .last (hbyte.trans_lt h)
    rwa [hbyte] at hlast

/-- The body of a transfer, as the client serializes it. -/
def transferBody (toPubkey ticker : List UInt8) (amount : UInt64) : List UInt8 :=
  toPubkey ++ (leBytes 1 ticker.length ++ (ticker ++ leBytes 8 amount.toNat))

theorem transferBody_length (toPubkey ticker : List UInt8) (amount : UInt64) :
    (transferBody toPubkey ticker amount).length = toPubkey.length + ticker.length + 9 := by
  simp only [transferBody, List.length_append, leBytes_length]
  omega

/-- Its fields are those that the device reads. -/
theorem transferBody_carries_iff (toPubkey ticker : List UInt8) (amount : UInt64) :
    CarriesTransfer (transferBody toPubkey ticker amount) toPubkey ticker amount ↔
      toPubkey.length = pubkeySize ∧ ticker.length < 128 := by
  constructor
  · rintro ⟨hkey, tickerLength, hticker, hbody⟩
    rw [transferBody, List.append_cancel_left_eq, List.append_cancel_right_eq] at hbody
    rw [← hbody, announces_length_iff] at hticker
    exact ⟨hkey, hticker⟩
  · rintro ⟨hkey, hticker⟩
    exact ⟨hkey, _, (announces_length_iff _).mpr hticker, rfl⟩

/-- The message around a body. -/
def withBlockhash (body : List UInt8) : List UInt8 := List.replicate hashSize 0 ++ body

theorem withBlockhash_length (body : List UInt8) :
    (withBlockhash body).length = hashSize + body.length := by
  rw [withBlockhash, List.length_append, List.length_replicate]

theorem withBlockhash_drop (body : List UInt8) : (withBlockhash body).drop hashSize = body :=
  List.drop_left' List.length_replicate

/-- A message with a whole body is put up. -/
theorem withBlockhash_reviewable {body : List UInt8} {insCode : Nat} (settings : AppSettings)
    (h : (bodyFormat insCode).Whole body) : Reviewable settings insCode (withBlockhash body) := by
  refine ⟨(withBlockhash_length body).ge.trans' (Nat.le_add_right _ _), .inr (.inl ?_)⟩
  rwa [withBlockhash_drop]

theorem messageTransfer_eq (toPubkey : List UInt8) (hticker : ticker.length < 256)
    (amount : UInt64) :
    (do messageTransfer (← systemInstructionTransfer toPubkey ticker amount.toNat)) =
      some (withBlockhash (transferBody toPubkey ticker amount)) := by
  have hlength : toBytes ticker.length 1 = some (leBytes 1 ticker.length) :=
    toBytes_le (by simpa using hticker)
  have hserialized : Instruction.serialize ⟨leBytes 8 amount.toNat, toPubkey, ticker⟩ =
      some (transferBody toPubkey ticker amount) := by
    simp only [Instruction.serialize, hlength, transferBody, Option.bind_eq_bind, Option.bind_some,
      Option.pure_def, List.append_assoc]
  simp only [systemInstructionTransfer, toBytes_u64, messageTransfer, hserialized,
    recentBlockhash_eq, withBlockhash, Option.bind_eq_bind, Option.bind_some, Option.pure_def]

/-- The body of a get-tx-result, as the client serializes it. -/
def getTxResultBody (fromPubkey chainPubkey : List UInt8) (refBlockNumber : UInt64)
    (methodName transfer : List UInt8) : List UInt8 :=
  fromPubkey ++ (chainPubkey ++ (leBytes 8 refBlockNumber.toNat ++
    (leBytes 8 methodName.length ++ (methodName ++ transfer))))

theorem getTxResultBody_length (fromPubkey chainPubkey : List UInt8) (refBlockNumber : UInt64)
    (methodName transfer : List UInt8) :
    (getTxResultBody fromPubkey chainPubkey refBlockNumber methodName transfer).length =
      fromPubkey.length + chainPubkey.length + methodName.length + transfer.length + 16 := by
  simp only [getTxResultBody, List.length_append, leBytes_length]
  omega

theorem getTxResultBody_carries_iff (fromPubkey chainPubkey : List UInt8)
    (refBlockNumber : UInt64) {methodName : List UInt8} (hname : methodName.length < 2 ^ 64)
    (toPubkey ticker transfer : List UInt8) (amount : UInt64) :
    CarriesGetTxResult (getTxResultBody fromPubkey chainPubkey refBlockNumber methodName transfer)
        fromPubkey chainPubkey refBlockNumber methodName toPubkey ticker amount ↔
      fromPubkey.length = pubkeySize ∧ chainPubkey.length = pubkeySize ∧
        CarriesTransfer transfer toPubkey ticker amount := by
  constructor
  · rintro ⟨hfrom, hchain, -, tail, htail, hbody⟩
    simp only [getTxResultBody, List.append_cancel_left_eq] at hbody
    exact ⟨hfrom, hchain, hbody ▸ htail⟩
  · rintro ⟨hfrom, hchain, htransfer⟩
    exact ⟨hfrom, hchain, hname, transfer, htransfer, rfl⟩

theorem messageTxResult_of_serialize {instruction : TxResultInstruction} {body : List UInt8}
    (h : instruction.serialize = some body) :
    messageTxResult instruction = some (withBlockhash body) := by
  simp only [messageTxResult, recentBlockhash_eq, h, withBlockhash, Option.bind_eq_bind,
    Option.bind_some, Option.pure_def]

theorem messageTxResult_eq (fromPubkey chainPubkey : List UInt8) (refBlockNumber : UInt64)
    {methodName : List UInt8} (hname : methodName.length < 2 ^ 64) (toPubkey : List UInt8)
    (hticker : ticker.length < 256) (amount : UInt64) :
    (do messageTxResult (← systemInstructionGetTxResult fromPubkey chainPubkey refBlockNumber.toNat
        methodName toPubkey ticker amount.toNat)) =
      some (withBlockhash (getTxResultBody fromPubkey chainPubkey refBlockNumber methodName
        (transferBody toPubkey ticker amount))) := by
  have hnameLength : toBytes methodName.length 8 = some (leBytes 8 methodName.length) :=
    toBytes_le (hname.trans_eq (by norm_num))
  have hlength : toBytes ticker.length 1 = some (leBytes 1 ticker.length) :=
    toBytes_le (by simpa using hticker)
  have hserialized : TxResultInstruction.serialize ⟨fromPubkey, chainPubkey,
      leBytes 8 refBlockNumber.toNat, methodName, toPubkey, ticker, leBytes 8 amount.toNat⟩ =
        some (getTxResultBody fromPubkey chainPubkey refBlockNumber methodName
          (transferBody toPubkey ticker amount)) := by
    simp only [TxResultInstruction.serialize, hnameLength, hlength, getTxResultBody, transferBody,
      Option.bind_eq_bind, Option.bind_some, Option.pure_def, List.append_assoc]
  have hmade : systemInstructionGetTxResult fromPubkey chainPubkey refBlockNumber.toNat methodName
      toPubkey ticker amount.toNat = some ⟨fromPubkey, chainPubkey, leBytes 8 refBlockNumber.toNat,
        methodName, toPubkey, ticker, leBytes 8 amount.toNat⟩ := by
    simp only [systemInstructionGetTxResult, toBytes_u64]
    rfl
  rw [hmade, Option.bind_eq_bind, Option.bind_some, messageTxResult_of_serialize hserialized]

/-- The fields that the client serializes are the ones that the device reads
exactly if the keys are keys and the ticker is shorter than 128 bytes: the client
writes its length as one byte, and the device takes that byte's highest bit as a
sign of more. -/
theorem fields_arrive_iff (fromPubkey chainPubkey : List UInt8) (refBlockNumber : UInt64)
    (methodName toPubkey ticker : List UInt8) (amount : UInt64) :
    (∀ message, (do messageTransfer (← systemInstructionTransfer toPubkey ticker amount.toNat)) =
        some message →
      (CarriesTransfer (message.drop hashSize) toPubkey ticker amount ↔
        toPubkey.length = pubkeySize ∧ ticker.length < 128)) ∧
    (∀ message, (do messageTxResult (← systemInstructionGetTxResult fromPubkey chainPubkey
        refBlockNumber.toNat methodName toPubkey ticker amount.toNat)) = some message →
      (CarriesGetTxResult (message.drop hashSize) fromPubkey chainPubkey refBlockNumber methodName
          toPubkey ticker amount ↔
        fromPubkey.length = pubkeySize ∧ chainPubkey.length = pubkeySize ∧
          toPubkey.length = pubkeySize ∧ ticker.length < 128)) := by
  constructor
  · intro message hmessage
    have hticker : ticker.length < 256 := by
      simp only [systemInstructionTransfer, messageTransfer, Instruction.serialize,
        Option.bind_eq_bind, Option.bind_eq_some_iff, Option.pure_def] at hmessage
      obtain ⟨_, ⟨_, _, ⟨⟩⟩, _, _, _, ⟨_, hlength, _⟩, _⟩ := hmessage
      exact toBytes_some hlength
    cases hmessage.symm.trans (messageTransfer_eq toPubkey hticker amount)
    rw [withBlockhash_drop, transferBody_carries_iff]
  · intro message hmessage
    have hlengths : methodName.length < 2 ^ 64 ∧ ticker.length < 256 := by
      simp only [systemInstructionGetTxResult, messageTxResult, TxResultInstruction.serialize,
        Option.bind_eq_bind, Option.bind_eq_some_iff, Option.pure_def] at hmessage
      obtain ⟨_, ⟨_, _, _, _, ⟨⟩⟩, _, _, _, ⟨_, hname, _, hlength, _⟩, _⟩ := hmessage
      exact ⟨(toBytes_some hname).trans_eq (by norm_num), toBytes_some hlength⟩
    cases hmessage.symm.trans (messageTxResult_eq fromPubkey chainPubkey refBlockNumber hlengths.1
      toPubkey hlengths.2 amount)
    rw [withBlockhash_drop, getTxResultBody_carries_iff _ _ _ hlengths.1, transferBody_carries_iff]

end Serialized

section Keys

variable {sdk : Sdk} {device : Device} {path : List UInt32} {content : List UInt8}

/-- A key is asked for, from any command. -/
theorem getPublicKey_handled (hlow : 1 ≤ path.length) (hhigh : path.length ≤ maxBip32PathLength)
    (command : ApduCommand) :
    ∃ final, apduHandleMessage (getPublicKey (packDerivationPath path)).apdu command =
        .ok (0, final) ∧
      final.state = .payloadComplete ∧ final.instruction = .getPubkey ∧ final.path = path ∧
      final.nonConfirm = true := by
  have hlength := packDerivationPath_length path
  have hdata : (packDerivationPath path).length ≤ 255 := by
    rw [maxBip32PathLength_eq] at hhigh
    omega
  let chunk : Chunk := ⟨.getPubkey, p1NonConfirm, p2None, packDerivationPath path, by decide, hdata⟩
  have hsplit : chunk.split = some (path, []) := by
    have hpath := splitPath_encodePath path [] hlow hhigh
    rw [List.append_nil] at hpath
    exact hpath
  exact ⟨_, apduHandleMessage_started chunk command (by simp [chunk])
    (by simp [chunk, Chunk.extending, p2None]) hsplit,
    by simp [assembled, Chunk.stateAfter, Chunk.more, chunk, p2None], rfl, assembled_path hhigh,
    by simp [assembled, Chunk.nonConfirm, chunk]⟩

/-- And is sent at once, if the system derives it. -/
theorem getPublicKey_answered (hholds : device.command.Holds content)
    (hlow : 1 ≤ path.length) (hhigh : path.length ≤ maxBip32PathLength)
    {publicKey : Buffer UInt8 pubkeySize}
    (hkey : AelfApp.getPublicKey sdk path = .ok publicKey) :
    ∃ after, appStep sdk (.apdu (getPublicKey (packDerivationPath path)).apdu) device =
        .ok ([.sent (publicKey.toList ++ [0x90, 0x00])], after) ∧
      after.settings = device.settings ∧ ∃ content, after.command.Holds content := by
  obtain ⟨command, hcall, hstate, hins, rfl, hconfirm⟩ :=
    getPublicKey_handled hlow hhigh device.command
  obtain ⟨whole, ending, shown, after, hstep, hwhole, hdispatch⟩ :=
    appStep_complete sdk hholds hcall hstate
  have hsigns : ¬ (command.instruction = .signMessage ∨ command.instruction = .getTxResult) := by
    simp [hins]
  cases hdispatch with
  | keySent other publicKeyStr _ _ hother _ =>
      cases hkey.symm.trans hother
      exact ⟨_, hstep, rfl, whole, hwhole⟩
  | keyRefused e _ hother => cases hkey.symm.trans hother
  | configuration hother => cases hins.symm.trans hother
  | keyShown _ _ _ hother _ _ => cases hconfirm.symm.trans hother
  | turnedDown _ _ hother _ => exact absurd hother hsigns
  | reviewed _ _ _ hother _ _ _ _ _ => exact absurd hother hsigns
  | unimplemented hother => cases hins.symm.trans hother

end Keys

section Approved

variable {sdk : Sdk} {device : Device} {path : List UInt32} {content message : List UInt8}
  {instruction : InstructionCode} {screens : List Screen}

/-- The client asks for the key and sends its request, and however the user turns
the pages while approving it, the session ends with the key and the signature in
the client's hands. Behind the round of the key, the screens came up in turn. -/
def Served (sdk : Sdk) (device : Device) (path : List UInt32)
    (publicKey : Buffer UInt8 pubkeySize) (message : List UInt8)
    (signature : Buffer UInt8 signatureLength) (exchange : Exchange) (screens : List Screen) :
    Prop :=
  ∀ approving, Approving exchange.apdu screens approving →
    ∃ log last keyResponse signatureResponse,
      run (recorded (appStep sdk))
        (.apdu (getPublicKey (packDerivationPath path)).apdu :: approving) device =
          .ok (log, last) ∧
      log.flatMap (·.2.1) = [.sent keyResponse, .reviewed path message, .signed path message,
        .sent signatureResponse] ∧
      rapduData keyResponse = some publicKey.toList ∧
      rapduData signatureResponse = some signature.toList ∧ last.flow = .idle ∧
      ∀ index ≤ screens.length, PageAt (moves log) (index + 1) screens index

theorem rapduData_ok (data : List UInt8) : rapduData (data ++ [0x90, 0x00]) = some data := by
  have hlength : (data ++ [0x90, 0x00]).length - 2 = data.length := by
    rw [List.length_append]
    exact Nat.add_sub_cancel _ _
  rw [rapduData, hlength, List.drop_left, List.take_left, if_pos rfl]

/-- A request in one exchange is served, from a device with any command. -/
theorem served (hholds : device.command.Holds content)
    (hins : instruction = .signMessage ∨ instruction = .getTxResult) (hlow : 1 ≤ path.length)
    (hhigh : path.length ≤ maxBip32PathLength) (hfits : message.length ≤ room path)
    (hreviewable : Reviewable device.settings instruction.toByte.toNat message)
    (hpresents : Presents sdk device.settings message instruction screens)
    {publicKey : Buffer UInt8 pubkeySize} {signature : Buffer UInt8 signatureLength}
    (hkey : AelfApp.getPublicKey sdk path = .ok publicKey)
    (hsign : sdk.eddsaSign path message = .ok signature) :
    Served sdk device path publicKey message signature
      ⟨instruction.toByte, p1Confirm, 0, firstData path message⟩ screens := by
  intro approving happroving
  obtain ⟨after, hanswer, hsettings, content', hafter⟩ :=
    getPublicKey_answered hholds hlow hhigh hkey
  obtain ⟨command, hcall, hstate, rfl, rfl, hconfirm, hmessage⟩ :=
    requestChunk_handled hins p1Confirm hlow hhigh hfits after.command
  have hrequest : RequestsReview sdk after
      (Exchange.apdu ⟨command.instruction.toByte, p1Confirm, 0, firstData command.path message⟩)
      command message screens :=
    { handled := hcall
      complete := hstate
      confirm := hconfirm
      instruction := hins
      holds := hmessage
      reviewable := hsettings ▸ hreviewable
      presents := hsettings ▸ hpresents }
  obtain ⟨log, last, outputs, hrun, houtputs, happroved, hpages⟩ :=
    hrequest.approved hafter happroving
  generalize hflow : last.flow = flow at happroved
  cases happroved with
  | refused e hrefused => cases hsign.symm.trans hrefused
  | signed other hother =>
      cases hsign.symm.trans hother
      refine ⟨_, last, _, _, run_cons_ok (recorded_eq_ok.mpr ⟨hanswer, rfl⟩) hrun, ?_,
        rapduData_ok _, rapduData_ok _, hflow, fun index hindex => ?_⟩
      · rw [List.flatMap_cons, houtputs]
        rfl
      · obtain ⟨round, hround, hpage⟩ := hpages index hindex
        exact ⟨round, hround, hpage⟩

/-- A transfer of the client is signed, under every path that the system allows. -/
theorem transfer_session_signs (sdk : Sdk) (settings : AppSettings) (events : List Event)
    (path : List UInt32) (toPubkey ticker : List UInt8) (amount : UInt64)
    (hlow : 1 ≤ path.length) (hhigh : path.length ≤ maxBip32PathLength)
    (hkey : toPubkey.length = pubkeySize) (hticker : ticker.length < 128) :
    ∃ message exchange,
      (do messageTransfer (← systemInstructionTransfer toPubkey ticker amount.toNat)) =
        some message ∧
      sendAsyncSignTransfer (packDerivationPath path) message = some [exchange] ∧
      ∀ publicKey signature, AelfApp.getPublicKey sdk path = .ok publicKey →
        sdk.eddsaSign path message = .ok signature →
        Ensures (run (recorded (appStep sdk)) events (Device.boot settings)) fun result =>
          Served sdk result.2 path publicKey message signature exchange
            (transferScreens result.2.settings.displayFlags toPubkey
              (decimalText 8 amount.toNat)) := by
  have hmessage := messageTransfer_eq toPubkey (hticker.trans (by decide)) amount
  have hcarries := (transferBody_carries_iff toPubkey ticker amount).mpr ⟨hkey, hticker⟩
  have hlength := transferBody_length toPubkey ticker amount
  generalize transferBody toPubkey ticker amount = body at hmessage hcarries hlength
  have hfits : (withBlockhash body).length ≤ room path := by
    have hroom := room_add hhigh
    have hpath : path.length ≤ 5 := hhigh
    have hhash : hashSize = 32 := rfl
    have hsize : pubkeySize = 32 := rfl
    rw [withBlockhash_length]
    omega
  have hne : withBlockhash body ≠ [] := by
    simp [withBlockhash, hashSize]
  refine ⟨_, _, hmessage, sendAsync_fits InstructionCode.signMessage.toByte hhigh hne hfits, ?_⟩
  intro publicKey signature hderived hsign result hresult
  obtain ⟨content, hholds⟩ := rounds_hold sdk settings events result hresult
  refine served hholds (.inl rfl) hlow hhigh hfits (withBlockhash_reviewable _ hcarries.whole) ?_
    hderived hsign
  exact .transfer toPubkey ticker amount (by rwa [withBlockhash_drop])

/-- `m/44'/1616'/12345'`. -/
def clientPath : List UInt32 := [0x8000002C, 0x80000650, 0x80003039]

theorem transfer_session_signs_elf :
    ∃ message exchange,
      (do messageTransfer (← systemInstructionTransfer (List.replicate 32 7) (ascii "ELF")
        (150000000 : UInt64).toNat)) = some message ∧
      sendAsyncSignTransfer (packDerivationPath clientPath) message = some [exchange] ∧
      Ensures (run (recorded (appStep (guardedSdk 1 2))) [.both] (Device.boot ⟨.disabled, .long⟩))
        fun result => Served (guardedSdk 1 2) result.2 clientPath (encodePoint (.replicate _ 1))
          message (.replicate _ 2) exchange
          (transferScreens result.2.settings.displayFlags (List.replicate 32 7)
            (decimalText 8 (150000000 : UInt64).toNat)) := by
  obtain ⟨message, exchange, hmessage, hsend, hserved⟩ :=
    transfer_session_signs (guardedSdk 1 2) ⟨.disabled, .long⟩ [.both] clientPath
      (List.replicate 32 7) (ascii "ELF") 150000000 (by decide) (by decide) (by decide) (by decide)
  exact ⟨message, exchange, hmessage, hsend, hserved _ _ rfl rfl⟩

/-- A get-tx-result of the client is signed, if it fits into one chunk and the
system allows its path. -/
theorem getTxResult_session_signs (sdk : Sdk) (settings : AppSettings) (events : List Event)
    (path : List UInt32) (fromPubkey chainPubkey : List UInt8) (refBlockNumber : UInt64)
    (methodName : CString) (toPubkey ticker : List UInt8) (amount : UInt64)
    (hlow : 1 ≤ path.length) (hhigh : path.length ≤ maxBip32PathLength)
    (hfrom : fromPubkey.length = pubkeySize) (hchain : chainPubkey.length = pubkeySize)
    (hblock : refBlockNumber.toNat < 2 ^ 63) (hname : methodName.chars.length < textBufferLength)
    (hkey : toPubkey.length = pubkeySize) (hticker : ticker.length < 128)
    (hfits : 4 * path.length + methodName.chars.length + ticker.length ≤ 100) :
    ∃ message exchange,
      (do messageTxResult (← systemInstructionGetTxResult fromPubkey chainPubkey
        refBlockNumber.toNat methodName.chars toPubkey ticker amount.toNat)) = some message ∧
      sendAsyncGetTxResult (packDerivationPath path) message = some [exchange] ∧
      ∀ publicKey signature, AelfApp.getPublicKey sdk path = .ok publicKey →
        sdk.eddsaSign path message = .ok signature →
        Ensures (run (recorded (appStep sdk)) events (Device.boot settings)) fun result =>
          Served sdk result.2 path publicKey message signature exchange
            (getTxResultScreens result.2.settings.displayFlags fromPubkey chainPubkey
              refBlockNumber methodName.chars toPubkey (decimalText 8 amount.toNat)) := by
  have hlongest : methodName.chars.length < 2 ^ 64 := hname.trans (by decide)
  have hmessage := messageTxResult_eq fromPubkey chainPubkey refBlockNumber hlongest toPubkey
    (hticker.trans (by decide)) amount
  have hcarries := (getTxResultBody_carries_iff fromPubkey chainPubkey refBlockNumber hlongest
    toPubkey ticker _ amount).mpr
      ⟨hfrom, hchain, (transferBody_carries_iff toPubkey ticker amount).mpr ⟨hkey, hticker⟩⟩
  have hlength := getTxResultBody_length fromPubkey chainPubkey refBlockNumber methodName.chars
    (transferBody toPubkey ticker amount)
  rw [transferBody_length] at hlength
  generalize getTxResultBody fromPubkey chainPubkey refBlockNumber methodName.chars
    (transferBody toPubkey ticker amount) = body at hmessage hcarries hlength
  have hroom : (withBlockhash body).length ≤ room path := by
    have hroom := room_add hhigh
    have hhash : hashSize = 32 := rfl
    have hsize : pubkeySize = 32 := rfl
    rw [withBlockhash_length]
    omega
  have hne : withBlockhash body ≠ [] := by
    simp [withBlockhash, hashSize]
  refine ⟨_, _, hmessage, sendAsync_fits InstructionCode.getTxResult.toByte hhigh hne hroom, ?_⟩
  intro publicKey signature hderived hsign result hresult
  obtain ⟨content, hholds⟩ := rounds_hold sdk settings events result hresult
  refine served hholds (.inr rfl) hlow hhigh hroom (withBlockhash_reviewable _ hcarries.whole) ?_
    hderived hsign
  exact .getTxResult fromPubkey chainPubkey refBlockNumber methodName toPubkey ticker amount
    (by rwa [withBlockhash_drop]) hblock hname

theorem getTxResult_session_signs_elf :
    ∃ message exchange,
      (do messageTxResult (← systemInstructionGetTxResult (List.replicate 32 1)
        (List.replicate 32 2) (1000 : UInt64).toNat (CString.lit "Transfer").chars
        (List.replicate 32 7) (ascii "ELF") (150000000 : UInt64).toNat)) = some message ∧
      sendAsyncGetTxResult (packDerivationPath clientPath) message = some [exchange] ∧
      Ensures (run (recorded (appStep (guardedSdk 1 2))) [.both] (Device.boot ⟨.disabled, .long⟩))
        fun result => Served (guardedSdk 1 2) result.2 clientPath (encodePoint (.replicate _ 1))
          message (.replicate _ 2) exchange
          (getTxResultScreens result.2.settings.displayFlags (List.replicate 32 1)
            (List.replicate 32 2) 1000 (CString.lit "Transfer").chars (List.replicate 32 7)
            (decimalText 8 (150000000 : UInt64).toNat)) := by
  obtain ⟨message, exchange, hmessage, hsend, hserved⟩ :=
    getTxResult_session_signs (guardedSdk 1 2) ⟨.disabled, .long⟩ [.both] clientPath
      (List.replicate 32 1) (List.replicate 32 2) 1000 (.lit "Transfer") (List.replicate 32 7)
      (ascii "ELF") 150000000 (by decide) (by decide) (by decide) (by decide) (by decide)
      (by decide) (by decide) (by decide) (by decide)
  exact ⟨message, exchange, hmessage, hsend, hserved _ _ rfl rfl⟩

end Approved

section Refused

variable {path : List UInt32} {message : List UInt8}

/-- A blind request is sent in one exchange, or not at all. -/
theorem sendBlindSignMessage_some {exchanges : List Exchange}
    (hhigh : path.length ≤ maxBip32PathLength)
    (hsend : sendBlindSignMessage (packDerivationPath path) message = some exchanges) :
    message.length ≤ room path ∧
      exchanges = [⟨insSignTransfer, p1NonConfirm, 0, firstData path message⟩] := by
  by_cases hmessage : message.length ≤ 65535
  swap
  · rw [sendBlindSignMessage, splitAndPrefixMessage, guard, if_neg hmessage] at hsend
    cases hsend
  rw [sendBlindSignMessage, splitAndPrefixMessage_eq hhigh hmessage] at hsend
  have hpos := room_pos hhigh
  rcases eq_or_ne message [] with rfl | hne
  · rw [pieces_nil] at hsend
    cases hsend
  rw [pieces_cons hpos hne] at hsend
  rcases Nat.lt_or_ge (room path) message.length with hexceeds | hfits
  · have hrest : message.drop (room path) ≠ [] := by
      apply List.ne_nil_of_length_pos
      rw [List.length_drop]
      omega
    rw [pieces_cons hpos hrest] at hsend
    simp at hsend
  · rw [List.take_of_length_le hfits, List.drop_of_length_le hfits, pieces_nil] at hsend
    exact ⟨hfits, by simpa using hsend.symm⟩

/-- A request that asks for no confirmation is turned down. -/
theorem unattended_refused {sdk : Sdk} {device : Device} {content : List UInt8}
    (hholds : device.command.Holds content) (hlow : 1 ≤ path.length)
    (hhigh : path.length ≤ maxBip32PathLength) (hfits : message.length ≤ room path) :
    ∃ (reply : ApduReply) (after : Device),
      appStep sdk (.apdu (Exchange.apdu
          ⟨insSignTransfer, p1NonConfirm, 0, firstData path message⟩)) device =
        .ok (respond (.thrown reply.code []), after) ∧ after.flow = device.flow ∧
      reply = if message.length < hashSize then .aelfInvalidMessage else .sdkNotSupported := by
  obtain ⟨command, hcall, hstate, hins, -, hconfirm, hmessage⟩ :=
    requestChunk_handled (.inl rfl) p1NonConfirm hlow hhigh hfits device.command
  obtain ⟨whole, ending, shown, after, hstep, hwhole, hdispatch⟩ :=
    appStep_complete sdk hholds hcall hstate
  obtain rfl : whole = message := hwhole.messageBytes.symm.trans hmessage.messageBytes
  have hasked : command.nonConfirm = true := by
    simpa using hconfirm
  cases hdispatch with
  | turnedDown reply _ _ hdown =>
      refine ⟨reply, after, hstep, ?_⟩
      cases hdown with
      | headerless hshort => exact ⟨rfl, (if_pos hshort).symm⟩
      | unattended hheader _ => exact ⟨rfl, (if_neg hheader.not_gt).symm⟩
      | unrecognized hheader _ _ => exact ⟨rfl, (if_neg hheader.not_gt).symm⟩
  | reviewed _ _ _ _ _ hother _ _ _ => cases hasked.symm.trans hother
  | configuration hother => cases hins.symm.trans hother
  | keyRefused _ hother _ => cases hins.symm.trans hother
  | keySent _ _ hother _ _ _ => cases hins.symm.trans hother
  | keyShown _ _ hother _ _ _ => cases hins.symm.trans hother
  | unimplemented hother => cases hins.symm.trans hother

/-- A blind request is never served: in every state that a run reaches it gets a
status word and no data, and leaves the flow on the screen as it is. -/
theorem blind_sign_refused (sdk : Sdk) (settings : AppSettings) (events : List Event)
    (path : List UInt32) (message : List UInt8) (hlow : 1 ≤ path.length)
    (hhigh : path.length ≤ maxBip32PathLength) :
    Ensures (run (recorded (appStep sdk)) events (Device.boot settings)) fun result =>
      ∀ exchanges, sendBlindSignMessage (packDerivationPath path) message = some exchanges →
        ∃ log last response, run (recorded (appStep sdk))
            (exchanges.map fun exchange => .apdu exchange.apdu) result.2 = .ok (log, last) ∧
          log.flatMap (·.2.1) = [.sent response] ∧ rapduData response = none ∧
          response = (if message.length < hashSize then [0x6a, 0x80] else [0x68, 0x08]) ∧
          last.flow = result.2.flow := by
  intro result hresult exchanges hsend
  obtain ⟨hfits, rfl⟩ := sendBlindSignMessage_some hhigh hsend
  obtain ⟨content, hholds⟩ := rounds_hold sdk settings events result hresult
  obtain ⟨reply, after, hstep, hflow, hreply⟩ := unattended_refused hholds hlow hhigh hfits
  have hrun := run_cons_ok (recorded_eq_ok.mpr ⟨hstep, rfl⟩)
    (rfl : run _ [] after = .ok ([], after))
  rcases Nat.lt_or_ge message.length hashSize with hshort | hlong
  · rw [if_pos hshort] at hreply ⊢
    subst hreply
    exact ⟨_, after, _, hrun, rfl, rfl, rfl, hflow⟩
  · rw [if_neg hlong.not_gt] at hreply ⊢
    subst hreply
    exact ⟨_, after, _, hrun, rfl, rfl, rfl, hflow⟩

theorem blind_sign_refused_short :
    Ensures (run (recorded (appStep constantSdk)) [] (Device.boot ⟨.enabled, .long⟩)) fun result =>
      ∀ exchanges, sendBlindSignMessage (packDerivationPath clientPath) [1, 2, 3] = some exchanges →
        ∃ log last response, run (recorded (appStep constantSdk))
            (exchanges.map fun exchange => .apdu exchange.apdu) result.2 = .ok (log, last) ∧
          log.flatMap (·.2.1) = [.sent response] ∧ rapduData response = none ∧
          response = (if [1, 2, 3].length < hashSize then [0x6a, 0x80] else [0x68, 0x08]) ∧
          last.flow = result.2.flow :=
  blind_sign_refused constantSdk ⟨.enabled, .long⟩ [] clientPath [1, 2, 3] (by decide) (by decide)

end Refused

end AelfApp.Client
