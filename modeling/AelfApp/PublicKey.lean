import AelfApp.Responses

/-!
The key that the host receives. It is the standard encoding of the point that
belongs to the path, and the key that the user approves is the one whose text
was on the display.
-/

namespace AelfApp

open Memory Apdu Libsol Machine Wire Numeral

variable {sdk : Sdk} {device after : Device} {event : Event} {outputs : List Output}

section Encoding

/-- The coordinates of an uncompressed point, behind the byte that marks it. -/
def firstCoordinate (w : List UInt8) : Nat := beNat ((w.drop 1).take pubkeySize)
def secondCoordinate (w : List UInt8) : Nat := beNat (w.drop (1 + pubkeySize))

theorem leNat_reverse (bytes : List UInt8) : leNat bytes.reverse = beNat bytes := rfl

/-- A number is odd if its last byte is. -/
theorem beNat_concat_mod_two (bytes : List UInt8) (b : UInt8) :
    beNat (bytes ++ [b]) % 2 = b.toNat % 2 := by
  rw [← leNat_reverse, List.reverse_append, List.reverse_singleton, List.singleton_append,
    leNat_cons]
  omega

/-- The highest bit of the last byte. -/
theorem leNat_set_high (bytes : List UInt8) (b : UInt8) (h : b.toNat < 128) :
    leNat (bytes ++ [b ||| 0x80]) = leNat (bytes ++ [b]) + 2 ^ (8 * bytes.length + 7) := by
  have hor : (b ||| 0x80).toNat = b.toNat + 128 := by
    have hall : ∀ n < 128, (UInt8.ofNat n ||| 0x80).toNat = n + 128 := by decide +kernel
    have hb := hall b.toNat h
    rwa [UInt8.ofNat_toNat] at hb
  have hpow : (2 : Nat) ^ (8 * bytes.length + 7) = 256 ^ bytes.length * 128 := by
    rw [Nat.pow_add, Nat.pow_mul]
  simp only [leNat_append, leNat_cons, leNat_nil, hor, hpow]
  ring

theorem toNat_and_one (b : UInt8) : b &&& 1 = 0 ↔ b.toNat % 2 = 0 := by
  have hall : ∀ n < 256, UInt8.ofNat n &&& 1 = 0 ↔ n % 2 = 0 := by decide +kernel
  have hb := hall b.toNat b.toNat_lt
  rwa [UInt8.ofNat_toNat] at hb

/-- The loop reads the second coordinate from its end. -/
theorem reversed_coordinate {w : List UInt8} (hw : w.length = 1 + pubkeySize + privateKeyLength) :
    ((List.range pubkeySize).map fun i => w.getD (pubkeySize + privateKeyLength - i) 0) =
      (w.drop (1 + pubkeySize)).reverse := by
  apply List.ext_getElem
  · simp [hw, pubkeySize, privateKeyLength]
  · intro i hi _
    simp only [List.length_map, List.length_range] at hi
    simp only [pubkeySize, privateKeyLength] at hw hi
    simp only [List.getElem_map, List.getElem_range, List.getElem_reverse, List.getElem_drop,
      List.length_drop, hw, pubkeySize, privateKeyLength]
    rw [List.getD_eq_getElem?_getD, List.getElem?_eq_getElem (by omega), Option.getD_some]
    congr 1
    omega

/-- The bytes of a key, from the point: the loop, and the bit it may set. -/
theorem encodePoint_toList (point : Buffer UInt8 (1 + pubkeySize + privateKeyLength))
    {top : UInt8} {low : List UInt8} (hsecond : point.toList.drop (1 + pubkeySize) = top :: low) :
    (encodePoint point).toList = low.reverse ++
      [if point.toList.getD pubkeySize 0 &&& 1 ≠ 0 then top ||| 0x80 else top] := by
  have hloop := reversed_coordinate point.length_eq
  have hlow : low.length = pubkeySize - 1 := by
    have hlength := congrArg List.length hsecond
    simp only [List.length_drop, point.length_eq, List.length_cons, pubkeySize, privateKeyLength]
      at hlength ⊢
    omega
  rw [hsecond, List.reverse_cons] at hloop
  unfold encodePoint
  simp only [hloop]
  split
  · simp only [← hlow]
    simp [List.set_append_right]
  · rfl

/-- The key of a point: its second coordinate, least significant byte first, with
the parity of the first coordinate in the highest bit. -/
theorem encodePoint_leNat (point : Buffer UInt8 (1 + pubkeySize + privateKeyLength))
    (h : secondCoordinate point.toList < 2 ^ 255) :
    leNat (encodePoint point).toList =
      secondCoordinate point.toList + 2 ^ 255 * (firstCoordinate point.toList % 2) := by
  have hlength : point.toList.length = 65 := point.length_eq
  have hbytes := @encodePoint_toList point
  generalize point.toList = w at h hlength hbytes ⊢
  have hsecond : w.drop (1 + pubkeySize) = w[33] :: w.drop 34 := List.drop_eq_getElem_cons _
  have hfirst : (w.drop 1).take pubkeySize = (w.drop 1).take 31 ++ [w[32]] := by
    have hroom : 31 < (w.drop 1).length := by simp [hlength]
    have htake := List.take_succ_eq_append_getElem hroom
    rwa [List.getElem_drop] at htake
  have hparity : w.getD pubkeySize 0 = w[32] := by
    rw [List.getD_eq_getElem?_getD, show pubkeySize = 32 from rfl, List.getElem?_eq_getElem,
      Option.getD_some]
  have hlow : (w.drop 34).length = 31 := by simp [hlength]
  have htop : w[33].toNat < 128 := by
    rw [secondCoordinate, hsecond, beNat_cons, hlow] at h
    omega
  have hx : firstCoordinate w % 2 = w[32].toNat % 2 := by
    rw [firstCoordinate, hfirst, beNat_concat_mod_two]
  have hy : leNat ((w.drop 34).reverse ++ [w[33]]) = secondCoordinate w := by
    rw [← List.reverse_cons, ← hsecond, leNat_reverse]
    rfl
  rw [hbytes hsecond, hparity, hx]
  split
  · rename_i hodd
    have hone : w[32].toNat % 2 = 1 := by
      have hne := (toNat_and_one w[32]).not.mp hodd
      omega
    rw [leNat_set_high _ _ htop, List.length_reverse, hlow, hy, hone, Nat.mul_one]
  · rename_i heven
    have hzero := (toNat_and_one w[32]).mp (not_not.mp heven)
    rw [hy, hzero, Nat.mul_zero, Nat.add_zero]

/-- Where the SDK derives a point for the path, the key is its encoding. -/
theorem getPublicKey_encodes (sdk : Sdk) (path : List UInt32)
    (w : Buffer UInt8 (1 + pubkeySize + privateKeyLength)) (hpoint : sdk.generatePair path = .ok w)
    (h : secondCoordinate w.toList < 2 ^ 255) :
    ∃ publicKey, getPublicKey sdk path = .ok publicKey ∧
      leNat publicKey.toList =
        secondCoordinate w.toList + 2 ^ 255 * (firstCoordinate w.toList % 2) := by
  refine ⟨encodePoint w, ?_, encodePoint_leNat w h⟩
  rw [getPublicKey, hpoint]
  rfl

/-- A point whose first coordinate is odd. -/
def oddPoint : Buffer UInt8 (1 + pubkeySize + privateKeyLength) :=
  .padded _ 9 (4 :: List.replicate 31 0 ++ [3])

theorem getPublicKey_encodes_odd :
    ∃ publicKey, getPublicKey { constantSdk with generatePair := fun _ => .ok oddPoint } [] =
        .ok publicKey ∧
      leNat publicKey.toList =
        secondCoordinate oddPoint.toList + 2 ^ 255 * (firstCoordinate oddPoint.toList % 2) :=
  getPublicKey_encodes { constantSdk with generatePair := fun _ => .ok oddPoint } [] oddPoint rfl
    (by decide +kernel)

end Encoding

section Keys

/-- The APDU of the round completes a `GetPubkey` whose key the SDK derives: it is
put up, or sent. -/
structure DerivesKey (sdk : Sdk) (publicKey : Buffer UInt8 pubkeySize)
    (round : Event × List Output × Device) : Prop where
  apdu : ∃ bytes, round.1 = .apdu bytes
  state : round.2.2.command.state = .payloadComplete
  instruction : round.2.2.command.instruction = .getPubkey
  key : getPublicKey sdk round.2.2.command.path = .ok publicKey
  answer : round.2.1 = [] ∧ round.2.2.flow = .pubkey 0 ∨
    round.2.1 = [.sent (publicKey.toList ++ [0x90, 0x00])]

/-- The device holds a key, and its text. -/
structure HoldsKey (publicKey : Buffer UInt8 pubkeySize) (device : Device) : Prop where
  key : device.publicKey = publicKey
  text : cString device.publicKeyStr.toList = base58Text publicKey.toList

/-- The key on the device is the one that the log derived last. -/
structure KeyOf (sdk : Sdk) (log : RoundLog) (device : Device)
    (publicKey : Buffer UInt8 pubkeySize) (derived : Event × List Output × Device)
    (later : RoundLog) : Prop where
  log_eq : ∃ earlier, log = earlier ++ derived :: later
  derives : DerivesKey sdk publicKey derived
  last : ∀ round ∈ later, ∀ other, ¬ DerivesKey sdk other round
  kept : ∀ round ∈ derived :: later, HoldsKey publicKey round.2.2
  held : HoldsKey publicKey device

/-- What a round does to the key. -/
inductive KeyRound (sdk : Sdk) (device : Device) (event : Event) (outputs : List Output)
    (after : Device) : Prop where
  | kept (hkey : after.publicKey = device.publicKey)
      (htext : after.publicKeyStr = device.publicKeyStr)
      (hflow : ∀ index, after.flow = .pubkey index → ∃ before, device.flow = .pubkey before)
      (hnot : ∀ other, ¬ DerivesKey sdk other (event, outputs, after))
  | derived (publicKey : Buffer UInt8 pubkeySize)
      (hderives : DerivesKey sdk publicKey (event, outputs, after))
      (hholds : HoldsKey publicKey after)
  | cleared (hflow : after.flow = .idle)

/-- What sends a status word and no data derives nothing. -/
theorem DerivesKey.not_status {publicKey : Buffer UInt8 pubkeySize} {e : Nat} :
    ¬ DerivesKey sdk publicKey (event, [] ++ respond (.thrown e []), after) := by
  intro h
  have hlength := publicKey.length_eq
  rcases h.answer with ⟨hnone, -⟩ | hsent
  · cases hnone
  · have hbytes := congrArg List.length (Output.sent.inj (List.head_eq_of_cons_eq hsent))
    simp [hlength, pubkeySize] at hbytes

theorem Next.pubkey {before flow : Flow} (h : Next event before flow) {index : Nat}
    (hflow : flow = .pubkey index) : ∃ index, before = .pubkey index := by
  cases h with
  | pubkeyRight index _ => exact ⟨index, rfl⟩
  | pubkeyLeft index => exact ⟨_, rfl⟩
  | signMessageRight _ _ _ => cases hflow
  | signMessageLeft _ _ => cases hflow

theorem DerivesKey.not_event {publicKey : Buffer UInt8 pubkeySize}
    (hevent : ∀ bytes, event ≠ .apdu bytes) :
    ¬ DerivesKey sdk publicKey (event, outputs, after) := by
  intro h
  obtain ⟨bytes, happened⟩ := h.apdu
  exact hevent bytes happened

theorem Dispatch.key {command : ApduCommand} {bytes message : List UInt8} {ending : Ending}
    {shown : List Output} (hstate : command.state = .payloadComplete)
    (h : Dispatch sdk { device with command } message ending shown after) :
    KeyRound sdk device (.apdu bytes) (shown ++ respond ending) after := by
  have hsame : (∀ other, ¬ DerivesKey sdk other
        (.apdu bytes, shown ++ respond ending, { device with command })) →
      KeyRound sdk device (.apdu bytes) (shown ++ respond ending) { device with command } :=
    fun hnot => .kept rfl rfl (fun index hindex => ⟨index, hindex⟩) hnot
  cases h with
  | configuration hins =>
      refine hsame fun other h => ?_
      cases hins.symm.trans h.instruction
  | keyRefused e _ _ => exact hsame fun _ => DerivesKey.not_status
  | keySent publicKey _ hins _ hkey htext =>
      exact .derived publicKey ⟨⟨bytes, rfl⟩, hstate, hins, hkey, .inr rfl⟩ ⟨rfl, htext⟩
  | keyShown publicKey _ hins _ hkey htext =>
      exact .derived publicKey ⟨⟨bytes, rfl⟩, hstate, hins, hkey, .inl ⟨rfl, rfl⟩⟩ ⟨rfl, htext⟩
  | turnedDown _ _ _ hdown =>
      obtain ⟨summary, rfl⟩ := hdown.eq
      exact .kept rfl rfl (fun index hindex => ⟨index, hindex⟩) fun _ => DerivesKey.not_status
  | reviewed ops read summary _ _ _ hputUp _ _ =>
      have hnot : ∀ other, ¬ DerivesKey sdk other
          (.apdu bytes, [.reviewed command.path message] ++ respond .asynch,
            { read with summary, flow := .signMessage ops.length 0 }) := by
        intro other h
        rcases h.answer with ⟨hnone, -⟩ | hsent
        · cases hnone
        · cases hsent
      cases hputUp with
      | body _ _ _ _ _ => exact .kept rfl rfl (by simp) hnot
      | blind _ _ _ _ => exact .kept rfl rfl (by simp) hnot
  | unimplemented _ => exact hsame fun _ => DerivesKey.not_status

theorem Round.key (h : Round sdk device event outputs after) :
    KeyRound sdk device event outputs after := by
  have hflow : ∀ {other : Device}, other.flow = device.flow →
      ∀ index, other.flow = .pubkey index → ∃ before, device.flow = .pubkey before :=
    fun hsame index hindex => ⟨index, hsame ▸ hindex⟩
  cases h with
  | noApdu => exact .kept rfl rfl (hflow rfl) fun _ => DerivesKey.not_status
  | apdu bytes message _ _ _ _ h =>
      cases h with
      | refused _ _ _ _ _ => exact .kept rfl rfl (hflow rfl) fun _ => DerivesKey.not_status
      | progress _ _ _ _ => exact .kept rfl rfl (hflow rfl) fun _ => DerivesKey.not_status
      | complete command whole ending shown _ hstate _ _ _ hdispatch => exact hdispatch.key hstate
  | stayed _ hapdu _ => exact .kept rfl rfl (hflow rfl) fun _ => DerivesKey.not_event hapdu
  | moved _ flow _ _ hnext h =>
      obtain ⟨summary, -, rfl⟩ := h.eq
      refine .kept rfl rfl (fun index hindex => hnext.pubkey hindex) fun _ => ?_
      rcases hnext.button with rfl | rfl
      · exact DerivesKey.not_event (by simp)
      · exact DerivesKey.not_event (by simp)
  | keyApproved _ => exact .kept rfl rfl (by simp [uiIdle]) fun _ => DerivesKey.not_event (by simp)
  | signed _ _ _ _ =>
      exact .kept rfl rfl (by simp [uiIdle]) fun _ => DerivesKey.not_event (by simp)
  | unsigned _ _ _ _ => exact .kept rfl rfl (hflow rfl) fun _ => DerivesKey.not_event (by simp)
  | rejected _ => exact .kept rfl rfl (by simp [uiIdle]) fun _ => DerivesKey.not_event (by simp)
  | settings _ _ => exact .kept rfl rfl (hflow rfl) fun _ => DerivesKey.not_event (by simp)
  | ioReset => exact .cleared rfl

/-- A flow that shows a key has the last one that was derived. -/
theorem KeyRound.keyOf {log : RoundLog} (h : KeyRound sdk device event outputs after)
    (hbefore : ∀ index, device.flow = .pubkey index →
      ∃ publicKey derived later, KeyOf sdk log device publicKey derived later)
    {index : Nat} (hflow : after.flow = .pubkey index) :
    ∃ publicKey derived later,
      KeyOf sdk (log ++ [(event, outputs, after)]) after publicKey derived later := by
  cases h with
  | kept hkey htext hpubkey hnot =>
      obtain ⟨before, hpubkey⟩ := hpubkey index hflow
      obtain ⟨publicKey, derived, later, ⟨earlier, rfl⟩, hderives, hlast, hkept, hheld⟩ :=
        hbefore before hpubkey
      have hholds : HoldsKey publicKey after := ⟨hkey.trans hheld.key, by rw [htext, hheld.text]⟩
      refine ⟨publicKey, derived, later ++ [(event, outputs, after)], ⟨earlier, by simp⟩, hderives,
        forall_mem_snoc hlast hnot, ?_, hholds⟩
      rw [← List.cons_append]
      exact forall_mem_snoc hkept hholds
  | derived publicKey hderives hholds =>
      exact ⟨publicKey, (event, outputs, after), [], ⟨log, rfl⟩, hderives, by simp,
        List.forall_mem_singleton.mpr hholds, hholds⟩
  | cleared hidle => cases hidle.symm.trans hflow

/-- An exception of the SDK never looks like success to the host. -/
theorem SdkException.statusWord_ne_success (e : SdkException) :
    statusBytes (statusWord e.code) ≠ [0x90, 0x00] := by
  have hword : statusWord e.code < 2 ^ 16 ∧ statusWord e.code ≠ 0x9000 := by
    have hmasked : e.code &&& 0x7FF < 2 ^ 16 := Nat.and_lt_two_pow _ (by decide)
    unfold statusWord
    split_ifs
    · exact ⟨e.bits, e.notSuccess⟩
    · exact ⟨e.bits, e.notSuccess⟩
    · refine ⟨Nat.or_lt_two_pow (by decide) hmasked, fun hsuccess => ?_⟩
      -- The bit 14 is in 0x6800 and not in 0x9000.
      have hbit := congrArg (Nat.testBit · 14) hsuccess
      rw [Nat.testBit_or] at hbit
      simp [show Nat.testBit 0x6800 14 = true from rfl,
        show Nat.testBit 0x9000 14 = false from rfl] at hbit
  obtain ⟨hbits, hne⟩ := hword
  intro hbytes
  simp only [statusBytes, List.cons.injEq, and_true] at hbytes
  obtain ⟨hhigh, hlow⟩ := hbytes
  have hhigh' := congrArg UInt8.toNat hhigh
  have hlow' := congrArg UInt8.toNat hlow
  simp only [UInt8.toNat_ofNat', Nat.shiftRight_eq_div_pow, UInt8.reduceToNat] at hhigh' hlow'
  omega

/-- Only the Approve step of a key sends data without signing. -/
theorem Round.approved {data : List UInt8} (h : Round sdk device .both outputs after)
    (houtputs : outputs = [.sent (data ++ [0x90, 0x00])]) :
    device.flow = .pubkey 1 ∧ data = device.publicKey.toList := by
  cases h with
  | stayed _ _ _ => cases houtputs
  | moved _ flow _ _ hnext _ => rcases hnext.button with hbutton | hbutton <;> cases hbutton
  | keyApproved hflow =>
      refine ⟨hflow, ?_⟩
      simpa using houtputs.symm
  | signed _ _ _ _ => simp at houtputs
  | unsigned _ e _ _ =>
      have hresponse : [] ++ statusBytes (statusWord e.code) = data ++ [0x90, 0x00] :=
        Output.sent.inj (List.head_eq_of_cons_eq houtputs)
      obtain ⟨-, hstatus⟩ := List.append_inj' hresponse rfl
      exact absurd hstatus e.statusWord_ne_success
  | rejected _ =>
      have hresponse := Output.sent.inj (List.head_eq_of_cons_eq houtputs)
      have hlast := congrArg List.getLast? hresponse
      simp at hlast

/-- The key that the user approved in a round was derived by the last round
before it that derived one, and from then on its text was in the display buffer. -/
def ApprovedKeyOf (sdk : Sdk) (before : RoundLog) (round : Event × List Output × Device) : Prop :=
  ∀ data, round.1 = .both → round.2.1 = [.sent (data ++ [0x90, 0x00])] →
    ∃ earlier derived later publicKey, before = earlier ++ derived :: later ∧
      DerivesKey sdk publicKey derived ∧ (∀ round ∈ later, ∀ other, ¬ DerivesKey sdk other round) ∧
      data = publicKey.toList ∧
      ∀ round ∈ derived :: later,
        base58Decode (cString round.2.2.publicKeyStr.toList) = some data

/-- In every run, whatever the host sends in between, an approved key is the last
one that was derived, and has been on the display since. -/
theorem approved_key_was_shown (sdk : Sdk) (settings : AppSettings) (events : List Event) :
    Ensures (run (recorded (appStep sdk)) events (Device.boot settings)) fun result =>
      Everywhere (ApprovedKeyOf sdk) result.1 := by
  have hrun := rounds_ensures sdk settings
    (fun log device => Everywhere (ApprovedKeyOf sdk) log ∧
      ∀ index, device.flow = .pubkey index →
        ∃ publicKey derived later, KeyOf sdk log device publicKey derived later)
    (fun _ _ => True) ⟨everywhere_nil, by rintro _ ⟨⟩⟩
    (fun log device event outputs after hinv _ hround => ?_) events (within_always events _)
  · exact fun result hresult => (hrun result hresult).1
  · obtain ⟨hlog, hkeys⟩ := hinv
    refine ⟨hlog.snoc ?_, fun index hflow => hround.key.keyOf hkeys hflow⟩
    rintro data rfl houtputs
    obtain ⟨hflow, hdata⟩ := hround.approved houtputs
    obtain ⟨publicKey, derived, later, ⟨earlier, rfl⟩, hderives, hlast, hkept, hheld⟩ :=
      hkeys 1 hflow
    rw [hheld.key] at hdata
    refine ⟨earlier, derived, later, publicKey, rfl, hderives, hlast, hdata, ?_⟩
    intro round member
    rw [(hkept round member).text, base58Decode_base58Text, hdata]

end Keys

end AelfApp
