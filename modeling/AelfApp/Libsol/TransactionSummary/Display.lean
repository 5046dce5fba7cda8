import AelfApp.Libsol.TransactionSummary
import AelfApp.Libsol.Printer.Base58
import AelfApp.Libsol.Printer.Timestamp

/-!
What a screen shows after `transaction_summary_display_item`: for every kind
of item it is a function of the item alone, whatever the two buffers held.
-/

namespace AelfApp.Libsol

open Memory Numeral

variable {β : Type}

/-- The two texts of a step, as its reader sees them. -/
@[ext]
structure Screen where
  title : List UInt8
  text : List UInt8
  deriving DecidableEq

def SummaryGlobals.screen (g : SummaryGlobals β) : Screen :=
  ⟨cString g.title.toList, cString g.text.toList⟩

section Texts

/-- The short form of a long text. -/
def shortened (text : List UInt8) : List UInt8 :=
  text.take summaryLength ++ ascii ".." ++ text.drop (text.length - summaryLength)

/-- A key as the flags ask for it. -/
def pubkeyText (flags : DisplayFlags) (key : List UInt8) : List UInt8 :=
  if flags &&& displayFlagLongPubkeys ≠ 0 then base58Text key else shortened (base58Text key)

/-- The text of a value in use, with the return code. -/
def valueOutcome (mem : Mem β) (flags : DisplayFlags) : SummaryValue β → Checked (Nat × List UInt8)
  | .amount u64 => .ok (0, decimalText 8 u64.toNat ++ ascii " ELF")
  | .tokenAmount value symbol decimals => tokenAmountOutcome value symbol decimals textBufferLength
  | .i64 i64 => i64Outcome i64 textBufferLength
  | .u64 u64 => u64Outcome u64 textBufferLength
  | .pubkey pubkey => do
    let key ← mem.loadBytes pubkey pubkeySize
    return (0, pubkeyText flags key)
  | .hash hash => do
    let hash ← mem.loadBytes hash hashSize
    return (0, base58Text hash)
  | .string string => .ok (0, clipped textBufferLength string.chars)
  | .sizedString sizedString => do
    let src ← mem.loadBytes sizedString.string (min textBufferLength sizedString.length.toNat)
    return (0, sizedText textBufferLength sizedString.length.toNat src)
  | .timestamp i64 => timestampOutcome i64 textBufferLength

theorem encodeBase58_pubkey {key out : List UInt8} (hkey : key.length = pubkeySize)
    (hout : out.length = base58PubkeyLength) :
    encodeBase58 key out base58PubkeyLength =
      .ok (0, base58Text key ++ 0 :: out.drop ((base58Text key).length + 1)) := by
  have hsize : pubkeySize = 32 := rfl
  obtain ⟨-, hlt⟩ := base58Text_pubkey hkey
  rw [encodeBase58_eq key out (by omega) (by omega), if_neg (by omega)]

theorem pubkey_prints (mem : Mem β) (flags : DisplayFlags) (pubkey : Option (Ptr β)) :
    Prints textBufferLength (updateText mem (.pubkey pubkey) flags)
      (valueOutcome mem flags (.pubkey pubkey)) := by
  intro out hout
  simp only [updateText, valueOutcome]
  cases hload : mem.loadBytes pubkey pubkeySize with
  | error e => simp only [error_bind]
  | ok key =>
      have hkey := Mem.loadBytes_length hload
      have hnoNul := base58Text_noNul key
      obtain ⟨hlong, hfits⟩ := base58Text_pubkey hkey
      have hzero : (List.replicate base58PubkeyLength (0 : UInt8)).length = base58PubkeyLength :=
        List.length_replicate
      have hencode := encodeBase58_pubkey hkey hzero
      simp only [ok_bind, hencode, pure_eq_ok, ne_eq, not_true_eq_false, ↓reduceIte, pubkeyText]
      by_cases hflag : flags &&& displayFlagLongPubkeys = 0
      · obtain ⟨filled, hcall, htext⟩ := printSummary_eq (base58Text key)
          ((List.replicate base58PubkeyLength 0).drop ((base58Text key).length + 1)) out
          base58PubkeyShort summaryLength summaryLength hnoNul
          (by
            have hshort : base58PubkeyShort = 17 := rfl
            have hsize : pubkeySize = 32 := rfl
            omega)
          (by decide) (by rw [hout]; decide)
        simp only [hflag, not_true_eq_false, ↓reduceIte]
        exact ⟨filled, hcall, fun _ => htext⟩
      · obtain ⟨filled, hcall, htext⟩ := printString_eq (base58Text key ++
          0 :: (List.replicate base58PubkeyLength 0).drop ((base58Text key).length + 1)) out
          textBufferLength (by decide) hout
        have hsame : textBufferLength = base58PubkeyLength := rfl
        rw [cString_append_nul _ _ hnoNul, hsame] at hcall htext
        rw [if_pos hfits] at hcall
        rw [clipped, if_pos hfits] at htext
        simp only [hflag, not_false_eq_true, ↓reduceIte]
        exact ⟨filled, hcall, fun _ => htext⟩

theorem hash_prints (mem : Mem β) (flags : DisplayFlags) (hash : Option (Ptr β)) :
    Prints textBufferLength (updateText mem (.hash hash) flags)
      (valueOutcome mem flags (.hash hash)) := by
  intro out hout
  simp only [updateText, valueOutcome]
  cases hload : mem.loadBytes hash hashSize with
  | error e => simp only [error_bind]
  | ok bytes =>
      have hencode := encodeBase58_pubkey (Mem.loadBytes_length hload) hout
      simp only [ok_bind, pure_eq_ok]
      exact ⟨_, hencode, fun _ => cString_append_nul _ _ (base58Text_noNul bytes)⟩

theorem sizedString_prints (mem : Mem β) (flags : DisplayFlags) (string : SizedString β) :
    Prints textBufferLength (updateText mem (.sizedString string) flags)
      (valueOutcome mem flags (.sizedString string)) := by
  intro out hout
  simp only [updateText, valueOutcome]
  cases hload : mem.loadBytes string.string (min textBufferLength string.length.toNat) with
  | error e => simp only [printSizedString_null hload, error_bind]
  | ok src =>
      obtain ⟨filled, hcall, htext⟩ := printSizedString_eq mem string textBufferLength
        (by decide) hout hload
      simp only [hcall, ok_bind, pure_eq_ok]
      exact ⟨filled, rfl, fun _ => htext⟩

theorem string_prints (mem : Mem β) (flags : DisplayFlags) (string : CString) :
    Prints textBufferLength (updateText mem (.string string) flags)
      (valueOutcome mem flags (.string string)) := by
  intro out hout
  obtain ⟨filled, hcall, htext⟩ := printString_eq string.chars out textBufferLength
    (by decide) hout
  simp only [updateText, valueOutcome, hcall, ok_bind, pure_eq_ok]
  rw [cString_of_noNul _ string.noNul] at htext
  exact ⟨filled, rfl, fun _ => htext⟩

/-- Every kind of value is shown as the outcome says, in every text buffer. -/
theorem updateText_prints (mem : Mem β) (value : SummaryValue β) (flags : DisplayFlags) :
    Prints textBufferLength (updateText mem value flags) (valueOutcome mem flags value) := by
  cases value with
  | amount u64 => exact printAmount_prints u64
  | tokenAmount value symbol decimals =>
      exact printTokenAmount_prints value symbol decimals textBufferLength (by decide) (by decide)
  | i64 i64 => exact printI64_prints i64 (by decide) (by decide)
  | u64 u64 => exact printU64_prints u64 textBufferLength (by decide) (by decide)
  | pubkey pubkey => exact pubkey_prints mem flags pubkey
  | hash hash => exact hash_prints mem flags hash
  | sizedString sizedString => exact sizedString_prints mem flags sizedString
  | string string => exact string_prints mem flags string
  | timestamp i64 => exact printTimestamp_prints i64 textBufferLength

end Texts

section Display

/-- The return code for an item and, if it is zero, the screen. -/
def itemOutcome (mem : Mem β) (flags : DisplayFlags) :
    SummaryItem β → Checked (Nat × Option Screen)
  | .unused => .ok (1, none)
  | .used title value => do
    let (ret, text) ← valueOutcome mem flags value
    return (ret, if ret = 0 then some ⟨clipped titleSize title.chars, text⟩ else none)

/-- The return code of a display call and, if it is zero, what it shows. -/
def displayed (mem : Mem β) (itemIndex : Nat) (flags : DisplayFlags) (g : SummaryGlobals β) :
    Checked (Nat × Option Screen) := do
  let (ret, g) ← transactionSummaryDisplayItem mem itemIndex flags g
  return (ret, if ret = 0 then some g.screen else none)

theorem updateDisplayForItem_eq (mem : Mem β) (item : SummaryItem β) (flags : DisplayFlags)
    (g : SummaryGlobals β) :
    (do
      let (ret, g) ← transactionSummaryUpdateDisplayForItem mem item flags g
      return (ret, if ret = 0 then some g.screen else none)) = itemOutcome mem flags item := by
  cases item with
  | unused => rfl
  | used title value =>
      have hprints := updateText_prints mem value flags g.text.toList g.text.length_eq
      simp only [transactionSummaryUpdateDisplayForItem, itemOutcome]
      cases houtcome : valueOutcome mem flags value with
      | error e =>
          rw [houtcome] at hprints
          simp only [Buffer.fill_error hprints, error_bind]
      | ok result =>
          obtain ⟨ret, text⟩ := result
          rw [houtcome] at hprints
          obtain ⟨filled, hcall, htext⟩ := hprints
          obtain ⟨buf, hfill, hbuf⟩ :=
            g.text.fill_ok (updateText_size mem value flags _ g.text.length_eq) hcall
          simp only [hfill, ok_bind, pure_eq_ok]
          by_cases hret : ret = 0
          · obtain ⟨shown, htitle, hshown⟩ := printString_eq title.chars g.title.toList
              titleSize (by decide) g.title.length_eq
            obtain ⟨titleBuf, hfillTitle, htitleBuf⟩ := g.title.fill_ok
              (f := (printString title.chars · titleSize))
              (printString_size title.chars g.title.toList titleSize g.title.length_eq) htitle
            rw [cString_of_noNul _ title.noNul] at hshown
            simp only [hret, ne_eq, not_true_eq_false, ↓reduceIte, hfillTitle, ok_bind,
              SummaryGlobals.screen, htitleBuf, hshown, hbuf, htext hret]
          · simp only [hret, ne_eq, not_false_eq_true, ↓reduceIte, ok_bind]

/-- A display call shows what it finds in the store, whatever the buffers held. -/
theorem displayed_eq (mem : Mem β) (itemIndex : Nat) (flags : DisplayFlags)
    (g : SummaryGlobals β) :
    displayed mem itemIndex flags g =
      match transactionSummaryFindItem g.summary itemIndex with
      | none => .ok (1, none)
      | some item => itemOutcome mem flags item := by
  simp only [displayed, transactionSummaryDisplayItem]
  cases transactionSummaryFindItem g.summary itemIndex with
  | none => rfl
  | some item => exact updateDisplayForItem_eq mem item flags g

/-- A display call does not touch the store. -/
theorem transactionSummaryDisplayItem_summary (mem : Mem β) (itemIndex : Nat)
    (flags : DisplayFlags) (g : SummaryGlobals β) :
    Ensures (transactionSummaryDisplayItem mem itemIndex flags g)
      fun result => result.2.summary = g.summary := by
  simp only [transactionSummaryDisplayItem]
  cases transactionSummaryFindItem g.summary itemIndex with
  | none => exact ensures_ok rfl
  | some item =>
      cases item with
      | unused => exact ensures_ok rfl
      | used title value =>
          refine ensures_bind fun filled => ?_
          dsimp only
          split
          · exact ensures_ok rfl
          · exact ensures_bind fun shown => ensures_ok rfl

end Display

end AelfApp.Libsol
