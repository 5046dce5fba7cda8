import AelfApp.Libsol.Printer

/-!
The summary store and the texts it shows (`transaction_summary.c`). An item in
use always has a title and a value, so the union of the source is an inductive
type and an item without a kind is one of its own.
-/

namespace AelfApp.Libsol

open Memory

def numGeneralItems : Nat := 11
def maxTransactionSummaryItems : Nat := 1 + numGeneralItems + 1 + 1 + 1
def textBufferLength : Nat := base58PubkeyLength

inductive SummaryItemKind where
  | none
  | amount
  | tokenAmount
  | i64
  | u64
  | pubkey
  | hash
  | sizedString
  | string
  | timestamp
  deriving Repr, DecidableEq

/-- The value of an item in use. A pointer is `none` where the source has
`NULL`; `i64` and `timestamp` are kept as bit patterns. -/
inductive SummaryValue (β : Type) where
  | amount (u64 : UInt64)
  | tokenAmount (value : UInt64) (symbol : Option CString) (decimals : UInt8)
  | i64 (i64 : UInt64)
  | u64 (u64 : UInt64)
  | pubkey (pubkey : Option (Ptr β))
  | hash (hash : Option (Ptr β))
  | sizedString (sizedString : SizedString β)
  | string (string : CString)
  | timestamp (i64 : UInt64)
  deriving DecidableEq

inductive SummaryItem (β : Type) where
  | unused
  | used (title : CString) (value : SummaryValue β)
  deriving DecidableEq

/-- Where an item is kept. -/
inductive SummarySlot where
  | primary
  | feePayer
  | nonceAccount
  | nonceAuthority
  | general (i : Nat)
  deriving Repr, DecidableEq

structure TransactionSummary (β : Type) where
  primary : SummaryItem β
  feePayer : SummaryItem β
  nonceAccount : SummaryItem β
  nonceAuthority : SummaryItem β
  general : Buffer (SummaryItem β) numGeneralItems

/-- The store with the two character buffers that the screens show. -/
structure SummaryGlobals (β : Type) where
  summary : TransactionSummary β
  title : Buffer UInt8 titleSize
  text : Buffer UInt8 textBufferLength

abbrev DisplayFlags := UInt32

def displayFlagNone : DisplayFlags := 0
def displayFlagLongPubkeys : DisplayFlags := 1

variable {β : Type}

def SummaryValue.kind : SummaryValue β → SummaryItemKind
  | .amount _ => .amount
  | .tokenAmount .. => .tokenAmount
  | .i64 _ => .i64
  | .u64 _ => .u64
  | .pubkey _ => .pubkey
  | .hash _ => .hash
  | .sizedString _ => .sizedString
  | .string _ => .string
  | .timestamp _ => .timestamp

def SummaryItem.kind : SummaryItem β → SummaryItemKind
  | .unused => .none
  | .used _ value => value.kind

/-- The store after `explicit_bzero`. -/
def TransactionSummary.empty : TransactionSummary β where
  primary := .unused
  feePayer := .unused
  nonceAccount := .unused
  nonceAuthority := .unused
  general := .replicate _ .unused

def transactionSummaryReset (_ : SummaryGlobals β) : SummaryGlobals β where
  summary := .empty
  title := .replicate _ 0
  text := .replicate _ 0

def isSummaryItemUsed (item : SummaryItem β) : Bool := decide (item.kind ≠ .none)

/-! The slot getters, `none` for `NULL`. -/

def summaryItemAsUnused (slot : SummarySlot) (item : SummaryItem β) : Option SummarySlot :=
  if !isSummaryItemUsed item then some slot else none

def transactionSummaryPrimaryItem (summary : TransactionSummary β) : Option SummarySlot :=
  summaryItemAsUnused .primary summary.primary

def transactionSummaryFeePayerItem (summary : TransactionSummary β) : Option SummarySlot :=
  summaryItemAsUnused .feePayer summary.feePayer

def transactionSummaryNonceAccountItem (summary : TransactionSummary β) : Option SummarySlot :=
  summaryItemAsUnused .nonceAccount summary.nonceAccount

def transactionSummaryNonceAuthorityItem (summary : TransactionSummary β) : Option SummarySlot :=
  summaryItemAsUnused .nonceAuthority summary.nonceAuthority

/-- The loop of `transaction_summary_general_item`, from index `i` on. -/
def firstUnused : Nat → List (SummaryItem β) → Option SummarySlot
  | _, [] => none
  | i, item :: rest =>
    if !isSummaryItemUsed item then some (.general i) else firstUnused (i + 1) rest

def transactionSummaryGeneralItem (summary : TransactionSummary β) : Option SummarySlot :=
  firstUnused 0 summary.general.toList

/-! The setters, each through the pointer a getter returned. -/

/-- Writes an item through a slot pointer. -/
def summaryItemSet (slot : Option SummarySlot) (title : CString) (value : SummaryValue β)
    (summary : TransactionSummary β) : Checked (TransactionSummary β) :=
  match slot with
  | none => .error .nullPointer
  | some .primary => .ok { summary with primary := .used title value }
  | some .feePayer => .ok { summary with feePayer := .used title value }
  | some .nonceAccount => .ok { summary with nonceAccount := .used title value }
  | some .nonceAuthority => .ok { summary with nonceAuthority := .used title value }
  | some (.general i) => do
    let general ← summary.general.writeAt i (.used title value)
    return { summary with general }

def summaryItemSetAmount (item : Option SummarySlot) (title : CString) (value : UInt64) :
    TransactionSummary β → Checked (TransactionSummary β) :=
  summaryItemSet item title (.amount value)

def summaryItemSetTokenAmount (item : Option SummarySlot) (title : CString) (value : UInt64)
    (symbol : Option CString) (decimals : UInt8) :
    TransactionSummary β → Checked (TransactionSummary β) :=
  summaryItemSet item title (.tokenAmount value symbol decimals)

def summaryItemSetI64 (item : Option SummarySlot) (title : CString) (value : UInt64) :
    TransactionSummary β → Checked (TransactionSummary β) :=
  summaryItemSet item title (.i64 value)

def summaryItemSetU64 (item : Option SummarySlot) (title : CString) (value : UInt64) :
    TransactionSummary β → Checked (TransactionSummary β) :=
  summaryItemSet item title (.u64 value)

def summaryItemSetPubkey (item : Option SummarySlot) (title : CString) (value : Option (Ptr β)) :
    TransactionSummary β → Checked (TransactionSummary β) :=
  summaryItemSet item title (.pubkey value)

def summaryItemSetHash (item : Option SummarySlot) (title : CString) (value : Option (Ptr β)) :
    TransactionSummary β → Checked (TransactionSummary β) :=
  summaryItemSet item title (.hash value)

def summaryItemSetSizedString (item : Option SummarySlot) (title : CString)
    (value : SizedString β) : TransactionSummary β → Checked (TransactionSummary β) :=
  summaryItemSet item title (.sizedString value)

def summaryItemSetString (item : Option SummarySlot) (title : CString) (value : CString) :
    TransactionSummary β → Checked (TransactionSummary β) :=
  summaryItemSet item title (.string value)

def summaryItemSetTimestamp (item : Option SummarySlot) (title : CString) (value : UInt64) :
    TransactionSummary β → Checked (TransactionSummary β) :=
  summaryItemSet item title (.timestamp value)

/-! Finalizing: the kinds of the items in use. -/

/-- `SET_IF_USED`. -/
def setIfUsed (itemKinds : List SummaryItemKind) (item : SummaryItem β) : List SummaryItemKind :=
  if item.kind ≠ .none then itemKinds ++ [item.kind] else itemKinds

/-- The return code with the kinds written, whose number is `item_kinds_len`. -/
def transactionSummaryFinalize (summary : TransactionSummary β) : Nat × List SummaryItemKind :=
  if summary.primary.kind = .none then (1, [])
  else
    let itemKinds := setIfUsed [] summary.primary
    let itemKinds := summary.general.toList.foldl setIfUsed itemKinds
    let itemKinds := setIfUsed itemKinds summary.nonceAccount
    let itemKinds := setIfUsed itemKinds summary.nonceAuthority
    let itemKinds := setIfUsed itemKinds summary.feePayer
    (0, itemKinds)

/-! Displaying the item of a step. -/

/-- One of the used items that `transaction_summary_find_item` passes: found,
or the index of the next one. -/
def findIfUsed (itemIndex : Nat) (item : SummaryItem β) :
    SummaryItem β ⊕ Nat → SummaryItem β ⊕ Nat
  | .inl found => .inl found
  | .inr currentIndex =>
    if isSummaryItemUsed item then
      if currentIndex = itemIndex then .inl item else .inr (currentIndex + 1)
    else .inr currentIndex

/-- The primary and the fee payer are returned whether they are used or not. -/
def transactionSummaryFindItem (summary : TransactionSummary β) (itemIndex : Nat) :
    Option (SummaryItem β) :=
  if 0 = itemIndex then some summary.primary
  else
    let state := summary.general.toList.foldl (fun state item => findIfUsed itemIndex item state)
      (.inr 1)
    let state := findIfUsed itemIndex summary.nonceAccount state
    let state := findIfUsed itemIndex summary.nonceAuthority state
    match state with
    | .inl found => some found
    | .inr currentIndex => if currentIndex = itemIndex then some summary.feePayer else none

/-- The text of an item in use. A printer whose return code the source ignores
gives zero here. -/
def updateText (mem : Mem β) (value : SummaryValue β) (flags : DisplayFlags)
    (text : List UInt8) : Checked (Nat × List UInt8) :=
  match value with
  | .amount u64 => printAmount u64 text base58PubkeyLength
  | .tokenAmount value symbol decimals =>
    printTokenAmount value symbol decimals text textBufferLength
  | .i64 i64 => printI64 i64 text textBufferLength
  | .u64 u64 => printU64 u64 text textBufferLength
  | .pubkey pubkey => do
    let key ← mem.loadBytes pubkey pubkeySize
    let (ret, tmpBuf) ← encodeBase58 key (.replicate base58PubkeyLength 0) base58PubkeyLength
    if ret ≠ 0 then
      return (ret, text)
    if flags &&& displayFlagLongPubkeys ≠ 0 then
      printString tmpBuf text textBufferLength
    else
      printSummary tmpBuf text base58PubkeyShort summaryLength summaryLength
  | .hash hash => do
    let hash ← mem.loadBytes hash hashSize
    encodeBase58 hash text textBufferLength
  | .string string => do
    let (_, text) ← printString string.chars text textBufferLength
    return (0, text)
  | .sizedString sizedString => do
    let (_, text) ← printSizedString mem sizedString text textBufferLength
    return (0, text)
  | .timestamp i64 => printTimestamp i64 text textBufferLength

theorem updateText_size (mem : Mem β) (value : SummaryValue β) (flags : DisplayFlags)
    (text : List UInt8) {size : Nat} (h : text.length = size) :
    KeepsSize size (updateText mem value flags text) := by
  cases value with
  | amount u64 => exact printAmount_size _ _ _ h
  | tokenAmount value symbol decimals => exact printTokenAmount_size _ _ _ _ _ h
  | i64 i64 => exact printI64_size _ _ _ h
  | u64 u64 => exact printU64_size _ _ _ h
  | pubkey pubkey =>
      simp only [updateText]
      refine ensures_bind fun key => ?_
      refine ensures_bind ?_
      rintro ⟨ret, tmpBuf⟩
      dsimp only
      split
      · exact ensures_ok h
      split
      · exact printString_size _ _ _ h
      · exact printSummary_size _ _ _ _ _ h
  | hash hash =>
      exact ensures_bind fun key => encodeBase58_size key text _ h
  | sizedString sizedString =>
      exact (printSizedString_size mem sizedString text _ h).bind fun _ hout => ensures_ok hout
  | string string =>
      exact (printString_size string.chars text _ h).bind fun _ hout => ensures_ok hout
  | timestamp i64 => exact printTimestamp_size _ _ _ h

def transactionSummaryUpdateDisplayForItem (mem : Mem β) (item : SummaryItem β)
    (flags : DisplayFlags) (g : SummaryGlobals β) : Checked (Nat × SummaryGlobals β) :=
  match item with
  | .unused => .ok (1, g)
  | .used title value => do
    let (ret, text) ← g.text.fill (updateText mem value flags)
      (updateText_size mem value flags _ g.text.length_eq)
    let g := { g with text }
    if ret ≠ 0 then
      return (ret, g)
    let (_, title) ← g.title.fill (printString title.chars · titleSize)
      (printString_size _ _ _ g.title.length_eq)
    return (0, { g with title })

def transactionSummaryDisplayItem (mem : Mem β) (itemIndex : Nat) (flags : DisplayFlags)
    (g : SummaryGlobals β) : Checked (Nat × SummaryGlobals β) :=
  match transactionSummaryFindItem g.summary itemIndex with
  | none => .ok (1, g)
  | some item => transactionSummaryUpdateDisplayForItem mem item flags g

end AelfApp.Libsol
