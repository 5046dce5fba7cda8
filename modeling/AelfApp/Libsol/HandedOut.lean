import AelfApp.Lib.Slices
import AelfApp.Libsol.Instruction

/-!
The slices of the message that the instruction parsers hand out. `Hands` is
the part that composes: a chain of readers under `BAIL_IF` moves the parser on
within its buffer, and the slices come in the order of the fields, at
whichever field the chain stops.
-/

namespace AelfApp.Libsol

open Memory Wire

variable {β σ τ : Type} {mem : Mem β}

/-- Where the buffer ends: the cursor and what is left. -/
def Parser.stop (parser : Parser β) : Ptr β := parser.buffer.add parser.bufferLength

theorem Parser.skip_stop {parser : Parser β} {n : Nat} (h : n ≤ parser.bufferLength) :
    (parser.skip n).stop = parser.stop := by
  simp only [stop, skip_buffer, skip_bufferLength, Ptr.add_add, Nat.add_sub_cancel' h]

/-- The call moves the parser on by so many bytes and hands out slices of
them. It reads its fields to the end, or stops with return code one. -/
inductive Handed (complete : Nat → List (Slice β) → σ → Prop)
    (stopped : List (Slice β) → σ → Prop) (parser : Parser β) : Nat × Parser β × σ → Prop where
  | complete (n : Nat) (slices : List (Slice β)) (s : σ) (hn : n ≤ parser.bufferLength)
      (horder : InOrder parser.buffer slices (parser.skip n).buffer) (h : complete n slices s) :
      Handed complete stopped parser (0, parser.skip n, s)
  | stopped (n : Nat) (slices : List (Slice β)) (s : σ) (hn : n ≤ parser.bufferLength)
      (horder : InOrder parser.buffer slices (parser.skip n).buffer) (h : stopped slices s) :
      Handed complete stopped parser (1, parser.skip n, s)

def Hands (complete : Nat → List (Slice β) → σ → Prop) (stopped : List (Slice β) → σ → Prop)
    (parser : Parser β) (call : Checked (Nat × Parser β × σ)) : Prop :=
  ∃ result, call = .ok result ∧ Handed complete stopped parser result

section Rules

variable {complete complete' : Nat → List (Slice β) → σ → Prop}
  {stopped stopped' : List (Slice β) → σ → Prop} {parser : Parser β}

theorem Hands.mono {call : Checked (Nat × Parser β × σ)}
    (h : Hands complete stopped parser call)
    (hcomplete : ∀ n slices s, n ≤ parser.bufferLength → complete n slices s →
      complete' n slices s)
    (hstopped : ∀ slices s, stopped slices s → stopped' slices s) :
    Hands complete' stopped' parser call := by
  obtain ⟨result, rfl, hhanded⟩ := h
  refine ⟨result, rfl, ?_⟩
  cases hhanded with
  | complete n slices s hn horder h =>
      exact .complete n slices s hn horder (hcomplete n slices s hn h)
  | stopped n slices s hn horder h => exact .stopped n slices s hn horder (hstopped slices s h)

/-- Storing what was read elsewhere hands out the same slices. -/
theorem Hands.storing {complete : Nat → List (Slice β) → τ → Prop}
    {stopped : List (Slice β) → τ → Prop} {call : Checked (Nat × Parser β × τ)}
    (h : Hands complete stopped parser call) (store : τ → σ) :
    Hands (fun n slices s => ∃ value, s = store value ∧ complete n slices value)
      (fun slices s => ∃ value, s = store value ∧ stopped slices value) parser
      (storing call store) := by
  obtain ⟨result, rfl, hhanded⟩ := h
  cases hhanded with
  | complete n slices value hn horder h =>
      exact ⟨_, rfl, .complete n slices _ hn horder ⟨value, rfl, h⟩⟩
  | stopped n slices value hn horder h =>
      exact ⟨_, rfl, .stopped n slices _ hn horder ⟨value, rfl, h⟩⟩

/-- A chain of two readers hands out the slices of the first and then those of
the second, which begins where the first one stopped. -/
theorem Hands.bailIf {call : Checked (Nat × Parser β × σ)}
    {next : Parser β → σ → Checked (Nat × Parser β × σ)}
    (hcall : Hands complete stopped parser call)
    (hstopped : ∀ slices s, stopped slices s → stopped' slices s)
    (hnext : ∀ n slices s, n ≤ parser.bufferLength → complete n slices s →
      Hands (fun m more s' => complete' (n + m) (slices ++ more) s')
        (fun more s' => stopped' (slices ++ more) s') (parser.skip n) (next (parser.skip n) s)) :
    Hands complete' stopped' parser (bailIf call next) := by
  obtain ⟨result, rfl, hhanded⟩ := hcall
  cases hhanded with
  | stopped n slices s hn horder h =>
      exact ⟨(1, parser.skip n, s), rfl, .stopped n slices s hn horder (hstopped slices s h)⟩
  | complete n slices s hn horder h =>
      obtain ⟨last, hlast, hmore⟩ := hnext n slices s hn h
      refine ⟨last, hlast, ?_⟩
      cases hmore with
      | complete m more s' hm hmoreOrder h =>
          rw [Parser.skip_skip] at hmoreOrder ⊢
          rw [Parser.skip_bufferLength] at hm
          exact .complete (n + m) (slices ++ more) s' (by omega) (horder.append hmoreOrder) h
      | stopped m more s' hm hmoreOrder h =>
          rw [Parser.skip_skip] at hmoreOrder ⊢
          rw [Parser.skip_bufferLength] at hm
          exact .stopped (n + m) (slices ++ more) s' (by omega) (horder.append hmoreOrder) h

end Rules

section Fields

/-- A reader that takes a field and hands out the end of it. -/
private theorem hands_tail {complete : Nat → List (Slice β) → σ → Prop}
    {stopped : List (Slice β) → σ → Prop} {parser : Parser β} {s : σ} (front length : Nat)
    (hn : front + length ≤ parser.bufferLength)
    (h : complete (front + length) [⟨parser.buffer.add front, length⟩] s) :
    Hands complete stopped parser (.ok (0, parser.skip (front + length), s)) := by
  refine ⟨_, rfl, .complete (front + length) [⟨parser.buffer.add front, length⟩] s hn ?_ h⟩
  refine InOrder.singleton (parser.buffer.le_add front) ?_
  rw [Slice.stop, Ptr.add_add]
  exact le_rfl

/-- A reader that stops hands out nothing. -/
private theorem hands_nothing {complete : Nat → List (Slice β) → σ → Prop}
    {stopped : List (Slice β) → σ → Prop} {parser : Parser β} {s : σ} (n : Nat)
    (hn : n ≤ parser.bufferLength) (h : stopped [] s) :
    Hands complete stopped parser (.ok (1, parser.skip n, s)) :=
  ⟨_, rfl, .stopped n [] s hn (parser.buffer.le_add n) h⟩

theorem parsePubkey_hands (parser : Parser β) (pubkey : Option (Ptr β)) :
    Hands
      (fun n slices pubkey' => n = pubkeySize ∧ slices = [⟨parser.buffer, pubkeySize⟩] ∧
        pubkey' = some parser.buffer)
      (fun slices pubkey' => slices = [] ∧ pubkey' = pubkey) parser
      (parsePubkey parser pubkey) := by
  by_cases hroom : pubkeySize ≤ parser.bufferLength
  · rw [parsePubkey_ok hroom]
    exact hands_tail 0 pubkeySize (by omega) ⟨rfl, rfl, rfl⟩
  · rw [parsePubkey_short (by omega)]
    exact hands_nothing 0 (Nat.zero_le _) ⟨rfl, rfl⟩

/-- A number hands out no slice. -/
theorem parseU64_hands (mem : Mem β) (parser : Parser β) (value : UInt64) :
    Hands (fun n slices _ => n = 8 ∧ slices = []) (fun slices _ => slices = []) parser
      (parseU64 mem parser value) := by
  by_cases hroom : 8 ≤ parser.bufferLength
  · have hsize : ((parser.rest mem).take 8).length = 8 := by
      simp only [List.length_take, Parser.rest_length]
      omega
    rw [parseU64_append hsize (List.take_append_drop 8 (parser.rest mem)).symm]
    exact ⟨_, rfl, .complete 8 [] _ hroom (parser.buffer.le_add 8) ⟨rfl, rfl⟩⟩
  · rw [parseU64_short mem (by omega)]
    exact hands_nothing 0 (Nat.zero_le _) rfl

/-- The length that a string at the cursor is said to have. -/
def announcedLength (mem : Mem β) (parser : Parser β) : Nat := leNat ((parser.rest mem).take 8)

/-- The slice of a string is as long as is announced, all 64 bits of it. -/
theorem parseSizedString_hands (size : SizeT) (mem : Mem β) (parser : Parser β)
    (string : SizedString β) :
    Hands
      (fun n slices string' => n = 8 + string'.length.toNat ∧
        slices = [⟨parser.buffer.add 8, string'.length.toNat⟩] ∧
        string'.string = some (parser.buffer.add 8) ∧
        string'.length.toNat = announcedLength mem parser ∧
        announcedLength mem parser ≤ size.max)
      (fun slices string' => slices = [] ∧ string'.string = string.string) parser
      (parseSizedString mem size parser string) := by
  by_cases hroom : 8 ≤ parser.bufferLength
  · have hfixed : ((parser.rest mem).take 8).length = 8 := by
      simp only [List.length_take, Parser.rest_length]
      omega
    have hafter : ((parser.rest mem).drop 8).length = parser.bufferLength - 8 := by
      rw [List.length_drop, Parser.rest_length]
    have hvalue := toNat_ofNat_leNat hfixed
    rw [parseSizedString_eq size hfixed (List.take_append_drop 8 (parser.rest mem)).symm, hafter]
    split
    · rename_i hfits
      obtain ⟨hmax, hleft⟩ := hfits
      refine hands_tail 8 (leNat ((parser.rest mem).take 8)) (by omega) ?_
      rw [hvalue]
      exact ⟨rfl, rfl, rfl, rfl, hmax⟩
    · exact hands_nothing 8 hroom ⟨rfl, rfl⟩
  · have hcall := parseU64_short mem (Nat.lt_of_not_le hroom) string.length
    have hstop : parseSizedString mem size parser string = .ok (1, parser.skip 0, string) := by
      simp [parseSizedString, hcall]
    rw [hstop]
    exact hands_nothing 0 (Nat.zero_le _) ⟨rfl, rfl⟩

/-- The bytes at the cursor that encode the length of the ticker. -/
def TickerLengthAt (mem : Mem β) (parser : Parser β) (front : List UInt8) (n : Nat) : Prop :=
  front <+: parser.rest mem ∧ (continuation 3).Announces front n

theorem parseData_hands (mem : Mem β) (parser : Parser β) (instruction : Instruction β) :
    Hands
      (fun n slices instruction' => ∃ front,
        TickerLengthAt mem parser front instruction'.tickerLength ∧
        n = front.length + instruction'.tickerLength ∧
        slices = [⟨parser.buffer.add front.length, instruction'.tickerLength⟩] ∧
        instruction'.ticker = some (parser.buffer.add front.length))
      (fun slices instruction' => slices = [] ∧ instruction'.ticker = instruction.ticker) parser
      (parseData mem parser instruction) := by
  rcases continuing_or_continued 2 (parser.rest mem) with
    hcontinuing | ⟨front, after, n, hrest, hfront⟩
  · obtain ⟨left, hcall⟩ := parseLength_continuing hcontinuing rfl instruction.tickerLength
    have hstop : parseData mem parser instruction =
        .ok (1, parser.skip (parser.rest mem).length,
          { instruction with tickerLength := left }) := by
      simp [parseData, hcall]
    rw [hstop]
    exact hands_nothing _ (by rw [Parser.rest_length]) ⟨rfl, rfl⟩
  · have hlength := Parser.bufferLength_of_rest hrest
    rw [parseData_announces hfront hrest]
    split
    · exact hands_tail front.length n (by omega)
        ⟨front, ⟨⟨after, hrest.symm⟩, hfront⟩, rfl, rfl, rfl⟩
    · exact hands_nothing front.length (by omega) ⟨rfl, rfl⟩

end Fields

section Instructions

/-- An output that a slice is handed out in: a pointer, and the length that
goes with it. -/
abbrev Slot (β : Type) : Type := Option (Ptr β) × Nat

/-- The outputs of `parse_system_transfer_instruction`, in the order of the
fields. -/
def transferSlots (instruction : Instruction β) (info : SystemTransferInfo β) : List (Slot β) :=
  [(info.toKey, pubkeySize), (instruction.ticker, instruction.tickerLength)]

/-- The outputs of `parse_system_get_tx_result_instruction`. -/
def getTxResultSlots (instruction : Instruction β) (info : SystemGetTxResultInfo β) :
    List (Slot β) :=
  [(info.fromKey, pubkeySize), (info.chain, pubkeySize),
    (info.methodName.string, info.methodName.length.toNat), (info.toKey, pubkeySize),
    (instruction.ticker, instruction.tickerLength)]

/-- The first outputs hold the slices. The pointers of the others are what they
were before. -/
def Filled (before : List (Slot β)) (slices : List (Slice β)) (after : List (Slot β)) : Prop :=
  after.take slices.length = slices.map (fun slice => (some slice.start, slice.length)) ∧
    (after.drop slices.length).map Prod.fst = (before.drop slices.length).map Prod.fst

/-- What a parse hands out, and what it leaves of the buffer. -/
structure KeepsBuffer (parser parser' : Parser β) (before : List (Slot β))
    (slices : List (Slice β)) (after : List (Slot β)) : Prop where
  stop_eq : parser'.stop = parser.stop
  left_le : parser'.bufferLength ≤ parser.bufferLength
  filled : Filled before slices after
  inside : ∀ slice ∈ slices, parser.buffer ≤ slice.start ∧ slice.stop ≤ parser.stop
  ordered : slices.Pairwise fun earlier later => earlier.stop ≤ later.start

/-- A call that hands out slices keeps its buffer, and takes so many bytes if it
does not stop. -/
theorem Hands.keepsBuffer {complete : Nat → List (Slice β) → σ → Prop}
    {stopped : List (Slice β) → σ → Prop} {parser : Parser β}
    {call : Checked (Nat × Parser β × σ)} {before : List (Slot β)} {slots : σ → List (Slot β)}
    (h : Hands complete stopped parser call)
    (hcomplete : ∀ n slices s, complete n slices s → Filled before slices (slots s))
    (hstopped : ∀ slices s, stopped slices s → Filled before slices (slots s)) :
    ∃ ret parser' s slices, call = .ok (ret, parser', s) ∧
      KeepsBuffer parser parser' before slices (slots s) ∧
      ((ret = 0 ∧ ∃ n, parser.bufferLength = n + parser'.bufferLength ∧ complete n slices s) ∨
        (ret = 1 ∧ stopped slices s)) := by
  have hkeeps : ∀ n slices s, n ≤ parser.bufferLength →
      InOrder parser.buffer slices (parser.skip n).buffer → Filled before slices (slots s) →
      KeepsBuffer parser (parser.skip n) before slices (slots s) := by
    intro n slices s hn horder hfilled
    refine ⟨Parser.skip_stop hn, Nat.sub_le _ _, hfilled, fun slice hmem => ?_, horder.pairwise⟩
    obtain ⟨hlow, hhigh⟩ := horder.inside slice hmem
    exact ⟨hlow, hhigh.trans (parser.buffer.add_le_add hn)⟩
  obtain ⟨result, hcall, hhanded⟩ := h
  cases hhanded with
  | complete n slices s hn horder h =>
      have hlength : parser.bufferLength = n + (parser.skip n).bufferLength :=
        (Nat.add_sub_cancel' hn).symm
      exact ⟨0, _, s, slices, hcall, hkeeps n slices s hn horder (hcomplete n slices s h),
        .inl ⟨rfl, n, hlength, h⟩⟩
  | stopped n slices s hn horder h =>
      exact ⟨1, _, s, slices, hcall, hkeeps n slices s hn horder (hstopped slices s h),
        .inr ⟨rfl, h⟩⟩

theorem parseSystemTransferInstruction_hands (mem : Mem β) (parser : Parser β)
    (instruction : Instruction β) (info : SystemTransferInfo β) :
    Hands
      (fun n slices s => Filled (transferSlots instruction info) slices (transferSlots s.1 s.2) ∧
        slices.length = 2 ∧
        ∃ front, TickerLengthAt mem (parser.skip pubkeySize) front s.1.tickerLength ∧
          n = pubkeySize + (front.length + s.1.tickerLength) + 8)
      (fun slices s => Filled (transferSlots instruction info) slices (transferSlots s.1 s.2))
      parser (parseSystemTransferInstruction mem parser instruction info) := by
  apply ((parsePubkey_hands parser info.toKey).storing _).bailIf
  · rintro _ _ ⟨_, rfl, rfl, rfl⟩
    exact ⟨rfl, rfl⟩
  rintro _ _ _ hto ⟨_, rfl, rfl, rfl, rfl⟩
  apply ((parseData_hands mem _ instruction).storing _).bailIf
  · rintro _ _ ⟨_, rfl, rfl, hticker⟩
    simp [Filled, transferSlots, hticker]
  rintro _ _ _ hdata ⟨⟨tickerLength, ticker⟩, rfl, front, hfront, rfl, rfl, rfl⟩
  -- The number ends the chain: all slices are handed out already.
  refine ((parseU64_hands mem _ info.amount).storing _).mono ?_ ?_
  · rintro _ _ _ _ ⟨_, rfl, rfl, rfl⟩
    exact ⟨⟨rfl, rfl⟩, rfl, front, hfront, by simp only [Nat.add_assoc]⟩
  · rintro _ _ ⟨_, rfl, rfl⟩
    exact ⟨rfl, rfl⟩

/-- The length that the message gives for its method name, which stands behind
two keys and a number. -/
def methodNameLength (mem : Mem β) (parser : Parser β) : Nat :=
  announcedLength mem (parser.skip (pubkeySize + pubkeySize + 8))

/-- A method name that is handed out has the whole announced length, which
fits `size_t` and what is left of the buffer. -/
def NameWhole (size : SizeT) (mem : Mem β) (parser : Parser β) (slices : List (Slice β)) : Prop :=
  ∀ name, slices[2]? = some name →
    name.length = methodNameLength mem parser ∧ methodNameLength mem parser ≤ size.max ∧
      pubkeySize + pubkeySize + 8 + (8 + methodNameLength mem parser) ≤ parser.bufferLength

/-- There is no method name among so few slices. -/
theorem nameWhole_of_few {size : SizeT} {parser : Parser β} {slices : List (Slice β)}
    (h : slices.length ≤ 2) : NameWhole size mem parser slices := by
  intro name hname
  rw [List.getElem?_eq_none h] at hname
  cases hname

/-- A name that fits neither is not among the slices. -/
theorem NameWhole.few {size : SizeT} {parser : Parser β} {slices : List (Slice β)}
    (h : NameWhole size mem parser slices)
    (hlong : (size = .bits32 ∧ 2 ^ 32 ≤ methodNameLength mem parser) ∨
      parser.bufferLength < pubkeySize + pubkeySize + 8 + (8 + methodNameLength mem parser)) :
    slices.length ≤ 2 := by
  by_contra hmore
  obtain ⟨-, hmax, hroom⟩ := h _ (List.getElem?_eq_getElem (by omega))
  rcases hlong with ⟨rfl, hlong⟩ | hshort
  · have h32 : SizeT.bits32.max < 2 ^ 32 := by decide
    omega
  · omega

theorem parseSystemGetTxResultInstruction_hands (size : SizeT) (mem : Mem β) (parser : Parser β)
    (instruction : Instruction β) (info : SystemGetTxResultInfo β) :
    Hands
      (fun n slices s =>
        (Filled (getTxResultSlots instruction info) slices (getTxResultSlots s.1 s.2) ∧
          NameWhole size mem parser slices) ∧ slices.length = 5 ∧
        ∃ front, TickerLengthAt mem
            (parser.skip (pubkeySize + pubkeySize + 8 + (8 + s.2.methodName.length.toNat) +
              pubkeySize)) front s.1.tickerLength ∧
          n = pubkeySize + pubkeySize + 8 + (8 + s.2.methodName.length.toNat) + pubkeySize +
            (front.length + s.1.tickerLength) + 8)
      (fun slices s =>
        Filled (getTxResultSlots instruction info) slices (getTxResultSlots s.1 s.2) ∧
          NameWhole size mem parser slices)
      parser (parseSystemGetTxResultInstruction size mem parser instruction info) := by
  apply ((parsePubkey_hands parser info.fromKey).storing _).bailIf
  · rintro _ _ ⟨_, rfl, rfl, rfl⟩
    exact ⟨⟨rfl, rfl⟩, nameWhole_of_few (Nat.zero_le _)⟩
  rintro _ _ _ hfrom ⟨_, rfl, rfl, rfl, rfl⟩
  apply ((parsePubkey_hands _ info.chain).storing _).bailIf
  · rintro _ _ ⟨_, rfl, rfl, rfl⟩
    exact ⟨⟨rfl, rfl⟩, nameWhole_of_few (Nat.le_succ 1)⟩
  rintro _ _ _ hchain ⟨_, rfl, rfl, rfl, rfl⟩
  apply ((parseU64_hands mem _ info.refBlockNumber).storing _).bailIf
  · rintro _ _ ⟨_, rfl, rfl⟩
    exact ⟨⟨rfl, rfl⟩, nameWhole_of_few le_rfl⟩
  rintro _ _ _ hblock ⟨_, rfl, rfl, rfl⟩
  apply ((parseSizedString_hands size mem _ info.methodName).storing _).bailIf
  · rintro _ _ ⟨_, rfl, rfl, hstring⟩
    refine ⟨?_, nameWhole_of_few le_rfl⟩
    simp [Filled, getTxResultSlots, hstring]
  rintro _ _ _ hname ⟨⟨nameLength, _⟩, rfl, rfl, rfl, rfl, hlength, hmax⟩
  simp only [Parser.skip_skip, Parser.skip_bufferLength] at hname hlength hmax
  -- Whatever is handed out from here on, the name is the third slice.
  have hwhole : ∀ (first second : Slice β) (start : Ptr β) (more : List (Slice β)),
      NameWhole size mem parser (first :: second :: ⟨start, nameLength.toNat⟩ :: more) := by
    rintro first second start more name ⟨⟩
    refine ⟨hlength, hmax, ?_⟩
    rw [methodNameLength, ← hlength]
    omega
  apply ((parsePubkey_hands _ info.toKey).storing _).bailIf
  · rintro _ _ ⟨_, rfl, rfl, rfl⟩
    exact ⟨⟨rfl, rfl⟩, hwhole _ _ _ _⟩
  rintro _ _ _ hto ⟨_, rfl, rfl, rfl, rfl⟩
  apply ((parseData_hands mem _ instruction).storing _).bailIf
  · rintro _ _ ⟨_, rfl, rfl, hticker⟩
    refine ⟨?_, hwhole _ _ _ _⟩
    simp [Filled, getTxResultSlots, hticker]
  rintro _ _ _ hdata ⟨⟨tickerLength, ticker⟩, rfl, front, hfront, rfl, rfl, rfl⟩
  refine ((parseU64_hands mem _ info.amount).storing _).mono ?_ ?_
  · rintro _ _ _ _ ⟨_, rfl, rfl, rfl⟩
    refine ⟨⟨⟨rfl, rfl⟩, hwhole _ _ _ _⟩, rfl, front, ?_, ?_⟩
    · simpa only [Parser.skip_skip] using hfront
    · simp only [Nat.add_assoc]
  · rintro _ _ ⟨_, rfl, rfl⟩
    exact ⟨⟨rfl, rfl⟩, hwhole _ _ _ _⟩

/-- However the parse of a transfer ends, it keeps to its buffer; if it
succeeds, it takes the sizes of a key, a ticker and a number. -/
def TransferKeepsBuffer (mem : Mem β) (parser : Parser β) (instruction : Instruction β)
    (info : SystemTransferInfo β) : Prop :=
  ∃ ret parser' instruction' info' slices,
    parseSystemTransferInstruction mem parser instruction info =
      .ok (ret, parser', instruction', info') ∧
    KeepsBuffer parser parser' (transferSlots instruction info) slices
      (transferSlots instruction' info') ∧
    (ret = 0 ∨ ret = 1) ∧
    (ret = 0 → slices.length = 2 ∧
      ∃ front, TickerLengthAt mem (parser.skip pubkeySize) front instruction'.tickerLength ∧
        parser.bufferLength = pubkeySize + (front.length + instruction'.tickerLength) + 8 +
          parser'.bufferLength)

/-- The same of the parse of a transaction result. Its method name is as long
as is announced, and the announced length is refused if it does not fit
`size_t` or goes beyond the buffer. -/
def GetTxResultKeepsBuffer (size : SizeT) (mem : Mem β) (parser : Parser β)
    (instruction : Instruction β) (info : SystemGetTxResultInfo β) : Prop :=
  ∃ ret parser' instruction' info' slices,
    parseSystemGetTxResultInstruction size mem parser instruction info =
      .ok (ret, parser', instruction', info') ∧
    KeepsBuffer parser parser' (getTxResultSlots instruction info) slices
      (getTxResultSlots instruction' info') ∧
    (ret = 0 ∨ ret = 1) ∧
    (ret = 0 → slices.length = 5 ∧
      ∃ front, TickerLengthAt mem
          (parser.skip (pubkeySize + pubkeySize + 8 + (8 + info'.methodName.length.toNat) +
            pubkeySize)) front instruction'.tickerLength ∧
        parser.bufferLength = pubkeySize + pubkeySize + 8 +
          (8 + info'.methodName.length.toNat) + pubkeySize +
          (front.length + instruction'.tickerLength) + 8 + parser'.bufferLength) ∧
    (∀ name, slices[2]? = some name → name.length = methodNameLength mem parser) ∧
    ((size = .bits32 ∧ 2 ^ 32 ≤ methodNameLength mem parser) ∨
        parser.bufferLength < pubkeySize + pubkeySize + 8 + (8 + methodNameLength mem parser) →
      ret = 1 ∧ slices.length ≤ 2)

theorem parseSystemTransferInstruction_keeps (mem : Mem β) (parser : Parser β)
    (instruction : Instruction β) (info : SystemTransferInfo β) :
    TransferKeepsBuffer mem parser instruction info := by
  obtain ⟨ret, parser', s, slices, hcall, hkeeps, hend⟩ :=
    (parseSystemTransferInstruction_hands mem parser instruction info).keepsBuffer
      (fun _ _ _ h => h.1) (fun _ _ h => h)
  refine ⟨ret, parser', s.1, s.2, slices, hcall, hkeeps, ?_⟩
  rcases hend with ⟨rfl, n, hlength, -, hslices, front, hfront, rfl⟩ | ⟨rfl, -⟩
  · exact ⟨.inl rfl, fun _ => ⟨hslices, front, hfront, hlength⟩⟩
  · exact ⟨.inr rfl, fun hzero => absurd hzero Nat.one_ne_zero⟩

theorem parseSystemGetTxResultInstruction_keeps (size : SizeT) (mem : Mem β) (parser : Parser β)
    (instruction : Instruction β) (info : SystemGetTxResultInfo β) :
    GetTxResultKeepsBuffer size mem parser instruction info := by
  obtain ⟨ret, parser', s, slices, hcall, hkeeps, hend⟩ :=
    (parseSystemGetTxResultInstruction_hands size mem parser instruction info).keepsBuffer
      (fun _ _ _ h => h.1.1) (fun _ _ h => h.1)
  refine ⟨ret, parser', s.1, s.2, slices, hcall, hkeeps, ?_⟩
  rcases hend with ⟨rfl, n, hlength, ⟨-, hwhole⟩, hslices, front, hfront, rfl⟩ | ⟨rfl, -, hwhole⟩
  · refine ⟨.inl rfl, fun _ => ⟨hslices, front, hfront, hlength⟩,
      fun name hname => (hwhole name hname).1, fun hlong => ?_⟩
    have hfew := hwhole.few hlong
    omega
  · exact ⟨.inr rfl, fun hzero => absurd hzero Nat.one_ne_zero,
      fun name hname => (hwhole name hname).1, fun hlong => ⟨rfl, hwhole.few hlong⟩⟩

/-- At whichever field an instruction parser stops, the end of the buffer is
where it was, no more is left than before, and what is handed out lies in the
buffer, one slice behind the other. -/
theorem instruction_parsers_keep_buffer (size : SizeT) (mem : Mem β) (parser : Parser β)
    (instruction : Instruction β) :
    (∀ info, TransferKeepsBuffer mem parser instruction info) ∧
      ∀ info, GetTxResultKeepsBuffer size mem parser instruction info :=
  ⟨parseSystemTransferInstruction_keeps mem parser instruction,
    parseSystemGetTxResultInstruction_keeps size mem parser instruction⟩

/-- A message whose method name has 2^32 bytes, all of them there. -/
def longName : Mem Unit := fun _ i => if i = 76 then 1 else 0

def longNameParser : Parser Unit := ⟨⟨(), 0⟩, 2 ^ 32 + 121⟩

/-- Where `size_t` has 64 bits, such a name is accepted. -/
theorem longName_accepted :
    longNameParser.bufferLength ≤ SizeT.bits64.max ∧
      2 ^ 32 ≤ methodNameLength longName longNameParser ∧
      ∃ parser' instruction' info', parseSystemGetTxResultInstruction .bits64 longName
          longNameParser ⟨0, none⟩ .zero = .ok (0, parser', instruction', info') ∧
        info'.methodName.length.toNat = 2 ^ 32 :=
  ⟨by decide, by decide, _, _, _, rfl, rfl⟩

end Instructions

end AelfApp.Libsol
