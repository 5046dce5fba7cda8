import AelfApp.Libsol.Screens

/-!
Which bodies are accepted under both instruction codes. The code is not part of
the message, and nothing in a body says which of the two formats it is in, so
some whole get-tx-result bodies are whole transfers, too.
-/

namespace AelfApp.Libsol

open Memory Wire

variable {β : Type} {mem : Mem β}

/-- The code makes `process_message_body` return zero from a reset store. -/
def AcceptedAs (insCode : Nat) (size : SizeT) (mem : Mem β) (messageBody : Ptr β)
    (messageBodyLength : Nat) (prior : SummaryGlobals β) : Prop :=
  ∃ summary, processMessageBody size mem messageBody messageBodyLength insCode
    (transactionSummaryReset prior).summary = .ok (0, summary)

/-- The bytes behind the first key begin with a length that reaches up to the
last eight bytes. -/
def TickerReachesAmount (body : List UInt8) : Prop :=
  ∃ k, k + 40 ≤ body.length ∧
    (continuation 3).Announces ((body.drop 32).take k) (body.length - 40 - k)

section Overlap

theorem continued_length_pos {room n : Nat} {bytes : List UInt8} (h : Continued room bytes n) :
    0 < bytes.length := by
  cases h with
  | last _ => exact Nat.zero_lt_one
  | full _ => exact Nat.zero_lt_one
  | more _ _ => exact Nat.zero_lt_succ _

/-- A transfer is any key, a ticker and eight bytes. -/
theorem transferFormat_whole_iff (body : List UInt8) :
    transferFormat.Whole body ↔ TickerReachesAmount body := by
  constructor
  · rintro ⟨key, _, hkey, ⟨_, amount, ⟨front, ticker, hfront, rfl⟩, hamount, rfl⟩, rfl⟩
    have hkey32 : key.length = 32 := hkey
    have hamount8 : amount.length = 8 := hamount
    refine ⟨front.length, ?_, ?_⟩
    · simp only [List.length_append]
      omega
    · have hticker : (key ++ (front ++ ticker ++ amount)).length - 40 - front.length =
          ticker.length := by
        simp only [List.length_append]
        omega
      rw [hticker, ← hkey32, List.drop_left, List.append_assoc, List.take_left]
      exact hfront
  · rintro ⟨k, hroom, hannounces⟩
    have hticker : (((body.drop 32).drop k).take (body.length - 40 - k)).length =
        body.length - 40 - k := by
      simp only [List.length_take, List.length_drop]
      omega
    refine ⟨body.take 32, body.drop 32, ?_, ⟨(body.drop 32).take k ++
      ((body.drop 32).drop k).take (body.length - 40 - k),
      ((body.drop 32).drop k).drop (body.length - 40 - k), ⟨_, _, ?_, rfl⟩, ?_, ?_⟩, ?_⟩
    · exact List.length_take_of_le (by omega)
    · rw [hticker]
      exact hannounces
    · show (((body.drop 32).drop k).drop (body.length - 40 - k)).length = 8
      simp only [List.length_drop]
      omega
    · rw [List.append_assoc, List.take_append_drop, List.take_append_drop]
    · exact (List.take_append_drop 32 body).symm

/-- The fixed fields of a get-tx-result, and the bytes of its two lengths. -/
theorem getTxResultFormat_length {body : List UInt8} (h : getTxResultFormat.Whole body) :
    121 ≤ body.length := by
  obtain ⟨fromKey, _, hfrom, ⟨chain, _, hchain, ⟨block, _, hblock,
    ⟨_, tail, ⟨nameLength, name, hname, rfl⟩, htail, rfl⟩, rfl⟩, rfl⟩, rfl⟩ := h
  obtain ⟨key, _, hkey, ⟨_, amount, ⟨front, ticker, hfront, rfl⟩, hamount, rfl⟩, rfl⟩ := htail
  have hfrom32 : fromKey.length = 32 := hfrom
  have hchain32 : chain.length = 32 := hchain
  have hblock8 : block.length = 8 := hblock
  have hname8 : nameLength.length = 8 := hname.1
  have hkey32 : key.length = 32 := hkey
  have hfrontPos : 0 < front.length := continued_length_pos hfront
  have hamount8 : amount.length = 8 := hamount
  simp only [List.length_append]
  omega

theorem acceptedAs_iff (size : SizeT) (mem : Mem β) (messageBody : Ptr β) {n insCode : Nat}
    (hlength : n ≤ intMax) (hcode : insCode = 3 ∨ insCode = 4) (prior : SummaryGlobals β) :
    AcceptedAs insCode size mem messageBody n prior ↔
      (bodyFormat insCode).Whole (mem.bytes messageBody n) ∨
        (bodyFormat insCode).Short (mem.bytes messageBody n) := by
  obtain ⟨-, ret, summary, hcall, hcases⟩ :=
    processMessageBody_cases size mem messageBody hlength hcode prior
  constructor
  · rintro ⟨other, hother⟩
    cases hcall.symm.trans hother
    rcases hcases with ⟨haccepted, -⟩ | ⟨-, hret, -⟩
    · exact haccepted
    · cases hret
  · intro haccepted
    rcases hcases with ⟨-, rfl, -⟩ | ⟨hrejected, -⟩
    · exact ⟨summary, hcall⟩
    · exact absurd haccepted hrejected

/-- A body that stops short in neither format is accepted under both codes
exactly if it is a whole get-tx-result whose contract reads as the length of a
ticker that reaches up to the last eight bytes. No such body has fewer than 121
bytes. -/
theorem accepted_twice_iff (size : SizeT) (mem : Mem β) (messageBody : Ptr β) {n : Nat}
    (hlength : n ≤ intMax) (prior : SummaryGlobals β)
    (htransfer : ¬ transferFormat.Short (mem.bytes messageBody n))
    (hresult : ¬ getTxResultFormat.Short (mem.bytes messageBody n)) :
    (AcceptedAs 3 size mem messageBody n prior ∧ AcceptedAs 4 size mem messageBody n prior ↔
        getTxResultFormat.Whole (mem.bytes messageBody n) ∧
          TickerReachesAmount (mem.bytes messageBody n)) ∧
      (AcceptedAs 3 size mem messageBody n prior → AcceptedAs 4 size mem messageBody n prior →
        121 ≤ n) := by
  have hthree := acceptedAs_iff size mem messageBody hlength (.inl rfl) prior
  have hfour := acceptedAs_iff size mem messageBody hlength (.inr rfl) prior
  have hbody3 : bodyFormat 3 = transferFormat := rfl
  have hbody4 : bodyFormat 4 = getTxResultFormat := rfl
  rw [hbody3, or_iff_left htransfer, transferFormat_whole_iff] at hthree
  rw [hbody4, or_iff_left hresult] at hfour
  refine ⟨?_, fun _ haccepted => ?_⟩
  · rw [hthree, hfour, and_comm]
  · have hlong := getTxResultFormat_length (hfour.mp haccepted)
    rwa [Mem.bytes_length] at hlong

theorem CarriesTransfer.whole {body toKey ticker : List UInt8} {amount : UInt64}
    (h : CarriesTransfer body toKey ticker amount) : transferFormat.Whole body := by
  obtain ⟨tickerLength, hticker, rfl⟩ := h.body_eq
  refine ⟨toKey, _, h.toKey_length, ⟨tickerLength ++ ticker, leBytes 8 amount.toNat,
    ⟨tickerLength, ticker, hticker, rfl⟩, leBytes_length 8 _, ?_⟩, rfl⟩
  rw [List.append_assoc]

theorem CarriesGetTxResult.whole {body fromKey chain : List UInt8} {refBlockNumber : UInt64}
    {methodName toKey ticker : List UInt8} {amount : UInt64}
    (h : CarriesGetTxResult body fromKey chain refBlockNumber methodName toKey ticker amount) :
    getTxResultFormat.Whole body := by
  obtain ⟨tail, htail, rfl⟩ := h.body_eq
  have hname : sizedStringLength.Announces (leBytes 8 methodName.length) methodName.length :=
    ⟨leBytes_length 8 _, leNat_leBytes h.methodName_length⟩
  refine ⟨fromKey, _, h.fromKey_length, ⟨chain, _, h.chain_length,
    ⟨leBytes 8 refBlockNumber.toNat, _, leBytes_length 8 _,
      ⟨leBytes 8 methodName.length ++ methodName, tail, ⟨_, _, hname, rfl⟩, htail.whole, ?_⟩,
      rfl⟩, rfl⟩, rfl⟩
  rw [List.append_assoc]

/-- A get-tx-result without a method name and a ticker. The first byte of its
contract is the number of bytes behind it, less the last eight. -/
def ambiguousBody : List UInt8 :=
  List.replicate 32 1 ++ ((80 :: List.replicate 31 2) ++ (leBytes 8 (5 : UInt64).toNat ++
    (leBytes 8 0 ++ ([] ++ (List.replicate 32 7 ++ ([0] ++ ([] ++
      leBytes 8 (1000 : UInt64).toNat)))))))

theorem ambiguousBody_length : ambiguousBody.length = 121 := by
  simp only [ambiguousBody, List.length_append, List.length_cons, List.length_replicate,
    leBytes_length, List.length_nil]

theorem ambiguousBody_carries :
    CarriesGetTxResult ambiguousBody (List.replicate 32 1) (80 :: List.replicate 31 2) 5 []
      (List.replicate 32 7) [] 1000 where
  fromKey_length := rfl
  chain_length := rfl
  methodName_length := by decide
  body_eq := ⟨_, ⟨rfl, [0], Continued.last (by decide), rfl⟩, rfl⟩

theorem ambiguousBody_transfer : transferFormat.Whole ambiguousBody := by
  have hlast : Continued 3 [80] 80 := Continued.last (by decide)
  rw [transferFormat_whole_iff, TickerReachesAmount, ambiguousBody_length]
  exact ⟨1, by decide, hlast⟩

/-- What is whole does not stop short. -/
theorem not_short_ofBytes {format : Format} {body : List UInt8} (h : format.Whole body) :
    ¬ format.Short ((Mem.ofBytes body).bytes ⟨(), 0⟩ body.length) := by
  rw [bytes_ofBytes_whole]
  exact fun hshort => Format.not_whole_of_short _ hshort h

/-- The equivalence at a body that is whole in both formats. -/
theorem accepted_twice_iff_ambiguous :
    AcceptedAs 3 .bits32 (Mem.ofBytes ambiguousBody) ⟨(), 0⟩ ambiguousBody.length
          ⟨.empty, .replicate _ 0, .replicate _ 0⟩ ∧
        AcceptedAs 4 .bits32 (Mem.ofBytes ambiguousBody) ⟨(), 0⟩ ambiguousBody.length
          ⟨.empty, .replicate _ 0, .replicate _ 0⟩ ↔
      getTxResultFormat.Whole
          ((Mem.ofBytes ambiguousBody).bytes ⟨(), 0⟩ ambiguousBody.length) ∧
        TickerReachesAmount
          ((Mem.ofBytes ambiguousBody).bytes ⟨(), 0⟩ ambiguousBody.length) :=
  (accepted_twice_iff .bits32 (Mem.ofBytes ambiguousBody) ⟨(), 0⟩
    (le_of_eq_of_le ambiguousBody_length (by decide)) ⟨.empty, .replicate _ 0, .replicate _ 0⟩
    (not_short_ofBytes ambiguousBody_transfer)
    (not_short_ofBytes ambiguousBody_carries.whole)).1

/-- It is accepted under both codes. -/
theorem ambiguousBody_accepted_twice :
    AcceptedAs 3 .bits32 (Mem.ofBytes ambiguousBody) ⟨(), 0⟩ 121
        ⟨.empty, .replicate _ 0, .replicate _ 0⟩ ∧
      AcceptedAs 4 .bits32 (Mem.ofBytes ambiguousBody) ⟨(), 0⟩ 121
        ⟨.empty, .replicate _ 0, .replicate _ 0⟩ := by
  have hbytes := bytes_ofBytes_whole ambiguousBody
  rw [ambiguousBody_length] at hbytes
  constructor
  · refine (acceptedAs_iff .bits32 _ _ (by decide) (.inl rfl) _).mpr (.inl ?_)
    rw [hbytes]
    exact ambiguousBody_transfer
  · refine (acceptedAs_iff .bits32 _ _ (by decide) (.inr rfl) _).mpr (.inl ?_)
    rw [hbytes]
    exact ambiguousBody_carries.whole

end Overlap

end AelfApp.Libsol
