import Xidata.System.Quiet
import Xidata.System.Settlement
import Xidata.System.Stake

/-!
What trading RAM does.  A conversion runs over the relay's supply and touches
the connector it is paid into and the connector it is paid from; a purchase
and a sale write the same places, in opposite directions.
-/

namespace Xidata.System

open Eosiolib

variable {env : Env} {c : Ctx}

theorem buyram_cases {s : State} {payer receiver : AccountName} {quant : Asset}
    {r : State × List Token.Inline} (h : buyram env c s payer receiver quant = .ok r) :
    ∃ m p, payer ∈ c.auth ∧ 0 < quant.units ∧ s.rammarket = some m ∧
      m.convert env ⟨quant.amount - ramFee quant.amount, quant.symbol⟩ ramSymbol = .ok p ∧
      0 < p.2.units ∧
      r.1 = bookRam s p.1 (s.global.totalRamBytesReserved + p.2.amount.toUInt64)
        (s.global.totalRamStake + (quant.amount - ramFee quant.amount)) receiver
        (boughtRam s receiver p.2.amount) ∧
      r.2 = inlineTransfer payer ramAccount ⟨quant.amount - ramFee quant.amount, quant.symbol⟩
          "buy ram" ::
        if 0 < ramFee quant.amount then
          [inlineTransfer payer ramfeeAccount ⟨ramFee quant.amount, quant.symbol⟩ "ram fee"]
        else [] := by
  simp only [buyram, Rollback.bind_eq_ok, getRow_eq_ok, requireAuth_eq_ok, eosioAssert_eq_ok,
    exists_const, Rollback.pure_eq_ok] at h
  obtain ⟨hauth, hpos, m, hm, p, hp, hout, rfl⟩ := h
  exact ⟨m, p, hauth, Int64.lt_iff_toInt_lt.mp hpos, hm, hp, Int64.lt_iff_toInt_lt.mp hout,
    rfl, rfl⟩

/-- Buying an exact amount is buying for its price, asked of a copy of the
market. -/
theorem buyrambytes_cases {s : State} {payer receiver : AccountName} {bytes : UInt32}
    {r : State × List Token.Inline} (h : buyrambytes env c s payer receiver bytes = .ok r) :
    ∃ m p, s.rammarket = some m ∧
      m.convert env ⟨bytes.toUInt64.toInt64, ramSymbol⟩ coreSymbol = .ok p ∧
      buyram env c s payer receiver p.2 = .ok r := by
  simp only [buyrambytes, Rollback.bind_eq_ok, getRow_eq_ok, Asset.make_eq_ok] at h
  obtain ⟨m, hm, in_, ⟨-, -, rfl⟩, p, hp, h⟩ := h
  exact ⟨m, p, hm, hp, h⟩

theorem sellram_cases {s : State} {account : AccountName} {bytes : Int64}
    {r : State × List Token.Inline} (h : sellram env c s account bytes = .ok r) :
    ∃ res m p fees, account ∈ c.auth ∧ 0 < bytes.toInt ∧ s.userres.find account = some res ∧
      bytes.toInt ≤ res.ramBytes.toInt ∧ s.rammarket = some m ∧
      (Asset.mk bytes ramSymbol).isAmountWithinRange ∧
      m.convert env ⟨bytes, ramSymbol⟩ coreSymbol = .ok p ∧ 1 < p.2.units ∧
      0 ≤ (s.global.totalRamStake - p.2.amount).toInt ∧
      r.1 = bookRam s p.1 (s.global.totalRamBytesReserved - bytes.toUInt64)
        (s.global.totalRamStake - p.2.amount) account { res with ramBytes := res.ramBytes - bytes } ∧
      r.2 = inlineTransfer ramAccount account p.2 "sell ram" :: fees ∧
      (fees = [] ∨ ∃ fee : Asset, fee.symbol = coreSymbol ∧
        fees = [inlineTransfer account ramfeeAccount fee "sell ram fee"]) := by
  simp only [sellram, Rollback.bind_eq_ok, getRow_eq_ok, requireAuth_eq_ok, eosioAssert_eq_ok,
    exists_const, Rollback.pure_eq_ok, Asset.make_eq_ok] at h
  obtain ⟨hauth, hpos, res, hres, hquota, m, hm, in_, ⟨hrange, -, rfl⟩, p, hp, hout, hstake,
    fees, hfees, rfl⟩ := h
  refine ⟨res, m, p, fees, hauth, Int64.lt_iff_toInt_lt.mp hpos, hres,
    Int64.le_iff_toInt_le.mp hquota, hm, hrange, hp, Int64.lt_iff_toInt_lt.mp hout,
    Int64.le_iff_toInt_le.mp hstake, rfl, rfl, ?_⟩
  split at hfees
  · simp only [Rollback.bind_eq_ok, Asset.make_eq_ok, Rollback.pure_eq_ok] at hfees
    obtain ⟨fee, ⟨-, -, rfl⟩, rfl⟩ := hfees
    exact .inr ⟨_, rfl, rfl⟩
  · cases hfees
    exact .inl rfl

theorem bookRam_frame (s : State) (m : ExchangeState) (reserved : UInt64) (stake : Int64)
    (account : AccountName) (res : UserResources) :
    SameDelegations s (bookRam s m reserved stake account res) ∧
      SameVotes s (bookRam s m reserved stake account res) ∧
      (bookRam s m reserved stake account res).namebids = s.namebids :=
  ⟨⟨rfl, rfl, rfl⟩, ⟨rfl, fun _ => rfl, rfl, fun _ h => h, rfl, rfl, rfl, rfl⟩, rfl⟩

/-- A trade is booked in the resources of one account, whose weights stay as
they are. -/
def Booked (s s' : State) : Prop :=
  ∃ m reserved stake account res, s' = bookRam s m reserved stake account res ∧
    res.netWeight = (s.userres.find account).elim .zero UserResources.netWeight ∧
    res.cpuWeight = (s.userres.find account).elim .zero UserResources.cpuWeight ∧
    res.owner = (s.userres.find account).elim account UserResources.owner

theorem buyram_booked {s : State} {payer receiver : AccountName} {quant : Asset}
    {r : State × List Token.Inline} (h : buyram env c s payer receiver quant = .ok r) :
    Booked s r.1 ∧ ∀ i ∈ r.2, IsTransfer i := by
  obtain ⟨m, p, -, -, -, -, -, hr, hsent⟩ := buyram_cases h
  refine ⟨⟨_, _, _, _, _, hr, ?_⟩, fun i hi => ?_⟩
  · unfold boughtRam
    cases s.userres.find receiver <;> exact ⟨rfl, rfl, rfl⟩
  · rw [hsent] at hi
    rcases List.mem_cons.mp hi with rfl | hi
    · exact isTransfer_inlineTransfer ..
    · split at hi
      · rw [List.mem_singleton] at hi
        exact hi ▸ isTransfer_inlineTransfer ..
      · cases hi

theorem sellram_booked {s : State} {account : AccountName} {bytes : Int64}
    {r : State × List Token.Inline} (h : sellram env c s account bytes = .ok r) :
    Booked s r.1 ∧ ∀ i ∈ r.2, IsTransfer i := by
  obtain ⟨res, m, p, fees, -, -, hres, -, -, -, -, -, -, hr, hsent, hfees⟩ := sellram_cases h
  refine ⟨⟨_, _, _, _, _, hr, by rw [hres]; exact ⟨rfl, rfl, rfl⟩⟩, fun i hi => ?_⟩
  rw [hsent] at hi
  rcases List.mem_cons.mp hi with rfl | hi
  · exact isTransfer_inlineTransfer ..
  · rcases hfees with rfl | ⟨fee, -, rfl⟩
    · cases hi
    · rw [List.mem_singleton] at hi
      exact hi ▸ isTransfer_inlineTransfer ..

end Xidata.System
