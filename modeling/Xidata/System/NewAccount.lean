import Xidata.Eosiolib.Names
import Xidata.System.NameAuction

/-!
Who may create an account.  Names of twelve characters are free; a name with a suffix belongs
to the account of that name, and any other name to the highest bidder of its closed auction.
-/

namespace Xidata.System

open Eosiolib

/-! ### Dots -/

/-- The loop of `newaccount` over the characters of a name, the twelfth first. -/
theorem foldl_hasDot (k : ℕ) (tmp : UInt64) :
    let acc := (List.range k).foldl (fun (acc : UInt64 × Bool) _ =>
      (acc.1 >>> 5, acc.2 || acc.1 &&& 0x1f = 0)) (tmp, false)
    acc.1.toNat = tmp.toNat / 32 ^ k ∧ (acc.2 ↔ 0 ∈ Positional.digits 32 k tmp.toNat) := by
  induction k with
  | zero => simp [Positional.digits]
  | succ k ih =>
      obtain ⟨htmp, hdot⟩ := ih
      have hsymbol : ∀ x : UInt64, x &&& 0x1f = 0 ↔ x.toNat % 32 = 0 := fun x => by
        rw [← UInt64.toNat_inj, toNat_low_five]
        rfl
      rw [List.range_succ, List.foldl_append]
      dsimp only [List.foldl_cons, List.foldl_nil]
      constructor
      · rw [toNat_shiftRight_five, htmp, Nat.div_div_eq_div_mul, pow_succ]
      · rw [Bool.or_eq_true, hdot, decide_eq_true_iff, hsymbol, htmp, Nat.add_comm k 1,
          Positional.digits_append]
        simp [Positional.digits, or_comm, eq_comm]

theorem hasDot_iff (n : AccountName) : hasDot n ↔ 0 ∈ (symbols n).take 12 := by
  obtain ⟨-, hdot⟩ := foldl_hasDot 12 (n >>> 4)
  rw [toNat_shiftRight_four] at hdot
  rw [symbols, List.take_left' (Positional.length_digits _ _)]
  exact hdot

/-! ### The policy -/

/-- There is no dot at the first twelve places of a name, where a short one has dots at its
end. -/
def Plain (newact : AccountName) : Prop := ∀ i < 12, (nameChars newact).getD i '.' ≠ '.'

theorem hasDot_iff_not_plain (n : AccountName) : hasDot n ↔ ¬ Plain n := by
  have hchar : ∀ i, (nameChars n).getD i '.' = charOf ((symbols n).getD i 0) := fun i => by
    rw [nameChars_eq, ← trimmed_getD]
    exact List.getD_map _ 0 charOf
  rw [hasDot_iff, List.mem_take_iff_getElem]
  simp only [Plain, hchar, not_forall, not_not]
  constructor
  · rintro ⟨i, hi, hzero⟩
    have hlt : i < (symbols n).length := lt_of_lt_of_le hi (min_le_right _ _)
    refine ⟨i, lt_of_lt_of_le hi (min_le_left _ _), ?_⟩
    rw [← List.getElem_eq_getD (h := hlt), hzero]
    rfl
  · rintro ⟨i, hi, hdot⟩
    have hlt : i < (symbols n).length := by
      rw [length_symbols]
      omega
    rw [← List.getElem_eq_getD (h := hlt),
      charOf_eq_dot_iff _ (symbols_lt (List.getElem_mem hlt))] at hdot
    exact ⟨i, lt_min hi hlt, hdot⟩

/-- A name has a suffix, and it is the name of the creator. -/
def OwnSuffix (creator newact : AccountName) : Prop :=
  '.' ∈ nameChars newact ∧ afterLastDot (nameChars newact) = nameChars creator

/-- A name without a suffix, which the creator has won. -/
def WonAuction (s : State) (creator newact : AccountName) : Prop :=
  '.' ∉ (nameChars newact).dropLast ∧
    ∃ b, s.namebids.find newact = some b ∧ b.highBidder = creator ∧ b.highBid < 0

/-- Create an account: where it fails nothing is changed. -/
def afterNewaccount (s : State) (creator newact : AccountName) : State :=
  Rollback.push (fun s (p : AccountName × AccountName) => newaccount s p.1 p.2) s (creator, newact)


/-! ### What is created -/

theorem dot_mem_nameChars (n : AccountName) : '.' ∈ nameChars n ↔ 0 ∈ trimmed n := by
  rw [nameChars_eq]
  exact dot_mem_map_charOf fun d => trimmed_lt

/-- A name is its own suffix where it has no dot. -/
theorem nameSuffix_eq_self_iff (n : AccountName) : nameSuffix n = n ↔ '.' ∉ nameChars n := by
  rw [dot_mem_nameChars]
  constructor
  · intro h
    rcases trimmed_cases n with hdot | ⟨p, q, hsplit, hdot, hq⟩
    · exact hdot
    · have hsuffix := trimmed_nameSuffix hsplit hdot hq
      rw [h, hsplit] at hsuffix
      have hlength := congrArg List.length hsuffix
      simp at hlength
      omega
  · exact nameSuffix_of_no_dot

theorem not_mem_dropLast_iff (n : AccountName) :
    '.' ∉ (nameChars n).dropLast ↔ '.' ∉ nameChars n := by
  refine not_congr ⟨List.mem_of_mem_dropLast, fun hdot => ?_⟩
  rw [dot_mem_nameChars] at hdot
  rcases trimmed_cases n with hnone | ⟨p, q, hsplit, -, hq⟩
  · exact absurd hdot hnone
  · rw [nameChars_eq, hsplit, List.map_append, List.map_cons,
      List.dropLast_append_of_ne_nil (by simp), List.dropLast_cons_of_ne_nil (by simpa using hq)]
    exact List.mem_append_right _ List.mem_cons_self

theorem eq_nameSuffix_iff (creator n : AccountName) :
    creator = nameSuffix n ↔ afterLastDot (nameChars n) = nameChars creator := by
  rw [← nameChars_nameSuffix]
  constructor
  · rintro rfl
    rfl
  · intro h
    rw [← stringToName_nameChars creator, ← h, stringToName_nameChars]

/-- What becomes of the auctions, for each way to have the name. -/
theorem claimName_eq_ok {s : State} {creator newact : AccountName} (hcreator : creator ≠ self)
    {namebids : OrderedTable AccountName NameBid} :
    claimName s creator newact = .ok namebids ↔
      (Plain newact ∨ OwnSuffix creator newact) ∧ s.namebids = namebids ∨
        ¬ Plain newact ∧ WonAuction s creator newact ∧ s.namebids.erase newact = namebids := by
  unfold claimName
  split
  · rename_i hdot
    have hplain : ¬ Plain newact := (hasDot_iff_not_plain newact).mp hdot.2
    split
    · rename_i hsuffix
      have hnone := (nameSuffix_eq_self_iff newact).mp hsuffix
      simp only [Rollback.bind_eq_ok, getRow_eq_ok, eosioAssert_eq_ok, exists_const,
        Rollback.pure_eq_ok, hplain, OwnSuffix, hnone, false_and, or_self, not_false_eq_true,
        true_and, false_or, WonAuction, not_mem_dropLast_iff]
      constructor
      · rintro ⟨b, hrow, hbidder, hclosed, hbids⟩
        exact ⟨⟨b, hrow, hbidder, hclosed⟩, hbids⟩
      · rintro ⟨⟨b, hrow, hbidder, hclosed⟩, hbids⟩
        exact ⟨b, hrow, hbidder, hclosed, hbids⟩
    · rename_i hsuffix
      have hsome := not_not.mp (hsuffix ∘ (nameSuffix_eq_self_iff newact).mpr)
      simp only [Rollback.bind_eq_ok, eosioAssert_eq_ok, exists_const, Rollback.pure_eq_ok, hplain,
        OwnSuffix, WonAuction, not_mem_dropLast_iff, hsome, not_true_eq_false, false_and, and_false,
        or_false, false_or, true_and, eq_nameSuffix_iff]
  · rename_i hfree
    have hplain : Plain newact :=
      not_not.mp fun h => hfree ⟨hcreator, (hasDot_iff_not_plain newact).mpr h⟩
    simp only [Rollback.pure_eq_ok, hplain, true_or, true_and, not_true_eq_false, false_and,
      or_false]

theorem newaccount_eq_ok {s s' : State} {creator newact : AccountName}
    (hnew : s.userres.find newact = none) :
    newaccount s creator newact = .ok s' ↔
      ∃ namebids, claimName s creator newact = .ok namebids ∧ { s with
        namebids
        userres := s.userres.set newact { owner := newact }
        limits := s.limits.set newact ⟨0, 0, 0⟩ } = s' := by
  simp only [newaccount, Rollback.bind_eq_ok, eosioAssert_eq_ok, hnew, exists_const, true_and,
    Rollback.pure_eq_ok]

/-- An account is created where its name is free, where its suffix is the name of the creator,
or where the creator has won its auction.  Only the last takes the auction away. -/
theorem newaccount_succeeds_iff (s : State) {creator newact : AccountName}
    (hcreator : creator ≠ self) (hnew : s.userres.find newact = none) :
    ((∃ s', newaccount s creator newact = .ok s') ↔
        Plain newact ∨ OwnSuffix creator newact ∨ WonAuction s creator newact) ∧
      (¬ Plain newact ∧ WonAuction s creator newact →
        (afterNewaccount s creator newact).namebids = s.namebids.erase newact) ∧
      (¬ (¬ Plain newact ∧ WonAuction s creator newact) →
        (afterNewaccount s creator newact).namebids = s.namebids) := by
  have hok : ∀ {s'}, newaccount s creator newact = .ok s' →
      afterNewaccount s creator newact = s' := fun h => Rollback.push_ok h
  refine ⟨?_, fun ⟨hplain, hwon⟩ => ?_, fun hother => ?_⟩
  · constructor
    · rintro ⟨s', h⟩
      obtain ⟨namebids, hclaim, -⟩ := (newaccount_eq_ok hnew).mp h
      rcases (claimName_eq_ok hcreator).mp hclaim with ⟨hfree, -⟩ | ⟨-, hwon, -⟩
      · exact hfree.imp_right .inl
      · exact .inr (.inr hwon)
    · intro h
      obtain ⟨namebids, hclaim⟩ : ∃ namebids, claimName s creator newact = .ok namebids := by
        by_cases hplain : Plain newact
        · exact ⟨_, (claimName_eq_ok hcreator).mpr (.inl ⟨.inl hplain, rfl⟩)⟩
        · rcases h.resolve_left hplain with hown | hwon
          · exact ⟨_, (claimName_eq_ok hcreator).mpr (.inl ⟨.inr hown, rfl⟩)⟩
          · exact ⟨_, (claimName_eq_ok hcreator).mpr (.inr ⟨hplain, hwon, rfl⟩)⟩
      exact ⟨_, (newaccount_eq_ok hnew).mpr ⟨namebids, hclaim, rfl⟩⟩
  · have hclaim := (claimName_eq_ok hcreator).mpr (.inr ⟨hplain, hwon, rfl⟩)
    rw [hok ((newaccount_eq_ok hnew).mpr ⟨_, hclaim, rfl⟩)]
  · refine Rollback.push_induction (I := fun s' : State => s'.namebids = s.namebids) rfl fun s' h => ?_
    obtain ⟨namebids, hclaim, rfl⟩ := (newaccount_eq_ok hnew).mp h
    rcases (claimName_eq_ok hcreator).mp hclaim with ⟨-, rfl⟩ | ⟨hplain, hwon, -⟩
    · rfl
    · exact absurd ⟨hplain, hwon⟩ hother

/-- The winner of a closed auction creates the account. -/
theorem newaccount_succeeds_won :
    let s : State :=
      { namebids := OrderedTable.empty.set (N "xi") ⟨N "xi", N "bidder", -1000, 0⟩ }
    (∃ s', newaccount s (N "bidder") (N "xi") = .ok s') ∧
      (afterNewaccount s (N "bidder") (N "xi")).namebids = s.namebids.erase (N "xi") := by
  intro s
  have hwon : WonAuction s (N "bidder") (N "xi") :=
    ⟨by decide, ⟨N "xi", N "bidder", -1000, 0⟩, OrderedTable.find_set_self _ _ _, rfl, by decide⟩
  have hplain : ¬ Plain (N "xi") := fun h => absurd (h 2 (by decide)) (by decide)
  have hcreator : N "bidder" ≠ self := by decide
  have hnew : s.userres.find (N "xi") = none := rfl
  obtain ⟨hsucceeds, herased, -⟩ := newaccount_succeeds_iff s hcreator hnew
  exact ⟨hsucceeds.mpr (.inr (.inr hwon)), herased ⟨hplain, hwon⟩⟩

end Xidata.System
