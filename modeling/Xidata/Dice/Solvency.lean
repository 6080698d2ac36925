import Xidata.Dice.Actions

/-!
Solvency of the dice contract.  What it owes is what its tables say: the balances
of the players, the bets of the open offers, and both bets of every running game.
In every state of a run without an overflow it owns as much, and its counters are
the numbers of the offers and games that they count.
-/

namespace Xidata.Dice

open Eosiolib Rollback OrderedTable

variable {s s' : State} {c : Ctx} {env : Env}

/-! ### Counting -/

/-- The player has an offer in the game. -/
def State.plays (s : State) (p : AccountName) (gameid : UInt64) : Bool :=
  s.offers.rows.any fun q => q.2.owner = p && q.2.gameid = gameid

theorem sum_counted (l : List (UInt64 × Offer)) (p : AccountName) :
    (l.map fun q => q.2.counted p).sum =
      (((l.countP fun q => q.2.owner = p ∧ q.2.gameid = 0 : ℕ) : ℤ),
        ((l.countP fun q => q.2.owner = p ∧ q.2.gameid ≠ 0 : ℕ) : ℤ)) := by
  induction l with
  | nil => rfl
  | cons q l ih =>
      rw [List.map_cons, List.sum_cons, ih, List.countP_cons, List.countP_cons, Offer.counted]
      by_cases howner : q.2.owner = p
      · by_cases hgameid : q.2.gameid = 0
        · simp [howner, hgameid, add_comm]
        · simp [howner, hgameid, add_comm]
      · simp [howner]

/-- The two players of a game are two, so that a player has as many offers in games as
games. -/
theorem Sound.countP_plays (hs : Sound s) (p : AccountName) :
    (s.offers.rows.countP fun q => q.2.owner = p ∧ q.2.gameid ≠ 0) =
      s.games.rows.countP fun q => s.plays p q.1 := by
  have hoffers : ((s.offers.rows.filter fun q => q.2.owner = p ∧ q.2.gameid ≠ 0).map
      fun q => q.2.gameid).Nodup := by
    refine List.Nodup.map_on (fun q hq r hr heq => ?_)
      (List.Nodup.filter _ (List.Nodup.of_map Prod.fst s.offers.nodup_keys))
    obtain ⟨hq, htest⟩ := List.mem_filter.mp hq
    obtain ⟨hr, htest'⟩ := List.mem_filter.mp hr
    obtain ⟨howner, hgameid⟩ := of_decide_eq_true htest
    obtain ⟨howner', -⟩ := of_decide_eq_true htest'
    have hq := find_eq_some.mpr hq
    have hr := find_eq_some.mpr hr
    obtain ⟨g, hg⟩ := hs.matched _ _ hq hgameid
    obtain ⟨first, second, hpair⟩ := (hs.games _ _ hg).pair
    have hone : ∀ x : UInt64 × Offer, s.offers.find x.1 = some x.2 → x.2.gameid = q.2.gameid →
        x = first ∨ x = second := by
      intro x hx hxid
      rcases hpair.only _ _ hx hxid with h | h
      · exact .inl (Prod.ext h (Option.some.inj (hx.symm.trans (h ▸ hpair.first_found))))
      · exact .inr (Prod.ext h (Option.some.inj (hx.symm.trans (h ▸ hpair.second_found))))
    rcases hone q hq rfl with rfl | rfl <;> rcases hone r hr heq.symm with rfl | rfl
    · rfl
    · exact absurd (howner.trans howner'.symm) hpair.owners
    · exact absurd (howner'.trans howner.symm) hpair.owners
    · rfl
  have hgames : ((s.games.rows.filter fun q => s.plays p q.1).map Prod.fst).Nodup :=
    s.games.nodup_keys.sublist (List.filter_sublist.map Prod.fst)
  have hperm := (List.perm_ext_iff_of_nodup hoffers hgames).mpr fun gameid => ?_
  · have hlength := hperm.length_eq
    rwa [List.length_map, List.length_map, ← List.countP_eq_length_filter,
      ← List.countP_eq_length_filter] at hlength
  · simp only [List.mem_map, List.mem_filter, decide_eq_true_eq, State.plays, List.any_eq_true,
      Bool.and_eq_true]
    constructor
    · rintro ⟨q, ⟨hq, howner, hne⟩, rfl⟩
      obtain ⟨g, hg⟩ := hs.matched _ _ (find_eq_some.mpr hq) hne
      exact ⟨(q.2.gameid, g), ⟨find_eq_some.mp hg, q, hq, howner, rfl⟩, rfl⟩
    · rintro ⟨g, ⟨hg, q, hq, howner, hgameid⟩, rfl⟩
      have hne := (hs.games _ _ (find_eq_some.mpr hg)).id_ne
      exact ⟨q, ⟨hq, howner, hgameid ▸ hne⟩, hgameid⟩

/-! ### Runs -/

/-- The contract can pay what it owes, and its counters are right. -/
structure Solvent (env : Env) (s : Chain) : Prop where
  balance : s.token.balance env.self coreSymbol.name =
    (s.dice.accounts.sum fun _ a => a.eosBalance.units) +
      (s.dice.offers.sum fun _ o => if o.gameid = 0 then o.bet.units else 0) +
      2 * s.dice.games.sum fun _ g => g.bet.units
  openOffers : ∀ p, ((s.dice.accounts.find p).elim 0 Account.openOffers).toNat =
    s.dice.offers.rows.countP fun q => q.2.owner = p ∧ q.2.gameid = 0
  openGames : ∀ p, ((s.dice.accounts.find p).elim 0 Account.openGames).toNat =
    s.dice.games.rows.countP fun q => s.dice.plays p q.1
  owners : ∀ i o, s.dice.offers.find i = some o → ∃ a, s.dice.accounts.find o.owner = some a
  pairs : ∀ gameid g, s.dice.games.find gameid = some g →
    ∃ first second, Pair s.dice gameid g first second

structure Inv (env : Env) (s : Chain) : Prop where
  token : Token.Conserved s.token
  sound : Sound s.dice
  backed : s.token.balance env.self coreSymbol.name = s.dice.owed

/-- The actions of the token contract itself leave the balance of the dice contract alone. -/
def Untouched (env : Env) (s : Chain) (e : Event) (s' : Chain) : Prop :=
  match e.call with
  | .token _ => s'.token.balance env.self coreSymbol.name = s.token.balance env.self coreSymbol.name
  | .dice _ => True

instance (env : Env) (s : Chain) (e : Event) (s' : Chain) : Decidable (Untouched env s e s') := by
  unfold Untouched
  cases e.call <;> infer_instance

/-- No counter overflows in the event. -/
def Fits (s : Chain) (e : Event) : Prop :=
  match e.call with
  | .token _ => True
  | .dice action => CountersFit s.dice action

instance (s : Chain) (e : Event) : Decidable (Fits s e) := by
  unfold Fits
  cases e.call <;> infer_instance

theorem Inv.solvent {s : Chain} (hs : Inv env s) : Solvent env s := by
  have hcounts : ∀ p, (s.dice.held p).2 = _ := fun p =>
    (hs.sound.counters p).trans (sum_counted s.dice.offers.rows p)
  refine ⟨?_, fun p => ?_, fun p => ?_, fun i o ho => ?_, fun gameid g hg =>
    (hs.sound.games gameid g hg).pair⟩
  · have hopen : (s.dice.offers.sum fun _ o => if o.gameid = 0 then o.bet.units else 0) =
        s.dice.offers.sum fun _ o => o.bet.units := by
      refine sum_congr fun i o ho => ?_
      split
      · rfl
      · rename_i hne
        exact ((hs.sound.offers i o ho).matched.mpr hne).symm
    rw [hs.backed, hopen, State.owed]
  · have hcount := congrArg Prod.fst (hcounts p)
    rw [State.held] at hcount
    cases ha : s.dice.accounts.find p with
    | none => exact Int.ofNat.inj (by simpa [ha] using hcount)
    | some a => exact Int.ofNat.inj (by simpa [ha, Account.value] using hcount)
  · have hcount := congrArg Prod.snd (hcounts p)
    rw [State.held] at hcount
    rw [← hs.sound.countP_plays p]
    cases ha : s.dice.accounts.find p with
    | none => exact Int.ofNat.inj (by simpa [ha] using hcount)
    | some a => exact Int.ofNat.inj (by simpa [ha, Account.value] using hcount)
  · obtain ⟨a, ha, -⟩ := hs.sound.owner ho
    exact ⟨a, ha⟩

theorem execInline_transferred {e : Event} {t t' : Token.State} {auth : List AccountName}
    {from_ to_ : AccountName} {quantity : Asset} {memo : String} (ht : Token.Conserved t)
    (h : execInline e t ⟨auth, .transfer from_ to_ quantity memo⟩ = .ok t') :
    Token.Conserved t' ∧
      Token.Transferred { e.ctx with auth := auth } t t' from_ to_ quantity := by
  simp only [execInline, bind_eq_ok] at h
  obtain ⟨_, -, h⟩ := h
  refine ⟨Token.exec_conserved ht h, ?_⟩
  simp only [Token.exec, Token.apply, bind_eq_ok, map_eq_ok] at h
  obtain ⟨_, ⟨t₁, ht₁, rfl⟩, h⟩ := h
  rw [List.foldlM_nil, pure_eq_ok] at h
  exact h ▸ Token.transfer_transferred ht.rows ht₁

theorem Inv.step {s s' : Chain} {e : Event} (hs : Inv env s) (h : step env s e = .ok s')
    (huntouched : Untouched env s e s') (hfits : Fits s e) : Inv env s' := by
  rw [Dice.step] at h
  rw [Untouched] at huntouched
  rw [Fits] at hfits
  cases hcall : e.call with
  | token action =>
      simp only [hcall, bind_eq_ok, pure_eq_ok] at h huntouched
      obtain ⟨t, ht, rfl⟩ := h
      exact ⟨Token.exec_conserved hs.token ht, hs.sound, huntouched.trans hs.backed⟩
  | dice action =>
      simp only [hcall, bind_eq_ok, pure_eq_ok] at h hfits
      obtain ⟨r, hr, t, ht, rfl⟩ := h
      have hbacked := hs.backed
      cases apply_moves hs.sound hfits hr with
      | inside hsound howed =>
          rw [List.foldlM_nil, pure_eq_ok] at ht
          subst ht
          exact ⟨hs.token, hsound, hbacked.trans howed.symm⟩
      | in_ hsound hsymbol howed =>
          obtain ⟨hconserved, hmoved⟩ :=
            execInline_transferred hs.token (foldlM_singleton_eq_ok.mp ht)
          refine ⟨hconserved, hsound, ?_⟩
          show t.balance env.self coreSymbol.name = State.owed _
          rw [hmoved.balance, hsymbol, if_neg fun h => hmoved.ne h.1.symm, if_pos ⟨rfl, rfl⟩, howed,
            hbacked, add_zero]
      | out hsound hsymbol howed =>
          obtain ⟨hconserved, hmoved⟩ :=
            execInline_transferred hs.token (foldlM_singleton_eq_ok.mp ht)
          refine ⟨hconserved, hsound, ?_⟩
          show t.balance env.self coreSymbol.name = State.owed _
          rw [hmoved.balance, hsymbol, if_pos ⟨rfl, rfl⟩, if_neg fun h => hmoved.ne h.1, howed,
            hbacked, add_zero]

theorem inv_init {token : Token.State} (htoken : Token.Conserved token)
    (hzero : token.balance env.self coreSymbol.name = 0) : Inv env ⟨token, .init⟩ where
  token := htoken
  sound := {
    accounts := fun _ _ h => by cases h
    offers := fun _ _ h => by cases h
    games := fun _ _ h => by cases h
    matched := fun _ _ h => by cases h
    commitments := fun _ _ _ _ h => by cases h
    counters := fun _ => rfl }
  backed := hzero

theorem inv_run (env : Env) {token : Token.State} (htoken : Token.Conserved token)
    (hzero : token.balance env.self coreSymbol.name = 0) (es : List Event)
    (huntouched : Along (step env) (Untouched env) ⟨token, .init⟩ es)
    (hfits : Along (step env) (fun s e _ => Fits s e) ⟨token, .init⟩ es) :
    ∀ s ∈ trace (step env) ⟨token, .init⟩ es, Inv env s :=
  trace_induction_along (fun _ _ _ hinv h hp => hinv.step h hp.1 hp.2) (huntouched.and hfits)
    (inv_init htoken hzero)

theorem solvent_run (env : Env) {token : Token.State} (htoken : Token.Conserved token)
    (hzero : token.balance env.self coreSymbol.name = 0) (es : List Event)
    (huntouched : Along (step env) (Untouched env) ⟨token, .init⟩ es)
    (hfits : Along (step env) (fun s e _ => Fits s e) ⟨token, .init⟩ es) :
    ∀ s ∈ trace (step env) ⟨token, .init⟩ es, Solvent env s :=
  fun s hs => (inv_run env htoken hzero es huntouched hfits s hs).solvent

/-! ### Two players -/

def core (amount : Int64) : Asset := ⟨amount, coreSymbol⟩

def alice : AccountName := N "alice"
def bob : AccountName := N "bob"
def dice : AccountName := N "dice"

/-- What an action with the authority of an account sees at a time in seconds. -/
def at_ (account : AccountName) (seconds : UInt64) : Ctx :=
  ⟨[account], 1000000 * seconds, {alice, bob, dice}⟩

/-- The core token, of which `alice` and `bob` have some. -/
def money : List Token.Event :=
  [⟨at_ Token.self 0, .create alice (core 100000000000000)⟩,
    ⟨at_ alice 0, .issue bob (core 10000) ""⟩, ⟨at_ alice 0, .issue alice (core 4294967296) ""⟩]

theorem conserved_money : Token.Conserved (run Token.step .init money) :=
  run_induction (fun _ _ _ ht h => Token.exec_conserved ht h) money Token.conserved_init

/-- The 32 bytes of a number, the highest one first. -/
def Checksum256.ofNat (n : ℕ) : Checksum256 :=
  ⟨(List.range 32).map fun i => (n / 2 ^ (8 * (31 - i))).toUInt8, by simp⟩

/-- Secrets of 32 bytes `1` and of 32 bytes `2`. -/
def ones : Checksum256 := ⟨List.replicate 32 1, List.length_replicate⟩
def twos : Checksum256 := ⟨List.replicate 32 2, List.length_replicate⟩

/-- The SHA-256 of three secrets. -/
def hashOfZero : Checksum256 :=
  .ofNat 0x66687aadf862bd776c8fc18b8e9f8e20089714856ee233b3902a591d0d5f2925
def hashOfOnes : Checksum256 :=
  .ofNat 0x72cd6e8422c407fb6d098690f1130b7ded7ec2f7f5e1d30bd9d521f015363793
def hashOfTwos : Checksum256 :=
  .ofNat 0x75877bb41d393b5fb8455ce60ecd8dda001d06316496b14dfa7f895656eeca4a

def tableEnv : Env where
  self := dice
  -- the last two are of a game that lacks a secret
  sha256 bytes :=
    if bytes = Checksum256.zero.hash then hashOfZero
    else if bytes = ones.hash then hashOfOnes
    else if bytes = twos.hash then hashOfTwos
    else if bytes = hashOfOnes.hash ++ ones.hash ++ hashOfTwos.hash ++ Checksum256.zero.hash then
      .ofNat 0xec9e518d11df3280c3f59bbccb6a3c132672adc2355f131fe85cf33ad5adf7b5
    else if bytes = hashOfOnes.hash ++ Checksum256.zero.hash ++ hashOfTwos.hash ++ twos.hash then
      .ofNat 0x6a725c261cff70d41fa50179a8c112bb0fa3495254cdfbfc30454afc0888b368
    else .zero

/-- `alice` and `bob` deposit, and bet on the hashes of two secrets. -/
def firstGame (secret secret' : Checksum256) : List Event :=
  [⟨at_ alice 0, [alice], .dice (.deposit alice (core 1000))⟩,
    ⟨at_ bob 0, [bob], .dice (.deposit bob (core 1000))⟩,
    ⟨at_ alice 0, [], .dice (.offerbet (core 100) alice (tableEnv.sha256 secret.hash))⟩,
    ⟨at_ bob 0, [], .dice (.offerbet (core 100) bob (tableEnv.sha256 secret'.hash))⟩]

theorem solvent_run_firstGame : Solvent tableEnv
    (run (step tableEnv) ⟨run Token.step .init money, .init⟩ (firstGame .zero ones)) :=
  solvent_run tableEnv conserved_money (by decide) (firstGame .zero ones) (by decide) (by decide) _
    (run_mem_trace _ _)

/-! ### Too many offers -/

/-- A commitment for every number, of which the first `2 ^ 32` differ. -/
def numbered (n : ℕ) : Checksum256 :=
  ⟨[n.toUInt8, (n / 2 ^ 8).toUInt8, (n / 2 ^ 16).toUInt8, (n / 2 ^ 24).toUInt8] ++
    List.replicate 28 0, rfl⟩

theorem numbered_injective {m n : ℕ} (hm : m < 2 ^ 32) (hn : n < 2 ^ 32)
    (h : numbered m = numbered n) : m = n := by
  have hbytes := congrArg Checksum256.hash h
  simp only [numbered, List.cons_append, List.cons.injEq, Nat.toUInt8,
    ← UInt8.toNat_inj, UInt8.toNat_ofNat'] at hbytes
  obtain ⟨h₀, h₁, h₂, h₃, -⟩ := hbytes
  omega

/-- After `n` of the offers. -/
structure Filled (n : ℕ) (s : State) : Prop where
  account : ∃ a, s.accounts.find alice = some a ∧ AccountOk a ∧
    a.eosBalance.units = 2 ^ 32 - n ∧ a.openOffers.toNat = n % 2 ^ 32
  offers : ∀ i o, s.offers.find i = some o → o.owner = alice ∧ o.bet = core 1 ∧ i.toNat < n ∧
    ∃ j < n, o.commitment = numbered j
  counted : (s.offers.sum fun _ o => o.counted alice) = ((n : ℤ), 0)

theorem availablePrimaryKey_ok {t : OrderedTable UInt64 Offer} {n : ℕ} (hn : n < 2 ^ 32)
    (h : ∀ i o, t.find i = some o → i.toNat < n) :
    ∃ id, availablePrimaryKey t = .ok id ∧ id.toNat ≤ n := by
  have hnext : ((t.last fun _ => true).elim 0 fun q =>
      if noAvailablePrimaryKey ≤ q.1 then noAvailablePrimaryKey else q.1 + 1).toNat ≤ n := by
    cases hlast : t.last fun _ => true with
    | none => exact Nat.zero_le n
    | some q =>
        have hq := h q.1 q.2 (find_of_last hlast)
        have hfree : ¬ noAvailablePrimaryKey ≤ q.1 := by
          rw [UInt64.le_iff_toNat_le]
          show ¬ 18446744073709551614 ≤ q.1.toNat
          omega
        rw [Option.elim_some, if_neg hfree, UInt64.toNat_add, UInt64.toNat_one]
        omega
  refine ⟨_, ?_, hnext⟩
  simp only [availablePrimaryKey, bind_eq_ok, eosioAssert_eq_ok, exists_const, pure_eq_ok, and_true]
  rw [UInt64.lt_iff_toNat_lt]
  show _ < 18446744073709551614
  omega

/-- An offer finds no match where all offers have its owner. -/
theorem matchedOffer_none {t : OrderedTable UInt64 Offer} {offer : Offer}
    (h : ∀ i o, t.find i = some o → o.owner = offer.owner ∧ o.bet = offer.bet) :
    matchedOffer t offer = .ok none := by
  unfold matchedOffer
  split
  · rfl
  · rename_i m hm
    obtain ⟨howner, hbet⟩ := h _ _ (find_of_firstBy hm)
    rw [howner, hbet]
    simp [Asset.ne, Asset.compare, eosioAssert, pure, Except.pure]

theorem takeBet_ok {a : Account} (ha : AccountOk a) (h : 1 ≤ a.eosBalance.units) :
    ∃ b, takeBet a (core 1) = .ok b := by
  have hrange := Asset.isAmountWithinRange_iff.mp ha.inRange
  have hone : (core 1).isAmountWithinRange := by decide
  have hunits : (core 1).units = 1 := by decide
  have hsub := Asset.units_sub ha.inRange hone a.eosBalance.symbol
  have hok : a.eosBalance.sub (core 1) = .ok ⟨a.eosBalance.amount - 1, a.eosBalance.symbol⟩ := by
    refine Asset.sub_eq_ok.mpr ⟨ha.symbol.symm, rfl, Asset.isAmountWithinRange_iff.mpr ?_⟩
    show -(2 ^ 62 - 1) ≤ Asset.units ⟨a.eosBalance.amount - (core 1).amount, _⟩ ∧
      Asset.units ⟨a.eosBalance.amount - (core 1).amount, _⟩ ≤ 2 ^ 62 - 1
    rw [hsub]
    omega
  have hge : a.eosBalance.ge (core 1) = .ok true := by
    rw [Asset.ge_eq_ok, hunits]
    exact ⟨ha.symbol, decide_eq_true h⟩
  refine ⟨{ a with eosBalance := ⟨a.eosBalance.amount - 1, a.eosBalance.symbol⟩ }, ?_⟩
  simp only [takeBet, hge, ok_bind, hok, bind_eq_ok, eosioAssert_eq_ok, exists_const, pure_eq_ok,
    and_self]

theorem Filled.offerbet {n : ℕ} {s : State} {c : Ctx} (h : Filled n s) (hn : n < 2 ^ 32)
    (hauth : alice ∈ c.auth) :
    ∃ s', offerbet c s (core 1) alice (numbered n) = .ok s' ∧ Filled (n + 1) s' := by
  obtain ⟨a, ha, hok, hunits, hcount⟩ := h.account
  obtain ⟨id, hid, hle⟩ := availablePrimaryKey_ok hn fun i o ho => (h.offers i o ho).2.2.1
  obtain ⟨b, hb⟩ := takeBet_ok hok (by omega)
  have hone : (core 1).isAmountWithinRange := by decide
  obtain ⟨hbok, hbunits, hboffers, -⟩ := takeBet_spec hok hone hb
  have hbunits : b.eosBalance.units = 2 ^ 32 - (n + 1) := by
    have hcore : (core 1).units = 1 := by decide
    omega
  have hnew : s.findOffer (numbered n) = none := findOffer_eq_none.mpr fun i o ho heq => by
    obtain ⟨-, -, -, j, hj, hj'⟩ := h.offers i o ho
    exact absurd (numbered_injective (hj.trans hn) hn (hj'.symm.trans heq)) hj.ne
  have hmatch : matchedOffer (s.offers.set id ⟨alice, core 1, numbered n, 0⟩)
      ⟨alice, core 1, numbered n, 0⟩ = .ok none := by
    refine matchedOffer_none fun i o ho => ?_
    rw [find_set] at ho
    split at ho
    · obtain rfl := Option.some.inj ho
      exact ⟨rfl, rfl⟩
    · exact ⟨(h.offers i o ho).1, (h.offers i o ho).2.1⟩
  refine ⟨{ s with
    offers := s.offers.set id ⟨alice, core 1, numbered n, 0⟩
    accounts := s.accounts.set alice { b with openOffers := b.openOffers + 1 } }, ?_, ?_⟩
  · simp only [Dice.offerbet, bind_eq_ok, eosioAssert_eq_ok, exists_const, getRow_eq_ok,
      requireAuth_eq_ok]
    refine ⟨rfl, by decide, by decide, hnew, hauth, a, ha, id, hid, none, hmatch, ?_⟩
    simp only [placeOffer, keepOffer, hb, ok_bind, pure_eq_ok]
  · refine ⟨⟨_, find_set_self _ _ _, ⟨hbok.symbol, hbok.inRange, hbok.nonneg⟩, ?_, ?_⟩,
      fun i o ho => ?_, ?_⟩
    · exact hbunits.trans (by push_cast; rfl)
    · show (b.openOffers + 1).toNat = _
      rw [UInt32.toNat_add, UInt32.toNat_one, hboffers, hcount]
      omega
    · rw [find_set] at ho
      split at ho
      · rename_i hi
        obtain rfl := Option.some.inj ho
        exact ⟨rfl, rfl, hi ▸ Nat.lt_succ_of_le hle, n, Nat.lt_succ_self n, rfl⟩
      · obtain ⟨howner, hbet, hi, j, hj, hcommitment⟩ := h.offers i o ho
        exact ⟨howner, hbet, hi.trans (Nat.lt_succ_self n), j, hj.trans (Nat.lt_succ_self n),
          hcommitment⟩
    · rw [sum_set_sub, find_of_availablePrimaryKey hid, Option.elim_none, sub_zero, h.counted]
      rfl

/-- `alice` deposits what `n` of her offers will need. -/
def manyOffers (n : ℕ) : List Event :=
  ⟨at_ alice 0, [alice], .dice (.deposit alice (core 4294967296))⟩ ::
    (List.range n).map fun j => ⟨at_ alice 0, [], .dice (.offerbet (core 1) alice (numbered j))⟩

theorem filled_run (env : Env) {s : Chain} (h : Filled 0 s.dice) {n : ℕ} (hn : n ≤ 2 ^ 32) :
    Filled n (run (step env) s ((List.range n).map fun j =>
      ⟨at_ alice 0, [], .dice (.offerbet (core 1) alice (numbered j))⟩)).dice := by
  induction n with
  | zero => exact h
  | succ n ih =>
      rw [List.range_succ, List.map_append, run_append]
      obtain ⟨s', hs', hfilled⟩ := (ih (by omega)).offerbet (c := at_ alice 0) (by omega)
        List.mem_cons_self
      generalize run (step env) s _ = t at hs' ⊢
      have hstep : step env t ⟨at_ alice 0, [], .dice (.offerbet (core 1) alice (numbered n))⟩ =
          .ok ⟨t.token, s'⟩ := by
        simp only [step, apply, hs']
        rfl
      rw [List.map_singleton, run_cons, run_nil, push_ok hstep]
      exact hfilled

theorem solvent_run_fails :
    ¬ ∀ (env : Env) (token : Token.State), Token.Conserved token →
      token.balance env.self coreSymbol.name = 0 → ∀ es : List Event,
        Along (step env) (Untouched env) ⟨token, .init⟩ es →
          ∀ s ∈ trace (step env) ⟨token, .init⟩ es, Solvent env s := by
  intro hall
  have huntouched : ∀ e ∈ manyOffers (2 ^ 32), ∃ a, e.call = .dice a := by
    intro e he
    rcases List.mem_cons.mp he with rfl | he
    · exact ⟨_, rfl⟩
    · obtain ⟨j, -, rfl⟩ := List.mem_map.mp he
      exact ⟨_, rfl⟩
  have halong : Along (step ⟨dice, fun _ => .zero⟩) (Untouched ⟨dice, fun _ => .zero⟩)
      ⟨run Token.step .init money, .init⟩ (manyOffers (2 ^ 32)) :=
    (along_induction (I := fun _ => True) (fun s e s' _ he _ => by
      obtain ⟨a, ha⟩ := he
      rw [Untouched, ha]
      exact ⟨trivial, trivial⟩) huntouched trivial).2
  have hsolvent := hall ⟨dice, fun _ => .zero⟩ _ conserved_money (by decide) _ halong _
    (run_mem_trace _ _)
  have hstart : Filled 0 (push (step ⟨dice, fun _ => .zero⟩) ⟨run Token.step .init money, .init⟩
      ⟨at_ alice 0, [alice], .dice (.deposit alice (core 4294967296))⟩).dice := by
    refine ⟨⟨⟨core 4294967296, 0, 0⟩, by decide, ⟨rfl, by decide, by decide⟩, by decide, rfl⟩,
      fun i o ho => ?_, rfl⟩
    cases ho
  have hfilled := filled_run ⟨dice, fun _ => .zero⟩ hstart (le_refl (2 ^ 32))
  obtain ⟨a, ha, -, -, hcount⟩ := hfilled.account
  have hoffers := hsolvent.openOffers alice
  have hcounted := congrArg Prod.fst ((sum_counted _ alice).symm.trans hfilled.counted)
  rw [manyOffers, run_cons, ha, Option.elim_some, hcount] at hoffers
  rw [← hoffers] at hcounted
  exact absurd hcounted (by decide)

end Xidata.Dice