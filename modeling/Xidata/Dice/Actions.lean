import Xidata.Dice.Invariant

/-!
What the actions of the dice contract do.  Each keeps the tables sound, as long as
no counter overflows, and none changes what the contract owes but a deposit and a
withdrawal, by what the transfer moves that it sends.
-/

namespace Xidata.Dice

open Eosiolib Rollback OrderedTable

variable {s s' : State} {c : Ctx} {env : Env}

/-! ### What the functions of the contract do -/

theorem toNat_add_one {x : UInt32} (h : x + 1 ≠ 0) : ((x + 1).toNat : ℤ) = x.toNat + 1 := by
  have hlt := x.toNat_lt
  have hne : (x + 1).toNat ≠ 0 := fun heq => h (UInt32.toNat_inj.mp heq)
  rw [UInt32.toNat_add, UInt32.toNat_one] at hne ⊢
  omega

theorem toNat_sub_one {x : UInt32} (h : 1 ≤ x.toNat) : ((x - 1).toNat : ℤ) = x.toNat - 1 := by
  have hle : (1 : UInt32) ≤ x := UInt32.le_iff_toNat_le.mpr h
  rw [UInt32.toNat_sub_of_le _ _ hle, UInt32.toNat_one]
  omega

@[simp] theorem rowToModify_eq_ok {t : OrderedTable AccountName Account} {p : AccountName}
    {a : Account} : rowToModify t p = .ok a ↔ t.find p = some a := by
  rw [rowToModify, getRow_eq_ok]

theorem Checksum256.isZero_iff {a : Checksum256} : a.isZero = true ↔ a = .zero := by
  rw [isZero, List.all_eq_true]
  constructor
  · intro h
    have hhash : a.hash = List.replicate 32 0 :=
      List.eq_replicate_iff.mpr ⟨a.size, fun x hx => of_decide_eq_true (h x hx)⟩
    cases a
    exact Checksum256.mk.injEq .. |>.mpr hhash
  · rintro rfl x hx
    exact decide_eq_true (List.eq_of_mem_replicate hx)

/-- The key for a new offer is free. -/
theorem find_of_availablePrimaryKey {t : OrderedTable UInt64 Offer} {id : UInt64}
    (h : availablePrimaryKey t = .ok id) : t.find id = none := by
  simp only [availablePrimaryKey, bind_eq_ok, eosioAssert_eq_ok, exists_const, pure_eq_ok] at h
  obtain ⟨hlt, rfl⟩ := h
  cases hlast : t.last fun _ => true with
  | none => exact last_eq_none hlast _
  | some q =>
      rw [hlast, Option.elim_some] at hlt
      rw [Option.elim_some]
      split
      · rename_i hfull
        rw [if_pos hfull] at hlt
        exact absurd hlt (lt_irrefl _)
      · rename_i hfull
        cases hfind : t.find (q.1 + 1) with
        | none => rfl
        | some o =>
            exact absurd (le_of_last hlast hfind) (not_le.mpr (MultiIndex.lt_next hfull))

/-- The offer to play with has the same bet and another owner. -/
theorem matchedOffer_some {t : OrderedTable UInt64 Offer} {offer : Offer} {m : UInt64 × Offer}
    (h : matchedOffer t offer = .ok (some m)) :
    t.find m.1 = some m.2 ∧ m.2.bet.units = offer.bet.units ∧ m.2.owner ≠ offer.owner := by
  unfold matchedOffer at h
  split at h
  · rw [pure_eq_ok] at h
    cases h
  · rename_i m' hm'
    simp only [bind_eq_ok, pure_eq_ok] at h
    obtain ⟨differs, hdiffers, h⟩ := h
    split at h
    · cases h
    · rename_i hsame
      obtain rfl := Option.some.inj h
      rw [Bool.or_eq_true, not_or] at hsame
      have hne : m'.2.bet.ne offer.bet = .ok differs ↔ m'.2.bet.symbol = offer.bet.symbol ∧
          decide (m'.2.bet.units ≠ offer.bet.units) = differs :=
        Asset.compare_eq_ok (by simp [← Int64.toInt_inj, Asset.units])
      have hdecide := (hne.mp hdiffers).2
      refine ⟨find_of_firstBy hm', ?_, fun heq => hsame.2 (decide_eq_true heq)⟩
      by_contra hbet
      exact hsame.1 (hdecide ▸ decide_eq_true hbet)

/-- A bet leaves the account that covers it. -/
theorem takeBet_spec {acnt a : Account} {bet : Asset} (hacnt : AccountOk acnt)
    (hbet : bet.isAmountWithinRange) (h : takeBet acnt bet = .ok a) :
    AccountOk a ∧ a.eosBalance.units = acnt.eosBalance.units - bet.units ∧
      a.openOffers = acnt.openOffers ∧ a.openGames = acnt.openGames := by
  simp only [takeBet, bind_eq_ok, Asset.ge_eq_ok, eosioAssert_eq_ok, exists_const, pure_eq_ok] at h
  obtain ⟨_, ⟨-, rfl⟩, hcovered, b, hsub, rfl⟩ := h
  have hunits := Asset.sub_units hacnt.inRange hbet hsub
  obtain ⟨-, rfl, hrange⟩ := Asset.sub_eq_ok.mp hsub
  have hle : bet.units ≤ acnt.eosBalance.units := of_decide_eq_true hcovered
  refine ⟨⟨hacnt.symbol, hrange, ?_⟩, hunits, rfl, rfl⟩
  show 0 ≤ Asset.units _
  rw [hunits]
  omega

theorem keepOffer_sound {id : UInt64} {offer : Offer} {acnt : Account} (hs : Sound s)
    (hid : s.offers.find id = none) (hoffer : OfferOk offer) (hopen : offer.gameid = 0)
    (hnew : ∀ i o, s.offers.find i = some o → o.commitment ≠ offer.commitment)
    (hacnt : s.accounts.find offer.owner = some acnt) (hfit : acnt.openOffers + 1 ≠ 0)
    (h : keepOffer { s with offers := s.offers.set id offer } offer.owner acnt offer.bet = .ok s') :
    Sound s' ∧ s'.owed = s.owed := by
  simp only [keepOffer, bind_eq_ok, pure_eq_ok] at h
  obtain ⟨a, ha, rfl⟩ := h
  obtain ⟨hok, hunits, hoffers, hgames⟩ :=
    takeBet_spec (hs.accounts _ _ hacnt) hoffer.inRange ha
  refine hs.keep hid hoffer hopen hnew (credited_set ⟨hok.symbol, hok.inRange, hok.nonneg⟩ ?_)
  rw [hacnt, Option.elim_some]
  simp only [Account.value, hunits, hoffers, hgames, toNat_add_one hfit, Prod.mk_add_mk,
    Int.sub_eq_add_neg, add_zero]

/-- The owner of an offer has an account, which counts the offer. -/
theorem Sound.owner (hs : Sound s) {i : UInt64} {o : Offer} (ho : s.offers.find i = some o) :
    ∃ a, s.accounts.find o.owner = some a ∧ o.counted o.owner ≤ a.value.2 := by
  have hle : o.counted o.owner ≤ (s.held o.owner).2 := by
    rw [hs.counters]
    refine le_sum (f := fun _ o' => o'.counted o.owner) (fun _ o' _ => ?_) ho
    show 0 ≤ o'.counted o.owner
    rw [Offer.counted]
    split
    · split <;> decide
    · exact le_refl _
  cases ha : s.accounts.find o.owner with
  | none =>
      rw [State.held, ha, Option.elim_none, Offer.counted, if_pos rfl] at hle
      split at hle
      · exact absurd hle (by decide)
      · exact absurd hle (by decide)
  | some a =>
      rw [State.held, ha, Option.elim_some] at hle
      exact ⟨a, rfl, hle⟩

theorem Sound.openOffers_pos (hs : Sound s) {i : UInt64} {o : Offer} {a : Account}
    (ho : s.offers.find i = some o) (hopen : o.gameid = 0)
    (ha : s.accounts.find o.owner = some a) : 1 ≤ a.openOffers.toNat := by
  obtain ⟨b, hb, hle⟩ := hs.owner ho
  obtain rfl := Option.some.inj (ha.symm.trans hb)
  rw [Offer.counted, if_pos rfl, if_pos hopen] at hle
  exact Int.ofNat_le.mp hle.1

theorem Sound.openGames_pos (hs : Sound s) {i : UInt64} {o : Offer} {a : Account}
    (ho : s.offers.find i = some o) (hgameid : o.gameid ≠ 0)
    (ha : s.accounts.find o.owner = some a) : 1 ≤ a.openGames.toNat := by
  obtain ⟨b, hb, hle⟩ := hs.owner ho
  obtain rfl := Option.some.inj (ha.symm.trans hb)
  rw [Offer.counted, if_pos rfl, if_neg hgameid] at hle
  exact Int.ofNat_le.mp hle.2

theorem startGame_sound {id : UInt64} {offer : Offer} {acnt : Account} {m : UInt64 × Offer}
    (hs : Sound s) (hmeets : Meets s id (s.global.getD 0 + 1) offer m)
    (hacnt : s.accounts.find offer.owner = some acnt) (hfit : acnt.openGames + 1 ≠ 0)
    (hother : ∀ a, s.accounts.find m.2.owner = some a → a.openGames + 1 ≠ 0)
    (h : startGame { s with offers := s.offers.set id offer } id offer acnt m = .ok s') :
    Sound s' ∧ s'.owed = s.owed := by
  simp only [startGame, bind_eq_ok, eosioAssert_eq_ok, rowToModify_eq_ok, exists_const,
    pure_eq_ok] at h
  obtain ⟨-, b, hb, a, ha, rfl⟩ := h
  obtain ⟨hok, hunits, hoffers, hgames⟩ :=
    takeBet_spec (hs.accounts _ _ hacnt) hmeets.ok.inRange ha
  have hbok := hs.accounts _ _ hb
  have hpos := hs.openOffers_pos hmeets.found (hmeets.matched_open hs) hb
  have hcommute : ((s.offers.set id offer).set m.1 (m.2.joined (s.global.getD 0 + 1))).set id
      (offer.joined (s.global.getD 0 + 1)) = ((s.offers.set m.1
        (m.2.joined (s.global.getD 0 + 1))).set id (offer.joined (s.global.getD 0 + 1))) := by
    refine eq_of_find fun k => ?_
    rw [find_set, find_set _ id]
    split
    · rfl
    · rename_i hk
      rw [find_set, find_set _ m.1, find_set_of_ne _ hk]
  refine hcommute ▸ hmeets.sound hs rfl rfl rfl
    (credited_set (a := { b with openOffers := b.openOffers - 1, openGames := b.openGames + 1 })
      ⟨hbok.symbol, hbok.inRange, hbok.nonneg⟩ ?_)
    (credited_set ⟨hok.symbol, hok.inRange, hok.nonneg⟩ ?_)
  · rw [hb, Option.elim_some]
    simp only [Account.value, toNat_sub_one hpos, toNat_add_one (hother b hb), Prod.mk_add_mk,
      Int.sub_eq_add_neg, add_zero]
  · rw [find_set_of_ne _ (Ne.symm hmeets.owner), hacnt, Option.elim_some]
    simp only [Account.value, hunits, hoffers, hgames, toNat_add_one hfit, Prod.mk_add_mk,
      Int.sub_eq_add_neg, add_zero]

/-- The winner is credited with both bets, and the game and its offers are gone. -/
theorem payAndClean_settles {gameid : UInt64} {g : Game} {winner loser : UInt64 × Offer}
    (hs : Sound s) (hg : s.games.find gameid = some g) (hsides : Sides s gameid g winner loser)
    (h : payAndClean s gameid g winner loser = .ok s') :
    ∃ mid accounts, Credited s.accounts mid winner.2.owner (2 * g.bet.units, 0, -1) ∧
      Credited mid accounts loser.2.owner (0, 0, -1) ∧ s' = { s with
        accounts
        games := s.games.erase gameid
        offers := (s.offers.erase winner.1).erase loser.1 } := by
  simp only [payAndClean, bind_eq_ok, rowToModify_eq_ok, pure_eq_ok] at h
  obtain ⟨a, ha, prize, hprize, balance, hbalance, b, hb, rfl⟩ := h
  have hzero : gameid ≠ 0 := (hs.games gameid g hg).id_ne
  obtain ⟨hwinner, hwid⟩ := hsides.found
  obtain ⟨hloser, hlid⟩ := hsides.symm.found
  obtain ⟨hprize, hrange⟩ := Asset.mul_units hprize
  have haok := hs.accounts _ _ ha
  have hunits := Asset.add_units haok.inRange hrange hbalance
  have hbet := (hs.games gameid g hg).pos
  have htwo : (2 : Int64).toInt = 2 := by decide
  rw [htwo] at hprize
  obtain ⟨-, hbeq, hbrange⟩ := Asset.add_eq_ok.mp hbalance
  have hnonneg := haok.nonneg
  rw [find_set_of_ne _ (Ne.symm hsides.owners)] at hb
  have hbok := hs.accounts _ _ hb
  refine ⟨_, _, credited_set
    (a := { a with eosBalance := balance, openGames := a.openGames - 1 })
      ⟨hbeq ▸ haok.symbol, hbrange, show 0 ≤ balance.units by omega⟩ ?_,
    credited_set_or_erase (a := { b with openGames := b.openGames - 1 })
      ⟨hbok.symbol, hbok.inRange, hbok.nonneg⟩ ?_, rfl⟩
  · rw [ha, Option.elim_some]
    have hbal : balance.units = a.eosBalance.units + 2 * g.bet.units := by omega
    simp only [Account.value, hbal, toNat_sub_one (hs.openGames_pos hwinner (hwid ▸ hzero) ha),
      Prod.mk_add_mk, Int.sub_eq_add_neg, add_zero]
  · rw [find_set_of_ne _ (Ne.symm hsides.owners), hb, Option.elim_some]
    simp only [Account.value, toNat_sub_one (hs.openGames_pos hloser (hlid ▸ hzero) hb),
      Prod.mk_add_mk, Int.sub_eq_add_neg, add_zero]

theorem payAndClean_sound {gameid : UInt64} {g : Game} {winner loser : UInt64 × Offer}
    (hs : Sound s) (hg : s.games.find gameid = some g) (hsides : Sides s gameid g winner loser)
    (h : payAndClean s gameid g winner loser = .ok s') : Sound s' ∧ s'.owed = s.owed := by
  obtain ⟨mid, accounts, hw, hl, rfl⟩ := payAndClean_settles hs hg hsides h
  exact hs.settle hg hsides hw hl

theorem canceloffer_sound {commitment : Checksum256} (hs : Sound s)
    (h : canceloffer c s commitment = .ok s') : Sound s' ∧ s'.owed = s.owed := by
  simp only [canceloffer, bind_eq_ok, getRow_eq_ok, eosioAssert_eq_ok, exists_const,
    rowToModify_eq_ok, pure_eq_ok] at h
  obtain ⟨q, hq, hopen, _, -, a, ha, balance, hbalance, rfl⟩ := h
  have hfind := (find_of_findOffer hq).1
  have hok := hs.accounts _ _ ha
  have hoffer := hs.offers _ _ hfind
  have hunits := Asset.add_units hok.inRange hoffer.inRange hbalance
  obtain ⟨-, hbeq, hrange⟩ := Asset.add_eq_ok.mp hbalance
  have hnonneg := hok.nonneg
  have hbet := hoffer.nonneg
  refine hs.cancel hfind hopen (credited_set ⟨hbeq ▸ hok.symbol, hrange,
    show 0 ≤ balance.units by omega⟩ ?_)
  rw [ha, Option.elim_some]
  simp only [Account.value, hunits, toNat_sub_one (hs.openOffers_pos hfind hopen ha),
    Prod.mk_add_mk, Int.sub_eq_add_neg, add_zero]

/-! ### Reveals and claims -/

variable {gameid : UInt64} {g : Game} {q r : UInt64 × Offer} {commitment source : Checksum256}

theorem Pair.findOffer_first (hs : Sound s) (h : Pair s gameid g q r) :
    s.findOffer g.player1.commitment = some q :=
  h.first_commitment ▸ hs.findOffer h.first_found

theorem Pair.findOffer_second (hs : Sound s) (h : Pair s gameid g q r) :
    s.findOffer g.player2.commitment = some r :=
  h.second_commitment ▸ hs.findOffer h.second_found

theorem Pair.commitments_ne (hs : Sound s) (h : Pair s gameid g q r) :
    g.player1.commitment ≠ g.player2.commitment := fun heq => by
  have hfirst := h.findOffer_first hs
  rw [heq, h.findOffer_second hs] at hfirst
  exact h.owners (congrArg (fun q => q.2.owner) (Option.some.inj hfirst).symm)

theorem useSecret_eq_ok {curr : UInt64 × Offer} {currReveal prevReveal : Player} :
    useSecret env c s g curr source currReveal prevReveal = .ok s' ↔ currReveal.reveal = .zero ∧
      ((prevReveal.reveal = .zero ∧
          s' = { s with games := s.games.set curr.2.gameid (g.revealed currReveal source c.now) }) ∨
        (prevReveal.reveal ≠ .zero ∧
          chooseWinner env s curr.2.gameid g curr prevReveal = .ok s')) := by
  simp only [useSecret, bind_eq_ok, eosioAssert_eq_ok, exists_const, Checksum256.isZero_iff]
  refine and_congr_right fun _ => ?_
  by_cases hprev : prevReveal.reveal = .zero
  · rw [if_neg (not_not.mpr hprev), pure_eq_ok]
    exact ⟨fun h => .inl ⟨hprev, h.symm⟩,
      fun h => h.elim (fun h => h.2.symm) fun h => absurd hprev h.1⟩
  · rw [if_pos hprev]
    exact ⟨fun h => .inr ⟨hprev, h⟩, fun h => h.elim (fun h => absurd h.1 hprev) fun h => h.2⟩

theorem chooseWinner_eq_ok {curr prev : UInt64 × Offer} {prevReveal : Player}
    (hprev : s.findOffer prevReveal.commitment = some prev) :
    chooseWinner env s gameid g curr prevReveal = .ok s' ↔
      payAndClean s gameid g (if (env.sha256 g.players).winner then curr else prev)
        (if (env.sha256 g.players).winner then prev else curr) = .ok s' := by
  simp only [chooseWinner, hprev, getRow, ok_bind]
  split <;> rfl

theorem reveal_eq_ok : reveal env c s commitment source = .ok s' ↔
    env.sha256 source.hash = commitment ∧ ∃ curr g, s.findOffer commitment = some curr ∧
      0 < curr.2.gameid ∧ s.games.find curr.2.gameid = some g ∧
      (if g.player1.commitment = commitment then
          useSecret env c s g curr source g.player1 g.player2
        else useSecret env c s g curr source g.player2 g.player1) = .ok s' := by
  simp only [reveal, bind_eq_ok, eosioAssert_eq_ok, exists_const, getRow_eq_ok]
  constructor
  · rintro ⟨hsha, curr, hcurr, hpos, g, hg, h⟩
    exact ⟨hsha, curr, g, hcurr, hpos, hg, h⟩
  · rintro ⟨hsha, curr, g, hcurr, hpos, hg, h⟩
    exact ⟨hsha, curr, hcurr, hpos, g, hg, h⟩

theorem gameid_pos (h : gameid ≠ 0) : 0 < gameid :=
  lt_of_le_of_ne (UInt64.zero_le ..) h.symm

/-- What the secret of the first player does. -/
theorem reveal_first_eq_ok (hs : Sound s) (hg : s.games.find gameid = some g)
    (h : Pair s gameid g q r) : reveal env c s g.player1.commitment source = .ok s' ↔
      env.sha256 source.hash = g.player1.commitment ∧ g.player1.reveal = .zero ∧
      ((g.player2.reveal = .zero ∧ s' = { s with games := s.games.set gameid { g with
          player1 := { g.player1 with reveal := source }
          deadline := c.now + fiveMinutes } }) ∨
        (g.player2.reveal ≠ .zero ∧
          payAndClean s gameid g (if (env.sha256 g.players).winner then q else r)
            (if (env.sha256 g.players).winner then r else q) = .ok s')) := by
  have hpos : 0 < q.2.gameid := gameid_pos (h.first_gameid ▸ (hs.games _ _ hg).id_ne)
  have huse : reveal env c s g.player1.commitment source = .ok s' ↔
      env.sha256 source.hash = g.player1.commitment ∧
        useSecret env c s g q source g.player1 g.player2 = .ok s' := by
    rw [reveal_eq_ok]
    refine and_congr_right fun _ => ?_
    constructor
    · rintro ⟨curr, g', hcurr, -, hg', hok⟩
      obtain rfl := Option.some.inj ((h.findOffer_first hs).symm.trans hcurr)
      obtain rfl := Option.some.inj (hg.symm.trans (h.first_gameid ▸ hg'))
      rwa [if_pos rfl] at hok
    · intro hok
      exact ⟨q, g, h.findOffer_first hs, hpos, h.first_gameid.symm ▸ hg, by rwa [if_pos rfl]⟩
  rw [huse, useSecret_eq_ok, h.first_gameid, chooseWinner_eq_ok (h.findOffer_second hs),
    Game.revealed, if_pos rfl]

/-- What the secret of the second player does. -/
theorem reveal_second_eq_ok (hs : Sound s) (hg : s.games.find gameid = some g)
    (h : Pair s gameid g q r) : reveal env c s g.player2.commitment source = .ok s' ↔
      env.sha256 source.hash = g.player2.commitment ∧ g.player2.reveal = .zero ∧
      ((g.player1.reveal = .zero ∧ s' = { s with games := s.games.set gameid { g with
          player2 := { g.player2 with reveal := source }
          deadline := c.now + fiveMinutes } }) ∨
        (g.player1.reveal ≠ .zero ∧
          payAndClean s gameid g (if (env.sha256 g.players).winner then r else q)
            (if (env.sha256 g.players).winner then q else r) = .ok s')) := by
  have hne := h.commitments_ne hs
  have hpos : 0 < r.2.gameid := gameid_pos (h.second_gameid ▸ (hs.games _ _ hg).id_ne)
  have huse : reveal env c s g.player2.commitment source = .ok s' ↔
      env.sha256 source.hash = g.player2.commitment ∧
        useSecret env c s g r source g.player2 g.player1 = .ok s' := by
    rw [reveal_eq_ok]
    refine and_congr_right fun _ => ?_
    constructor
    · rintro ⟨curr, g', hcurr, -, hg', hok⟩
      obtain rfl := Option.some.inj ((h.findOffer_second hs).symm.trans hcurr)
      obtain rfl := Option.some.inj (hg.symm.trans (h.second_gameid ▸ hg'))
      rwa [if_neg hne] at hok
    · intro hok
      exact ⟨r, g, h.findOffer_second hs, hpos, h.second_gameid.symm ▸ hg, by rwa [if_neg hne]⟩
  rw [huse, useSecret_eq_ok, h.second_gameid, chooseWinner_eq_ok (h.findOffer_first hs),
    Game.revealed, if_neg hne.symm]

/-- A secret that is taken is one of a game. -/
theorem reveal_game (hs : Sound s) (h : reveal env c s commitment source = .ok s') :
    ∃ gameid g q r, s.games.find gameid = some g ∧ Pair s gameid g q r ∧
      (commitment = g.player1.commitment ∨ commitment = g.player2.commitment) := by
  obtain ⟨-, curr, g, hcurr, -, hg, -⟩ := reveal_eq_ok.mp h
  obtain ⟨q, r, hpair⟩ := (hs.games _ _ hg).pair
  obtain ⟨hfind, rfl⟩ := find_of_findOffer hcurr
  refine ⟨_, g, q, r, hg, hpair, ?_⟩
  rcases hpair.only _ _ hfind rfl with hi | hi
  · refine .inl (Eq.trans ?_ hpair.first_commitment)
    exact congrArg Offer.commitment (Option.some.inj (hfind.symm.trans (hi ▸ hpair.first_found)))
  · refine .inr (Eq.trans ?_ hpair.second_commitment)
    exact congrArg Offer.commitment (Option.some.inj (hfind.symm.trans (hi ▸ hpair.second_found)))

theorem payClaim_eq_ok {winner loser unrevealed : Player} {w l : UInt64 × Offer}
    (hw : s.findOffer winner.commitment = some w) (hl : s.findOffer loser.commitment = some l) :
    payClaim s gameid g winner loser unrevealed = .ok s' ↔
      unrevealed.reveal = .zero ∧ payAndClean s gameid g w l = .ok s' := by
  simp only [payClaim, bind_eq_ok, eosioAssert_eq_ok, exists_const, Checksum256.isZero_iff, hw, hl,
    getRow, ok_bind]

/-- The claim against a game pays the first player if a secret of his is stored, and the
second one otherwise. -/
theorem claimexpired_eq_ok (hs : Sound s) (hg : s.games.find gameid = some g)
    (h : Pair s gameid g q r) : claimexpired c s gameid = .ok s' ↔
      g.deadline ≠ 0 ∧ g.deadline < c.now ∧
      ((g.player1.reveal ≠ .zero ∧ g.player2.reveal = .zero ∧ payAndClean s gameid g q r = .ok s') ∨
        (g.player1.reveal = .zero ∧ payAndClean s gameid g r q = .ok s')) := by
  simp only [claimexpired, hg, getRow, ok_bind, bind_eq_ok, eosioAssert_eq_ok, exists_const,
    Checksum256.isZero_iff, and_assoc]
  refine and_congr_right fun _ => and_congr_right fun _ => ?_
  by_cases hzero : g.player1.reveal = .zero
  · rw [if_neg (not_not.mpr hzero), payClaim_eq_ok (h.findOffer_second hs) (h.findOffer_first hs)]
    simp [hzero]
  · rw [if_pos hzero, payClaim_eq_ok (h.findOffer_first hs) (h.findOffer_second hs)]
    simp [hzero]

/-- What a reveal or a claim does to the tables: a secret is stored in a game, or the game
is settled. -/
inductive Handles (s : State) (gameid : UInt64) (g : Game) : State → Prop
  | stores {g' : Game} (hbet : g'.bet = g.bet)
      (hplayer1 : g'.player1.commitment = g.player1.commitment)
      (hplayer2 : g'.player2.commitment = g.player2.commitment) :
      Handles s gameid g { s with games := s.games.set gameid g' }
  | settles {s' : State} {winner loser : UInt64 × Offer} (hsides : Sides s gameid g winner loser)
      (hpay : payAndClean s gameid g winner loser = .ok s') : Handles s gameid g s'

theorem Handles.sound (hs : Sound s) (hg : s.games.find gameid = some g)
    (h : Handles s gameid g s') : Sound s' ∧ s'.owed = s.owed := by
  cases h with
  | stores hbet hplayer1 hplayer2 => exact hs.store hg hbet hplayer1 hplayer2
  | settles hsides hpay => exact payAndClean_sound hs hg hsides hpay

theorem reveal_handles (hs : Sound s) (hg : s.games.find gameid = some g)
    (hpair : Pair s gameid g q r)
    (hcommitment : commitment = g.player1.commitment ∨ commitment = g.player2.commitment)
    (h : reveal env c s commitment source = .ok s') : Handles s gameid g s' := by
  rcases hcommitment with rfl | rfl
  · obtain ⟨-, -, ⟨-, rfl⟩ | ⟨-, hpay⟩⟩ := (reveal_first_eq_ok hs hg hpair).mp h
    · exact .stores rfl rfl rfl
    · refine .settles ?_ hpay
      split
      · exact .inl hpair
      · exact .inr hpair
  · obtain ⟨-, -, ⟨-, rfl⟩ | ⟨-, hpay⟩⟩ := (reveal_second_eq_ok hs hg hpair).mp h
    · exact .stores rfl rfl rfl
    · refine .settles ?_ hpay
      split
      · exact .inr hpair
      · exact .inl hpair

theorem claimexpired_game (h : claimexpired c s gameid = .ok s') :
    ∃ g, s.games.find gameid = some g := by
  simp only [claimexpired, bind_eq_ok, getRow_eq_ok] at h
  obtain ⟨g, hg, -⟩ := h
  exact ⟨g, hg⟩

theorem claimexpired_handles (hs : Sound s) (hg : s.games.find gameid = some g)
    (h : claimexpired c s gameid = .ok s') : Handles s gameid g s' := by
  obtain ⟨q, r, hpair⟩ := (hs.games _ _ hg).pair
  obtain ⟨-, -, ⟨-, -, hpay⟩ | ⟨-, hpay⟩⟩ := (claimexpired_eq_ok hs hg hpair).mp h
  · exact .settles (.inl hpair) hpay
  · exact .settles (.inr hpair) hpay

theorem reveal_sound (hs : Sound s) (h : reveal env c s commitment source = .ok s') :
    Sound s' ∧ s'.owed = s.owed := by
  obtain ⟨gameid, g, q, r, hg, hpair, hcommitment⟩ := reveal_game hs h
  exact (reveal_handles hs hg hpair hcommitment h).sound hs hg

theorem claimexpired_sound (hs : Sound s) (h : claimexpired c s gameid = .ok s') :
    Sound s' ∧ s'.owed = s.owed := by
  obtain ⟨g, hg⟩ := claimexpired_game h
  exact (claimexpired_handles hs hg h).sound hs hg

/-! ### Deposits and withdrawals -/

/-- What an action does to what the contract owes, and the transfer it sends. -/
inductive Moves (env : Env) (s : State) : State × List Token.Inline → Prop
  | inside {s' : State} (sound : Sound s') (owed : s'.owed = s.owed) : Moves env s (s', [])
  | in_ {s' : State} {from_ : AccountName} {quantity : Asset} (sound : Sound s')
      (symbol : quantity.symbol = coreSymbol) (owed : s'.owed = s.owed + quantity.units) :
      Moves env s (s', [⟨[from_], .transfer from_ env.self quantity ""⟩])
  | out {s' : State} {to_ : AccountName} {quantity : Asset} (sound : Sound s')
      (symbol : quantity.symbol = coreSymbol) (owed : s'.owed = s.owed + -quantity.units) :
      Moves env s (s', [⟨[env.self], .transfer env.self to_ quantity ""⟩])

theorem Moves.of_state {x : Result State} {r : State × List Token.Inline}
    (h : (·, ([] : List Token.Inline)) <$> x = .ok r)
    (hs : ∀ s', x = .ok s' → Sound s' ∧ s'.owed = s.owed) : Moves env s r := by
  obtain ⟨s', hs', rfl⟩ := map_eq_ok.mp h
  exact .inside (hs s' hs').1 (hs s' hs').2

theorem deposit_moves {from_ : AccountName} {quantity : Asset} {r : State × List Token.Inline}
    (hs : Sound s) (h : deposit env s from_ quantity = .ok r) : Moves env s r := by
  simp only [deposit, bind_eq_ok, eosioAssert_eq_ok, exists_const, pure_eq_ok] at h
  obtain ⟨hvalid, hpos, balance, hbalance, rfl⟩ := h
  have hok : AccountOk ((s.accounts.find from_).getD ⟨Asset.zero, 0, 0⟩) := by
    cases ha : s.accounts.find from_ with
    | none => exact ⟨rfl, by decide, le_refl (0 : ℤ)⟩
    | some a => exact hs.accounts _ _ ha
  have hvalue : ((s.accounts.find from_).getD ⟨Asset.zero, 0, 0⟩).value =
      (s.accounts.find from_).elim 0 Account.value := by
    cases s.accounts.find from_ with
    | none => rfl
    | some a => rfl
  generalize (s.accounts.find from_).getD ⟨Asset.zero, 0, 0⟩ = acnt at hok hvalue hbalance ⊢
  have hunits := Asset.add_units hok.inRange hvalid.1 hbalance
  obtain ⟨hsymbol, hbeq, hrange⟩ := Asset.add_eq_ok.mp hbalance
  have hnonneg := hok.nonneg
  have hquantity : 0 < quantity.units := Int64.lt_iff_toInt_lt.mp hpos
  obtain ⟨hsound, howed⟩ := hs.credit (p := from_) (x := quantity.units)
    (credited_set (a := { acnt with eosBalance := balance })
      ⟨hbeq ▸ hok.symbol, hrange, show 0 ≤ balance.units by omega⟩ (by
        rw [← hvalue]
        simp only [Account.value, hunits, Prod.mk_add_mk, add_zero]))
  exact .in_ hsound (hsymbol.trans hok.symbol) howed

theorem withdraw_moves {to_ : AccountName} {quantity : Asset} {r : State × List Token.Inline}
    (hs : Sound s) (h : withdraw env c s to_ quantity = .ok r) : Moves env s r := by
  simp only [withdraw, bind_eq_ok, eosioAssert_eq_ok, exists_const, getRow_eq_ok, Asset.ge_eq_ok,
    pure_eq_ok] at h
  obtain ⟨_, -, hvalid, -, a, ha, _, ⟨hsymbol, rfl⟩, hcovered, balance, hbalance, rfl⟩ := h
  have hok := hs.accounts _ _ ha
  have hunits := Asset.sub_units hok.inRange hvalid.1 hbalance
  obtain ⟨-, hbeq, hrange⟩ := Asset.sub_eq_ok.mp hbalance
  have hle : quantity.units ≤ a.eosBalance.units := of_decide_eq_true hcovered
  obtain ⟨hsound, howed⟩ := hs.credit (p := to_) (x := -quantity.units)
    (credited_set_or_erase (a := { a with eosBalance := balance })
      ⟨hbeq ▸ hok.symbol, hrange, show 0 ≤ balance.units by omega⟩ (by
        rw [ha, Option.elim_some]
        simp only [Account.value, hunits, Prod.mk_add_mk, add_zero, Int.sub_eq_add_neg]))
  exact .out hsound (hsymbol.symm.trans hok.symbol) howed

/-! ### Counters -/

/-- The offer that a new offer of a player would be matched with. -/
def placed (s : State) (bet : Asset) (player : AccountName) (commitment : Checksum256) :
    Result (Option (UInt64 × Offer)) := do
  let id ← availablePrimaryKey s.offers
  let offer : Offer := { owner := player, bet, commitment, gameid := 0 }
  matchedOffer (s.offers.set id offer) offer

/-- The counters that an offer increments are not at their last value. -/
def HasRoom (s : State) (player : AccountName) : Option (UInt64 × Offer) → Prop
  | none => (s.accounts.find player).elim 0 Account.openOffers + 1 ≠ 0
  | some m => (s.accounts.find player).elim 0 Account.openGames + 1 ≠ 0 ∧
      (s.accounts.find m.2.owner).elim 0 Account.openGames + 1 ≠ 0 ∧ s.global.getD 0 + 1 ≠ 0

instance (s : State) (player : AccountName) :
    (m : Option (UInt64 × Offer)) → Decidable (HasRoom s player m)
  | none => inferInstanceAs (Decidable (_ ≠ _))
  | some _ => inferInstanceAs (Decidable (_ ∧ _))

/-- No counter overflows. -/
def CountersFit (s : State) : Action → Prop
  | .offerbet bet player commitment =>
      ∀ m, placed s bet player commitment = .ok m → HasRoom s player m
  | _ => True

instance (s : State) : (a : Action) → Decidable (CountersFit s a)
  | .offerbet bet player commitment =>
      inferInstanceAs (Decidable (∀ m, placed s bet player commitment = .ok m → HasRoom s player m))
  | .canceloffer _ => isTrue trivial
  | .reveal _ _ => isTrue trivial
  | .claimexpired _ => isTrue trivial
  | .deposit _ _ => isTrue trivial
  | .withdraw _ _ => isTrue trivial

theorem lt_add_one {x : UInt64} (h : x + 1 ≠ 0) : x < x + 1 := by
  have hlt := x.toNat_lt
  have hne : (x + 1).toNat ≠ 0 := fun heq => h (UInt64.toNat_inj.mp heq)
  rw [UInt64.lt_iff_toNat_lt]
  rw [UInt64.toNat_add, UInt64.toNat_one] at hne ⊢
  omega

theorem offerbet_sound {bet : Asset} {player : AccountName} {commitment : Checksum256}
    (hs : Sound s) (hfit : CountersFit s (.offerbet bet player commitment))
    (h : offerbet c s bet player commitment = .ok s') : Sound s' ∧ s'.owed = s.owed := by
  simp only [offerbet, bind_eq_ok, eosioAssert_eq_ok, exists_const, getRow_eq_ok] at h
  obtain ⟨hsymbol, hvalid, hpos, hnew, _, -, acnt, hacnt, id, hid, m, hm, h⟩ := h
  have hroom := hfit m (by
    simp only [placed, bind_eq_ok]
    exact ⟨id, hid, hm⟩)
  have hunits : 0 < bet.units := Int64.lt_iff_toInt_lt.mp hpos
  have hfree := find_of_availablePrimaryKey hid
  have hoffer : OfferOk { owner := player, bet, commitment, gameid := 0 } :=
    ⟨hsymbol, hvalid.1, hunits.le, fun hzero => absurd hzero hunits.ne', fun hne => absurd rfl hne⟩
  cases m with
  | none =>
      rw [HasRoom, hacnt, Option.elim_some] at hroom
      exact keepOffer_sound hs hfree hoffer rfl (findOffer_eq_none.mp hnew) hacnt hroom h
  | some m =>
      rw [HasRoom, hacnt, Option.elim_some] at hroom
      obtain ⟨hroom, hother, hnext⟩ := hroom
      obtain ⟨hfind, hbet, howner⟩ := matchedOffer_some hm
      have hne : m.1 ≠ id := fun heq => by
        rw [heq, find_set_self] at hfind
        exact howner (congrArg Offer.owner (Option.some.inj hfind)).symm
      rw [find_set_of_ne _ hne] at hfind
      refine startGame_sound hs ⟨hfree, hoffer, rfl, hunits, findOffer_eq_none.mp hnew, hfind, hbet,
        howner, lt_add_one hnext⟩ hacnt hroom (fun a ha => ?_) h
      rwa [ha, Option.elim_some] at hother

theorem apply_moves {a : Action} {r : State × List Token.Inline} (hs : Sound s)
    (hfit : CountersFit s a) (h : apply env c s a = .ok r) : Moves env s r := by
  cases a with
  | offerbet bet player commitment => exact .of_state h fun _ h => offerbet_sound hs hfit h
  | canceloffer commitment => exact .of_state h fun _ h => canceloffer_sound hs h
  | reveal commitment source => exact .of_state h fun _ h => reveal_sound hs h
  | claimexpired gameid => exact .of_state h fun _ h => claimexpired_sound hs h
  | deposit from_ quantity => exact deposit_moves hs h
  | withdraw to_ quantity => exact withdraw_moves hs h

end Xidata.Dice
