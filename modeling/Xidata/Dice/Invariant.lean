import Mathlib.Algebra.Order.Group.Int
import Mathlib.Algebra.Order.Monoid.Prod
import Xidata.Dice.Contract
import Xidata.Eosiolib.MultiIndexWrites
import Xidata.Token.Conservation

/-!
The tables of the dice contract fit together: every game has two offers, every
offer an account that counts it, and no commitment is there twice.  The changes
that the actions make keep this, and move no money but from one table to another.
-/

namespace Xidata.Dice

open Eosiolib Rollback OrderedTable

/-! ### The tables -/

/-- A player's money and counters. -/
def Account.value (a : Account) : ℤ × ℤ × ℤ :=
  (a.eosBalance.units, a.openOffers.toNat, a.openGames.toNat)

def State.held (s : State) (p : AccountName) : ℤ × ℤ × ℤ :=
  (s.accounts.find p).elim 0 Account.value

/-- What an offer counts for in the counters of a player. -/
def Offer.counted (o : Offer) (p : AccountName) : ℤ × ℤ :=
  if o.owner = p then if o.gameid = 0 then (1, 0) else (0, 1) else 0

structure AccountOk (a : Account) : Prop where
  symbol : a.eosBalance.symbol = coreSymbol
  inRange : a.eosBalance.isAmountWithinRange
  nonneg : 0 ≤ a.eosBalance.units

/-- A bet is in the core token, and it is in the offer until the offer is matched. -/
structure OfferOk (o : Offer) : Prop where
  symbol : o.bet.symbol = coreSymbol
  inRange : o.bet.isAmountWithinRange
  nonneg : 0 ≤ o.bet.units
  matched : o.bet.units = 0 ↔ o.gameid ≠ 0

/-- The two offers of a game. -/
structure Pair (s : State) (gameid : UInt64) (g : Game) (first second : UInt64 × Offer) : Prop where
  first_found : s.offers.find first.1 = some first.2
  second_found : s.offers.find second.1 = some second.2
  first_gameid : first.2.gameid = gameid
  second_gameid : second.2.gameid = gameid
  first_commitment : first.2.commitment = g.player1.commitment
  second_commitment : second.2.commitment = g.player2.commitment
  owners : first.2.owner ≠ second.2.owner
  only : ∀ i o, s.offers.find i = some o → o.gameid = gameid → i = first.1 ∨ i = second.1

structure GameOk (s : State) (gameid : UInt64) (g : Game) : Prop where
  symbol : g.bet.symbol = coreSymbol
  inRange : g.bet.isAmountWithinRange
  pos : 0 < g.bet.units
  id_ne : gameid ≠ 0
  id_le : gameid ≤ s.global.getD 0
  pair : ∃ first second, Pair s gameid g first second

/-- The tables fit together. -/
structure Sound (s : State) : Prop where
  accounts : ∀ p a, s.accounts.find p = some a → AccountOk a
  offers : ∀ i o, s.offers.find i = some o → OfferOk o
  games : ∀ gameid g, s.games.find gameid = some g → GameOk s gameid g
  matched : ∀ i o, s.offers.find i = some o → o.gameid ≠ 0 → ∃ g, s.games.find o.gameid = some g
  commitments : ∀ i j o o', s.offers.find i = some o → s.offers.find j = some o' →
    o.commitment = o'.commitment → i = j
  counters : ∀ p, (s.held p).2 = s.offers.sum fun _ o => o.counted p

/-- What the contract owes. -/
def State.owed (s : State) : ℤ :=
  (s.accounts.sum fun _ a => a.eosBalance.units) + (s.offers.sum fun _ o => o.bet.units) +
    2 * s.games.sum fun _ g => g.bet.units

variable {s s' : State} {c : Ctx} {env : Env}

theorem findOffer_eq_none {commitment : Checksum256} :
    s.findOffer commitment = none ↔ ∀ i o, s.offers.find i = some o → o.commitment ≠ commitment := by
  rw [State.findOffer, List.find?_eq_none]
  constructor
  · intro h i o ho heq
    exact h (i, o) (find_eq_some.mp ho) (decide_eq_true heq)
  · intro h q hq heq
    exact h q.1 q.2 (find_eq_some.mpr hq) (of_decide_eq_true heq)

theorem find_of_findOffer {commitment : Checksum256} {q : UInt64 × Offer}
    (h : s.findOffer commitment = some q) :
    s.offers.find q.1 = some q.2 ∧ q.2.commitment = commitment := by
  have htest := List.find?_some (p := fun r : UInt64 × Offer => r.2.commitment = commitment) h
  exact ⟨find_eq_some.mpr (List.mem_of_find?_eq_some h), of_decide_eq_true htest⟩

/-- The row of a commitment is the only one. -/
theorem Sound.findOffer (hs : Sound s) {q : UInt64 × Offer} (h : s.offers.find q.1 = some q.2) :
    s.findOffer q.2.commitment = some q := by
  cases hfind : s.findOffer q.2.commitment with
  | none => exact absurd rfl (findOffer_eq_none.mp hfind q.1 q.2 h)
  | some r =>
      obtain ⟨hr, hcommitment⟩ := find_of_findOffer hfind
      have hi : r.1 = q.1 := hs.commitments _ _ _ _ hr h hcommitment
      have ho : r.2 = q.2 := Option.some.inj (hr.symm.trans (hi ▸ h))
      exact congrArg some (Prod.ext hi ho)

/-! ### One write to the accounts -/

/-- `t'` is `t` with `d` more on the account of `p`. -/
structure Credited (t t' : OrderedTable AccountName Account) (p : AccountName) (d : ℤ × ℤ × ℤ) :
    Prop where
  adjusted : Adjusted t t' p Account.value d
  ok : (∀ q a, t.find q = some a → AccountOk a) → ∀ q a, t'.find q = some a → AccountOk a

theorem credited_set {t : OrderedTable AccountName Account} {p : AccountName} {a : Account}
    {d : ℤ × ℤ × ℤ} (ha : AccountOk a) (hd : a.value = (t.find p).elim 0 Account.value + d) :
    Credited t (t.set p a) p d where
  adjusted := .set hd
  ok h q b hb := by
    rw [find_set] at hb
    split at hb
    · exact Option.some.inj hb ▸ ha
    · exact h q b hb

/-- A row is erased where nothing is left on it. -/
theorem credited_set_or_erase {t : OrderedTable AccountName Account} {p : AccountName} {a : Account}
    {d : ℤ × ℤ × ℤ} (ha : AccountOk a) (hd : a.value = (t.find p).elim 0 Account.value + d) :
    Credited t (if a.isEmpty then t.erase p else t.set p a) p d where
  adjusted := .set_or_erase hd fun hempty => by
    simp only [Account.isEmpty, Bool.and_eq_true, decide_eq_true_eq] at hempty
    obtain ⟨⟨hamount, hoffers⟩, hgames⟩ := hempty
    rw [Account.value, Asset.units, hamount, hoffers, hgames]
    rfl
  ok h q b hb := by
    rcases find_set_or_erase hb with ⟨-, rfl⟩ | hb
    · exact ha
    · exact h q b hb

theorem Credited.units {t t' : OrderedTable AccountName Account} {p : AccountName} {d : ℤ × ℤ × ℤ}
    (h : Credited t t' p d) :
    (t'.sum fun _ a => a.eosBalance.units) = (t.sum fun _ a => a.eosBalance.units) + d.1 :=
  h.adjusted.sum (f := fun _ x => x.1) fun _ _ _ => rfl

theorem Credited.counters {t t' : OrderedTable AccountName Account} {p : AccountName}
    {d : ℤ × ℤ × ℤ} (h : Credited t t' p d) (q : AccountName) :
    ((t'.find q).elim 0 Account.value).2 =
      ((t.find q).elim 0 Account.value).2 + if q = p then d.2 else 0 := by
  rw [h.adjusted.value q]
  split <;> rfl

/-! ### What an action does to the tables -/

theorem Pair.frame {gameid : UInt64} {g : Game} {q r : UInt64 × Offer} (h : Pair s gameid g q r)
    (hsame : ∀ i o, o.gameid = gameid → (s'.offers.find i = some o ↔ s.offers.find i = some o)) :
    Pair s' gameid g q r where
  first_found := (hsame _ _ h.first_gameid).mpr h.first_found
  second_found := (hsame _ _ h.second_gameid).mpr h.second_found
  first_gameid := h.first_gameid
  second_gameid := h.second_gameid
  first_commitment := h.first_commitment
  second_commitment := h.second_commitment
  owners := h.owners
  only i o ho hgameid := h.only i o ((hsame i o hgameid).mp ho) hgameid

theorem GameOk.frame {gameid : UInt64} {g : Game} (h : GameOk s gameid g)
    (hglobal : s.global.getD 0 ≤ s'.global.getD 0)
    (hsame : ∀ i o, o.gameid = gameid → (s'.offers.find i = some o ↔ s.offers.find i = some o)) :
    GameOk s' gameid g where
  symbol := h.symbol
  inRange := h.inRange
  pos := h.pos
  id_ne := h.id_ne
  id_le := h.id_le.trans hglobal
  pair := by
    obtain ⟨first, second, hpair⟩ := h.pair
    exact ⟨first, second, hpair.frame hsame⟩

/-- Rows of offers that belong to no game come and go without the games noticing. -/
theorem find_set_iff {t : OrderedTable UInt64 Offer} {i j : UInt64} {o o' : Offer}
    {gameid : UInt64} (ho : o.gameid ≠ gameid)
    (hold : ∀ x, t.find i = some x → x.gameid ≠ gameid) (ho' : o'.gameid = gameid) :
    (t.set i o).find j = some o' ↔ t.find j = some o' := by
  rw [find_set]
  by_cases hj : j = i
  · rw [if_pos hj]
    constructor
    · intro heq
      exact absurd (Option.some.inj heq ▸ ho') ho
    · intro hfind
      exact absurd ho' (hold o' (hj ▸ hfind))
  · rw [if_neg hj]

theorem find_erase_iff {t : OrderedTable UInt64 Offer} {i j : UInt64} {o' : Offer}
    {gameid : UInt64} (hold : ∀ x, t.find i = some x → x.gameid ≠ gameid)
    (ho' : o'.gameid = gameid) : (t.erase i).find j = some o' ↔ t.find j = some o' := by
  rw [find_erase]
  by_cases hj : j = i
  · rw [if_pos hj]
    constructor
    · intro heq
      cases heq
    · intro hfind
      exact absurd ho' (hold o' (hj ▸ hfind))
  · rw [if_neg hj]

/-- Money is moved in or out of an account. -/
theorem Sound.credit (hs : Sound s) {accounts : OrderedTable AccountName Account} {p : AccountName}
    {x : ℤ} (hc : Credited s.accounts accounts p (x, 0, 0)) :
    Sound { s with accounts } ∧ State.owed { s with accounts } = s.owed + x := by
  refine ⟨{
    accounts := hc.ok hs.accounts
    offers := hs.offers
    games := fun gameid g hg => (hs.games gameid g hg).frame le_rfl fun _ _ _ => Iff.rfl
    matched := hs.matched
    commitments := hs.commitments
    counters := fun q => ?_ }, ?_⟩
  · rw [← hs.counters q, State.held, hc.counters q]
    split <;> exact add_zero _
  · simp only [State.owed, hc.units]
    omega

/-- A new offer takes the bet from the account of its owner. -/
theorem Sound.keep (hs : Sound s) {id : UInt64} {offer : Offer}
    {accounts : OrderedTable AccountName Account} (hid : s.offers.find id = none)
    (hoffer : OfferOk offer) (hopen : offer.gameid = 0)
    (hnew : ∀ i o, s.offers.find i = some o → o.commitment ≠ offer.commitment)
    (hc : Credited s.accounts accounts offer.owner (-offer.bet.units, 1, 0)) :
    Sound { s with offers := s.offers.set id offer, accounts } ∧
      State.owed { s with offers := s.offers.set id offer, accounts } = s.owed := by
  have hsum : ∀ {M : Type} [AddCommGroup M] (f : Offer → M),
      ((s.offers.set id offer).sum fun _ o => f o) = (s.offers.sum fun _ o => f o) + f offer := by
    intro M _ f
    rw [sum_set_sub, hid, Option.elim_none, sub_zero]
  refine ⟨{
    accounts := hc.ok hs.accounts
    offers := fun i o ho => ?_
    games := fun gameid g hg => ?_
    matched := fun i o ho hgameid => ?_
    commitments := fun i j o o' ho ho' heq => ?_
    counters := fun q => ?_ }, ?_⟩
  · rw [find_set] at ho
    split at ho
    · exact Option.some.inj ho ▸ hoffer
    · exact hs.offers i o ho
  · have hg' := hs.games gameid g hg
    refine hg'.frame le_rfl fun i o ho => find_set_iff (hopen ▸ hg'.id_ne.symm) (fun x hx => ?_) ho
    rw [hid] at hx
    cases hx
  · rw [find_set] at ho
    split at ho
    · exact absurd (Option.some.inj ho ▸ hopen) hgameid
    · exact hs.matched i o ho hgameid
  · rw [find_set] at ho ho'
    split at ho <;> split at ho'
    · rename_i hi hj
      rw [hi, hj]
    · obtain rfl := Option.some.inj ho
      exact absurd heq.symm (hnew j o' ho')
    · obtain rfl := Option.some.inj ho'
      exact absurd heq (hnew i o ho)
    · exact hs.commitments i j o o' ho ho' heq
  · rw [State.held, hc.counters q, hsum, ← hs.counters q, State.held, Offer.counted, if_pos hopen]
    by_cases hq : q = offer.owner
    · rw [if_pos hq, if_pos hq.symm]
    · rw [if_neg hq, if_neg (Ne.symm hq)]
  · simp only [State.owed, hc.units, hsum fun o => o.bet.units]
    omega

/-- An open offer is withdrawn, and its bet returned. -/
theorem Sound.cancel (hs : Sound s) {i : UInt64} {o : Offer}
    {accounts : OrderedTable AccountName Account} (ho : s.offers.find i = some o)
    (hopen : o.gameid = 0) (hc : Credited s.accounts accounts o.owner (o.bet.units, -1, 0)) :
    Sound { s with accounts, offers := s.offers.erase i } ∧
      State.owed { s with accounts, offers := s.offers.erase i } = s.owed := by
  have hold : ∀ j x, (s.offers.erase i).find j = some x → s.offers.find j = some x := by
    intro j x hx
    rw [find_erase] at hx
    split at hx
    · cases hx
    · exact hx
  refine ⟨{
    accounts := hc.ok hs.accounts
    offers := fun j x hx => hs.offers j x (hold j x hx)
    games := fun gameid g hg => ?_
    matched := fun j x hx hgameid => hs.matched j x (hold j x hx) hgameid
    commitments := fun j k x y hx hy heq =>
      hs.commitments j k x y (hold j x hx) (hold k y hy) heq
    counters := fun q => ?_ }, ?_⟩
  · have hg' := hs.games gameid g hg
    refine hg'.frame le_rfl fun j x hx => find_erase_iff (fun y hy => ?_) hx
    obtain rfl := Option.some.inj (ho.symm.trans hy)
    exact hopen ▸ hg'.id_ne.symm
  · rw [State.held, hc.counters q, sum_erase_sub, ho, ← hs.counters q, State.held,
      Option.elim_some, Offer.counted, if_pos hopen]
    by_cases hq : q = o.owner
    · rw [if_pos hq, if_pos hq.symm, sub_eq_add_neg]
      rfl
    · rw [if_neg hq, if_neg (Ne.symm hq), add_zero, sub_zero]
  · have hoffers := sum_erase_sub s.offers i fun _ o => o.bet.units
    rw [ho, Option.elim_some] at hoffers
    simp only [State.owed, hc.units]
    rw [hoffers]
    omega

/-- A secret is stored in a game. -/
theorem Sound.store (hs : Sound s) {gameid : UInt64} {g g' : Game}
    (hg : s.games.find gameid = some g) (hbet : g'.bet = g.bet)
    (hplayer1 : g'.player1.commitment = g.player1.commitment)
    (hplayer2 : g'.player2.commitment = g.player2.commitment) :
    Sound { s with games := s.games.set gameid g' } ∧
      State.owed { s with games := s.games.set gameid g' } = s.owed := by
  refine ⟨{
    accounts := hs.accounts
    offers := hs.offers
    games := fun id x hx => ?_
    matched := fun i o ho hgameid => ?_
    commitments := hs.commitments
    counters := hs.counters }, ?_⟩
  · rw [find_set] at hx
    split at hx
    · rename_i hid
      obtain rfl := Option.some.inj hx
      subst hid
      have hok := hs.games id g hg
      obtain ⟨first, second, hpair⟩ := hok.pair
      exact ⟨hbet ▸ hok.symbol, hbet ▸ hok.inRange, hbet ▸ hok.pos, hok.id_ne, hok.id_le, first,
        second, hpair.first_found, hpair.second_found, hpair.first_gameid, hpair.second_gameid,
        hpair.first_commitment.trans hplayer1.symm, hpair.second_commitment.trans hplayer2.symm,
        hpair.owners, hpair.only⟩
    · exact (hs.games id x hx).frame le_rfl fun _ _ _ => Iff.rfl
  · rw [find_set]
    split
    · exact ⟨g', rfl⟩
    · exact hs.matched i o ho hgameid
  · have hgames := sum_set_sub s.games gameid g' fun _ g => g.bet.units
    rw [hg, Option.elim_some, hbet, sub_self, add_zero] at hgames
    simp only [State.owed]
    rw [hgames]

/-- The two offers are those of the game, in either order. -/
def Sides (s : State) (gameid : UInt64) (g : Game) (winner loser : UInt64 × Offer) : Prop :=
  Pair s gameid g winner loser ∨ Pair s gameid g loser winner

theorem Sides.symm {gameid : UInt64} {g : Game} {winner loser : UInt64 × Offer}
    (h : Sides s gameid g winner loser) : Sides s gameid g loser winner := Or.symm h

theorem Sides.found {gameid : UInt64} {g : Game} {winner loser : UInt64 × Offer}
    (h : Sides s gameid g winner loser) :
    s.offers.find winner.1 = some winner.2 ∧ winner.2.gameid = gameid := by
  rcases h with h | h
  · exact ⟨h.first_found, h.first_gameid⟩
  · exact ⟨h.second_found, h.second_gameid⟩

theorem Sides.owners {gameid : UInt64} {g : Game} {winner loser : UInt64 × Offer}
    (h : Sides s gameid g winner loser) : winner.2.owner ≠ loser.2.owner := by
  rcases h with h | h
  · exact h.owners
  · exact h.owners.symm

theorem Sides.only {gameid : UInt64} {g : Game} {winner loser : UInt64 × Offer}
    (h : Sides s gameid g winner loser) {i : UInt64} {o : Offer} (ho : s.offers.find i = some o)
    (hgameid : o.gameid = gameid) : i = winner.1 ∨ i = loser.1 := by
  rcases h with h | h
  · exact h.only i o ho hgameid
  · exact (h.only i o ho hgameid).symm

theorem Sides.id_ne {gameid : UInt64} {g : Game} {winner loser : UInt64 × Offer}
    (h : Sides s gameid g winner loser) : loser.1 ≠ winner.1 := fun heq => by
  have hfound := h.symm.found.1
  rw [heq, h.found.1] at hfound
  exact h.owners (congrArg Offer.owner (Option.some.inj hfound))

/-- Both bets of a game go to one of its players. -/
theorem Sound.settle (hs : Sound s) {gameid : UInt64} {g : Game} {winner loser : UInt64 × Offer}
    {mid accounts : OrderedTable AccountName Account} (hg : s.games.find gameid = some g)
    (hsides : Sides s gameid g winner loser)
    (hw : Credited s.accounts mid winner.2.owner (2 * g.bet.units, 0, -1))
    (hl : Credited mid accounts loser.2.owner (0, 0, -1)) :
    let s' : State := { s with
      accounts
      games := s.games.erase gameid
      offers := (s.offers.erase winner.1).erase loser.1 }
    Sound s' ∧ s'.owed = s.owed := by
  intro s'
  have hzero : gameid ≠ 0 := (hs.games gameid g hg).id_ne
  obtain ⟨hwinner, hwid⟩ := hsides.found
  obtain ⟨hloser, hlid⟩ := hsides.symm.found
  have hold : ∀ j x, s'.offers.find j = some x →
      s.offers.find j = some x ∧ j ≠ winner.1 ∧ j ≠ loser.1 := by
    intro j x hx
    rw [find_erase] at hx
    split at hx
    · cases hx
    · rename_i hj
      rw [find_erase] at hx
      split at hx
      · cases hx
      · rename_i hj'
        exact ⟨hx, hj', hj⟩
  have hsum : ∀ {M : Type} [AddCommGroup M] (f : Offer → M), (s'.offers.sum fun _ o => f o) =
      (s.offers.sum fun _ o => f o) - f winner.2 - f loser.2 := by
    intro M _ f
    rw [sum_erase_sub, sum_erase_sub, find_erase_of_ne _ hsides.id_ne, hwinner, hloser]
    rfl
  refine ⟨{
    accounts := hl.ok (hw.ok hs.accounts)
    offers := fun j x hx => hs.offers j x (hold j x hx).1
    games := fun id x hx => ?_
    matched := fun j x hx hgameid => ?_
    commitments := fun j k x y hx hy heq =>
      hs.commitments j k x y (hold j x hx).1 (hold k y hy).1 heq
    counters := fun q => ?_ }, ?_⟩
  · rw [find_erase] at hx
    split at hx
    · cases hx
    · rename_i hid
      refine (hs.games id x hx).frame le_rfl fun j y hy => ?_
      refine (find_erase_iff (fun z hz => ?_) hy).trans (find_erase_iff (fun z hz => ?_) hy)
      · rw [find_erase_of_ne _ hsides.id_ne, hloser] at hz
        obtain rfl := Option.some.inj hz
        exact hlid ▸ Ne.symm hid
      · rw [hwinner] at hz
        obtain rfl := Option.some.inj hz
        exact hwid ▸ Ne.symm hid
  · obtain ⟨hx, hjw, hjl⟩ := hold j x hx
    obtain ⟨g', hg'⟩ := hs.matched j x hx hgameid
    have hne : x.gameid ≠ gameid := fun heq => (hsides.only hx heq).elim hjw hjl
    exact ⟨g', (find_erase_of_ne _ hne).trans hg'⟩
  · have hcounted : ∀ o : Offer, o.gameid = gameid → o.counted q =
        if o.owner = q then (0, 1) else 0 := by
      intro o ho
      have hne : ¬ o.gameid = 0 := ho ▸ hzero
      rw [Offer.counted, if_neg hne]
    show ((accounts.find q).elim 0 Account.value).2 = s'.offers.sum fun _ o => o.counted q
    rw [hl.counters q, hw.counters q, hsum fun o => o.counted q, ← hs.counters q, State.held,
      hcounted _ hwid, hcounted _ hlid]
    simp only [eq_comm (a := q), sub_eq_add_neg]
    congr 1
    · congr 1
      split <;> rfl
    · split <;> rfl
  · have hgames := sum_erase_sub s.games gameid fun _ g => g.bet.units
    rw [hg, Option.elim_some] at hgames
    have hbets := hsum fun o => o.bet.units
    rw [(hs.offers _ _ hwinner).matched.mpr (hwid ▸ hzero),
      (hs.offers _ _ hloser).matched.mpr (hlid ▸ hzero)] at hbets
    have haccounts := hl.units.trans (congrArg (· + _) hw.units)
    show (accounts.sum _) + (s'.offers.sum _) + 2 * ((s.games.erase gameid).sum _) = _
    rw [haccounts, hbets, hgames, State.owed]
    omega

theorem OfferOk.joined {o : Offer} {n : UInt64} (ho : OfferOk o) (hn : n ≠ 0) :
    OfferOk (o.joined n) where
  symbol := ho.symbol
  inRange := Asset.isAmountWithinRange_iff.mpr ⟨show -(2 ^ 62 - 1) ≤ (0 : ℤ) by decide,
    show (0 : ℤ) ≤ 2 ^ 62 - 1 by decide⟩
  nonneg := le_refl (0 : ℤ)
  matched := ⟨fun _ => hn, fun _ => rfl⟩

theorem counted_joined (o : Offer) {n : UInt64} (hn : n ≠ 0) (p : AccountName) :
    (o.joined n).counted p = if o.owner = p then (0, 1) else 0 := by
  show (if o.owner = p then if n = 0 then (1, 0) else (0, 1) else 0) = _
  rw [if_neg hn]

/-- Where a row comes from when two offers have gone into a game. -/
theorem find_joined {t : OrderedTable UInt64 Offer} {i j k : UInt64} {o o' x : Offer}
    (h : ((t.set j o').set i o).find k = some x) :
    (k = i ∧ x = o) ∨ (k = j ∧ x = o') ∨ (k ≠ i ∧ k ≠ j ∧ t.find k = some x) := by
  rw [find_set] at h
  split at h
  · rename_i hi
    exact .inl ⟨hi, (Option.some.inj h).symm⟩
  · rename_i hi
    rw [find_set] at h
    split at h
    · rename_i hj
      exact .inr (.inl ⟨hj, (Option.some.inj h).symm⟩)
    · rename_i hj
      exact .inr (.inr ⟨hi, hj, h⟩)

theorem sum_joined {M : Type*} [AddCommGroup M] {t : OrderedTable UInt64 Offer} {i j : UInt64}
    {o x y : Offer} (hi : t.find i = none) (hj : t.find j = some o) (f : Offer → M) :
    (((t.set j y).set i x).sum fun _ o => f o) = (t.sum fun _ o => f o) + (f y - f o) + f x := by
  have hne : i ≠ j := fun heq => by
    rw [heq, hj] at hi
    cases hi
  rw [sum_set_sub, sum_set_sub, find_set_of_ne _ hne, hi, hj, Option.elim_none, sub_zero,
    Option.elim_some]

/-- What is known when the offer `id` meets the offer `m` for the game `n`. -/
structure Meets (s : State) (id n : UInt64) (offer : Offer) (m : UInt64 × Offer) : Prop where
  free : s.offers.find id = none
  ok : OfferOk offer
  open_ : offer.gameid = 0
  pos : 0 < offer.bet.units
  new : ∀ i o, s.offers.find i = some o → o.commitment ≠ offer.commitment
  found : s.offers.find m.1 = some m.2
  bet : m.2.bet.units = offer.bet.units
  owner : m.2.owner ≠ offer.owner
  next : s.global.getD 0 < n

namespace Meets

variable {id n : UInt64} {offer : Offer} {m : UInt64 × Offer}

theorem id_ne (h : Meets s id n offer m) : m.1 ≠ id := fun heq => by
  have hfound := h.found
  rw [heq, h.free] at hfound
  cases hfound

theorem next_ne (h : Meets s id n offer m) : n ≠ 0 := fun heq =>
  absurd (heq ▸ h.next) (not_lt.mpr (UInt64.zero_le ..))

/-- A bet that is still in its offer. -/
theorem matched_open (h : Meets s id n offer m) (hs : Sound s) : m.2.gameid = 0 := by
  by_contra hne
  have hzero := (hs.offers _ _ h.found).matched.mpr hne
  have hpos := h.pos
  have hbet := h.bet
  omega

theorem fresh (h : Meets s id n offer m) (hs : Sound s) {gameid : UInt64} {g : Game}
    (hg : s.games.find gameid = some g) : gameid ≠ n := fun heq =>
  absurd h.next (not_lt.mpr (heq ▸ (hs.games gameid g hg).id_le))

/-- The tables after the two offers have become the two sides of the game. -/
def after (s : State) (id n : UInt64) (offer : Offer) (m : UInt64 × Offer) (g : Game)
    (accounts : OrderedTable AccountName Account) : State where
  offers := (s.offers.set m.1 (m.2.joined n)).set id (offer.joined n)
  games := s.games.set n g
  global := some n
  accounts := accounts

variable {g : Game} {accounts : OrderedTable AccountName Account}

theorem offers_ok (h : Meets s id n offer m) (hs : Sound s) {i : UInt64} {o : Offer}
    (ho : (after s id n offer m g accounts).offers.find i = some o) : OfferOk o := by
  rcases find_joined ho with ⟨-, rfl⟩ | ⟨-, rfl⟩ | ⟨-, -, ho⟩
  · exact h.ok.joined h.next_ne
  · exact (hs.offers _ _ h.found).joined h.next_ne
  · exact hs.offers i o ho

theorem games_ok (h : Meets s id n offer m) (hs : Sound s) (hbet : g.bet = offer.bet)
    (hplayer1 : g.player1.commitment = m.2.commitment)
    (hplayer2 : g.player2.commitment = offer.commitment) {gameid : UInt64} {g' : Game}
    (hg : (after s id n offer m g accounts).games.find gameid = some g') :
    GameOk (after s id n offer m g accounts) gameid g' := by
  rw [after, find_set] at hg
  split at hg
  · rename_i hgameid
    obtain rfl := Option.some.inj hg
    subst hgameid
    refine ⟨hbet ▸ h.ok.symbol, hbet ▸ h.ok.inRange, hbet ▸ h.pos, h.next_ne, le_refl _,
      (m.1, m.2.joined gameid), (id, offer.joined gameid), ?_, ?_, rfl, rfl, hplayer1.symm,
      hplayer2.symm, h.owner, fun i o ho hgameid => ?_⟩
    · exact (find_set_of_ne _ h.id_ne _).trans (find_set_self _ _ _)
    · exact find_set_self _ _ _
    · rcases find_joined ho with ⟨rfl, -⟩ | ⟨rfl, -⟩ | ⟨-, -, ho⟩
      · exact .inr rfl
      · exact .inl rfl
      · obtain ⟨g', hg'⟩ := hs.matched i o ho (hgameid ▸ h.next_ne)
        exact absurd hgameid (h.fresh hs hg')
  · rename_i hgameid
    have hok := hs.games gameid g' hg
    refine hok.frame h.next.le fun i o ho => ?_
    refine (find_set_iff (Ne.symm hgameid) (fun x hx => ?_) ho).trans
      (find_set_iff (Ne.symm hgameid) (fun x hx => ?_) ho)
    · rw [find_set_of_ne _ h.id_ne.symm, h.free] at hx
      cases hx
    · obtain rfl := Option.some.inj (h.found.symm.trans hx)
      exact h.matched_open hs ▸ hok.id_ne.symm

theorem matched (h : Meets s id n offer m) (hs : Sound s) {i : UInt64} {o : Offer}
    (ho : (after s id n offer m g accounts).offers.find i = some o) (hgameid : o.gameid ≠ 0) :
    ∃ g', (after s id n offer m g accounts).games.find o.gameid = some g' := by
  rcases find_joined ho with ⟨-, rfl⟩ | ⟨-, rfl⟩ | ⟨-, -, ho⟩
  · exact ⟨g, find_set_self _ _ _⟩
  · exact ⟨g, find_set_self _ _ _⟩
  · obtain ⟨g', hg'⟩ := hs.matched i o ho hgameid
    exact ⟨g', (find_set_of_ne _ (h.fresh hs hg') _).trans hg'⟩

theorem commitments (h : Meets s id n offer m) (hs : Sound s) {i j : UInt64} {o o' : Offer}
    (ho : (after s id n offer m g accounts).offers.find i = some o)
    (ho' : (after s id n offer m g accounts).offers.find j = some o')
    (heq : o.commitment = o'.commitment) : i = j := by
  have hne : offer.commitment ≠ m.2.commitment := fun heq => h.new m.1 m.2 h.found heq.symm
  rcases find_joined ho with ⟨rfl, rfl⟩ | ⟨rfl, rfl⟩ | ⟨-, hi, hfind⟩ <;>
    rcases find_joined ho' with ⟨rfl, rfl⟩ | ⟨rfl, rfl⟩ | ⟨-, hj, hfind'⟩
  · rfl
  · exact absurd heq hne
  · exact absurd heq.symm (h.new j o' hfind')
  · exact absurd heq.symm hne
  · rfl
  · exact absurd (hs.commitments _ _ _ _ h.found hfind' heq).symm hj
  · exact absurd heq (h.new i o hfind)
  · exact absurd (hs.commitments _ _ _ _ hfind h.found heq) hi
  · exact hs.commitments i j o o' hfind hfind' heq

/-- Two offers that meet become the two sides of the next game, which takes both bets. -/
theorem sound (h : Meets s id n offer m) (hs : Sound s) (hbet : g.bet = offer.bet)
    (hplayer1 : g.player1.commitment = m.2.commitment)
    (hplayer2 : g.player2.commitment = offer.commitment)
    {mid : OrderedTable AccountName Account}
    (hother : Credited s.accounts mid m.2.owner (0, -1, 1))
    (hc : Credited mid accounts offer.owner (-offer.bet.units, 0, 1)) :
    Sound (after s id n offer m g accounts) ∧ (after s id n offer m g accounts).owed = s.owed := by
  refine ⟨{
    accounts := hc.ok (hother.ok hs.accounts)
    offers := fun _ _ ho => h.offers_ok hs ho
    games := fun _ _ hg => h.games_ok hs hbet hplayer1 hplayer2 hg
    matched := fun _ _ ho hgameid => h.matched hs ho hgameid
    commitments := fun _ _ _ _ ho ho' heq => h.commitments hs ho ho' heq
    counters := fun q => ?_ }, ?_⟩
  · have hsum := sum_joined (x := offer.joined n) (y := m.2.joined n) h.free h.found
      fun o => o.counted q
    show ((accounts.find q).elim 0 Account.value).2 = (((s.offers.set m.1 (m.2.joined n)).set id
      (offer.joined n)).sum fun _ o => o.counted q)
    rw [hc.counters q, hother.counters q, hsum, ← hs.counters q, State.held,
      counted_joined _ h.next_ne, counted_joined _ h.next_ne, Offer.counted,
      if_pos (h.matched_open hs)]
    simp only [eq_comm (a := q)]
    rw [add_assoc, add_assoc]
    congr 1
    split <;> split <;> simp
  · have hnone : s.games.find n = none := by
      cases hfind : s.games.find n with
      | none => rfl
      | some g' => exact absurd rfl (h.fresh hs hfind)
    have hgames := sum_set_sub s.games n g fun _ g => g.bet.units
    rw [hnone, Option.elim_none, sub_zero, hbet] at hgames
    have hoffers := sum_joined (x := offer.joined n) (y := m.2.joined n) h.free h.found
      fun o => o.bet.units
    have hzero : ∀ o : Offer, (o.joined n).bet.units = 0 := fun _ => rfl
    rw [hzero, hzero, h.bet] at hoffers
    have haccounts := hc.units.trans (congrArg (· + _) hother.units)
    simp only [State.owed, after]
    rw [haccounts, hoffers, hgames]
    omega

end Meets

end Xidata.Dice
