import Xidata.Dice.Solvency

/-!
Who wins a game of dice.  The rules give the game to the player that a hash over
both commitments and secrets selects, and to the one who has revealed if the other
has not.  The contract takes a secret of zeros for no secret, and hashes a game
that lacks the secret revealed last, so that it follows the rules for some pairs of
secrets only.
-/

namespace Xidata.Dice

open Eosiolib Rollback OrderedTable

variable {s s' : State} {c : Ctx} {env : Env} {gameid : UInt64} {g : Game}
  {q r winner loser : UInt64 × Offer}

/-! ### A game is settled -/

/-- Both bets of the game go to `p`, and nobody else gets or loses anything. -/
def Pays (s s' : State) (g : Game) (p : AccountName) : Prop :=
  ∀ a, (s'.held a).1 = (s.held a).1 + if a = p then 2 * g.bet.units else 0

theorem Pays.unique {p p' : AccountName} (hpos : 0 < g.bet.units) (h : Pays s s' g p)
    (h' : Pays s s' g p') : p = p' := by
  by_contra hne
  have hp := h p
  have hp' := h' p
  rw [if_pos rfl] at hp
  rw [if_neg hne] at hp'
  omega

theorem payAndClean_pays (hs : Sound s) (hg : s.games.find gameid = some g)
    (hsides : Sides s gameid g winner loser) (h : payAndClean s gameid g winner loser = .ok s') :
    Pays s s' g winner.2.owner ∧ s'.games.find gameid = none := by
  obtain ⟨mid, accounts, hw, hl, rfl⟩ := payAndClean_settles hs hg hsides h
  refine ⟨fun a => ?_, find_erase_self _ _⟩
  show ((accounts.find a).elim 0 Account.value).1 = ((s.accounts.find a).elim 0 Account.value).1 + _
  rw [hl.adjusted.value, hw.adjusted.value]
  by_cases hwinner : a = winner.2.owner
  · subst hwinner
    rw [if_pos rfl, if_pos rfl, if_neg hsides.owners]
    exact add_zero _
  · rw [if_neg hwinner, if_neg hwinner, add_zero]
    split <;> rfl

/-- Other games do not notice what happens to a game. -/
theorem Handles.other (hs : Sound s) (hg : s.games.find gameid = some g)
    (h : Handles s gameid g s') {id : UInt64} (hid : id ≠ gameid) :
    s'.games.find id = s.games.find id ∧ ∀ g' q r, Pair s id g' q r → Pair s' id g' q r := by
  cases h with
  | stores _ _ _ =>
      exact ⟨find_set_of_ne _ hid _, fun g' q r hpair => hpair.frame fun _ _ _ => Iff.rfl⟩
  | settles hsides hpay =>
      obtain ⟨mid, accounts, -, -, rfl⟩ := payAndClean_settles hs hg hsides hpay
      refine ⟨find_erase_of_ne _ hid, fun g' q r hpair => hpair.frame fun i o ho => ?_⟩
      refine (find_erase_iff (fun x hx => ?_) ho).trans (find_erase_iff (fun x hx => ?_) ho)
      · rw [find_erase_of_ne _ hsides.id_ne, hsides.symm.found.1] at hx
        obtain rfl := Option.some.inj hx
        exact hsides.symm.found.2 ▸ Ne.symm hid
      · obtain rfl := Option.some.inj (hsides.found.1.symm.trans hx)
        exact hsides.found.2 ▸ Ne.symm hid

/-- The event reveals the secret of a commitment. -/
def Event.reveals (e : Event) (commitment : Checksum256) : Prop :=
  ∃ source, e.call = .dice (.reveal commitment source)

def Event.claims (e : Event) (gameid : UInt64) : Prop := e.call = .dice (.claimexpired gameid)

def Revealed (h : List Event) (commitment : Checksum256) : Prop := ∃ e ∈ h, e.reveals commitment

/-- A claim, or a reveal, which has the right secret if it is about the game. -/
def InGame (g : Game) (secret1 secret2 : Checksum256) (e : Event) : Prop :=
  match e.call with
  | .dice (.reveal commitment source) =>
      (commitment = g.player1.commitment → source = secret1) ∧
        (commitment = g.player2.commitment → source = secret2)
  | .dice (.claimexpired _) => True
  | _ => False

/-- The game with other values for what changes in it. -/
def Game.known (g : Game) (reveal1 reveal2 : Checksum256) (deadline : UInt32) : Game :=
  { g with
    player1 := { g.player1 with reveal := reveal1 }
    player2 := { g.player2 with reveal := reveal2 }
    deadline }

/-- The event `e`, which settles the game after the events `h` were accepted, does so by
the rules, `winner` being the player that the secrets select. -/
structure ByRules (gameid : UInt64) (g : Game) (player1 player2 winner : AccountName)
    (h : List Event) (e : Event) (s s' : State) : Prop where
  both : Revealed (h ++ [e]) g.player1.commitment → Revealed (h ++ [e]) g.player2.commitment →
    Pays s s' g winner
  claim : e.claims gameid →
    (Revealed h g.player1.commitment ∧ ¬ Revealed h g.player2.commitment ∧ Pays s s' g player1) ∨
      (Revealed h g.player2.commitment ∧ ¬ Revealed h g.player1.commitment ∧ Pays s s' g player2)

/-- In every order of reveals and claims, by whomever, the game is settled by the rules. -/
def SettledByRules (env : Env) (s : Chain) (gameid : UInt64) (g : Game)
    (player1 player2 winner : AccountName) (secret1 secret2 : Checksum256) : Prop :=
  ∀ (es : List Event) (e : Event) (s' : Chain),
    (∀ x ∈ es ++ [e], InGame g secret1 secret2 x) → step env (run (step env) s es) e = .ok s' →
    (run (step env) s es).dice.games.find gameid ≠ none → s'.dice.games.find gameid = none →
    ByRules gameid g player1 player2 winner (accepted (step env) s es) e
      (run (step env) s es).dice s'.dice

variable {secret1 secret2 : Checksum256} {h : List Event} {e : Event}

theorem Pair.known (hpair : Pair s gameid g q r) (reveal1 reveal2 : Checksum256)
    (deadline : UInt32) : Pair s gameid (g.known reveal1 reveal2 deadline) q r :=
  ⟨hpair.first_found, hpair.second_found, hpair.first_gameid, hpair.second_gameid,
    hpair.first_commitment, hpair.second_commitment, hpair.owners, hpair.only⟩

theorem revealed_append {commitment : Checksum256} :
    Revealed (h ++ [e]) commitment ↔ Revealed h commitment ∨ e.reveals commitment := by
  simp only [Revealed, List.mem_append, List.mem_singleton, or_and_right, exists_or,
    exists_eq_left]

/-- What is stored of a secret. -/
def Stored (h : List Event) (commitment secret reveal : Checksum256) : Prop :=
  (Revealed h commitment ∧ reveal = secret) ∨ (¬ Revealed h commitment ∧ reveal = .zero)

theorem Stored.skip {commitment secret reveal : Checksum256}
    (hstored : Stored h commitment secret reveal) (he : ¬ e.reveals commitment) :
    Stored (h ++ [e]) commitment secret reveal := by
  rw [Stored, revealed_append, or_iff_left he]
  exact hstored

theorem Stored.revealed {commitment secret reveal : Checksum256}
    (hstored : Stored h commitment secret reveal) (hne : reveal ≠ .zero) :
    Revealed h commitment ∧ reveal = secret :=
  hstored.resolve_right fun hzero => hne hzero.2

theorem Stored.not_revealed {commitment secret reveal : Checksum256}
    (hstored : Stored h commitment secret reveal) (hzero : reveal = .zero)
    (hsecret : secret ≠ .zero) : ¬ Revealed h commitment := fun hrevealed => by
  rcases hstored with ⟨-, heq⟩ | ⟨hnot, -⟩
  · exact hsecret (heq.symm.trans hzero)
  · exact hnot hrevealed

/-- The game is running, and what was revealed is stored in it. -/
structure Open (s : State) (gameid : UInt64) (g : Game) (q r : UInt64 × Offer)
    (secret1 secret2 : Checksum256) (h : List Event) : Prop where
  pair : Pair s gameid g q r
  game : ∃ reveal1 reveal2 deadline,
    s.games.find gameid = some (g.known reveal1 reveal2 deadline) ∧
    Stored h g.player1.commitment secret1 reveal1 ∧
    Stored h g.player2.commitment secret2 reveal2 ∧
    (reveal1 = .zero → reveal2 = .zero → deadline = 0)

theorem Open.skip (hopen : Open s gameid g q r secret1 secret2 h)
    (hgame : s'.games.find gameid = s.games.find gameid) (hpair : Pair s' gameid g q r)
    (hfirst : ¬ e.reveals g.player1.commitment) (hsecond : ¬ e.reveals g.player2.commitment) :
    Open s' gameid g q r secret1 secret2 (h ++ [e]) := by
  obtain ⟨reveal1, reveal2, deadline, hg, hstored1, hstored2, hdeadline⟩ := hopen.game
  exact ⟨hpair, reveal1, reveal2, deadline, hgame.trans hg, hstored1.skip hfirst,
    hstored2.skip hsecond, hdeadline⟩

theorem InGame.allowed {s s' : Chain} (he : InGame g secret1 secret2 e) :
    Untouched env s e s' ∧ Fits s e := by
  rw [InGame] at he
  rw [Untouched, Fits]
  cases hcall : e.call with
  | token action =>
      rw [hcall] at he
      exact he.elim
  | dice action =>
      refine ⟨trivial, ?_⟩
      cases action with
      | offerbet bet player commitment =>
          rw [hcall] at he
          exact he.elim
      | _ => trivial

/-! ### One more event -/

/-- The winner that the two hashes agree on, if they do: each is of the game without the
secret that is revealed last, and selects the last revealer or the other one. -/
def Agrees (env : Env) (g : Game) (secret1 secret2 : Checksum256) : Prop :=
  (env.sha256 (g.known .zero secret2 0).players).winner ≠
    (env.sha256 (g.known secret1 .zero 0).players).winner

/-- The player that the hash without the first secret selects. -/
def selected (env : Env) (g : Game) (secret2 : Checksum256) (player1 player2 : AccountName) :
    AccountName :=
  if (env.sha256 (g.known .zero secret2 0).players).winner then player1 else player2

/-- What an event does to the game: it settles it by the rules, or it leaves it running. -/
def Follows (env : Env) (gameid : UInt64) (g : Game) (q r : UInt64 × Offer)
    (secret1 secret2 : Checksum256) (h : List Event) (e : Event) (s s' : State) : Prop :=
  (s'.games.find gameid = none ∧ ByRules gameid g q.2.owner r.2.owner
      (selected env g secret2 q.2.owner r.2.owner) h e s s') ∨
    Open s' gameid g q r secret1 secret2 (h ++ [e])

theorem not_reveals {commitment commitment' source : Checksum256}
    (hcall : e.call = .dice (.reveal commitment source)) (hne : commitment ≠ commitment') :
    ¬ e.reveals commitment' := fun ⟨_, heq⟩ => by
  rw [hcall] at heq
  cases heq
  exact hne rfl

theorem not_claims {commitment source : Checksum256}
    (hcall : e.call = .dice (.reveal commitment source)) : ¬ e.claims gameid := fun heq => by
  rw [Event.claims, hcall] at heq
  cases heq

theorem Open.reveal_first {source : Checksum256} (hs : Sound s)
    (hopen : Open s gameid g q r secret1 secret2 h) (hone : secret1 ≠ .zero)
    (hcall : e.call = .dice (.reveal g.player1.commitment source)) (hsource : source = secret1)
    (hok : reveal env c s g.player1.commitment source = .ok s') :
    Follows env gameid g q r secret1 secret2 h e s s' := by
  subst hsource
  obtain ⟨reveal1, reveal2, deadline, hg, hstored1, hstored2, -⟩ := hopen.game
  have hpair := hopen.pair.known reveal1 reveal2 deadline
  have hne := hopen.pair.commitments_ne hs
  obtain ⟨-, hzero, hcases⟩ := (reveal_first_eq_ok hs hg hpair).mp hok
  have hzero : reveal1 = .zero := hzero
  subst hzero
  rcases hcases with ⟨hprev, rfl⟩ | ⟨hprev, hpay⟩
  · have hreveals : e.reveals g.player1.commitment := ⟨source, hcall⟩
    refine .inr ⟨hopen.pair.frame fun _ _ _ => Iff.rfl, source, reveal2, _, find_set_self _ _ _,
      .inl ⟨revealed_append.mpr (.inr hreveals), rfl⟩, hstored2.skip (not_reveals hcall hne),
      fun hz => absurd hz hone⟩
  · obtain ⟨-, hsecret⟩ := hstored2.revealed hprev
    have hsides : Sides s gameid (g.known .zero reveal2 deadline) q r := .inl hpair
    have hpays : Pays s s' g (selected env g secret2 q.2.owner r.2.owner) ∧
        s'.games.find gameid = none := by
      subst hsecret
      rw [selected]
      split at hpay
      · rename_i hwinner
        have hwinner : (env.sha256 (g.known .zero reveal2 0).players).winner := hwinner
        have hpaid := payAndClean_pays hs hg hsides hpay
        rw [if_pos hwinner]
        exact hpaid
      · rename_i hwinner
        have hwinner : ¬ (env.sha256 (g.known .zero reveal2 0).players).winner := hwinner
        have hpaid := payAndClean_pays hs hg hsides.symm hpay
        rw [if_neg hwinner]
        exact hpaid
    exact .inl ⟨hpays.2, fun _ _ => hpays.1, fun hclaim => absurd hclaim (not_claims hcall)⟩

theorem Open.reveal_second {source : Checksum256} (hs : Sound s)
    (hopen : Open s gameid g q r secret1 secret2 h) (htwo : secret2 ≠ .zero)
    (hagrees : Agrees env g secret1 secret2)
    (hcall : e.call = .dice (.reveal g.player2.commitment source)) (hsource : source = secret2)
    (hok : reveal env c s g.player2.commitment source = .ok s') :
    Follows env gameid g q r secret1 secret2 h e s s' := by
  subst hsource
  obtain ⟨reveal1, reveal2, deadline, hg, hstored1, hstored2, -⟩ := hopen.game
  have hpair := hopen.pair.known reveal1 reveal2 deadline
  have hne := hopen.pair.commitments_ne hs
  obtain ⟨-, hzero, hcases⟩ := (reveal_second_eq_ok hs hg hpair).mp hok
  have hzero : reveal2 = .zero := hzero
  subst hzero
  rcases hcases with ⟨hprev, rfl⟩ | ⟨hprev, hpay⟩
  · have hreveals : e.reveals g.player2.commitment := ⟨source, hcall⟩
    refine .inr ⟨hopen.pair.frame fun _ _ _ => Iff.rfl, reveal1, source, _, find_set_self _ _ _,
      hstored1.skip (not_reveals hcall hne.symm),
      .inl ⟨revealed_append.mpr (.inr hreveals), rfl⟩, fun _ hz => absurd hz htwo⟩
  · obtain ⟨-, hsecret⟩ := hstored1.revealed hprev
    have hsides : Sides s gameid (g.known reveal1 .zero deadline) q r := .inl hpair
    have hpays : Pays s s' g (selected env g source q.2.owner r.2.owner) ∧
        s'.games.find gameid = none := by
      subst hsecret
      rw [selected]
      split at hpay
      · rename_i hwinner
        have hpaid := payAndClean_pays hs hg hsides.symm hpay
        rw [if_neg fun hboth => hagrees (hboth.trans (Eq.symm hwinner))]
        exact hpaid
      · rename_i hwinner
        have hpaid := payAndClean_pays hs hg hsides hpay
        rw [if_pos (Bool.of_not_eq_false fun hboth => hagrees (hboth.trans
          (Bool.of_not_eq_true hwinner).symm))]
        exact hpaid
    exact .inl ⟨hpays.2, fun _ _ => hpays.1, fun hclaim => absurd hclaim (not_claims hcall)⟩

theorem Open.claim (hs : Sound s) (hopen : Open s gameid g q r secret1 secret2 h)
    (hone : secret1 ≠ .zero) (htwo : secret2 ≠ .zero)
    (hcall : e.call = .dice (.claimexpired gameid)) (hok : claimexpired c s gameid = .ok s') :
    Follows env gameid g q r secret1 secret2 h e s s' := by
  obtain ⟨reveal1, reveal2, deadline, hg, hstored1, hstored2, hdeadline⟩ := hopen.game
  have hpair := hopen.pair.known reveal1 reveal2 deadline
  have hskip : ∀ commitment, Revealed (h ++ [e]) commitment → Revealed h commitment := by
    intro commitment hrevealed
    rcases revealed_append.mp hrevealed with hrevealed | ⟨_, heq⟩
    · exact hrevealed
    · rw [hcall] at heq
      cases heq
  obtain ⟨hne, -, ⟨hfirst, hsecond, hpay⟩ | ⟨hfirst, hpay⟩⟩ :=
    (claimexpired_eq_ok hs hg hpair).mp hok
  · obtain ⟨hpays, hnone⟩ := payAndClean_pays hs hg (.inl hpair) hpay
    have hrevealed := (hstored1.revealed hfirst).1
    have hnot := hstored2.not_revealed hsecond htwo
    exact .inl ⟨hnone, fun _ h => absurd (hskip _ h) hnot, fun _ => .inl ⟨hrevealed, hnot, hpays⟩⟩
  · obtain ⟨hpays, hnone⟩ := payAndClean_pays hs hg (.inr hpair) hpay
    have hnot := hstored1.not_revealed hfirst hone
    have hsecond : reveal2 ≠ .zero := fun hzero => hne (hdeadline hfirst hzero)
    have hrevealed := (hstored2.revealed hsecond).1
    exact .inl ⟨hnone, fun h => absurd (hskip _ h) hnot, fun _ => .inr ⟨hrevealed, hnot, hpays⟩⟩

/-- A secret of another game is not one of this game. -/
theorem Open.elsewhere {gameid' : UInt64} {g' : Game} {q' r' : UInt64 × Offer}
    {commitment source : Checksum256} (hs : Sound s)
    (hopen : Open s gameid g q r secret1 secret2 h) (hpair' : Pair s gameid' g' q' r')
    (hcommitment : commitment = g'.player1.commitment ∨ commitment = g'.player2.commitment)
    (hid : gameid' ≠ gameid) (hcall : e.call = .dice (.reveal commitment source)) :
    ¬ e.reveals g.player1.commitment ∧ ¬ e.reveals g.player2.commitment := by
  have hfind : ∃ x, s.findOffer commitment = some x ∧ x.2.gameid = gameid' := by
    rcases hcommitment with rfl | rfl
    · exact ⟨q', hpair'.findOffer_first hs, hpair'.first_gameid⟩
    · exact ⟨r', hpair'.findOffer_second hs, hpair'.second_gameid⟩
  obtain ⟨x, hx, hgameid⟩ := hfind
  refine ⟨not_reveals hcall fun heq => ?_, not_reveals hcall fun heq => ?_⟩
  · rw [heq, hopen.pair.findOffer_first hs] at hx
    obtain rfl := Option.some.inj hx
    exact hid (hgameid.symm.trans hopen.pair.first_gameid)
  · rw [heq, hopen.pair.findOffer_second hs] at hx
    obtain rfl := Option.some.inj hx
    exact hid (hgameid.symm.trans hopen.pair.second_gameid)

/-- An action that sends nothing. -/
theorem step_eq_ok {s s' : Chain} {a : Action} {x : Result State} (hcall : e.call = .dice a)
    (happly : apply env e.ctx s.dice a = (·, []) <$> x) :
    step env s e = .ok s' ↔ ∃ d, x = .ok d ∧ s' = ⟨s.token, d⟩ := by
  simp only [step, hcall, happly, bind_eq_ok, map_eq_ok, pure_eq_ok]
  constructor
  · rintro ⟨_, ⟨d, hd, rfl⟩, t, ht, rfl⟩
    rw [List.foldlM_nil, pure_eq_ok] at ht
    exact ⟨d, hd, ht ▸ rfl⟩
  · rintro ⟨d, hd, rfl⟩
    exact ⟨_, ⟨d, hd, rfl⟩, s.token, rfl, rfl⟩

/-- A reveal or a claim is about one game of the table. -/
theorem InGame.handles {s s' : Chain} (hs : Sound s.dice) (he : InGame g secret1 secret2 e)
    (hok : step env s e = .ok s') : ∃ gameid' g' d, s.dice.games.find gameid' = some g' ∧
      Handles s.dice gameid' g' d ∧ s' = ⟨s.token, d⟩ ∧
      ((e.call = .dice (.claimexpired gameid') ∧ claimexpired e.ctx s.dice gameid' = .ok d) ∨
        ∃ commitment source, e.call = .dice (.reveal commitment source) ∧
          (commitment = g.player1.commitment → source = secret1) ∧
          (commitment = g.player2.commitment → source = secret2) ∧
          reveal env e.ctx s.dice commitment source = .ok d ∧
          (commitment = g'.player1.commitment ∨ commitment = g'.player2.commitment)) := by
  rw [InGame] at he
  split at he
  · rename_i commitment source hcall
    obtain ⟨d, hd, rfl⟩ := (step_eq_ok hcall rfl).mp hok
    obtain ⟨gameid', g', q', r', hg', hpair', hcommitment⟩ := reveal_game hs hd
    exact ⟨gameid', g', d, hg', reveal_handles hs hg' hpair' hcommitment hd, rfl,
      .inr ⟨commitment, source, hcall, he.1, he.2, hd, hcommitment⟩⟩
  · rename_i gameid' hcall
    obtain ⟨d, hd, rfl⟩ := (step_eq_ok hcall rfl).mp hok
    obtain ⟨g', hg'⟩ := claimexpired_game hd
    exact ⟨gameid', g', d, hg', claimexpired_handles hs hg' hd, rfl, .inl ⟨hcall, hd⟩⟩
  · exact he.elim

theorem Open.step {s s' : Chain} (hs : Sound s.dice)
    (hopen : Open s.dice gameid g q r secret1 secret2 h) (he : InGame g secret1 secret2 e)
    (hone : secret1 ≠ .zero) (htwo : secret2 ≠ .zero) (hagrees : Agrees env g secret1 secret2)
    (hok : step env s e = .ok s') :
    Follows env gameid g q r secret1 secret2 h e s.dice s'.dice := by
  obtain ⟨gameid', g', d, hg', hhandles, rfl, hevent⟩ := he.handles hs hok
  by_cases hid : gameid' = gameid
  · subst hid
    obtain ⟨reveal1, reveal2, deadline, hg, -⟩ := hopen.game
    obtain rfl := Option.some.inj (hg.symm.trans hg')
    rcases hevent with ⟨hcall, hd⟩ | ⟨commitment, source, hcall, hfirst, hsecond, hd, rfl | rfl⟩
    · exact hopen.claim hs hone htwo hcall hd
    · exact hopen.reveal_first hs hone hcall (hfirst rfl) hd
    · exact hopen.reveal_second hs htwo hagrees hcall (hsecond rfl) hd
  · obtain ⟨hgame, hpair⟩ := hhandles.other hs hg' (Ne.symm hid)
    have hreveals : ¬ e.reveals g.player1.commitment ∧ ¬ e.reveals g.player2.commitment := by
      rcases hevent with ⟨hcall, -⟩ | ⟨commitment, source, hcall, -, -, -, hcommitment⟩
      · refine ⟨fun ⟨_, heq⟩ => ?_, fun ⟨_, heq⟩ => ?_⟩
        · rw [hcall] at heq
          cases heq
        · rw [hcall] at heq
          cases heq
      · obtain ⟨q', r', hpair'⟩ := (hs.games _ _ hg').pair
        exact hopen.elsewhere hs hpair' hcommitment hid hcall
    exact .inr (hopen.skip hgame (hpair _ _ _ hopen.pair) hreveals.1 hreveals.2)

def revealAtStart (commitment secret : Checksum256) : Event :=
  ⟨⟨[], 0, ∅⟩, [], .dice (.reveal commitment secret)⟩

structure Running (env : Env) (s : Chain) (gameid : UInt64) (g : Game) (q r : UInt64 × Offer)
    (reveal1 reveal2 : Checksum256) (deadline : UInt32) : Prop where
  inv : Inv env s
  game : s.dice.games.find gameid = some (g.known reveal1 reveal2 deadline)
  pair : Pair s.dice gameid g q r

variable {t : Chain} {reveal1 reveal2 : Checksum256} {deadline : UInt32}

/-- A secret that is not the last one is stored. -/
theorem Running.stores {commitment secret : Checksum256} {d : UInt32}
    (hrun : Running env t gameid g q r reveal1 reveal2 deadline) {reveal1' reveal2' : Checksum256}
    (hok : reveal env (revealAtStart commitment secret).ctx t.dice commitment secret = .ok
      { t.dice with games := t.dice.games.set gameid (g.known reveal1' reveal2' d) }) :
    ∃ t', step env t (revealAtStart commitment secret) = .ok t' ∧
      Running env t' gameid g q r reveal1' reveal2' d := by
  have hstep := (step_eq_ok (e := revealAtStart commitment secret) (s := t) rfl rfl).mpr
    ⟨_, hok, rfl⟩
  exact ⟨_, hstep, hrun.inv.step hstep trivial trivial, find_set_self _ _ _,
    hrun.pair.frame fun _ _ _ => Iff.rfl⟩

/-- What settles a running game, and whom it pays. -/
def Settles (env : Env) (t : Chain) (gameid : UInt64) (g : Game) (e : Event) (p : AccountName) :
    Prop :=
  ∃ t', step env t e = .ok t' ∧ t'.dice.games.find gameid = none ∧ Pays t.dice t'.dice g p

theorem inGame_first (hne : g.player1.commitment ≠ g.player2.commitment) :
    InGame g secret1 secret2 (revealAtStart g.player1.commitment secret1) :=
  ⟨fun _ => rfl, fun heq => absurd heq hne⟩

theorem inGame_second (hne : g.player1.commitment ≠ g.player2.commitment) :
    InGame g secret1 secret2 (revealAtStart g.player2.commitment secret2) :=
  ⟨fun heq => absurd heq.symm hne, fun _ => rfl⟩

/-- What the rules say of an event that settles a running game. -/
theorem SettledByRules.apply {winner : AccountName} {s t t' : Chain} (es : List Event)
    (hrules : SettledByRules env s gameid g q.2.owner r.2.owner winner secret1 secret2)
    (hes : ∀ x ∈ es ++ [e], InGame g secret1 secret2 x) (ht : run (step env) s es = t)
    (hrun : Running env t gameid g q r reveal1 reveal2 deadline)
    (hok : step env t e = .ok t') (hnone : t'.dice.games.find gameid = none) :
    ByRules gameid g q.2.owner r.2.owner winner (accepted (step env) s es) e t.dice t'.dice := by
  subst ht
  refine hrules es e t' hes hok (fun h => ?_) hnone
  rw [hrun.game] at h
  cases h

end Xidata.Dice
