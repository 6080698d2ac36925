import Xidata.Appcode.Ledgers

/-!
What the tables of the egg game would have to satisfy to refer to each other
soundly, and on which actions that depends: the contract itself checks none of
it.
-/

namespace Xidata.Appcode

open Eosiolib Rollback

/-- The rows of a table, as a reader unpacks them. -/
def rowsOf {T : Type} (d : Schema NoIndex T) (table : Table) : List T :=
  table.rows.filterMap fun p => (d.serial.unpack p.2).toOption

namespace Egggame

def games (t : Egggame) : List Game := rowsOf Appcode.game t.game

def bets (t : Egggame) : List Betinfo := rowsOf Appcode.betinfo t.betinfo

def settlements (t : Egggame) : List Settledata := rowsOf Appcode.settledata t.settledata

end Egggame

/-- There is a game with the id. -/
def Refers (games : List Game) (gameid : UInt64) : Prop := ∃ g ∈ games, g.gameid.toUInt64 = gameid

/-- There is a bet on the game with the key. -/
def HasBet (bets : List Betinfo) (gameid : UInt64) (publickey : StdString) : Prop :=
  ∃ b ∈ bets, b.gameid = gameid ∧ b.publickey = publickey

/-- Ids of games are unique, bets and settlements refer to games, and settlements
to bets. -/
structure Sound (t : Egggame) : Prop where
  unique : (t.games.map Game.gameid).Nodup
  bets : ∀ b ∈ t.bets, Refers t.games b.gameid
  settlements : ∀ r ∈ t.settlements, Refers t.games r.gameid.toUInt64
  matched : ∀ r ∈ t.settlements, HasBet t.bets r.gameid.toUInt64 r.publickey

/-- A call keeps to the records: a game that is created has a new id, a bet is
on a game that is there, a settlement settles a bet. -/
structure Proper (t : Egggame) (c : Call) : Prop where
  create : ∀ a, c.args (N "egggame") (N "create") CreateArgs.serial = some a →
    ∀ g ∈ t.games, g.gameid ≠ a.gameid
  bet : ∀ a, c.args (N "egggame") (N "bet") BetArgs.serial = some a →
    Refers t.games a.gameid.toUInt64
  settlement : ∀ a, c.args (N "egggame") (N "settlement") BetArgs.serial = some a →
    Refers t.games a.gameid.toUInt64 ∧ HasBet t.bets a.gameid.toUInt64 a.publickey

theorem proper_iff {t : Egggame} {c : Call} : Proper t c ↔
    (∀ a ∈ c.args (N "egggame") (N "create") CreateArgs.serial, ∀ g ∈ t.games, g.gameid ≠ a.gameid) ∧
    (∀ a ∈ c.args (N "egggame") (N "bet") BetArgs.serial, Refers t.games a.gameid.toUInt64) ∧
    ∀ a ∈ c.args (N "egggame") (N "settlement") BetArgs.serial,
      Refers t.games a.gameid.toUInt64 ∧ HasBet t.bets a.gameid.toUInt64 a.publickey :=
  ⟨fun h => ⟨h.create, h.bet, h.settlement⟩, fun h => ⟨h.1, h.2.1, h.2.2⟩⟩

/-! ### One call -/

section Rows

variable {T A : Type} {d : Schema NoIndex T} {row : A → UInt64 → T} {table table' : Table} {l : List A}

theorem Logged.rowsOf (h : Logged d row table l) :
    rowsOf d table = l.mapIdx fun i x => row x i.toUInt64 := by
  obtain ⟨-, a, rfl, hrows⟩ := h
  show (a.table.rows.map _).filterMap _ = _
  rw [List.filterMap_map, hrows, List.mapIdx_eq_zipIdx_map, List.filterMap_map,
    List.mapIdx_eq_zipIdx_map, ← List.filterMap_eq_map]
  refine List.filterMap_congr fun p _ => ?_
  show (d.serial.unpack (d.serial.encode (row p.1 p.2.toUInt64))).toOption = _
  rw [d.serial.unpack_encode]
  rfl

/-- A recorded row is read behind the others. -/
theorem Logged.rowsOf_effect (h : Logged d row table l) (hid : ∀ x id, d.primaryKey (row x id) = id)
    {self : AccountName} {o : Option A} (heff : Effect d row self table table' o) :
    Appcode.rowsOf d table' =
      Appcode.rowsOf d table ++ (o.map fun x => row x l.length.toUInt64).toList := by
  rw [(h.effect hid heff).1.rowsOf, h.rowsOf]
  cases o with
  | none => exact (congrArg _ (List.append_nil l)).trans (List.append_nil _).symm
  | some x => exact List.mapIdx_concat

end Rows

theorem Refers.mono {games games' : List Game} {gameid : UInt64} (h : Refers games gameid) :
    Refers (games ++ games') gameid := by
  obtain ⟨g, hg, heq⟩ := h
  exact ⟨g, List.mem_append_left _ hg, heq⟩

theorem HasBet.mono {bets bets' : List Betinfo} {gameid : UInt64} {publickey : StdString}
    (h : HasBet bets gameid publickey) : HasBet (bets ++ bets') gameid publickey := by
  obtain ⟨b, hb, heq⟩ := h
  exact ⟨b, List.mem_append_left _ hb, heq⟩

/-- The arguments of a call are those of one action. -/
theorem Call.args_unique {A B : Type} {c : Call} {contract action action' : AccountName}
    {s : Serial A} {s' : Serial B} {a : A} (h : c.args contract action s = some a)
    (hne : action ≠ action') : c.args contract action' s' = none := by
  refine Call.args_none s' fun hreceiver hcode haction => ?_
  rw [Call.args_none s fun _ _ heq => hne (heq.symm.trans haction)] at h
  cases h

/-- What one call adds to the records. -/
structure Adds (t t' : Egggame) (i j k : UInt64) (create : Option CreateArgs)
    (bet settlement : Option BetArgs) : Prop where
  games : t'.games = t.games ++ (create.map fun a => a.row i).toList
  bets : t'.bets = t.bets ++ (bet.map fun a => a.betRow j).toList
  settlements : t'.settlements = t.settlements ++ (settlement.map fun a => a.settleRow k).toList

theorem adds_of_step {s s' : Ledgers} {cs : List Call} {c : Call} (h : AllLogged s cs)
    (hs : step s c = .ok s') : ∃ i j k, Adds s.egggame s'.egggame i j k
      (c.args (N "egggame") (N "create") CreateArgs.serial)
      (c.args (N "egggame") (N "bet") BetArgs.serial)
      (c.args (N "egggame") (N "settlement") BetArgs.serial) := by
  have heff := step_effects hs
  exact ⟨_, _, _, h.game.rowsOf_effect (fun _ _ => rfl) heff.game,
    h.betinfo.rowsOf_effect (fun _ _ => rfl) heff.betinfo,
    h.settledata.rowsOf_effect (fun _ _ => rfl) heff.settledata⟩

section Adds

variable {t t' : Egggame} {i j k : UInt64}

theorem Adds.sound_create {a : CreateArgs} (h : Adds t t' i j k (some a) none none) (ht : Sound t) :
    Sound t' ↔ ∀ g ∈ t.games, g.gameid ≠ a.gameid := by
  have hgames : t'.games = t.games ++ [a.row i] := h.games
  have hbets : t'.bets = t.bets := h.bets.trans (List.append_nil _)
  have hsettlements : t'.settlements = t.settlements := h.settlements.trans (List.append_nil _)
  have hunique : (t'.games.map Game.gameid).Nodup ↔ ∀ g ∈ t.games, g.gameid ≠ a.gameid := by
    rw [hgames, List.map_append, List.nodup_append]
    simp only [ht.unique, List.map_cons, List.map_nil, List.nodup_singleton, true_and,
      List.mem_singleton, List.mem_map]
    constructor
    · intro hnew g hg
      exact hnew _ ⟨g, hg, rfl⟩ _ rfl
    · rintro hnew _ ⟨g, hg, rfl⟩ _ rfl
      exact hnew g hg
  refine ⟨fun h' => hunique.mp h'.unique, fun hnew => ⟨hunique.mpr hnew, ?_, ?_, ?_⟩⟩
  · rw [hbets, hgames]
    exact fun b hb => (ht.bets b hb).mono
  · rw [hsettlements, hgames]
    exact fun r hr => (ht.settlements r hr).mono
  · rw [hsettlements, hbets]
    exact ht.matched

theorem Adds.sound_bet {a : BetArgs} (h : Adds t t' i j k none (some a) none) (ht : Sound t) :
    Sound t' ↔ Refers t.games a.gameid.toUInt64 := by
  have hgames : t'.games = t.games := h.games.trans (List.append_nil _)
  have hbets : t'.bets = t.bets ++ [a.betRow j] := h.bets
  have hsettlements : t'.settlements = t.settlements := h.settlements.trans (List.append_nil _)
  refine ⟨fun h' => ?_, fun hrefers => ⟨?_, ?_, ?_, ?_⟩⟩
  · have hlast := h'.bets (a.betRow j) (by rw [hbets]; exact List.mem_concat_self)
    rwa [hgames] at hlast
  · rw [hgames]
    exact ht.unique
  · rw [hbets, hgames]
    intro b hb
    rcases List.mem_append.mp hb with hb | hb
    · exact ht.bets b hb
    · rw [List.mem_singleton.mp hb]
      exact hrefers
  · rw [hsettlements, hgames]
    exact ht.settlements
  · rw [hsettlements, hbets]
    exact fun r hr => (ht.matched r hr).mono

theorem Adds.sound_settlement {a : BetArgs} (h : Adds t t' i j k none none (some a)) (ht : Sound t) :
    Sound t' ↔ Refers t.games a.gameid.toUInt64 ∧ HasBet t.bets a.gameid.toUInt64 a.publickey := by
  have hgames : t'.games = t.games := h.games.trans (List.append_nil _)
  have hbets : t'.bets = t.bets := h.bets.trans (List.append_nil _)
  have hsettlements : t'.settlements = t.settlements ++ [a.settleRow k] := h.settlements
  refine ⟨fun h' => ?_, fun hrefers => ⟨?_, ?_, ?_, ?_⟩⟩
  · have hmem : a.settleRow k ∈ t'.settlements := by
      rw [hsettlements]
      exact List.mem_concat_self
    have hgame := h'.settlements _ hmem
    have hbet := h'.matched _ hmem
    rw [hgames] at hgame
    rw [hbets] at hbet
    exact ⟨hgame, hbet⟩
  · rw [hgames]
    exact ht.unique
  · rw [hbets, hgames]
    exact ht.bets
  · rw [hsettlements, hgames]
    intro r hr
    rcases List.mem_append.mp hr with hr | hr
    · exact ht.settlements r hr
    · rw [List.mem_singleton.mp hr]
      exact hrefers.1
  · rw [hsettlements, hbets]
    intro r hr
    rcases List.mem_append.mp hr with hr | hr
    · exact ht.matched r hr
    · rw [List.mem_singleton.mp hr]
      exact hrefers.2

theorem Adds.sound_none (h : Adds t t' i j k none none none) (ht : Sound t) : Sound t' := by
  have hgames : t'.games = t.games := h.games.trans (List.append_nil _)
  have hbets : t'.bets = t.bets := h.bets.trans (List.append_nil _)
  have hsettlements : t'.settlements = t.settlements := h.settlements.trans (List.append_nil _)
  refine ⟨?_, ?_, ?_, ?_⟩
  · rw [hgames]
    exact ht.unique
  · rw [hbets, hgames]
    exact ht.bets
  · rw [hsettlements, hgames]
    exact ht.settlements
  · rw [hsettlements, hbets]
    exact ht.matched

end Adds

/-- A call keeps sound records sound exactly when it is proper. -/
theorem sound_step_iff {s s' : Ledgers} {cs : List Call} {c : Call} (hlogged : AllLogged s cs)
    (hs : step s c = .ok s') (h : Sound s.egggame) : Sound s'.egggame ↔ Proper s.egggame c := by
  have hcb : N "create" ≠ N "bet" := by decide +kernel
  have hcs : N "create" ≠ N "settlement" := by decide +kernel
  have hbs : N "bet" ≠ N "settlement" := by decide +kernel
  obtain ⟨i, j, k, hadds⟩ := adds_of_step hlogged hs
  rw [proper_iff]
  cases hcreate : c.args (N "egggame") (N "create") CreateArgs.serial with
  | some a =>
      have hbet : c.args (N "egggame") (N "bet") BetArgs.serial = none := Call.args_unique hcreate hcb
      have hsettle : c.args (N "egggame") (N "settlement") BetArgs.serial = none :=
        Call.args_unique hcreate hcs
      rw [hcreate, hbet, hsettle] at hadds
      rw [hadds.sound_create h, hbet, hsettle]
      simp
  | none =>
      cases hbet : c.args (N "egggame") (N "bet") BetArgs.serial with
      | some a =>
          have hsettle : c.args (N "egggame") (N "settlement") BetArgs.serial = none :=
            Call.args_unique hbet hbs
          rw [hcreate, hbet, hsettle] at hadds
          rw [hadds.sound_bet h, hsettle]
          simp
      | none =>
          cases hsettle : c.args (N "egggame") (N "settlement") BetArgs.serial with
          | some a =>
              rw [hcreate, hbet, hsettle] at hadds
              rw [hadds.sound_settlement h]
              simp
          | none =>
              rw [hcreate, hbet, hsettle] at hadds
              simp [hadds.sound_none h]

/-! ### Runs -/

theorem sound_trace_iff (cs : List Call) : ∀ {s : Ledgers} {ds : List Call}, AllLogged s ds →
    Sound s.egggame → ((∀ s' ∈ trace step s cs, Sound s'.egggame) ↔
      Along step (fun s c _ => Proper s.egggame c) s cs) := by
  induction cs with
  | nil =>
      intro s ds _ h
      refine iff_of_true (fun s' hs' => ?_) trivial
      rw [List.mem_singleton.mp hs']
      exact h
  | cons c cs ih =>
      intro s ds hlogged h
      rw [trace, List.forall_mem_cons, and_iff_right h, Along]
      cases hs : step s c with
      | ok s' =>
          rw [push_ok hs]
          have hlogged' := (allLogged_step hlogged hs).1
          have hiff := sound_step_iff hlogged hs h
          constructor
          · intro hall
            have hsound := hall s' (mem_trace_self s' cs)
            refine ⟨fun _ _ => hiff.mp hsound, (ih hlogged' hsound).mp hall⟩
          · rintro ⟨hproper, hrest⟩
            exact (ih hlogged' (hiff.mpr (hproper s' rfl))).mpr hrest
      | error e =>
          rw [push_error hs, ih hlogged h]
          exact ⟨fun hrest => ⟨fun s' hs' => (by cases hs'), hrest⟩, And.right⟩

theorem sound_init : Sound {} :=
  ⟨List.nodup_nil, fun _ hb => absurd hb List.not_mem_nil, fun _ hr => absurd hr List.not_mem_nil,
    fun _ hr => absurd hr List.not_mem_nil⟩

/-- The records are sound in all states of a run exactly when every accepted
action of the run keeps to them. -/
theorem game_records_sound_iff (cs : List Call) :
    (∀ s ∈ trace step {} cs, Sound s.egggame) ↔
      Along step (fun s c _ => Proper s.egggame c) {} cs :=
  sound_trace_iff cs allLogged_nil sound_init

/-- A game with the id one, created by `a`. -/
def createOne : Call where
  receiver := N "egggame"
  code := N "egggame"
  action := N "create"
  data := [1, 0, 0, 0, 1, 97, 0, 0]
  auth := [N "egggame"]

theorem created_twice : ¬ Sound (run step {} [createOne, createOne]).egggame := fun h =>
  absurd h.unique (by decide +kernel)

end Xidata.Appcode
