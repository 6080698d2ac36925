import Xidata.Eosiolib.Refusal
import Xidata.Library.OrderedTable

/-!
The contract of the game tic-tac-toe.  A game is stored in the scope of its host with the
challenger as its key; the host marks cells with 1, the challenger with 2, and the winner is
looked for after every move.

Every game is played by the rules: the players take turns, and the one who is found to be the
winner is the one with three marks in a line.  A draw is never found, since the board counts as
full only while all of it is empty.
-/

namespace Xidata.TicTacToe

open Eosiolib

def boardWidth : ℕ := 3

/-- The cells row by row: 0 is an empty one. -/
abbrev Board := Vector UInt8 9

def initialBoard : Board := Vector.replicate 9 0

structure Game where
  challenger : AccountName
  host : AccountName
  turn : AccountName
  winner : AccountName := N "none"
  board : Board := initialBoard
  deriving DecidableEq

def Game.resetGame (g : Game) : Game :=
  { g with board := initialBoard, turn := g.host, winner := N "none" }

def isEmptyCell (cell : UInt8) : Bool := cell = 0

/-- The cell of a row and a column on the board. -/
def cellAt (row column : UInt16) : Option (Fin 9) :=
  if h : column.toNat < 3 ∧ row.toNat < 3 then some ⟨row.toNat * 3 + column.toNat, by omega⟩
  else none

def isValidMovement (row column : UInt16) (board : Board) : Bool :=
  (cellAt row column).any fun i => isEmptyCell board[i]

/-! ### The winner -/

/-- What the loop over the cells keeps. -/
structure Scan where
  isBoardFull : Bool := true
  consecutiveColumn : Vector UInt32 3 := Vector.replicate 3 3
  consecutiveRow : Vector UInt32 3 := Vector.replicate 3 3
  consecutiveDiagonalBackslash : UInt32 := 3
  consecutiveDiagonalSlash : UInt32 := 3

def Scan.cell (board : Board) (s : Scan) (i : Fin 9) : Scan :=
  let row : Fin 3 := ⟨i.val / 3, by omega⟩
  let column : Fin 3 := ⟨i.val % 3, by omega⟩
  let value := board[i].toUInt32
  -- Each cell is asked whether it is empty, not whether it is marked.
  { isBoardFull := s.isBoardFull && isEmptyCell board[i]
    consecutiveRow := s.consecutiveRow.set column (s.consecutiveRow[column] &&& value)
    consecutiveColumn := s.consecutiveColumn.set row (s.consecutiveColumn[row] &&& value)
    consecutiveDiagonalBackslash :=
      if row = column then s.consecutiveDiagonalBackslash &&& value
      else s.consecutiveDiagonalBackslash
    consecutiveDiagonalSlash :=
      if row.val + column.val = boardWidth - 1 then s.consecutiveDiagonalSlash &&& value
      else s.consecutiveDiagonalSlash }

def Scan.aggregate (s : Scan) : List UInt32 :=
  [s.consecutiveDiagonalBackslash, s.consecutiveDiagonalSlash] ++
    s.consecutiveColumn.toList ++ s.consecutiveRow.toList

def scan (board : Board) : Scan := (List.finRange 9).foldl (Scan.cell board) {}

def getWinner (currentGame : Game) : AccountName :=
  let s := scan currentGame.board
  match s.aggregate.find? fun value => value = 1 || value = 2 with
  | some value => if value = 1 then currentGame.host else currentGame.challenger
  | none => if s.isBoardFull then N "draw" else N "none"

/-! ### The actions -/

/-- The games, by the scope of the host and the key of the challenger. -/
abbrev Games := OrderedTable Scoped Game

inductive Action
  | create (challenger host : AccountName)
  | restart (challenger host by_ : AccountName)
  | close (challenger host : AccountName)
  | move (challenger host by_ : AccountName) (row column : UInt16)
  deriving DecidableEq

def create (auth : List AccountName) (t : Games) (challenger host : AccountName) :
    Checked Games := do
  demandAuth auth host
  check (challenger ≠ host) "challenger shouldn't be the same as host"
  check (t.find ⟨host, challenger⟩ = none) "game already exists"
  pure (t.set ⟨host, challenger⟩ { challenger, host, turn := host })

def restart (auth : List AccountName) (t : Games) (challenger host by_ : AccountName) :
    Checked Games := do
  demandAuth auth by_
  let g ← demandRow (t.find ⟨host, challenger⟩) "game doesn't exists"
  check (by_ = g.host ∨ by_ = g.challenger) "this is not your game!"
  pure (t.set ⟨host, challenger⟩ g.resetGame)

def close (auth : List AccountName) (t : Games) (challenger host : AccountName) :
    Checked Games := do
  demandAuth auth host
  let _ ← demandRow (t.find ⟨host, challenger⟩) "game doesn't exists"
  pure (t.erase ⟨host, challenger⟩)

/-- The change that a move makes: the mark, the other one's turn, and the winner. -/
def Game.play (g : Game) (i : Fin 9) : Game :=
  let cellValue : UInt8 := if g.turn = g.host then 1 else 2
  let turn := if g.turn = g.host then g.challenger else g.host
  let g := { g with board := g.board.set i cellValue, turn }
  { g with winner := getWinner g }

def move (auth : List AccountName) (t : Games) (challenger host by_ : AccountName)
    (row column : UInt16) : Checked Games := do
  demandAuth auth by_
  let g ← demandRow (t.find ⟨host, challenger⟩) "game doesn't exists"
  check (g.winner = N "none") "the game has ended!"
  check (by_ = g.host ∨ by_ = g.challenger) "this is not your game!"
  check (by_ = g.turn) "it's not your turn yet!"
  match cellAt row column with
  | some i => do
    check (isValidMovement row column g.board) "not a valid movement!"
    pure (t.set ⟨host, challenger⟩ (g.play i))
  | none => .error (.assertion "not a valid movement!")

/-- An action with the authorities that it carries. -/
structure Event where
  auth : List AccountName
  action : Action
  deriving DecidableEq

def step (t : Games) (e : Event) : Checked Games :=
  match e.action with
  | .create challenger host => create e.auth t challenger host
  | .restart challenger host by_ => restart e.auth t challenger host by_
  | .close challenger host => close e.auth t challenger host
  | .move challenger host by_ row column => move e.auth t challenger host by_ row column

/-! ### The rules -/

/-- The diagonals, the rows and the columns, in the order in which they are looked at. -/
def lines : List (Fin 9 × Fin 9 × Fin 9) :=
  [(0, 4, 8), (2, 4, 6), (0, 1, 2), (3, 4, 5), (6, 7, 8), (0, 3, 6), (1, 4, 7), (2, 5, 8)]

/-- Three marks of one player in a line. -/
def HasLine (b : Board) (mark : UInt8) : Prop :=
  ∃ l ∈ lines, b[l.1] = mark ∧ b[l.2.1] = mark ∧ b[l.2.2] = mark

/-- Cells with no mark or that of a player. -/
def Marked (b : Board) : Prop := ∀ i : Fin 9, b[i] = 0 ∨ b[i] = 1 ∨ b[i] = 2

/-- How many cells have the mark. -/
def marks (b : Board) (mark : UInt8) : ℕ := b.count mark

/-! ### The loop over the cells -/

def lineValue (b : Board) (l : Fin 9 × Fin 9 × Fin 9) : UInt32 :=
  3 &&& b[l.1].toUInt32 &&& b[l.2.1].toUInt32 &&& b[l.2.2].toUInt32

theorem aggregate_scan (b : Board) : (scan b).aggregate = lines.map (lineValue b) := rfl

/-- The board counts as full as long as every cell that has been seen is empty. -/
theorem isBoardFull_foldl (b : Board) (l : List (Fin 9)) (s : Scan) :
    (l.foldl (Scan.cell b) s).isBoardFull = (s.isBoardFull && l.all fun i => isEmptyCell b[i]) := by
  induction l generalizing s with
  | nil => simp
  | cons i l ih => rw [List.foldl_cons, ih, List.all_cons, ← Bool.and_assoc]; rfl

theorem isBoardFull_scan {b : Board} : (scan b).isBoardFull ↔ ∀ i : Fin 9, b[i] = 0 := by
  rw [scan, isBoardFull_foldl]
  simp [isEmptyCell]

/-- Marks in a line agree where their bits do. -/
theorem and_marks {a b c m : UInt8} (ha : a = 0 ∨ a = 1 ∨ a = 2) (hb : b = 0 ∨ b = 1 ∨ b = 2)
    (hc : c = 0 ∨ c = 1 ∨ c = 2) (hm : m = 1 ∨ m = 2) :
    3 &&& a.toUInt32 &&& b.toUInt32 &&& c.toUInt32 = m.toUInt32 ↔ a = m ∧ b = m ∧ c = m := by
  rcases ha with rfl | rfl | rfl <;> rcases hb with rfl | rfl | rfl <;>
    rcases hc with rfl | rfl | rfl <;> rcases hm with rfl | rfl <;> decide

theorem lineValue_eq {b : Board} (hb : Marked b) {m : UInt8} (hm : m = 1 ∨ m = 2)
    (l : Fin 9 × Fin 9 × Fin 9) :
    lineValue b l = m.toUInt32 ↔ b[l.1] = m ∧ b[l.2.1] = m ∧ b[l.2.2] = m :=
  and_marks (hb l.1) (hb l.2.1) (hb l.2.2) hm

/-- The winner that is found has a line; where no one has, and a cell is marked, there is none. -/
theorem getWinner_cases {g : Game} (hb : Marked g.board) :
    HasLine g.board 1 ∧ getWinner g = g.host ∨ HasLine g.board 2 ∧ getWinner g = g.challenger ∨
      ¬ HasLine g.board 1 ∧ ¬ HasLine g.board 2 ∧
        ((∃ i : Fin 9, g.board[i] ≠ 0) → getWinner g = N "none") := by
  simp only [getWinner, aggregate_scan]
  cases hfind : (lines.map (lineValue g.board)).find? fun value => value = 1 || value = 2 with
  | some value =>
      obtain ⟨l, hl, rfl⟩ := List.mem_map.mp (List.mem_of_find?_eq_some hfind)
      have hvalue := List.find?_some hfind
      simp only [Bool.or_eq_true, decide_eq_true_eq] at hvalue
      obtain hone | htwo := hvalue
      · exact .inl ⟨⟨l, hl, (lineValue_eq hb (.inl rfl) l).mp hone⟩, by simp [hone]⟩
      · exact .inr (.inl ⟨⟨l, hl, (lineValue_eq hb (.inr rfl) l).mp htwo⟩, by simp [htwo]⟩)
  | none =>
      have hnone : ∀ l ∈ lines, lineValue g.board l ≠ 1 ∧ lineValue g.board l ≠ 2 := by
        intro l hl
        have hvalue := List.find?_eq_none.mp hfind _ (List.mem_map_of_mem hl)
        simpa using hvalue
      refine .inr (.inr ⟨?_, ?_, ?_⟩)
      · rintro ⟨l, hl, hline⟩
        exact (hnone l hl).1 ((lineValue_eq hb (.inl rfl) l).mpr hline)
      · rintro ⟨l, hl, hline⟩
        exact (hnone l hl).2 ((lineValue_eq hb (.inr rfl) l).mpr hline)
      · rintro ⟨i, hi⟩
        exact if_neg fun hfull => hi (isBoardFull_scan.mp hfull i)

/-! ### What a game keeps -/

/-- The name of no player. -/
def Game.Named (g : Game) : Prop :=
  g.host ≠ N "none" ∧ g.challenger ≠ N "none" ∧ g.host ≠ N "draw" ∧ g.challenger ≠ N "draw"

/-- The players take turns, the host first. -/
structure Game.InTurn (g : Game) : Prop where
  players : g.challenger ≠ g.host
  marked : Marked g.board
  turn : g.turn = g.host ∧ marks g.board 1 = marks g.board 2 ∨
    g.turn = g.challenger ∧ marks g.board 1 = marks g.board 2 + 1

/-- The winner is the one player with a line, if there is one. -/
def Game.Judged (g : Game) : Prop :=
  g.winner = g.host ∧ HasLine g.board 1 ∧ ¬ HasLine g.board 2 ∨
  g.winner = g.challenger ∧ HasLine g.board 2 ∧ ¬ HasLine g.board 1 ∨
  g.winner = N "none" ∧ ¬ HasLine g.board 1 ∧ ¬ HasLine g.board 2

theorem marks_initialBoard : marks initialBoard 1 = marks initialBoard 2 := by decide

theorem inTurn_initial {challenger host winner : AccountName} (h : challenger ≠ host) :
    Game.InTurn { challenger, host, turn := host, winner } where
  players := h
  marked := fun i => by simp [initialBoard]
  turn := .inl ⟨rfl, marks_initialBoard⟩

theorem judged_initial (challenger host : AccountName) :
    Game.Judged { challenger, host, turn := host } := by
  have hnone : ∀ m : UInt8, m ≠ 0 → ¬ HasLine initialBoard m := by
    rintro m hm ⟨l, -, hline, -⟩
    simp [initialBoard] at hline
    exact hm hline.symm
  exact .inr (.inr ⟨rfl, hnone 1 (by decide), hnone 2 (by decide)⟩)

/-! ### A move -/

theorem getElem_set (b : Board) (i j : Fin 9) (mark : UInt8) :
    (b.set i mark)[j] = if i = j then mark else b[j] := by
  simp [Vector.getElem_set, Fin.ext_iff]

theorem marked_set {b : Board} (hb : Marked b) (i : Fin 9) {mark : UInt8}
    (hmark : mark = 1 ∨ mark = 2) : Marked (b.set i mark) := fun j => by
  rw [getElem_set]
  split
  · exact .inr hmark
  · exact hb j

/-- A new mark of one player makes no line of another. -/
theorem hasLine_of_set {b : Board} {i : Fin 9} {mark other : UInt8} (hne : other ≠ mark)
    (h : HasLine (b.set i mark) other) : HasLine b other := by
  obtain ⟨l, hl, h₁, h₂, h₃⟩ := h
  have hold : ∀ j : Fin 9, (b.set i mark)[j] = other → b[j] = other := by
    intro j hj
    rw [getElem_set] at hj
    split at hj
    · exact absurd hj.symm hne
    · exact hj
  exact ⟨l, hl, hold _ h₁, hold _ h₂, hold _ h₃⟩

theorem marks_set {b : Board} {i : Fin 9} (hempty : b[i] = 0) (mark : UInt8) {other : UInt8}
    (hother : other ≠ 0) :
    marks (b.set i mark) other = marks b other + if mark = other then 1 else 0 := by
  unfold marks
  have hi : b[i.val] = 0 := hempty
  rw [Vector.count_set i.isLt, hi]
  simp [Ne.symm hother]

variable {g : Game} {i : Fin 9}

/-- The mark of the player whose turn it is. -/
def Game.mark (g : Game) : UInt8 := if g.turn = g.host then 1 else 2

theorem Game.mark_cases (g : Game) : g.mark = 1 ∨ g.mark = 2 := by
  unfold Game.mark
  split
  · exact .inl rfl
  · exact .inr rfl

theorem Game.board_play (g : Game) (i : Fin 9) : (g.play i).board = g.board.set i g.mark := rfl

theorem Game.InTurn.play (h : g.InTurn) (hempty : g.board[i] = 0) : (g.play i).InTurn where
  players := h.players
  marked := marked_set h.marked i g.mark_cases
  turn := by
    have hone := marks_set hempty g.mark (show (1 : UInt8) ≠ 0 by decide)
    have htwo := marks_set hempty g.mark (show (2 : UInt8) ≠ 0 by decide)
    rw [g.board_play, hone, htwo]
    obtain ⟨hturn, hmarks⟩ | ⟨hturn, hmarks⟩ := h.turn
    · refine .inr ⟨if_pos hturn, ?_⟩
      simp [Game.mark, hturn, hmarks]
    · have hne : g.turn ≠ g.host := hturn ▸ h.players
      refine .inl ⟨if_neg hne, ?_⟩
      simp [Game.mark, hne, hmarks]

/-- As long as there is no winner nobody has a line, and a move makes one of the player whose
turn it is at most. -/
theorem Game.Judged.play (h : g.Judged) (hinTurn : g.InTurn) (hnamed : g.Named)
    (hwinner : g.winner = N "none") : (g.play i).Judged := by
  obtain ⟨hno₁, hno₂⟩ : ¬ HasLine g.board 1 ∧ ¬ HasLine g.board 2 := by
    obtain ⟨hhost, -⟩ | ⟨hchallenger, -⟩ | ⟨-, hno⟩ := h
    · exact absurd (hhost.symm.trans hwinner) hnamed.1
    · exact absurd (hchallenger.symm.trans hwinner) hnamed.2.1
    · exact hno
  have hmarked : Marked (g.play i).board := marked_set hinTurn.marked i g.mark_cases
  have hother : ∀ {mark : UInt8}, mark ≠ g.mark → ¬ HasLine g.board mark →
      ¬ HasLine (g.play i).board mark := fun hne hno hline => hno (hasLine_of_set hne hline)
  have hself : (g.play i).board[i] ≠ 0 := by
    rw [g.board_play, getElem_set, if_pos rfl]
    obtain hmark | hmark := g.mark_cases <;> rw [hmark] <;> decide
  -- The winner is looked for once the cell is marked and the turn has passed.
  have hcases := getWinner_cases (g := { g with
    board := g.board.set i g.mark
    turn := if g.turn = g.host then g.challenger else g.host }) hmarked
  obtain ⟨hline, hwon⟩ | ⟨hline, hwon⟩ | ⟨hno₁, hno₂, hnone⟩ := hcases
  · refine .inl ⟨hwon, hline, hother ?_ hno₂⟩
    intro htwo
    exact hother (by rw [← htwo]; decide) hno₁ hline
  · refine .inr (.inl ⟨hwon, hline, hother ?_ hno₁⟩)
    intro hone
    exact hother (by rw [← hone]; decide) hno₂ hline
  · exact .inr (.inr ⟨hnone ⟨i, hself⟩, hno₁, hno₂⟩)

/-! ### All runs -/

/-- Every game is stored under its players and played by the rules. -/
def ByTheRules (t : Games) : Prop :=
  ∀ k g, t.find k = some g → k = ⟨g.host, g.challenger⟩ ∧ g.InTurn ∧ (g.Named → g.Judged)

theorem byTheRules_set {t : Games} (h : ByTheRules t) {k : Scoped} {g : Game}
    (hg : k = ⟨g.host, g.challenger⟩ ∧ g.InTurn ∧ (g.Named → g.Judged)) :
    ByTheRules (t.set k g) := by
  intro k' g' hfind
  rw [OrderedTable.find_set] at hfind
  split at hfind
  · next heq =>
      cases hfind
      exact heq ▸ hg
  · exact h k' g' hfind

theorem move_eq_ok {auth : List AccountName} {t t' : Games} {challenger host by_ : AccountName}
    {row column : UInt16} (h : move auth t challenger host by_ row column = .ok t') :
    ∃ g i, t.find ⟨host, challenger⟩ = some g ∧ g.winner = N "none" ∧ g.board[i] = 0 ∧
      t' = t.set ⟨host, challenger⟩ (g.play i) := by
  simp only [move, Rollback.bind_eq_ok, demandRow_eq_ok, check_eq_ok] at h
  obtain ⟨-, -, g, hfind, -, hwinner, -, -, -, -, h⟩ := h
  cases hcell : cellAt row column with
  | none =>
      rw [hcell] at h
      cases h
  | some i =>
      rw [hcell] at h
      simp only [Rollback.bind_eq_ok, check_eq_ok, Rollback.pure_eq_ok, isValidMovement, hcell] at h
      obtain ⟨-, hempty, rfl⟩ := h
      exact ⟨g, i, hfind, hwinner, by simpa [isEmptyCell] using hempty, rfl⟩

theorem ByTheRules.step {t t' : Games} (h : ByTheRules t) {e : Event} (hs : step t e = .ok t') :
    ByTheRules t' := by
  obtain ⟨auth, action⟩ := e
  cases action with
  | create challenger host =>
      simp only [TicTacToe.step, create, Rollback.bind_eq_ok, check_eq_ok,
        Rollback.pure_eq_ok] at hs
      obtain ⟨-, -, -, hne, -, -, rfl⟩ := hs
      exact byTheRules_set h ⟨rfl, inTurn_initial hne, fun _ => judged_initial challenger host⟩
  | restart challenger host by_ =>
      simp only [TicTacToe.step, restart, Rollback.bind_eq_ok, demandRow_eq_ok, check_eq_ok,
        Rollback.pure_eq_ok] at hs
      obtain ⟨-, -, g, hfind, -, -, rfl⟩ := hs
      obtain ⟨hkey, hinTurn, -⟩ := h _ g hfind
      refine byTheRules_set h ⟨hkey, inTurn_initial hinTurn.players, fun _ => ?_⟩
      exact judged_initial g.challenger g.host
  | close challenger host =>
      simp only [TicTacToe.step, close, Rollback.bind_eq_ok, Rollback.pure_eq_ok] at hs
      obtain ⟨-, -, -, -, rfl⟩ := hs
      intro k g hfind
      rw [OrderedTable.find_erase] at hfind
      split at hfind
      · cases hfind
      · exact h k g hfind
  | move challenger host by_ row column =>
      obtain ⟨g, i, hfind, hwinner, hempty, rfl⟩ := move_eq_ok hs
      obtain ⟨hkey, hinTurn, hjudged⟩ := h _ g hfind
      refine byTheRules_set h ⟨hkey, hinTurn.play hempty, fun hnamed => ?_⟩
      exact (hjudged hnamed).play hinTurn hnamed hwinner

theorem byTheRules_run (es : List Event) : ByTheRules (Rollback.run step .empty es) :=
  Rollback.run_induction (fun _ _ _ h hs => h.step hs) es fun _ _ h => by cases h

/-- In every run each game is the one of its players, who take turns in it, the host first;
the winner that is stored is the one player with a line, and none as long as there is none. -/
theorem game_follows_rules (es : List Event) {k : Scoped} {g : Game}
    (h : (Rollback.run step .empty es).find k = some g) :
    k = ⟨g.host, g.challenger⟩ ∧ g.InTurn ∧ (g.Named → g.Judged) :=
  byTheRules_run es k g h

/-- The moves of a game, the host's and the challenger's in turn. -/
def movesOf (challenger host : AccountName) : List (UInt16 × UInt16) → List Event
  | [] => []
  | [(row, column)] => [⟨[host], .move challenger host host row column⟩]
  | (row, column) :: (row', column') :: rest =>
    ⟨[host], .move challenger host host row column⟩ ::
      ⟨[challenger], .move challenger host challenger row' column'⟩ ::
        movesOf challenger host rest

/-- The games of two players. -/
def played (moves : List (UInt16 × UInt16)) : Games :=
  Rollback.run step .empty (⟨[N "alice"], .create (N "bob") (N "alice")⟩ ::
    movesOf (N "bob") (N "alice") moves)

/-- The game of two players in which the host has filled the first row. -/
def quickWin : Game where
  challenger := N "bob"
  host := N "alice"
  turn := N "bob"
  winner := N "alice"
  board := #v[1, 1, 1, 2, 2, 0, 0, 0, 0]

theorem find_quickWin :
    (played [(0, 0), (1, 0), (0, 1), (1, 1), (0, 2)]).find ⟨N "alice", N "bob"⟩ =
      some quickWin := by
  decide

theorem game_follows_rules_quickWin : quickWin.InTurn ∧ quickWin.Judged := by
  obtain ⟨-, hinTurn, hjudged⟩ := game_follows_rules _ find_quickWin
  exact ⟨hinTurn, hjudged (by unfold Game.Named; decide)⟩

end Xidata.TicTacToe
