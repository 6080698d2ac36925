import Mathlib.Algebra.BigOperators.Group.List.Basic
import Xidata.Redenv.Red

/-!
The split of a red envelope among those in line: each draws from what the ones
before have left. Whatever the random generator comes up with, what remains is
enough for those still waiting, and the amounts add up to what was put in. What
can happen is that one of the draws is never over: the retry loop rejects every
result from then on.
-/

namespace Xidata.Redenv

/-- An amount drawn, with what it was drawn from. -/
structure Drawn where
  total : BigDecimal
  count : ℕ
  money : BigDecimal
  deriving DecidableEq, Repr

/-- How far an envelope has been split: the amounts drawn, what remains, and for
how many. -/
structure Split where
  drawn : List Drawn
  total : BigDecimal
  count : ℕ
  deriving DecidableEq, Repr

/-- An envelope opened by one after the other, on the results `nextDouble` has
returned so far. -/
def split : ℕ → BigDecimal → List BigDecimal → Split
  | 0, total, _ => ⟨[], total, 0⟩
  | count + 1, total, doubles =>
      match generateRedValue total (count + 1 : ℕ) doubles with
      | .error _ => ⟨[], total, count + 1⟩
      | .ok (money, rest) =>
          let later := split count (total.subtract money) rest
          { later with drawn := ⟨total, count + 1, money⟩ :: later.drawn }

/-- What the amounts `drawn` come to. -/
def spent (drawn : List Drawn) : ℚ := (drawn.map (·.money.value)).sum

/-- An amount is between the least amount and what remains, and there is enough
for everyone in line when it is drawn. -/
structure Drawn.Fair (d : Drawn) : Prop where
  enough : Enough d.total d.count
  least : leastAmount ≤ d.money.value
  most : d.money.value ≤ d.total.value

/-- What holds of an envelope of `total` for `n`, however far it has been split. -/
structure Split.Sound (n : ℕ) (total : BigDecimal) (s : Split) : Prop where
  fair : ∀ d ∈ s.drawn, d.Fair
  /-- The amounts are drawn for `n`, `n - 1`, …, each from what the ones before it
  have left. -/
  left : ∀ i d, s.drawn[i]? = some d →
    d.count + i = n ∧ d.total.value + spent (s.drawn.take i) = total.value
  length : s.drawn.length + s.count = n
  remains : s.total.value + spent s.drawn = total.value
  enough : Enough s.total s.count
  /-- The last one takes all there is. -/
  last : s.count = 0 → s.total.value = 0

@[simp] theorem spent_cons (d : Drawn) (ds : List Drawn) :
    spent (d :: ds) = d.money.value + spent ds := by simp [spent]

/-- Sound so far, where nothing has been drawn yet. -/
theorem Split.Sound.start {n : ℕ} {total : BigDecimal} (hn : n ≠ 0) (h : Enough total n) :
    Split.Sound n total ⟨[], total, n⟩ where
  fair := by simp
  left := by simp
  length := by simp
  remains := by simp [spent]
  enough := h
  last hzero := absurd hzero hn

/-- The results of `nextDouble` are in the unit interval; the induction is on those
in line. -/
theorem split_sound {n : ℕ} {total : BigDecimal} {doubles : List BigDecimal} (hn : n ≠ 0)
    (henough : Enough total n) (hunit : ∀ u ∈ doubles, InUnit u) :
    (split n total doubles).Sound n total := by
  induction n generalizing total doubles with
  | zero => exact absurd rfl hn
  | succ count ih =>
      rw [split]
      split
      · exact .start hn henough
      · rename_i money rest hdraw
        obtain ⟨hsub, hleast, hmost, hleft, hlast⟩ := generateRedValue_ok henough hunit hdraw
        have hfair : Drawn.Fair ⟨total, count + 1, money⟩ := ⟨henough, hleast, hmost⟩
        by_cases hzero : count = 0
        · subst hzero
          obtain rfl := hlast rfl
          refine ⟨?_, ?_, rfl, ?_, ?_, ?_⟩
          · intro d hd
            rw [List.mem_singleton.mp hd]
            exact hfair
          · rintro (_ | i) d hd
            · obtain rfl := Option.some.inj hd
              exact ⟨rfl, by simp [spent]⟩
            · simp [split] at hd
          · simp [split, spent]
          · exact hleft
          · simp [split]
        · have hrest := ih hzero hleft fun u hu => hunit u (hsub hu)
          refine ⟨?_, ?_, ?_, ?_, hrest.enough, hrest.last⟩
          · intro d hd
            rcases List.mem_cons.mp hd with rfl | hd
            · exact hfair
            · exact hrest.fair d hd
          · rintro (_ | i) d hd
            · obtain rfl := Option.some.inj hd
              exact ⟨rfl, by simp [spent]⟩
            · obtain ⟨hcount, htotal⟩ := hrest.left i d (by simpa using hd)
              rw [BigDecimal.value_subtract] at htotal
              refine ⟨by omega, ?_⟩
              rw [List.take_succ_cons, spent_cons]
              linarith
          · have hlength := hrest.length
            simp only [List.length_cons]
            omega
          · have hremains := hrest.remains
            rw [BigDecimal.value_subtract] at hremains
            show _ + spent (_ :: _) = _
            rw [spent_cons]
            linarith

/-! ### Splitting on, as results come in -/

/-- A split gone on with, on the results that come next. -/
def Split.after (s : Split) (more : List BigDecimal) : Split :=
  let later := split s.count s.total more
  { later with drawn := s.drawn ++ later.drawn }

theorem Split.after_nil_drawn (count : ℕ) (total : BigDecimal) (more : List BigDecimal) :
    Split.after ⟨[], total, count⟩ more = split count total more := rfl

theorem Split.after_cons_drawn (d : Drawn) (s : Split) (more : List BigDecimal) :
    Split.after { s with drawn := d :: s.drawn } more =
      { s.after more with drawn := d :: (s.after more).drawn } := rfl

theorem split_append {n : ℕ} {total : BigDecimal} {doubles : List BigDecimal}
    (more : List BigDecimal) (h : (split n total doubles).count ≠ 0) :
    split n total (doubles ++ more) = (split n total doubles).after more := by
  induction n generalizing total doubles with
  | zero => exact absurd rfl h
  | succ count ih =>
      cases hdraw : generateRedValue total (count + 1 : ℕ) doubles with
      | error e =>
          have hstands : split (count + 1) total doubles = ⟨[], total, count + 1⟩ := by
            rw [split, hdraw]
          rw [hstands, Split.after_nil_drawn, split, split,
            generateRedValue_append_of_error more hdraw]
      | ok drawn =>
          obtain ⟨money, rest⟩ := drawn
          have hstands : split (count + 1) total doubles =
              let later := split count (total.subtract money) rest
              { later with drawn := ⟨total, count + 1, money⟩ :: later.drawn } := by
            rw [split, hdraw]
          rw [hstands] at h ⊢
          rw [split, generateRedValue_append_of_ok more hdraw, Split.after_cons_drawn, ← ih h]

theorem split_count_le (n : ℕ) (total : BigDecimal) (doubles : List BigDecimal) :
    (split n total doubles).count ≤ n := by
  induction n generalizing total doubles with
  | zero => exact le_rfl
  | succ count ih =>
      rw [split]
      split
      · exact le_rfl
      · exact (ih _ _).trans (Nat.le_succ count)

/-- The result `u` leaves the retry loop of the next draw going. -/
def Split.Waits (s : Split) (u : BigDecimal) : Prop :=
  generateRedValue s.total s.count [u] = .error .outOfDraws

/-- A result that leaves the loop going leaves the split where it is. -/
theorem Split.Waits.stands {s : Split} {u : BigDecimal} (h : s.Waits u) : s.after [u] = s := by
  obtain ⟨drawn, total, _ | count⟩ := s
  · simp [after, split]
  · have hstands : split (count + 1) total [u] = ⟨[], total, count + 1⟩ := by
      rw [split, h]
    show Split.mk (drawn ++ (split (count + 1) total [u]).drawn) _ _ = _
    rw [hstands, List.append_nil]

/-- A result that does not gives the next one in line an amount. -/
theorem Split.after_count_lt {s : Split} {u money : BigDecimal} {rest : List BigDecimal}
    (hcount : s.count ≠ 0) (h : generateRedValue s.total s.count [u] = .ok (money, rest)) :
    (s.after [u]).count < s.count := by
  obtain ⟨drawn, total, _ | count⟩ := s
  · exact absurd rfl hcount
  · show (split (count + 1) total [u]).count < count + 1
    rw [split, h]
    exact Nat.lt_succ_of_le (split_count_le count _ rest)

/-- The first `k` results of a random generator. -/
def resultsTo (nextDouble : ℕ → BigDecimal) (k : ℕ) : List BigDecimal :=
  (List.range k).map nextDouble

theorem inUnit_of_mem_resultsTo {nextDouble : ℕ → BigDecimal} (h : ∀ i, InUnit (nextDouble i))
    {k : ℕ} {u : BigDecimal} (hu : u ∈ resultsTo nextDouble k) : InUnit u := by
  obtain ⟨i, -, rfl⟩ := List.mem_map.mp hu
  exact h i

section Results

variable {n : ℕ} {total : BigDecimal} {nextDouble : ℕ → BigDecimal}

/-- One more result, for a split that is not over. -/
theorem split_resultsTo_succ {k : ℕ}
    (h : (split n total (resultsTo nextDouble k)).count ≠ 0) :
    split n total (resultsTo nextDouble (k + 1)) =
      (split n total (resultsTo nextDouble k)).after [nextDouble k] := by
  have hsnoc : resultsTo nextDouble (k + 1) = resultsTo nextDouble k ++ [nextDouble k] := by
    rw [resultsTo, List.range_succ, List.map_append]
    rfl
  rw [hsnoc, split_append [nextDouble k] h]

/-- Where the next draw rejects every result that finds the split where it is, the
split stays there. -/
theorem split_stands {k : ℕ} (hcount : (split n total (resultsTo nextDouble k)).count ≠ 0)
    (hwaits : ∀ i, split n total (resultsTo nextDouble i) = split n total (resultsTo nextDouble k) →
      (split n total (resultsTo nextDouble k)).Waits (nextDouble i)) {i : ℕ} (hi : k ≤ i) :
    split n total (resultsTo nextDouble i) = split n total (resultsTo nextDouble k) := by
  induction i, hi using Nat.le_induction with
  | base => rfl
  | succ i hi ih =>
      have hgoing : (split n total (resultsTo nextDouble i)).count ≠ 0 := by rwa [ih]
      rw [split_resultsTo_succ hgoing, ih, (hwaits i ih).stands]

/-- The split comes to its end, or one of its draws never does: the one where the
fewest are in line. -/
theorem split_ends_or_waits (hn : n ≠ 0) (henough : Enough total n)
    (hunit : ∀ i, InUnit (nextDouble i)) :
    (∃ k, (split n total (resultsTo nextDouble k)).count = 0) ∨
      ∃ k, ∀ i, k ≤ i → (split n total (resultsTo nextDouble k)).Waits (nextDouble i) := by
  refine or_iff_not_imp_left.mpr fun hgoing => ?_
  have hcount : ∀ k, (split n total (resultsTo nextDouble k)).count ≠ 0 := not_exists.mp hgoing
  let waiting := fun k => (split n total (resultsTo nextDouble k)).count
  obtain ⟨k, hmin⟩ : ∃ k, ∀ i, waiting k ≤ waiting i :=
    ⟨Function.argmin waiting, fun i => Function.argmin_le waiting i⟩
  have hwaits : ∀ i,
      split n total (resultsTo nextDouble i) = split n total (resultsTo nextDouble k) →
      (split n total (resultsTo nextDouble k)).Waits (nextDouble i) := by
    intro i hsame
    have hsound := split_sound hn henough fun u hu => inUnit_of_mem_resultsTo hunit (k := k) hu
    have hless : waiting k ≤ waiting (i + 1) := hmin (i + 1)
    simp only [waiting] at hless
    rw [split_resultsTo_succ (hcount i), hsame] at hless
    cases hdraw : generateRedValue (split n total (resultsTo nextDouble k)).total
        (split n total (resultsTo nextDouble k)).count [nextDouble i] with
    | error e =>
        obtain rfl := outOfDraws_of_error (Nat.pos_of_ne_zero (hcount k)) hsound.enough.nonneg hdraw
        exact hdraw
    | ok drawn => exact absurd hless (not_le.mpr (Split.after_count_lt (hcount k) hdraw))
  exact ⟨k, fun i hi => hwaits i (split_stands (hcount k) hwaits hi)⟩

end Results

/-- Opening an envelope. Up to any point the amounts drawn are fair, add up with what
remains to what was put in, and leave enough; the split comes to its end unless the
retry loop of one draw rejects every result from some point on; and no loop rejects
a result of one half or more. -/
theorem red_envelope {n : ℕ} {total : BigDecimal} (hn : 1 ≤ n)
    (henough : n * leastAmount ≤ total.value) (nextDouble : ℕ → BigDecimal)
    (hunit : ∀ i, InUnit (nextDouble i)) :
    (∀ k, (split n total (resultsTo nextDouble k)).Sound n total) ∧
      ((∃ k, (split n total (resultsTo nextDouble k)).count = 0) ∨
        ∃ k, ∀ i, k ≤ i → (split n total (resultsTo nextDouble k)).Waits (nextDouble i)) ∧
      (∀ k u, (split n total (resultsTo nextDouble k)).count ≠ 0 → 1 / 2 ≤ u.value →
        u.value < 1 → ¬ (split n total (resultsTo nextDouble k)).Waits u) ∧
      ((∀ k, ∃ i, k ≤ i ∧ 1 / 2 ≤ (nextDouble i).value) →
        ∃ k, (split n total (resultsTo nextDouble k)).count = 0) := by
  have hne : n ≠ 0 := by omega
  have hsound : ∀ k, (split n total (resultsTo nextDouble k)).Sound n total := fun k =>
    split_sound hne henough fun u hu => inUnit_of_mem_resultsTo hunit hu
  have hleaves : ∀ k u, (split n total (resultsTo nextDouble k)).count ≠ 0 → 1 / 2 ≤ u.value →
      u.value < 1 → ¬ (split n total (resultsTo nextDouble k)).Waits u := by
    intro k u hcount hhalf hlt hwaits
    obtain ⟨money, rest, hdraw⟩ :=
      generateRedValue_of_half (Nat.pos_of_ne_zero hcount) (hsound k).enough hhalf hlt
    rw [Split.Waits, hdraw] at hwaits
    cases hwaits
  have hends := split_ends_or_waits hne henough hunit
  refine ⟨hsound, hends, hleaves, fun hoften => ?_⟩
  rcases hends with hdone | ⟨k, hwaits⟩
  · exact hdone
  · obtain ⟨i, hi, hhalf⟩ := hoften k
    by_contra hnever
    exact hleaves k (nextDouble i) (fun hzero => hnever ⟨k, hzero⟩) hhalf (hunit i).2 (hwaits i hi)

/-- With results of one half all along, two share one unit: half of it each. -/
theorem red_envelope_two :
    (∀ k, (split 2 (.valueOf 1) (resultsTo (fun _ => ⟨5, 1⟩) k)).Sound 2 (.valueOf 1)) ∧
      ∃ k, (split 2 (.valueOf 1) (resultsTo (fun _ => ⟨5, 1⟩) k)).count = 0 := by
  have henough : ((2 : ℕ) : ℚ) * leastAmount ≤ (BigDecimal.valueOf 1).value := by
    rw [BigDecimal.value_valueOf, leastAmount]
    norm_num
  have hvalue : (BigDecimal.mk 5 1).value = 1 / 2 := by norm_num [BigDecimal.value]
  have hunit : InUnit ⟨5, 1⟩ := by
    rw [InUnit, hvalue]
    norm_num
  obtain ⟨hsound, -, -, hends⟩ :=
    red_envelope (by decide) henough (fun _ => ⟨5, 1⟩) fun _ => hunit
  exact ⟨hsound, hends fun k => ⟨k, le_rfl, hvalue.ge⟩⟩

/-- With results of zero all along, two never share anything: the loop of the first
draw goes on for ever. -/
theorem never_over :
    ¬ ∀ (n : ℕ) (total : BigDecimal) (nextDouble : ℕ → BigDecimal), 1 ≤ n →
      n * leastAmount ≤ total.value → (∀ i, InUnit (nextDouble i)) →
        ∃ k, (split n total (resultsTo nextDouble k)).drawn.length = n := by
  intro hclaim
  have henough : ((2 : ℕ) : ℚ) * leastAmount ≤ (BigDecimal.valueOf 1).value := by
    rw [BigDecimal.value_valueOf, leastAmount]
    norm_num
  have hunit : InUnit (.valueOf 0) := by simp [InUnit]
  obtain ⟨k, hlength⟩ :=
    hclaim 2 (.valueOf 1) (fun _ => .valueOf 0) (by decide) henough fun _ => hunit
  have hwaits : Split.Waits (split 2 (.valueOf 1) (resultsTo (fun _ => .valueOf 0) 0))
      (.valueOf 0) := by
    show generateRedValue _ _ _ = _
    rfl
  rw [split_stands (by decide) (fun _ _ => hwaits) (Nat.zero_le k)] at hlength
  cases hlength

end Xidata.Redenv
