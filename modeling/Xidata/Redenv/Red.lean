import Mathlib.Data.List.Basic
import Xidata.Library.BigDecimal

/-!
One amount of a red envelope. It is drawn at random from the truncated average
of what remains, doubled, and drawn again while it comes out as zero; the last
one in line takes what is left. The results of `nextDouble` are the input: a list
of them is a run of the random generator as far as it has got, and an amount for
which it has run out is one whose retry loop is still going.
-/

namespace Xidata.Redenv

/-- Why no amount has been returned. -/
inductive Halt
  | arithmeticException
  | outOfDraws
  deriving DecidableEq, Repr

/-- The amount one result of `nextDouble` gives. -/
def drawMoney (max nextDouble : BigDecimal) : BigDecimal := (nextDouble.multiply max).setScale 4

/-- The loop: amounts are drawn until one is not zero. Returned with the amount are
the results not yet taken. -/
def retry (max : BigDecimal) : List BigDecimal → Except Halt (BigDecimal × List BigDecimal)
  | [] => .error .outOfDraws
  | nextDouble :: rest =>
      let money := drawMoney max nextDouble
      if money.compareTo (.valueOf 0) = .eq then retry max rest else .ok (money, rest)

def generateRedValue (total : BigDecimal) (count : ℤ) (doubles : List BigDecimal) :
    Except Halt (BigDecimal × List BigDecimal) :=
  if count = 1 then .ok (total, doubles)
  else
    match total.divide (.valueOf count) 4 with
    | none => .error .arithmeticException
    | some average => retry (average.multiply (.valueOf 2)) doubles

/-! ### One amount -/

/-- The least amount there is: one in the last of the four places. -/
def leastAmount : ℚ := 1 / 10 ^ 4

/-- What remains is enough for everyone still in line. -/
def Enough (total : BigDecimal) (count : ℕ) : Prop := count * leastAmount ≤ total.value

/-- A result `nextDouble` can have. -/
def InUnit (u : BigDecimal) : Prop := 0 ≤ u.value ∧ u.value < 1

/-- The average, in least amounts. -/
def share (total : BigDecimal) (count : ℕ) : ℤ := ⌊total.value / count * 10 ^ (4 : ℤ)⌋

theorem Enough.nonneg {total : BigDecimal} {count : ℕ} (h : Enough total count) :
    0 ≤ total.value := by
  have hleast : (0 : ℚ) ≤ count * leastAmount := by rw [leastAmount]; positivity
  exact hleast.trans h

theorem divide_count {total : BigDecimal} {count : ℕ} (hcount : 0 < count)
    (htotal : 0 ≤ total.value) :
    total.divide (.valueOf count) 4 = some ⟨share total count, 4⟩ := by
  have hpos : 0 < (BigDecimal.valueOf count).value := by simpa using hcount
  rw [BigDecimal.divide_eq htotal hpos, BigDecimal.value_valueOf, share]
  simp

theorem drawMoney_eq {a : ℤ} {u : BigDecimal} (ha : 0 ≤ a) (hu : 0 ≤ u.value) :
    drawMoney (BigDecimal.multiply ⟨a, 4⟩ (.valueOf 2)) u = ⟨⌊u.value * (2 * a)⌋, 4⟩ := by
  have hvalue : (u.multiply (BigDecimal.multiply ⟨a, 4⟩ (.valueOf 2))).value =
      u.value * (2 * a) * 10 ^ (-4 : ℤ) := by
    have haverage : (BigDecimal.mk a 4).value = a * 10 ^ (-4 : ℤ) := rfl
    rw [BigDecimal.value_multiply, BigDecimal.value_multiply, BigDecimal.value_valueOf, haverage]
    push_cast
    ring
  have hnonneg : 0 ≤ (u.multiply (BigDecimal.multiply ⟨a, 4⟩ (.valueOf 2))).value := by
    rw [hvalue]
    positivity
  have hone : (10 : ℚ) ^ (-4 : ℤ) * 10 ^ (4 : ℤ) = 1 := by norm_num
  rw [drawMoney, BigDecimal.setScale_eq hnonneg, hvalue, mul_assoc, hone, mul_one]

theorem value_four (m : ℤ) : (BigDecimal.mk m 4).value = m * leastAmount := by
  rw [BigDecimal.value, leastAmount]
  norm_num

theorem compareTo_zero_iff {m : ℤ} :
    (BigDecimal.mk m 4).compareTo (.valueOf 0) = .eq ↔ m = 0 := by
  rw [BigDecimal.compareTo_eq_eq_iff, value_four, BigDecimal.value_valueOf, leastAmount]
  norm_num

/-- The average of what is enough is at least the least amount, and `count` averages
are no more than what there is. -/
theorem share_bounds {total : BigDecimal} {count : ℕ} (hcount : 0 < count)
    (h : Enough total count) :
    1 ≤ share total count ∧ count * share total count * leastAmount ≤ total.value := by
  have hpos : (0 : ℚ) < count := by exact_mod_cast hcount
  have hfour : (10 : ℚ) ^ (4 : ℤ) = 10000 := by norm_num
  have hfloor : (share total count : ℚ) ≤ total.value / count * 10 ^ (4 : ℤ) := Int.floor_le _
  rw [Enough, leastAmount] at h
  constructor
  · refine Int.le_floor.mpr ?_
    rw [hfour, div_mul_eq_mul_div, le_div_iff₀ hpos]
    push_cast
    linarith
  · rw [hfour, div_mul_eq_mul_div, le_div_iff₀ hpos] at hfloor
    rw [leastAmount]
    linarith

/-- A result of `nextDouble` gives less than two averages; from one half on it gives
at least one. -/
theorem draw_bounds {a : ℤ} {u : ℚ} (ha : 1 ≤ a) (hu : 0 ≤ u) (hlt : u < 1) :
    0 ≤ ⌊u * (2 * a)⌋ ∧ ⌊u * (2 * a)⌋ ≤ 2 * a - 1 ∧ (1 / 2 ≤ u → 1 ≤ ⌊u * (2 * a)⌋) := by
  have hpos : (1 : ℚ) ≤ a := by exact_mod_cast ha
  refine ⟨Int.floor_nonneg.mpr (by positivity), ?_, fun hhalf => ?_⟩
  · have hfloor : ⌊u * (2 * a)⌋ < 2 * a := by
      refine Int.floor_lt.mpr ?_
      push_cast
      nlinarith
    omega
  · refine Int.le_floor.mpr ?_
    push_cast
    nlinarith

theorem outOfDraws_of_retry_error {max : BigDecimal} {doubles : List BigDecimal} {e : Halt}
    (h : retry max doubles = .error e) : e = .outOfDraws := by
  induction doubles with
  | nil => exact (Except.error.inj h).symm
  | cons u rest ih =>
      rw [retry] at h
      split at h
      · exact ih h
      · cases h

/-- The loop returns an amount one of the results gives, and it is not zero. -/
theorem retry_ok {max : BigDecimal} {doubles : List BigDecimal} {money : BigDecimal}
    {rest : List BigDecimal} (h : retry max doubles = .ok (money, rest)) :
    rest ⊆ doubles ∧ ∃ u ∈ doubles, money = drawMoney max u ∧
      ¬ money.compareTo (.valueOf 0) = .eq := by
  induction doubles with
  | nil => cases h
  | cons u tail ih =>
      rw [retry] at h
      split at h
      · obtain ⟨hsub, v, hv, hmoney⟩ := ih h
        exact ⟨List.subset_cons_of_subset u hsub, v, List.mem_cons_of_mem u hv, hmoney⟩
      · rename_i hnonzero
        obtain ⟨rfl, rfl⟩ := Prod.mk.inj (Except.ok.inj h)
        exact ⟨List.subset_cons_self u _, u, List.mem_cons_self, rfl, hnonzero⟩

/-- What `generateRedValue` does where there is more than one in line. -/
theorem generateRedValue_of_ne_one {total : BigDecimal} {count : ℕ} (doubles : List BigDecimal)
    (hcount : 0 < count) (hne : count ≠ 1) (htotal : 0 ≤ total.value) :
    generateRedValue total count doubles =
      retry (BigDecimal.multiply ⟨share total count, 4⟩ (.valueOf 2)) doubles := by
  rw [generateRedValue, if_neg (by exact_mod_cast hne), divide_count hcount htotal]

/-- There is no division by zero: without an amount the loop is still going. -/
theorem outOfDraws_of_error {total : BigDecimal} {count : ℕ} {doubles : List BigDecimal}
    {e : Halt} (hcount : 0 < count) (htotal : 0 ≤ total.value)
    (h : generateRedValue total count doubles = .error e) : e = .outOfDraws := by
  by_cases hone : count = 1
  · rw [generateRedValue, if_pos (by exact_mod_cast hone)] at h
    cases h
  · rw [generateRedValue_of_ne_one doubles hcount hone htotal] at h
    exact outOfDraws_of_retry_error h

/-- An amount drawn from what is enough is at least the least amount, no more than
there is, and leaves enough. -/
theorem generateRedValue_ok {total : BigDecimal} {count : ℕ} {doubles : List BigDecimal}
    {money : BigDecimal} {rest : List BigDecimal} (henough : Enough total (count + 1))
    (hunit : ∀ u ∈ doubles, InUnit u)
    (h : generateRedValue total (count + 1 : ℕ) doubles = .ok (money, rest)) :
    rest ⊆ doubles ∧ leastAmount ≤ money.value ∧ money.value ≤ total.value ∧
      Enough (total.subtract money) count ∧ (count = 0 → money = total) := by
  by_cases hone : count = 0
  · subst hone
    obtain ⟨rfl, rfl⟩ := Prod.mk.inj (Except.ok.inj h)
    have hleast : leastAmount ≤ total.value := by simpa [Enough] using henough
    exact ⟨List.Subset.refl _, hleast, le_rfl, by simp [Enough], fun _ => rfl⟩
  · rw [generateRedValue_of_ne_one doubles count.succ_pos (by omega) henough.nonneg] at h
    obtain ⟨hsub, u, hu, rfl, hnonzero⟩ := retry_ok h
    obtain ⟨ha, htotal⟩ := share_bounds count.succ_pos henough
    obtain ⟨hu₀, hu₁⟩ := hunit u hu
    obtain ⟨hnonneg, hlt, -⟩ := draw_bounds ha hu₀ hu₁
    rw [drawMoney_eq (by omega) hu₀, compareTo_zero_iff] at hnonzero
    rw [drawMoney_eq (by omega) hu₀]
    generalize share total (count + 1) = a at *
    generalize ⌊u.value * (2 * a)⌋ = m at *
    -- `m` is at most `2 * a - 1`, and `count + 1` averages of `a` are there
    have hleast : 0 < leastAmount := by norm_num [leastAmount]
    have hlower : (1 : ℚ) ≤ m := by exact_mod_cast (show 1 ≤ m by omega)
    have hleft : (count : ℤ) + m ≤ (count + 1) * a := by
      have hcount : 1 ≤ (count : ℤ) := by omega
      nlinarith
    have hleftq : (count : ℚ) + m ≤ (count + 1) * a := by exact_mod_cast hleft
    have hspent : ((count : ℚ) + m) * leastAmount ≤ total.value := by
      refine le_trans ?_ htotal
      push_cast
      exact mul_le_mul_of_nonneg_right hleftq hleast.le
    refine ⟨hsub, ?_, ?_, ?_, fun hzero => absurd hzero hone⟩
    · rw [value_four]
      nlinarith
    · rw [value_four]
      have hcount : (0 : ℚ) ≤ count := Nat.cast_nonneg count
      nlinarith
    · rw [Enough, BigDecimal.value_subtract, value_four]
      linarith

/-! ### Results that keep coming -/

theorem retry_append_of_error {max : BigDecimal} {doubles : List BigDecimal} {e : Halt}
    (more : List BigDecimal) (h : retry max doubles = .error e) :
    retry max (doubles ++ more) = retry max more := by
  induction doubles with
  | nil => rfl
  | cons u rest ih =>
      rw [retry] at h
      rw [List.cons_append, retry]
      split at h
      · rename_i hzero
        rw [if_pos hzero, ih h]
      · cases h

theorem retry_append_of_ok {max : BigDecimal} {doubles : List BigDecimal} {money : BigDecimal}
    {rest : List BigDecimal} (more : List BigDecimal)
    (h : retry max doubles = .ok (money, rest)) :
    retry max (doubles ++ more) = .ok (money, rest ++ more) := by
  induction doubles with
  | nil => cases h
  | cons u tail ih =>
      rw [retry] at h
      rw [List.cons_append, retry]
      split at h
      · rename_i hzero
        rw [if_pos hzero, ih h]
      · rename_i hnonzero
        obtain ⟨rfl, rfl⟩ := Prod.mk.inj (Except.ok.inj h)
        rw [if_neg hnonzero]

/-- A loop that has run out goes on with the results that come next. -/
theorem generateRedValue_append_of_error {total : BigDecimal} {count : ℤ}
    {doubles : List BigDecimal} {e : Halt} (more : List BigDecimal)
    (h : generateRedValue total count doubles = .error e) :
    generateRedValue total count (doubles ++ more) = generateRedValue total count more := by
  rw [generateRedValue] at h ⊢
  rw [generateRedValue]
  split at h
  · cases h
  · rename_i hne
    rw [if_neg hne, if_neg hne]
    split at h
    · rfl
    · exact retry_append_of_error more h

theorem generateRedValue_append_of_ok {total : BigDecimal} {count : ℤ}
    {doubles : List BigDecimal} {money : BigDecimal} {rest : List BigDecimal}
    (more : List BigDecimal) (h : generateRedValue total count doubles = .ok (money, rest)) :
    generateRedValue total count (doubles ++ more) = .ok (money, rest ++ more) := by
  rw [generateRedValue] at h ⊢
  split at h
  · rename_i hone
    obtain ⟨rfl, rfl⟩ := Prod.mk.inj (Except.ok.inj h)
    rw [if_pos hone]
  · rename_i hne
    rw [if_neg hne]
    split at h
    · cases h
    · exact retry_append_of_ok more h

/-- A result of one half or more is never rejected: the average is at least the least
amount. -/
theorem generateRedValue_of_half {total : BigDecimal} {count : ℕ} {u : BigDecimal}
    (hcount : 0 < count) (henough : Enough total count) (hhalf : 1 / 2 ≤ u.value)
    (hlt : u.value < 1) : ∃ money rest, generateRedValue total count [u] = .ok (money, rest) := by
  by_cases hone : count = 1
  · exact ⟨total, [u], by rw [generateRedValue, if_pos (by exact_mod_cast hone)]⟩
  · have hnonneg : 0 ≤ u.value := by linarith
    obtain ⟨ha, -⟩ := share_bounds hcount henough
    obtain ⟨-, -, hpos⟩ := draw_bounds ha hnonneg hlt
    let max := BigDecimal.multiply ⟨share total count, 4⟩ (.valueOf 2)
    have hnonzero : ¬ (drawMoney max u).compareTo (.valueOf 0) = .eq := by
      rw [drawMoney_eq (by omega) hnonneg, compareTo_zero_iff]
      have hmoney := hpos hhalf
      omega
    refine ⟨drawMoney max u, [], ?_⟩
    rw [generateRedValue_of_ne_one [u] hcount hone henough.nonneg, retry, if_neg hnonzero]

/-! ### An end to the retries -/

/-- What a result of `nextDouble` is multiplied with: twice the truncated average. -/
def redMax (total : BigDecimal) (count : ℤ) : Option BigDecimal :=
  (total.divide (.valueOf count) 4).map fun average => average.multiply (.valueOf 2)

/-- While the loop is still going, there is a next result that ends it. -/
def CanFinish (total : BigDecimal) (count : ℤ) : Prop :=
  ∀ doubles, (∀ u ∈ doubles, InUnit u) →
    generateRedValue total count doubles = .error .outOfDraws →
      ∃ u, InUnit u ∧ ∃ r, generateRedValue total count (doubles ++ [u]) = .ok r

theorem enough_iff_share {total : BigDecimal} {count : ℕ} (hcount : 0 < count) :
    Enough total count ↔ 1 ≤ share total count := by
  have hpos : (0 : ℚ) < count := by exact_mod_cast hcount
  have hfour : (10 : ℚ) ^ (4 : ℤ) = 10000 := by norm_num
  rw [share, Int.le_floor, Enough, leastAmount, hfour, div_mul_eq_mul_div, le_div_iff₀ hpos]
  push_cast
  constructor <;> intro h <;> linarith

theorem redMax_eq {total : BigDecimal} {count : ℕ} (hcount : 0 < count)
    (htotal : 0 ≤ total.value) :
    redMax total count = some (BigDecimal.multiply ⟨share total count, 4⟩ (.valueOf 2)) := by
  rw [redMax, divide_count hcount htotal, Option.map_some]

/-- The bound of the loop, in least amounts. -/
theorem redMax_bound_iff {total : BigDecimal} {count : ℕ} (hcount : 0 < count)
    (htotal : 0 ≤ total.value) :
    (∃ max, redMax total count = some max ∧ 2 / 10 ^ 4 ≤ max.value) ↔ Enough total count := by
  have hvalue : (BigDecimal.multiply ⟨share total count, 4⟩ (.valueOf 2)).value =
      share total count * leastAmount * 2 := by
    rw [BigDecimal.value_multiply, value_four, BigDecimal.value_valueOf]
    norm_num
  have hcast : 1 ≤ share total count ↔ (1 : ℚ) ≤ share total count := by norm_cast
  rw [redMax_eq hcount htotal, enough_iff_share hcount, hcast]
  simp only [Option.some.injEq, exists_eq_left', hvalue, leastAmount]
  constructor <;> intro h <;> linarith

/-- Below the least amount for everyone every result gives zero. -/
theorem retry_of_not_enough {total : BigDecimal} {count : ℕ} (hcount : 0 < count)
    (htotal : 0 ≤ total.value) (h : ¬ Enough total count) {doubles : List BigDecimal}
    (hunit : ∀ u ∈ doubles, InUnit u) :
    retry (BigDecimal.multiply ⟨share total count, 4⟩ (.valueOf 2)) doubles =
      .error .outOfDraws := by
  have hzero : share total count = 0 := by
    have hnonneg : 0 ≤ share total count := Int.floor_nonneg.mpr (by positivity)
    rw [enough_iff_share hcount] at h
    omega
  rw [hzero]
  induction doubles with
  | nil => rfl
  | cons u rest ih =>
      rw [List.forall_mem_cons] at hunit
      have hmoney := drawMoney_eq (le_refl 0) hunit.1.1
      rw [Int.cast_zero, mul_zero, mul_zero, Int.floor_zero] at hmoney
      rw [retry, hmoney, if_pos (compareTo_zero_iff.mpr rfl)]
      exact ih hunit.2

theorem canFinish_of_enough {total : BigDecimal} {count : ℕ} (hcount : 0 < count)
    (h : Enough total count) : CanFinish total count := by
  intro doubles hunit hgoing
  have hhalf : (BigDecimal.mk 5 1).value = 1 / 2 := by
    rw [BigDecimal.value]
    norm_num
  obtain ⟨money, rest, hok⟩ := generateRedValue_of_half (u := ⟨5, 1⟩) hcount h
    (by rw [hhalf]) (by rw [hhalf]; norm_num)
  refine ⟨⟨5, 1⟩, ⟨by rw [hhalf]; norm_num, by rw [hhalf]; norm_num⟩, (money, rest), ?_⟩
  rw [generateRedValue_append_of_error _ hgoing, hok]

theorem not_canFinish_of_not_enough {total : BigDecimal} {count : ℕ} (hcount : 0 < count)
    (htotal : 0 ≤ total.value) (hne : count ≠ 1) (h : ¬ Enough total count) :
    ¬ CanFinish total count := by
  have hgoing : ∀ doubles : List BigDecimal, (∀ u ∈ doubles, InUnit u) →
      generateRedValue total count doubles = .error .outOfDraws := fun doubles hunit => by
    rw [generateRedValue_of_ne_one doubles hcount hne htotal,
      retry_of_not_enough hcount htotal h hunit]
  intro hfinish
  obtain ⟨u, hu, r, hok⟩ := hfinish [] (by simp) (hgoing [] (by simp))
  rw [List.nil_append, hgoing [u] (by simpa using hu)] at hok
  cases hok

/-- An amount is returned at once, or the bound of the loop is two least amounts or more and
some next result ends it: this is so where there is enough for everyone, or one is in line. -/
theorem generateRedValue_canFinish_iff {total : BigDecimal} {count : ℕ} (hcount : 0 < count)
    (htotal : 0 < total.value) :
    (CanFinish total count ∧
        (count ≠ 1 → ∃ max, redMax total count = some max ∧ 2 / 10 ^ 4 ≤ max.value)) ↔
      count = 1 ∨ Enough total count := by
  rw [redMax_bound_iff hcount htotal.le]
  by_cases hone : count = 1
  · subst hone
    refine iff_of_true ⟨fun doubles _ hgoing => ?_, fun h => absurd rfl h⟩ (.inl rfl)
    rw [generateRedValue, if_pos (by norm_num)] at hgoing
    cases hgoing
  · constructor
    · exact fun h => .inr (h.2 hone)
    · rintro (h | h)
      · exact absurd h hone
      · exact ⟨canFinish_of_enough hcount h, fun _ => h⟩

theorem generateRedValue_canFinish_two : CanFinish ⟨2, 4⟩ 2 := by
  have hpos : 0 < (BigDecimal.mk 2 4).value := by
    rw [value_four, leastAmount]
    norm_num
  have henough : Enough ⟨2, 4⟩ 2 := by
    rw [Enough, value_four]
    norm_num
  exact ((generateRedValue_canFinish_iff (by decide) hpos).mpr (.inr henough)).1

/-- The least amount for two. -/
theorem generateRedValue_never_finishes : ¬ CanFinish ⟨1, 4⟩ 2 :=
  not_canFinish_of_not_enough (by decide) (by rw [value_four, leastAmount]; norm_num) (by decide)
    (by rw [Enough, value_four, leastAmount]; norm_num)

end Xidata.Redenv
