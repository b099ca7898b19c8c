import Mathlib.Algebra.Order.Field.Basic
import Mathlib.Algebra.Order.Field.Rat
import Mathlib.Tactic.IntervalCases
import TradeBridge.ChartRuns

/-!
# The prices of a published candle

`RateInfo` keeps `open` in points and the other three prices as shifts from it
(`MT4ServerAPI.h:846-853`). `publish_chart_by_symbol` converts each of the four fields on its own, so
the candle carries a shift where it should carry a price.

Results:
* `ChartTask.turns_attempts`: every call of a run is for a candle of the history.
* `truePrices_iff`: the candle of a record carries its prices iff `open` is `0`.
* **`published_prices_iff`**: the same of every candle a run publishes.
* `a_published_high_is_a_shift`: a candle whose high is below its open.
-/

namespace TradeBridge

open TradeBridge.Lib

/-! ## Every call is for a candle of the history -/

variable {w : World} {t : ChartTask} {s : Series}

/-- What a step attempts, and what it leaves, was before it. -/
theorem ChartTask.step_attempts (t : ChartTask) (w : World) (o : Outcome) :
    (∀ c ∈ t.callsNow w o, ∃ r ∈ t.rest w, c.attempt = t.series.attempt w.names r) ∧
      ∀ r ∈ (t.step w o).2.rest (t.step w o).1,
        t.series.attempt w.names r ∈ (t.rest w).map (t.series.attempt w.names) := by
  constructor
  · intro c hc
    obtain ⟨symbolName, digits, period, pc⟩ := t
    cases pc with
    | publish newest fromTime rate older =>
      rw [List.mem_singleton.mp hc]
      exact ⟨rate, List.mem_cons_self, rfl⟩
    | _ => exact absurd hc List.not_mem_nil
  · intro r hr
    by_cases hends : (Task.chart (t.step w o).2).ended = true
    · rw [(ChartTask.rest_of_ended hends _).1] at hr
      cases hr
    · have hgoes := Bool.not_eq_true _ ▸ hends
      have hstop : (t.atStop && w.paused) = false := by
        cases hcase : t.atStop && w.paused with
        | false => rfl
        | true =>
          obtain ⟨hat, hpaused⟩ := Bool.and_eq_true_iff.mp hcase
          refine absurd ?_ hends
          obtain ⟨symbolName, digits, period, pc⟩ := t
          cases pc with
          | stop newest fromTime rate older =>
            simp only [ChartTask.step, hpaused]
            rfl
          | _ => exact Bool.noConfusion hat
      have hkept := ChartTask.step_kept hstop (Bool.or_eq_false_iff.mp hgoes).2
      rw [← hkept.attempts]
      exact List.mem_append.mpr (Or.inr (List.mem_map_of_mem hr))

/-- **Every call of a run is for a candle it had before it.** -/
theorem ChartTask.turns_attempts : ∀ (xs : List Turn) (w : World) (t : ChartTask),
    ∃ cs, Logged w t cs (ChartTask.turns w t xs).1 (ChartTask.turns w t xs).2 ∧
      ∀ c ∈ cs, c.attempt ∈ (t.rest w).map (t.series.attempt w.names)
  | [], w, t => ⟨[], Logged.refl w t, fun _ hc => absurd hc List.not_mem_nil⟩
  | x :: xs, w, t => by
    have hstep := t.step_logged { w with paused := x.paused } x.outcome
    obtain ⟨hnow, hlater⟩ := t.step_attempts { w with paused := x.paused } x.outcome
    obtain ⟨ds, hds, hmem⟩ := turns_attempts xs (t.step { w with paused := x.paused } x.outcome).1
      (t.step { w with paused := x.paused } x.outcome).2
    refine ⟨_, hstep.of_paused.trans hds, fun c hc => ?_⟩
    rcases List.mem_append.mp hc with hc | hc
    · obtain ⟨r, hr, heq⟩ := hnow c hc
      rw [heq]
      exact List.mem_map_of_mem hr
    · obtain ⟨r, hr, heq⟩ := List.mem_map.mp (hmem c hc)
      rw [← heq, hstep.series, hstep.names]
      exact hlater r hr

/-! ## True prices -/

/-- The candle carries the prices of the record: `open` is in points, and the others are shifts from
it. Then a record whose low and high enclose its other prices gives a candle whose do. -/
structure TruePrices (digits : Int32) (r : RateInfo) (c : Candle) : Prop where
  openPrice : c.openPrice = (r.openPrice.toInt : Rat) / 10 ^ digits.toInt.toNat
  high : c.high = ((r.openPrice.toInt + r.high.toInt : Int) : Rat) / 10 ^ digits.toInt.toNat
  low : c.low = ((r.openPrice.toInt + r.low.toInt : Int) : Rat) / 10 ^ digits.toInt.toNat
  close : c.close = ((r.openPrice.toInt + r.close.toInt : Int) : Rat) / 10 ^ digits.toInt.toNat
  encloses : r.low.toInt ≤ min 0 r.close.toInt → max 0 r.close.toInt ≤ r.high.toInt →
    c.low ≤ min c.openPrice c.close ∧ max c.openPrice c.close ≤ c.high

/-- The digits for which `const_digits` has an entry. -/
def InDigits (digits : Int32) : Prop := 0 ≤ digits.toInt ∧ digits.toInt ≤ 5

instance (digits : Int32) : Decidable (InDigits digits) := inferInstanceAs (Decidable (_ ∧ _))

theorem constDigits_getD {n : Nat} (h : n ≤ 5) : constDigits.getD n 0 = 10 ^ n := by
  unfold constDigits
  interval_cases n <;> norm_num

theorem intPriceToDouble_eq {digits : Int32} (h : InDigits digits) (price : Int32) :
    intPriceToDouble price digits = (price.toInt : Rat) / 10 ^ digits.toInt.toNat := by
  have hn : digits.toInt.toNat ≤ 5 := Int.toNat_le.mpr h.2
  unfold intPriceToDouble
  rw [constDigits_getD hn]

/-- **The candle of a record carries its prices iff `open` is `0`**, so that a shift is a price. -/
theorem truePrices_iff (h : InDigits s.digits) (r : RateInfo) :
    TruePrices s.digits r (s.task.candle r) ↔ r.openPrice = 0 := by
  have hpow : (0 : Rat) < 10 ^ s.digits.toInt.toNat := pow_pos (by norm_num) _
  have hconvert := intPriceToDouble_eq h
  constructor
  · intro htrue
    have hhigh : (r.high.toInt : Rat) / 10 ^ s.digits.toInt.toNat =
        ((r.openPrice.toInt + r.high.toInt : Int) : Rat) / 10 ^ s.digits.toInt.toNat :=
      (hconvert r.high).symm.trans htrue.high
    rw [div_left_inj' (ne_of_gt hpow)] at hhigh
    have hzero : r.openPrice.toInt = 0 := by
      have : r.high.toInt = r.openPrice.toInt + r.high.toInt := by exact_mod_cast hhigh
      omega
    exact Int32.toInt_inj.mp hzero
  · intro hzero
    have hopen : r.openPrice.toInt = 0 := by rw [hzero]; rfl
    have hshift : ∀ price : Int32, intPriceToDouble price s.digits =
        ((r.openPrice.toInt + price.toInt : Int) : Rat) / 10 ^ s.digits.toInt.toNat := by
      intro price
      rw [hopen, Int.zero_add, hconvert]
    refine ⟨hconvert r.openPrice, hshift r.high, hshift r.low, hshift r.close, fun hlow hhigh => ?_⟩
    have hmono : ∀ {a b : Int32}, a.toInt ≤ b.toInt →
        intPriceToDouble a s.digits ≤ intPriceToDouble b s.digits := by
      intro a b hab
      rw [hconvert, hconvert]
      exact div_le_div_of_nonneg_right (by exact_mod_cast hab) (le_of_lt hpow)
    rw [← hopen] at hlow hhigh
    exact ⟨le_min (hmono (hlow.trans (min_le_left _ _))) (hmono (hlow.trans (min_le_right _ _))),
      max_le (hmono ((le_max_left _ _).trans hhigh)) (hmono ((le_max_right _ _).trans hhigh))⟩

/-- **Every candle a run publishes is that of a record of the history**, and it carries the record's
prices iff its `open` is `0`. -/
theorem published_prices_iff (s : Series) (h : InDigits s.digits) (w : World) (xs : List Turn) :
    ∀ c ∈ s.newCalls w xs, ∃ r ∈ s.history w, c.message = .candle (s.task.candle r) ∧
      (TruePrices s.digits r (s.task.candle r) ↔ r.openPrice = 0) := by
  intro c hc
  obtain ⟨cs, hl, hmem⟩ := ChartTask.turns_attempts xs w s.task
  rw [hl.newCalls] at hc
  obtain ⟨r, hr, heq⟩ := List.mem_map.mp (hmem c hc)
  exact ⟨r, (mem_backlog hr).1, (congrArg Prod.snd heq).symm, truePrices_iff h r⟩

/-- The newest candle of the run over two candles that finds no pause. -/
theorem published_prices_twoCandles :
    ∃ c ∈ eurusdM1.newCalls twoCandles (allOk 3), ∃ r ∈ eurusdM1.history twoCandles,
      c.message = .candle (eurusdM1.task.candle r) ∧
        (TruePrices eurusdM1.digits r (eurusdM1.task.candle r) ↔ r.openPrice = 0) :=
  ⟨_, List.mem_singleton_self _, published_prices_iff eurusdM1 (by decide) twoCandles (allOk 3) _
    (List.mem_singleton_self _)⟩

/-- **A published high is a shift**: `0.00007` for a candle that opens at `1.10002`. -/
theorem a_published_high_is_a_shift :
    ∃ c ∈ eurusdM1.newCalls twoCandles (allOk 3), ∃ r ∈ eurusdM1.history twoCandles,
      c.message = .candle (eurusdM1.task.candle r) ∧
        ¬ TruePrices eurusdM1.digits r (eurusdM1.task.candle r) := by
  refine ⟨_, List.mem_singleton_self _, ⟨120, 110002, 7, 0, 3⟩, by decide, rfl, fun h => ?_⟩
  exact absurd ((truePrices_iff (by decide) _).mp h) (by decide)

end TradeBridge
