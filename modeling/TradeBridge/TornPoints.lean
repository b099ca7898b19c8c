import TradeBridge.ChartSync

/-!
# A time-point file that was cut

`save_chart_point` truncates the file and writes the bytes of the point, and a crash may cut the
write anywhere. `load_chart_point` reads what is there into a `time_t` that was zero and does not
look at the result, so it reads a point that is not newer than the one that was meant to be stored
(`Series.point_of_torn`). A run from an older point walks the history as one from a newer point
does, step by step, and goes on where that one stops (`Lockstep`). What is cut is the write: opening
the file succeeds, as everywhere (`World`).

Results:
* `Lockstep.turns`: of two runs that meet the same pauses and answers, the one from the older point
  makes at least the calls of the other, in the same order.
* **`torn_point_skips_nothing`**: from a cut or absent file a run publishes every candle it would
  have published from the whole file.
-/

namespace TradeBridge

open TradeBridge.Lib

/-- What a write of `t` that was cut leaves of the series' file: no file, or a first part of the one
that `save_chart_point` leaves. -/
def Series.Torn (s : Series) (w : World) (t : Int) : Prop :=
  w.files (s.file w) = none ∨
    ∃ content whole, w.files (s.file w) = some content ∧
      (w.saveChartPoint s.symbolName t s.period).files (s.file w) = some whole ∧ content <+: whole

/-- The write of `t` was not cut. -/
def Series.Whole (s : Series) (w : World) (t : Int) : Prop :=
  w.files (s.file w) = (w.saveChartPoint s.symbolName t s.period).files (s.file w)

/-- The point read is between zero and `t`, and it is `t` if the file is whole. -/
structure SafePoint (s : Series) (w : World) (t : Int) : Prop where
  nonneg : 0 ≤ s.point w
  le : s.point w ≤ t
  whole : s.Whole w t → s.point w = t

/-- A run from `w` publishes every candle that it would have published from `intact`: where both
meet the same pauses and answers of NATS, and where both are successful. -/
structure SkipsNothing (s : Series) (intact w : World) : Prop where
  sent : ∀ xs, ∀ m ∈ (ChartTask.turns intact s.task xs).1.sent,
    m ∈ (ChartTask.turns w s.task xs).1.sent
  synced : ∀ w₁ w₂, Synced s intact w₁ → Synced s w w₂ → ∀ m ∈ w₁.sent, m ∈ w₂.sent

variable {s : Series} {w : World} {t : Int}

/-! ## The point that is read -/

/-- A finished store leaves the bytes of the point. -/
theorem Series.files_saveChartPoint (s : Series) (w : World) (t : Int) :
    (w.saveChartPoint s.symbolName t s.period).files (s.file w) =
      some (leOfInt w.platform.sizeofTimeT t) := Function.update_self _ _ _

/-- **A cut file reads as a point between zero and the stored one.** -/
theorem Series.point_of_torn (h : s.Torn w t) (h0 : 0 ≤ t)
    (hfit : 2 * t < ((256 ^ w.platform.sizeofTimeT : Nat) : Int)) :
    0 ≤ s.point w ∧ s.point w ≤ t := by
  unfold Series.point World.loadChartPoint
  rcases h with hnone | ⟨content, whole, hsome, hwhole, hcut⟩
  · rw [show w.files (w.pointFile s.symbolName s.period) = none from hnone]
    exact ⟨le_refl 0, h0⟩
  · rw [show w.files (w.pointFile s.symbolName s.period) = some content from hsome]
    obtain rfl := Option.some.inj (hwhole.symm.trans (s.files_saveChartPoint w t))
    exact intOfLe_of_prefix h0 hfit hcut

theorem Series.point_of_whole (h : s.Whole w t) (h0 : 0 ≤ t)
    (hfit : 2 * t < ((256 ^ w.platform.sizeofTimeT : Nat) : Int)) : s.point w = t := by
  unfold Series.point World.loadChartPoint
  rw [show w.files (w.pointFile s.symbolName s.period) = some _ from
    h.trans (s.files_saveChartPoint w t)]
  exact intOfLe_leOfInt (by omega) hfit

/-- A finished store leaves the file whole. -/
theorem Series.whole_saveChartPoint (s : Series) (w : World) (t : Int) :
    s.Whole (w.saveChartPoint s.symbolName t s.period) t :=
  (s.files_saveChartPoint w t).trans
    (s.files_saveChartPoint (w.saveChartPoint s.symbolName t s.period) t).symm

/-! ## Two runs side by side -/

/-- The same place of the loop, where the second run has loaded the point `p`, which is not newer
than what the first has. -/
inductive Behind (p : Int) : ChartPc → ChartPc → Prop
  | quotes : Behind p .quotes .quotes
  | load (newest : RateInfo) (rates : List RateInfo) :
      Behind p (.load newest rates) (.load newest rates)
  | stop (newest rate : RateInfo) (older : List RateInfo) {fromTime : Int} (h : p ≤ fromTime) :
      Behind p (.stop newest fromTime rate older) (.stop newest p rate older)
  | publish (newest rate : RateInfo) (older : List RateInfo) {fromTime : Int}
      (h : p ≤ fromTime) :
      Behind p (.publish newest fromTime rate older) (.publish newest p rate older)
  | failed (newest : RateInfo) (older : List RateInfo) (e : Bytes) {fromTime : Int}
      (h : p ≤ fromTime) :
      Behind p (.failed newest fromTime older e) (.failed newest p older e)
  | save (newest : RateInfo) : Behind p (.save newest) (.save newest)

/-- Two runs of the series in worlds that differ in their files: at the same place, or the first has
ended. -/
inductive Lockstep (s : Series) : World → ChartTask → World → ChartTask → Prop
  | along {w : World} {files : Bytes → Option Bytes} {pc pc' : ChartPc}
      (point : s.point { w with files := files } ≤ s.point w)
      (place : Behind (s.point { w with files := files }) pc pc') :
      Lockstep s w { s.task with pc := pc } { w with files := files } { s.task with pc := pc' }
  | ahead {w w' : World} {t t' : ChartTask} (ended : (Task.chart t).ended = true)
      (calls : w.calls <+: w'.calls) : Lockstep s w t w' t'

/-- At the head of the loop the first run returns, or both go on alike. -/
theorem behind_loop {p fromTime : Int} (h : p ≤ fromTime) (newest : RateInfo)
    (rates : List RateInfo) : ChartPc.loop newest fromTime rates = .done ∨
      Behind p (.loop newest fromTime rates) (.loop newest p rates) := by
  cases rates with
  | nil => exact Or.inr (.save newest)
  | cons rate older =>
    simp only [ChartPc.loop]
    by_cases hlt : rate.time < fromTime
    · exact Or.inl (if_pos hlt)
    · have hlt' : ¬ rate.time < p := fun hp => hlt (lt_of_lt_of_le hp h)
      rw [if_neg hlt, if_neg hlt']
      split
      · exact Or.inr (.stop newest rate older h)
      · exact Or.inr (.publish newest rate older h)

theorem Lockstep.loop {w : World} {files : Bytes → Option Bytes} {fromTime : Int}
    (point : s.point { w with files := files } ≤ s.point w)
    (h : s.point { w with files := files } ≤ fromTime) (newest : RateInfo)
    (rates : List RateInfo) :
    Lockstep s w { s.task with pc := .loop newest fromTime rates } { w with files := files }
      { s.task with pc := .loop newest (s.point { w with files := files }) rates } := by
  rcases behind_loop h newest rates with hdone | hplace
  · rw [hdone]
    exact .ahead rfl (List.prefix_refl _)
  · exact .along point hplace

/-- Where the answer to a publish leads. -/
def ChartPc.answered (newest : RateInfo) (fromTime : Int) (older : List RateInfo) :
    PublishResult → ChartPc
  | .ok => .loop newest fromTime older
  | .error e => .failed newest fromTime older e
  | .threw => .threw

theorem ChartTask.step_publish (t : ChartTask) (w : World) (o : Outcome) (newest rate : RateInfo)
    (fromTime : Int) (older : List RateInfo) :
    ChartTask.step { t with pc := .publish newest fromTime rate older } w o =
      ((w.publish o.status w.names.topicNameMt4Candle (.candle (t.candle rate))).1,
        { t with
          pc := .answered newest fromTime older
            (w.publish o.status w.names.topicNameMt4Candle (.candle (t.candle rate))).2 }) := by
  have hcandle : ChartTask.candle { t with pc := .publish newest fromTime rate older } rate =
      t.candle rate := rfl
  simp only [ChartTask.step, hcandle]
  cases (w.publish o.status w.names.topicNameMt4Candle (.candle (t.candle rate))).2 <;> rfl

/-- **One step keeps the two runs side by side**, or the first one ends. -/
theorem Lockstep.step {w w' : World} {t t' : ChartTask} (h : Lockstep s w t w' t') (o : Outcome) :
    Lockstep s (t.step w o).1 (t.step w o).2 (t'.step w' o).1 (t'.step w' o).2 := by
  cases h with
  | ahead ended calls =>
    have hstay : t.step w o = (w, t) := by
      obtain ⟨symbolName, digits, period, pc⟩ := t
      cases pc <;> first | rfl | exact Bool.noConfusion ended
    rw [hstay]
    exact .ahead ended (calls.trans ((Task.chart t').step_calls_grow w' o))
  | along point place =>
    cases place with
    | quotes =>
      simp only [ChartTask.step]
      cases (World.historyQuotes _ _ _).map List.reverse with
      | none => exact .ahead rfl (List.prefix_refl _)
      | some rates =>
        cases rates with
        | nil => exact .ahead rfl (List.prefix_refl _)
        | cons newest older => exact .along point (.load newest _)
    | load newest rates => exact .loop point point newest rates
    | stop newest rate older hle =>
      simp only [ChartTask.step]
      split
      · exact .ahead rfl (List.prefix_refl _)
      · exact .along point (.publish newest rate older hle)
    | publish newest rate older hle =>
      rw [ChartTask.step_publish, ChartTask.step_publish]
      simp only [World.publish]
      cases TradeBridge.publish _ _ _ with
      | ok => exact .loop (w := { w with calls := w.calls ++ [_] }) point hle newest older
      | error e =>
        exact .along (w := { w with calls := w.calls ++ [_] }) point (.failed newest older e hle)
      | threw => exact .ahead rfl (List.prefix_refl _)
    | failed newest older e hle =>
      exact .loop (w := w.logError (s.task.failedText e)) point hle newest older
    | save newest => exact .ahead rfl (List.prefix_refl _)

/-- A pause is the same for both. -/
theorem Lockstep.pause {w w' : World} {t t' : ChartTask} (h : Lockstep s w t w' t') (b : Bool) :
    Lockstep s { w with paused := b } t { w' with paused := b } t' := by
  cases h with
  | ahead ended calls => exact .ahead ended calls
  | along point place => exact .along (w := { w with paused := b }) point place

theorem Lockstep.turns : ∀ (xs : List Turn) {w w' : World} {t t' : ChartTask},
    Lockstep s w t w' t' → (ChartTask.turns w t xs).1.calls <+: (ChartTask.turns w' t' xs).1.calls
  | [], _, _, _, _, h => by
    cases h with
    | ahead ended calls => exact calls
    | along point place => exact List.prefix_refl _
  | x :: xs, _, _, _, _, h => Lockstep.turns xs ((h.pause x.paused).step x.outcome)

/-! ## From a cut file -/

/-- A store of `t` changes the files only. -/
theorem lockstep_of_point_le {s : Series} {w : World} {t : Int}
    (h : s.point w ≤ s.point (w.saveChartPoint s.symbolName t s.period)) :
    Lockstep s (w.saveChartPoint s.symbolName t s.period) s.task w s.task :=
  show Lockstep s (w.saveChartPoint s.symbolName t s.period) s.task
    { w.saveChartPoint s.symbolName t s.period with files := w.files } s.task from .along h .quotes

/-- **A cut time-point file makes a run skip no candle**: the point read is between zero and the one
that was to be stored, it is that one if the file is whole, and what a run publishes from the
whole file it publishes from the cut or absent one too. -/
theorem torn_point_skips_nothing (h0 : 0 ≤ t)
    (hfit : 2 * t < ((256 ^ w.platform.sizeofTimeT : Nat) : Int)) (h : s.Torn w t) :
    SafePoint s w t ∧ SkipsNothing s (w.saveChartPoint s.symbolName t s.period) w := by
  obtain ⟨hnonneg, hle⟩ := Series.point_of_torn h h0 hfit
  have hwhole : s.point (w.saveChartPoint s.symbolName t s.period) = t :=
    Series.point_of_whole (s.whole_saveChartPoint w t) h0 hfit
  refine ⟨⟨hnonneg, hle, fun hw => Series.point_of_whole hw h0 hfit⟩, fun xs m hm => ?_,
    fun w₁ w₂ h₁ h₂ m hm => ?_⟩
  · exact World.sent_mono ((lockstep_of_point_le (hwhole.symm ▸ hle)).turns xs) hm
  · rw [h₁.sent] at hm
    rw [h₂.sent]
    have htail : s.tail (w.saveChartPoint s.symbolName t s.period) <+: s.tail w := by
      unfold Series.tail
      rw [hwhole]
      exact backlog_antitone hle _
    rcases List.mem_append.mp hm with hm | hm
    · exact List.mem_append.mpr (Or.inl hm)
    · exact List.mem_append.mpr (Or.inr ((htail.map s.message).subset hm))

/-- The store of a point was cut behind its second byte. -/
def tornCandles : World :=
  { twoCandles with
    files := Function.update twoCandles.files (eurusdM1.file twoCandles)
      (some ((leOfInt 4 1700000000).take 2)) }

/-- The two bytes of 1700000000 read as 61696. -/
theorem torn_tornCandles : eurusdM1.point tornCandles = 61696 ∧
    SafePoint eurusdM1 tornCandles 1700000000 ∧
      SkipsNothing eurusdM1 (tornCandles.saveChartPoint eurusdM1.symbolName 1700000000
        eurusdM1.period) tornCandles :=
  ⟨by decide, torn_point_skips_nothing (by decide) (by decide)
    (Or.inr ⟨(leOfInt 4 1700000000).take 2, leOfInt 4 1700000000, by decide, by decide,
      List.take_prefix _ _⟩)⟩

end TradeBridge
