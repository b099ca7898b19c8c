import TradeBridge.Mirror
import TradeBridge.TornPoints

/-!
# The plugin dies and is started again

A crash ends all tasks at once, wherever they stand, and leaves the files; where it meets a task
inside `save_chart_point`, a first part of the bytes (`Crash`). `Lives` are the steps of
`chartThreads` and crashes, in any order and number: what a subscriber has received stays received.
At first nothing is stored or sent; the history has no candle from before 1970, stays sorted and
only grows at its end. Opening the time-point file succeeds, as everywhere (`World`).

Results:
* `Lives.invariant`: the invariants of the chart cursor and of the candle topic survive crashes.
* **`no_candle_lost_in_crashes`**: every candle behind the time point that a later start finds has
  been published, when no run stored past a candle it failed to publish.
* **`mirror_after_crashes`**: one successful run after any of this, and the subscriber holds the
  history, no candle less and none more.
-/

namespace TradeBridge

open TradeBridge.Lib

/-- What a crash leaves in a state with the runs `ts`: the files as they are, or with the store of
one run cut anywhere, a first part of what `save_chart_point` leaves. -/
inductive Crash (s : Series) (w : World) (ts : List ChartRun) : World → Prop
  | between : Crash s w ts w
  | storing {t : ChartRun} {newest : RateInfo} {content whole : Bytes} (ht : t ∈ ts)
      (place : t.task.pc = .save newest) (stores : StoresAfterSuccess t newest)
      (written : (w.saveChartPoint s.symbolName newest.time s.period).files (s.file w) = some whole)
      (cut : content <+: whole) :
      Crash s w ts { w with files := Function.update w.files (s.file w) (some content) }

/-- The states of the plugin's lives, each ended by a crash but the last. -/
inductive Lives (s : Series) (w₀ : World) : World → List ChartRun → Prop
  | start : Lives s w₀ w₀ []
  | step {w w' : World} {ts ts' : List ChartRun} (h : Lives s w₀ w ts)
      (hs : (chartThreads s DatedSince1970 StoresAfterSuccess).Step (w, ts) (w', ts')) :
      Lives s w₀ w' ts'
  | crash {w w' : World} {ts : List ChartRun} (h : Lives s w₀ w ts) (hc : Crash s w ts w') :
      Lives s w₀ w' []

variable {s : Series} {w₀ w w' : World} {ts : List ChartRun}

/-- **A store that was cut keeps the shared invariant**: what is read of it is not newer. -/
theorem CursorInv.torn (h : CursorInv s w) {t : ChartRun} (ht : RunInv s w t)
    {newest : RateInfo} (hpc : t.task.pc = .save newest) (hok : StoresAfterSuccess t newest)
    {content whole : Bytes}
    (hwhole : (w.saveChartPoint s.symbolName newest.time s.period).files (s.file w) = some whole)
    (hcut : content <+: whole) :
    CursorInv s { w with files := Function.update w.files (s.file w) (some content) } := by
  have hwalk : Walk s w t.failed newest [] := by
    have := ht.walk
    rw [hpc] at this
    exact this
  obtain ⟨hmem, hbehind⟩ := hwalk.behind h.sorted
  have hnonneg : 0 ≤ newest.time := h.dated newest hmem
  have hfit : 2 * newest.time < ((256 ^ w.platform.sizeofTimeT : Nat) : Int) := by
    have hpow : (256 ^ 4 : Nat) ≤ 256 ^ w.platform.sizeofTimeT :=
      Nat.pow_le_pow_right (by omega) w.platform.four_le
    have hlt : newest.time < 2 ^ 31 := Int32.toInt_lt newest.ctm
    omega
  have htorn : s.Torn { w with files := Function.update w.files (s.file w) (some content) }
      newest.time := by
    -- a store writes the same bytes whatever is in the file before
    obtain rfl := Option.some.inj ((s.files_saveChartPoint w newest.time).symm.trans hwhole)
    exact Or.inr ⟨content, _, Function.update_self _ _ _, s.files_saveChartPoint _ _, hcut⟩
  obtain ⟨-, hle⟩ := Series.point_of_torn htorn hnonneg hfit
  refine ⟨h.sorted, h.dated, fun r hr hlt => ?_, Or.inr ⟨newest, hmem, hle⟩⟩
  rcases hbehind r hr (lt_of_lt_of_le hlt hle) with hsent | hfail
  · exact hsent
  · have := hok r hfail
    omega

theorem Crash.invariant (hc : Crash s w ts w') (h : CursorInv s w ∧ FromHistory s w)
    (hts : ∀ t ∈ ts, RunInv s w t) : CursorInv s w' ∧ FromHistory s w' := by
  cases hc with
  | between => exact h
  | storing ht place stores written cut =>
    exact ⟨h.1.torn (hts _ ht) place stores written cut, h.2⟩

/-- **The invariants survive crashes.** -/
theorem Lives.invariant (h : Lives s w₀ w ts) (h₀ : CursorInv s w₀ ∧ FromHistory s w₀) :
    (CursorInv s w ∧ FromHistory s w) ∧ ∀ t ∈ ts, RunInv s w t := by
  induction h with
  | start => exact ⟨h₀, fun _ ht => absurd ht List.not_mem_nil⟩
  | step _ hs ih => exact (mirror_invariant s).step hs ih
  | crash _ hc ih => exact ⟨hc.invariant ih.1 ih.2, fun _ ht => absurd ht List.not_mem_nil⟩

theorem Lives.of_fresh (h : Lives s w₀ w ts) (h₀ : Fresh s w₀) (hnone : w₀.sent = [])
    (hd : ∀ r ∈ s.history w₀, DatedSince1970 r) : CursorInv s w ∧ FromHistory s w := by
  refine (h.invariant ⟨CursorInv.fresh h₀ hd, fun m hm => ?_⟩).1
  rw [hnone] at hm
  cases hm

/-- **No candle is lost behind the stored time point, whatever crashes there were**: in any number
of lives, with tasks and stores cut anywhere, in which no run stored after failing to publish an
older candle. -/
theorem no_candle_lost_in_crashes (h₀ : Fresh s w₀) (hnone : w₀.sent = [])
    (hd : ∀ r ∈ s.history w₀, DatedSince1970 r) (h : Lives s w₀ w ts) : NoCandleLost s w :=
  (h.of_fresh h₀ hnone hd).1.covered

/-- **One successful run makes up for all crashes**: after it the subscriber holds the history, whose
timestamps differ, no candle less and none more. -/
theorem mirror_after_crashes {v : World} (h₀ : Fresh s w₀) (hnone : w₀.sent = [])
    (hd : ∀ r ∈ s.history w₀, DatedSince1970 r) (h : Lives s w₀ v ts)
    (hsorted : (s.history v).Pairwise fun a b => a.time < b.time) (hsync : Synced s v w) :
    Mirrors s w := by
  obtain ⟨hcursor, hfrom⟩ := h.of_fresh h₀ hnone hd
  exact Mirrors.of_synced hcursor hfrom hsorted hsync

/-! ## A store that is cut -/

/-- A run of the system is part of a life. -/
theorem Lives.reach (h : Lives s w₀ w ts) {b : World × List ChartRun}
    (hr : (chartThreads s DatedSince1970 StoresAfterSuccess).Reach (w, ts) b) :
    Lives s w₀ b.1 b.2 := by
  induction hr with
  | refl => exact h
  | tail _ hs ih => exact ih.step hs

/-- A run over two candles that has published both and stands before its store. -/
def beforeStore : World × ChartRun :=
  ChartRun.steps (twoCandles, ⟨eurusdM1.task, []⟩) (List.replicate 5 (.ofStatus .ok))

/-- Its store was cut before the first byte. -/
def cutStore : World :=
  { beforeStore.1 with
    files := Function.update beforeStore.1.files (eurusdM1.file beforeStore.1) (some []) }

theorem lives_cutStore : Lives eurusdM1 twoCandles cutStore [] := by
  have hrun : Lives eurusdM1 twoCandles beforeStore.1 [beforeStore.2] :=
    Lives.start.reach (Threads.Reach.of_spawn rfl
      (safeThreads_steps eurusdM1 (List.replicate 5 (.ofStatus .ok))
        (twoCandles, ⟨eurusdM1.task, []⟩) (by decide)))
  have hstores : StoresAfterSuccess beforeStore.2 ⟨120, 110002, 7, 0, 3⟩ := fun r hr => nomatch hr
  exact hrun.crash (@Crash.storing _ _ _ _ ⟨120, 110002, 7, 0, 3⟩ [] _ List.mem_cons_self
    (by decide) hstores (eurusdM1.files_saveChartPoint _ _) List.nil_prefix)

/-- Nothing is stored, and both candles were sent. -/
theorem no_candle_lost_cutStore :
    eurusdM1.point cutStore = 0 ∧ NoCandleLost eurusdM1 cutStore :=
  ⟨by decide, no_candle_lost_in_crashes twoCandles_fresh rfl (by decide) lives_cutStore⟩

/-- The next run sends both again, and the subscriber holds both. -/
theorem mirror_after_cutStore : ∃ w, Synced eurusdM1 cutStore w ∧ Mirrors eurusdM1 w := by
  obtain ⟨w, hw⟩ := exists_synced (s := eurusdM1) (by decide) cutStore
  exact ⟨w, hw, mirror_after_crashes twoCandles_fresh rfl (by decide) lives_cutStore (by decide) hw⟩

end TradeBridge
