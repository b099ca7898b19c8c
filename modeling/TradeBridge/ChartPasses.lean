import TradeBridge.ChartSync
import TradeBridge.Hooks
import TradeBridge.Isolation

/-!
# `publish_chart`: the M1 series of every symbol at once

`publish_chart` (`plugin.cpp:272-279`) detaches one task for each symbol of the table, and the
workers run them in any order. Two symbols whose names differ have different M1 files, so each task
runs as if it were alone (`Isolation`), and what the whole run publishes, logs and stores is told
series by series. The pool is not paused, the histories are sorted, the file system tells the names
apart, and a name with something to publish is valid UTF-8 (`sendsTail_iff`). Opening a time-point
file succeeds, as everywhere (`World`).

Results:
* `Series.point_after`: what one run leaves stored, whatever its publishes end with.
* **`publish_chart_sends_tails`**: a pass of `publish_chart` to its end, in any interleaving and
  with any answers of NATS, sends for each symbol exactly the candles at or after its stored time
  point, newest first, logs each failed one, stores each series' own time point and no other.
* `two_symbols_pass`: two symbols.
-/

namespace TradeBridge

open TradeBridge.Lib

/-- The series `publish_chart` takes of a symbol. -/
def seriesM1 (symbol : ConSymbol) : Series := ⟨symbol.symbol.text, symbol.digits, periodM1⟩

/-- What a run that comes to its end leaves stored for a series: the newest candle's time if no
candle of the history is behind the stored point, and else that point. -/
def Series.pointAfter (s : Series) (w : World) : Int :=
  match (s.history w).getLast? with
  | none => s.point w
  | some newest =>
    if (s.history w).all (isDue RateInfo.time (s.point w)) then newest.time else s.point w

/-- A pass from `w` to `w'` over the M1 series of the symbols of `w`: `made` are the calls of each.
They attempt the due candles of the series, their failures are logged, and the time points are
stored. -/
structure PublishedChart (w w' : World) (made : List (ConSymbol × List PublishCall)) : Prop where
  symbols : made.map Prod.fst = w.symbols
  attempts : ∀ x ∈ made, x.2.map PublishCall.attempt =
    ((seriesM1 x.1).due w).map ((seriesM1 x.1).attempt w.names)
  calls : ∃ cs, w'.calls = w.calls ++ cs ∧ Interleaving (made.map Prod.snd) cs
  logs : ∃ es, w'.logs = w.logs ++ es ∧
    Interleaving (made.map fun x => x.2.filterMap (seriesM1 x.1).failure) es
  points : ∀ symbol ∈ w.symbols, (seriesM1 symbol).point w' = (seriesM1 symbol).pointAfter w
  others : ∀ s : Series, (∀ symbol ∈ w.symbols, (seriesM1 symbol).file w ≠ s.file w) →
    s.point w' = s.point w

/-! ## One series -/

variable {s : Series} {w w' : World}

/-- The point is read from the series' own file. -/
theorem Series.point_of_file (hp : w'.platform = w.platform) (hn : w'.names = w.names)
    (hf : w'.files (s.file w) = w.files (s.file w)) : s.point w' = s.point w := by
  have hfile : w'.pointFile s.symbolName s.period = w.pointFile s.symbolName s.period := by
    unfold World.pointFile
    rw [hp, hn]
  unfold Series.point World.loadChartPoint
  rw [hfile, show w'.files (w.pointFile s.symbolName s.period) =
    w.files (w.pointFile s.symbolName s.period) from hf, hp]

/-- **What a run leaves stored** when it neither finds a pause nor throws. -/
theorem Series.point_after {xs : List Turn} (hfound : ChartTask.foundPaused w s.task xs = false)
    (hends : s.Ends w xs) (hthrew : (Task.chart (ChartTask.turns w s.task xs).2).threw = false) :
    s.point (ChartTask.turns w s.task xs).1 = s.pointAfter w := by
  obtain ⟨cs, hl, hk⟩ := ChartTask.turns_kept xs hfound hthrew
  obtain ⟨-, -, hnone⟩ := ChartTask.rest_of_ended hends (ChartTask.turns w s.task xs).1
  have hfiles := hk.files
  rw [hnone] at hfiles
  have hstores : s.task.stores w =
      if (s.history w).all (isDue RateInfo.time (s.point w)) then
        (s.history w).getLast?.map RateInfo.time else none := rfl
  have hkeep : s.task.stores w = none →
      s.point (ChartTask.turns w s.task xs).1 = s.point w := by
    intro h
    rw [h] at hfiles
    exact World.loadChartPoint_congr hl.platform hl.names hfiles _ _
  unfold Series.pointAfter
  cases hlast : (s.history w).getLast? with
  | none =>
    rw [hlast, Option.map_none, ite_self] at hstores
    exact hkeep hstores
  | some newest =>
    rw [hlast, Option.map_some] at hstores
    by_cases hall : (s.history w).all (isDue RateInfo.time (s.point w)) = true
    · rw [if_pos hall] at hstores
      rw [hstores] at hfiles
      simp only [if_pos hall]
      refine (World.loadChartPoint_congr (w := w.saveChartPoint s.symbolName newest.time s.period)
        hl.platform hl.names hfiles _ _).trans ?_
      exact World.loadChartPoint_saveChartPoint w s.symbolName newest.ctm s.period
    · rw [if_neg hall] at hstores
      simp only [if_neg hall]
      exact hkeep hstores

/-! ## The tasks of the pass -/

/-- Symbols whose names the file system tells apart have different M1 files. -/
theorem publishChart_apart (h : (w.symbols.map fun s => (seriesM1 s).folded w.platform).Nodup) :
    w.publishChart.Pairwise (Task.Apart w) := by
  unfold World.publishChart
  rw [List.pairwise_map]
  refine (List.pairwise_map.mp h).imp fun {a b} hne path ha hb => hne ?_
  have hfile : (seriesM1 a).file w = (seriesM1 b).file w :=
    (Option.some.inj ha).trans (Option.some.inj hb).symm
  have hperiod : ∀ s, (seriesM1 s).period ∈ chartPeriods := fun _ => List.mem_cons_self
  exact List.append_cancel_right ((file_eq_iff (hperiod a) (hperiod b)).mp hfile)

/-! ## The pass -/

/-- **A pass of `publish_chart` sends the unsynchronised tail of every symbol**, over sorted histories
and without a pause, when the symbols have files of their own and no name makes a publish throw. -/
theorem publish_chart_sends_tails {ts : List Task} (hpaused : w.paused = false)
    (hnames : (w.symbols.map fun s => (seriesM1 s).folded w.platform).Nodup)
    (hsorted : ∀ symbol ∈ w.symbols, Chronological ((seriesM1 symbol).history w))
    (hutf8 : ∀ symbol ∈ w.symbols, ChartPublishes w symbol.symbol.text periodM1 →
      utf8Valid symbol.symbol.text = true)
    (hr : (taskThreads fun _ => True).Reach (w, w.publishChart) (w', ts))
    (hended : ∀ t ∈ ts, t.ended = true) : ∃ made, PublishedChart w w' made := by
  obtain ⟨runs, hfst, hturns, hsnd, hrecords, hfiles, hother⟩ :=
    turnThreads_eachAlone (reach_unpaused hpaused hr) (publishChart_apart hnames)
  obtain ⟨ps, hpruns, hpsymbols, hps⟩ := exists_zip hfst
  -- each run, as one of its symbol's series
  have hsymbol : ∀ p ∈ ps, p.2 ∈ w.symbols := fun p hp => hpsymbols ▸ List.mem_map_of_mem hp
  have hrun : ∀ p ∈ ps, p.1 ∈ runs := fun p hp => hpruns ▸ List.mem_map_of_mem hp
  have htask : ∀ p ∈ ps, Task.turns w p.1.1 p.1.2 =
      ((ChartTask.turns w (seriesM1 p.2).task p.1.2).1,
        .chart (ChartTask.turns w (seriesM1 p.2).task p.1.2).2) := by
    intro p hp
    rw [hps p hp]
    exact Task.turns_chart p.1.2 w (seriesM1 p.2).task
  have hfound : ∀ p ∈ ps, ChartTask.foundPaused w (seriesM1 p.2).task p.1.2 = false :=
    fun p hp => ChartTask.foundPaused_of_unpaused (hturns p.1 (hrun p hp))
  have hends : ∀ p ∈ ps, (seriesM1 p.2).Ends w p.1.2 := by
    intro p hp
    have hmem : (Task.turns w p.1.1 p.1.2).2 ∈ ts := hsnd ▸ List.mem_map_of_mem (hrun p hp)
    have := hended _ hmem
    rwa [htask p hp] at this
  have hthrew : ∀ p ∈ ps, ∀ xs,
      (Task.chart (ChartTask.turns w (seriesM1 p.2).task xs).2).threw = false :=
    fun p hp => Series.turns_threw (hutf8 p.2 (hsymbol p hp))
  have hplace : World.SamePlace w w' :=
    ((tasks_local _ w).reach (reach_unpaused hpaused hr) ⟨rfl, rfl⟩ (publishChart_apart hnames)).1
  refine ⟨ps.map fun p => (p.2, (seriesM1 p.2).newCalls w p.1.2), ?_, ?_, ?_, ?_, ?_, ?_⟩
  · rw [List.map_map]
    exact hpsymbols
  · intro x hx
    obtain ⟨p, hp, rfl⟩ := List.mem_map.mp hx
    exact (SendsTail.of_noThrow (hsorted _ (hsymbol p hp)) (hthrew p hp)).attempts p.1.2
      (hfound p hp) (hends p hp)
  · obtain ⟨cs, hcs, hi⟩ := hrecords .calls
    refine ⟨cs, hcs, ?_⟩
    rw [← hpruns, List.map_map] at hi
    rw [List.map_map]
    refine (List.map_congr_left fun p hp => ?_) ▸ hi
    simp only [Function.comp_apply, htask p hp]
    rfl
  · obtain ⟨es, hes, hi⟩ := hrecords .logs
    refine ⟨es, hes, ?_⟩
    rw [← hpruns, List.map_map] at hi
    rw [List.map_map]
    refine (List.map_congr_left fun p hp => ?_) ▸ hi
    obtain ⟨cs, hl⟩ := ChartTask.turns_logged p.1.2 w (seriesM1 p.2).task
    have hlogs := hl.newLogs (hends p hp)
    simp only [Function.comp_apply, htask p hp]
    rw [hl.newCalls, ← hlogs]
    rfl
  · intro symbol hs
    rw [← hpsymbols] at hs
    obtain ⟨p, hp, rfl⟩ := List.mem_map.mp hs
    rw [← Series.point_after (hfound p hp) (hends p hp) (hthrew p hp p.1.2)]
    have hfile := hfiles p.1 (hrun p hp) ((seriesM1 p.2).file w) (by rw [hps p hp]; rfl)
    rw [htask p hp] at hfile
    obtain ⟨cs, hl⟩ := ChartTask.turns_logged p.1.2 w (seriesM1 p.2).task
    refine Series.point_of_file (hplace.platform.trans hl.platform.symm)
      (hplace.names.trans hl.names.symm) ?_
    have hpath : (seriesM1 p.2).file (ChartTask.turns w (seriesM1 p.2).task p.1.2).1 =
        (seriesM1 p.2).file w := by
      unfold Series.file World.pointFile
      rw [hl.platform, hl.names]
    rw [hpath]
    exact hfile
  · intro s hs
    refine Series.point_of_file hplace.platform hplace.names (hother _ fun t ht => ?_)
    obtain ⟨symbol, hsym, rfl⟩ := List.mem_map.mp ht
    exact fun h => hs symbol hsym (Option.some.inj h)

theorem publishChart_publishes (w : World) : ∀ t ∈ w.publishChart, t.publishes = true := by
  intro t ht
  obtain ⟨symbol, -, rfl⟩ := List.mem_map.mp ht
  rfl

/-- A second symbol. -/
def usdjpy : ConSymbol := { eurusd with symbol := ⟨bytes "USDJPY", by decide, by decide⟩ }

/-- Two symbols, each with a history of one candle, and nothing stored. -/
def twoSymbols : World :=
  World.start .win32 (.ofServer (bytes "mt4api") (bytes "srv")) [] [eurusd, usdjpy]
    fun _ _ => some [sixty]

/-- A pass over two symbols. -/
theorem two_symbols_pass : ∃ w' made, PublishedChart twoSymbols w' made := by
  obtain ⟨w', ts, hr, hts⟩ := exists_pass (w := twoSymbols) twoSymbols.publishChart [] rfl
    (fun _ h => by cases h) (publishChart_publishes twoSymbols)
  refine ⟨w', publish_chart_sends_tails rfl (by decide +kernel) (by decide) (fun s hs _ => ?_)
    hr hts⟩
  rcases List.mem_cons.mp hs with rfl | hs
  · decide
  · obtain rfl := List.mem_singleton.mp hs
    decide

end TradeBridge
