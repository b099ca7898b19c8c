import TradeBridge.Exceptions
import TradeBridge.Lib.Backlog
import TradeBridge.TimePoints

/-!
# One run of `publish_chart_by_symbol`, from its start to its end

The backward loop of `publish_chart_by_symbol` (`plugin.cpp:224-270`) stops at the first candle
before the stored time point, so it walks the `backlog` of the history. At every place of a run
three things are settled, unless a pause or an exception comes in between: the candles it has still
to attempt (`rest`), the time it is going to store, if any (`stores`), and the log entry it owes
(`pending`). `Logged` and `Kept` are what a step, and a run, does to them. Opening the time-point
file succeeds, as everywhere (`World`).

Results:
* **`ChartTask.turns_logged`**, **`ChartTask.turns_kept`**: a run logs its failures, and without a
  pause or an exception it keeps the account.
* **`ChartTask.turns_found`**: a run that finds a pause has attempted a prefix and stored nothing.
* **`sendsTail_iff`**: over a sorted history a run attempts the candles at or after the stored point
  and logs each failure iff the symbol's name is UTF-8 or no candle is due.
* `a_cyrillic_name_loses_the_tail`: a name in a single-byte code page.
-/

namespace TradeBridge

open TradeBridge.Lib

/-! ## What a run has before it -/

/-- The series of a task. -/
def ChartTask.series (t : ChartTask) : Series := ⟨t.symbolName, t.digits, t.period⟩

/-- The candles of the history at or after the stored time point, as the loop meets them. -/
def Series.tail (s : Series) (w : World) : List RateInfo :=
  backlog RateInfo.time (s.point w) (s.history w)

/-- The candles the task has still to attempt. -/
def ChartTask.rest (w : World) (t : ChartTask) : List RateInfo :=
  match t.pc with
  | .quotes => t.series.tail w
  | .load _ rates => rates.takeWhile (isDue RateInfo.time (t.series.point w))
  | .stop _ fromTime rate older | .publish _ fromTime rate older =>
    rate :: older.takeWhile (isDue RateInfo.time fromTime)
  | .failed _ fromTime older _ => older.takeWhile (isDue RateInfo.time fromTime)
  | .save _ | .done | .threw => []

/-- The time the task is going to store. -/
def ChartTask.stores (w : World) (t : ChartTask) : Option Int :=
  match t.pc with
  | .quotes =>
    if (t.series.history w).all (isDue RateInfo.time (t.series.point w)) then
      (t.series.history w).getLast?.map RateInfo.time
    else none
  | .load newest rates =>
    if rates.all (isDue RateInfo.time (t.series.point w)) then some newest.time else none
  | .stop newest fromTime _ older | .publish newest fromTime _ older
  | .failed newest fromTime older _ =>
    if older.all (isDue RateInfo.time fromTime) then some newest.time else none
  | .save newest => some newest.time
  | .done | .threw => none

/-- The log entry the task owes. -/
def ChartTask.pending (t : ChartTask) : List LogEntry :=
  match t.pc with
  | .failed _ _ _ e => [.error (t.failedText e)]
  | _ => []

/-- The task is before `is_paused`. -/
def ChartTask.atStop (t : ChartTask) : Bool :=
  match t.pc with
  | .stop _ _ _ _ => true
  | _ => false

/-- Some look of the task at the pool finds it paused. -/
def ChartTask.foundPaused : World → ChartTask → List Turn → Bool
  | _, _, [] => false
  | w, t, x :: xs => (t.atStop && x.paused) ||
      foundPaused (t.step { w with paused := x.paused } x.outcome).1
        (t.step { w with paused := x.paused } x.outcome).2 xs

/-- The topic and the message of a call. -/
def PublishCall.attempt (c : PublishCall) : Bytes × Message := (c.topic, c.message)

/-- The same of the call for a candle. -/
def Series.attempt (s : Series) (names : Names) (r : RateInfo) : Bytes × Message :=
  (names.topicNameMt4Candle, s.message r)

/-- What is logged for a call that returned an error. -/
def Series.failure (s : Series) (c : PublishCall) : Option LogEntry :=
  match c.result with
  | .error e => some (.error (s.task.failedText e))
  | _ => none

/-- The files after `time` is stored for the series, if there is one. -/
def Series.filesAfter (s : Series) (w : World) : Option Int → Bytes → Option Bytes
  | none => w.files
  | some time => (w.saveChartPoint s.symbolName time s.period).files

/-- The turns of a chart task. -/
def ChartTask.turns : World → ChartTask → List Turn → World × ChartTask
  | w, t, [] => (w, t)
  | w, t, x :: xs => turns (t.step { w with paused := x.paused } x.outcome).1
      (t.step { w with paused := x.paused } x.outcome).2 xs

/-- The task has made the calls `cs`, it has logged or owes each error among them, and it has thrown
if one of them did. -/
structure ChartTask.Logged (w : World) (t : ChartTask) (cs : List PublishCall) (w' : World)
    (t' : ChartTask) : Prop where
  series : t'.series = t.series
  platform : w'.platform = w.platform
  names : w'.names = w.names
  historyQuotes : w'.historyQuotes = w.historyQuotes
  calls : w'.calls = w.calls ++ cs
  logs : w'.logs ++ t'.pending = w.logs ++ (t.pending ++ cs.filterMap t.series.failure)
  threw : (Task.chart t').threw = true ↔
    (Task.chart t).threw = true ∨ ∃ c ∈ cs, c.result = .threw

/-- The calls `cs` attempt the first candles of the rest, and the task has stored or is going to
store what it was going to. -/
structure ChartTask.Kept (w : World) (t : ChartTask) (cs : List PublishCall) (w' : World)
    (t' : ChartTask) : Prop where
  attempts : cs.map PublishCall.attempt ++ (t'.rest w').map (t.series.attempt w.names) =
    (t.rest w).map (t.series.attempt w.names)
  files : t.series.filesAfter w' (t'.stores w') = t.series.filesAfter w (t.stores w)

/-! ## The head of the loop -/

variable {w : World} {t : ChartTask}

theorem ChartTask.series_step (t : ChartTask) (w : World) (o : Outcome) :
    (t.step w o).2.series = t.series := by
  obtain ⟨hname, hdigits, hperiod⟩ := t.step_captures w o
  unfold ChartTask.series
  rw [hname, hdigits, hperiod]

theorem not_isDue_iff {r : RateInfo} {p : Int} : isDue RateInfo.time p r = false ↔ r.time < p := by
  rw [← Bool.not_eq_true, isDue_iff, Int.not_le]

theorem rest_loop (w : World) (symbolName : Bytes) (digits : Int32) (period : Int)
    (newest : RateInfo) (fromTime : Int) (rates : List RateInfo) :
    ChartTask.rest w ⟨symbolName, digits, period, .loop newest fromTime rates⟩ =
      rates.takeWhile (isDue RateInfo.time fromTime) := by
  cases rates with
  | nil => rfl
  | cons rate older =>
    simp only [ChartPc.loop, List.takeWhile_cons]
    by_cases hlt : rate.time < fromTime
    · rw [if_pos hlt, not_isDue_iff.mpr hlt]
      rfl
    · rw [if_neg hlt, isDue_iff.mpr (Int.not_lt.mp hlt)]
      split <;> rfl

theorem stores_loop (w : World) (symbolName : Bytes) (digits : Int32) (period : Int)
    (newest : RateInfo) (fromTime : Int) (rates : List RateInfo) :
    ChartTask.stores w ⟨symbolName, digits, period, .loop newest fromTime rates⟩ =
      if rates.all (isDue RateInfo.time fromTime) then some newest.time else none := by
  cases rates with
  | nil => rfl
  | cons rate older =>
    have hall : (rate :: older).all (isDue RateInfo.time fromTime) =
        (isDue RateInfo.time fromTime rate && older.all (isDue RateInfo.time fromTime)) := rfl
    simp only [ChartPc.loop]
    by_cases hlt : rate.time < fromTime
    · rw [if_pos hlt, hall, not_isDue_iff.mpr hlt]
      rfl
    · rw [if_neg hlt, hall, isDue_iff.mpr (Int.not_lt.mp hlt), Bool.true_and]
      split <;> rfl

theorem pending_loop (symbolName : Bytes) (digits : Int32) (period : Int)
    (newest : RateInfo) (fromTime : Int) (rates : List RateInfo) :
    ChartTask.pending ⟨symbolName, digits, period, .loop newest fromTime rates⟩ = [] := by
  cases rates with
  | nil => rfl
  | cons rate older =>
    simp only [ChartPc.loop]
    split
    · rfl
    · split <;> rfl

/-! ## One step -/

/-- The calls of one step. -/
def ChartTask.callsNow (w : World) (t : ChartTask) (o : Outcome) : List PublishCall :=
  (((Task.chart t).atPublish w.names).map (w.callOf o.status)).toList

/-- The call of a step is the one the task stands before. -/
theorem ChartTask.mem_callsNow {t : ChartTask} {w : World} {o : Outcome} {c : PublishCall} :
    c ∈ t.callsNow w o ↔
      ∃ p, (Task.chart t).atPublish w.names = some p ∧ w.callOf o.status p = c := by
  unfold ChartTask.callsNow
  rw [Option.mem_toList, Option.map_eq_some_iff]

/-- A step throws iff its call does. -/
theorem ChartTask.step_threw_iff (t : ChartTask) (w : World) (o : Outcome) :
    (Task.chart (t.step w o).2).threw = true ↔
      (Task.chart t).threw = true ∨ ∃ c ∈ t.callsNow w o, c.result = .threw := by
  rw [t.step_threw]
  refine or_congr_right ⟨?_, ?_⟩
  · rintro ⟨p, hp, henc⟩
    exact ⟨_, ChartTask.mem_callsNow.mpr ⟨p, hp, rfl⟩, publish_threw_iff.mpr henc⟩
  · rintro ⟨c, hc, hres⟩
    obtain ⟨p, hp, rfl⟩ := ChartTask.mem_callsNow.mp hc
    exact ⟨p, hp, publish_threw_iff.mp hres⟩

/-- **One step of the task** logs or owes what fails in it, in a paused pool too. -/
theorem ChartTask.step_logged (t : ChartTask) (w : World) (o : Outcome) :
    Logged w t (t.callsNow w o) (t.step w o).1 (t.step w o).2 := by
  have hsame := t.step_same w o
  refine ⟨t.series_step w o, hsame.platform, hsame.names, hsame.historyQuotes,
    (Task.chart t).step_calls w o, ?_, t.step_threw_iff w o⟩
  obtain ⟨symbolName, digits, period, pc⟩ := t
  cases pc with
  | quotes =>
    simp only [ChartTask.step]
    split <;> rfl
  | load newest rates =>
    simp only [ChartTask.step, pending_loop]
    rfl
  | stop newest fromTime rate older =>
    simp only [ChartTask.step]
    split <;> rfl
  | publish newest fromTime rate older =>
    have hnow : ChartTask.callsNow w ⟨symbolName, digits, period, .publish newest fromTime rate older⟩
        o = [w.callOf o.status (Series.attempt ⟨symbolName, digits, period⟩ w.names rate)] := rfl
    rw [hnow]
    simp only [ChartTask.step, List.filterMap_cons, Series.failure]
    split
    · rename_i h
      have hres : (w.callOf o.status
          (Series.attempt ⟨symbolName, digits, period⟩ w.names rate)).result = .ok := h
      rw [hres, pending_loop]
      rfl
    · rename_i e h
      have hres : (w.callOf o.status
          (Series.attempt ⟨symbolName, digits, period⟩ w.names rate)).result = .error e := h
      rw [hres]
      rfl
    · rename_i h
      have hres : (w.callOf o.status
          (Series.attempt ⟨symbolName, digits, period⟩ w.names rate)).result = .threw := h
      rw [hres]
      rfl
  | failed newest fromTime older e =>
    simp only [ChartTask.step, pending_loop]
    exact List.append_nil _
  | save newest => rfl
  | done => rfl
  | threw => rfl

/-- A step that makes no call, stores nothing and settles nothing new. -/
theorem ChartTask.Kept.silent {t' : ChartTask} (hrest : t'.rest w = t.rest w)
    (hstores : t'.stores w = t.stores w) : Kept w t [] w t' :=
  ⟨by rw [hrest]; rfl, by rw [hstores]⟩

/-- **One step of the task keeps what it has before it**, unless it finds a pause or throws. -/
theorem ChartTask.step_kept {o : Outcome} (hstop : (t.atStop && w.paused) = false)
    (hthrew : (Task.chart (t.step w o).2).threw = false) :
    Kept w t (t.callsNow w o) (t.step w o).1 (t.step w o).2 := by
  obtain ⟨symbolName, digits, period, pc⟩ := t
  cases pc with
  | quotes =>
    simp only [ChartTask.step]
    split
    · rename_i newest older hq
      obtain ⟨rates, hrates, hrev⟩ := Option.map_eq_some_iff.mp hq
      have hhist : Series.history ⟨symbolName, digits, period⟩ w = rates := by
        unfold Series.history
        rw [hrates]
        rfl
      refine Kept.silent ?_ ?_
      · simp only [ChartTask.rest, Series.tail, backlog, ChartTask.series, hhist, hrev]
      · have hlast : rates.getLast? = some newest := by rw [← List.head?_reverse, hrev]; rfl
        simp only [ChartTask.stores, ChartTask.series, hhist, hlast, ← hrev, List.all_reverse]
        rfl
    · rename_i hq
      have hhist : Series.history ⟨symbolName, digits, period⟩ w = [] := by
        unfold Series.history
        cases hrates : w.historyQuotes symbolName period with
        | none => rfl
        | some rates =>
          cases hrev : rates.reverse with
          | nil => exact List.reverse_eq_nil_iff.mp hrev
          | cons newest older =>
            rw [hrates, Option.map_some, hrev] at hq
            exact absurd rfl (hq newest older)
      refine Kept.silent ?_ ?_
      · simp only [ChartTask.rest, Series.tail, backlog, ChartTask.series, hhist]
        rfl
      · simp only [ChartTask.stores, ChartTask.series, hhist]
        rfl
  | load newest rates => exact Kept.silent (rest_loop _ _ _ _ _ _ _) (stores_loop _ _ _ _ _ _ _)
  | stop newest fromTime rate older =>
    have hp : w.paused = false := hstop
    simp only [ChartTask.step, hp]
    exact Kept.silent rfl rfl
  | publish newest fromTime rate older =>
    simp only [ChartTask.step] at hthrew ⊢
    split
    · refine ⟨?_, ?_⟩
      · rw [rest_loop]
        rfl
      · rw [stores_loop]
        rfl
    · exact ⟨rfl, rfl⟩
    · rename_i h
      rw [h] at hthrew
      cases hthrew
  | failed newest fromTime older e =>
    refine ⟨?_, ?_⟩
    · simp only [ChartTask.step, rest_loop]
      rfl
    · simp only [ChartTask.step, stores_loop]
      rfl
  | save newest => exact ⟨rfl, rfl⟩
  | done => exact ⟨rfl, rfl⟩
  | threw => exact ⟨rfl, rfl⟩

/-! ## Runs -/

theorem ChartTask.Logged.trans {w' w'' : World} {t' t'' : ChartTask} {cs ds : List PublishCall}
    (h : Logged w t cs w' t') (h' : Logged w' t' ds w'' t'') : Logged w t (cs ++ ds) w'' t'' := by
  refine ⟨h'.series.trans h.series, h'.platform.trans h.platform, h'.names.trans h.names,
    h'.historyQuotes.trans h.historyQuotes, ?_, ?_, ?_⟩
  · rw [h'.calls, h.calls, List.append_assoc]
  · rw [h'.logs, ← List.append_assoc, h.logs, h.series, List.filterMap_append]
    simp only [List.append_assoc]
  · rw [h'.threw, h.threw, or_assoc]
    simp only [List.mem_append, or_and_right, exists_or]

theorem ChartTask.Kept.trans {w' w'' : World} {t' t'' : ChartTask} {cs ds : List PublishCall}
    (h : Kept w t cs w' t') (hl : Logged w t cs w' t') (h' : Kept w' t' ds w'' t'') :
    Kept w t (cs ++ ds) w'' t'' := by
  obtain ⟨hattempts, hfiles⟩ := h'
  rw [hl.series] at hattempts hfiles
  rw [hl.names] at hattempts
  refine ⟨?_, hfiles.trans h.files⟩
  rw [List.map_append, List.append_assoc, hattempts, h.attempts]

/-- A run of the pool's task is one of the chart task. -/
theorem Task.turns_chart : ∀ (xs : List Turn) (w : World) (t : ChartTask),
    Task.turns w (.chart t) xs = ((ChartTask.turns w t xs).1, .chart (ChartTask.turns w t xs).2)
  | [], _, _ => rfl
  | _ :: xs, _, _ => turns_chart xs _ _

theorem ChartTask.Logged.refl (w : World) (t : ChartTask) : Logged w t [] w t :=
  ⟨rfl, rfl, rfl, rfl, (List.append_nil _).symm, by rw [List.filterMap_nil, List.append_nil],
    by simp⟩

/-- Whether the pool is paused makes no difference to the account. -/
theorem ChartTask.Logged.of_paused {b : Bool} {w' : World} {t' : ChartTask} {cs : List PublishCall}
    (h : Logged { w with paused := b } t cs w' t') : Logged w t cs w' t' :=
  ⟨h.series, h.platform, h.names, h.historyQuotes, h.calls, h.logs, h.threw⟩

theorem ChartTask.Kept.of_paused {b : Bool} {w' : World} {t' : ChartTask} {cs : List PublishCall}
    (h : Kept { w with paused := b } t cs w' t') : Kept w t cs w' t' :=
  ⟨h.attempts, h.files⟩

/-- **A run logs each of its failures**, or owes the last one. -/
theorem ChartTask.turns_logged : ∀ (xs : List Turn) (w : World) (t : ChartTask),
    ∃ cs, Logged w t cs (ChartTask.turns w t xs).1 (ChartTask.turns w t xs).2
  | [], w, t => ⟨[], Logged.refl w t⟩
  | x :: xs, w, t => by
    have hstep := t.step_logged { w with paused := x.paused } x.outcome
    obtain ⟨ds, hds⟩ := turns_logged xs (t.step { w with paused := x.paused } x.outcome).1
      (t.step { w with paused := x.paused } x.outcome).2
    exact ⟨_, hstep.of_paused.trans hds⟩

/-- An exception stays where it is. -/
theorem ChartTask.turns_threw (xs : List Turn) (w : World) {t : ChartTask}
    (h : (Task.chart t).threw = true) : (Task.chart (ChartTask.turns w t xs).2).threw = true := by
  have := congrArg Prod.snd (Task.turns_chart xs w t)
  rw [Task.turns_of_ended (Task.ended_of_threw h)] at this
  exact (congrArg Task.threw this).symm.trans h

/-- **A run keeps what the task has before it**, unless it finds a pause or throws. -/
theorem ChartTask.turns_kept : ∀ (xs : List Turn) {w : World} {t : ChartTask},
    foundPaused w t xs = false → (Task.chart (ChartTask.turns w t xs).2).threw = false →
    ∃ cs, Logged w t cs (ChartTask.turns w t xs).1 (ChartTask.turns w t xs).2 ∧
      Kept w t cs (ChartTask.turns w t xs).1 (ChartTask.turns w t xs).2
  | [], w, t, _, _ => ⟨[], Logged.refl w t, rfl, rfl⟩
  | x :: xs, w, t, hfound, hthrew => by
    obtain ⟨hstop, hfound'⟩ := (Bool.or_eq_false_iff).mp hfound
    have hnext : (Task.chart (t.step { w with paused := x.paused } x.outcome).2).threw = false := by
      cases hcase : (Task.chart (t.step { w with paused := x.paused } x.outcome).2).threw with
      | false => rfl
      | true => rw [← hthrew, ← turns_threw xs _ hcase]; rfl
    have hlogged := t.step_logged { w with paused := x.paused } x.outcome
    have hkept := ChartTask.step_kept (w := { w with paused := x.paused }) hstop hnext
    obtain ⟨ds, hl, hk⟩ := turns_kept xs hfound' hthrew
    exact ⟨_, hlogged.of_paused.trans hl, hkept.of_paused.trans hlogged.of_paused hk⟩

/-- After its end a task does nothing and looks at nothing. -/
theorem ChartTask.turns_idle (h : (Task.chart t).ended = true) : ∀ (xs : List Turn) (w : World),
    Logged w t [] (ChartTask.turns w t xs).1 (ChartTask.turns w t xs).2 ∧
      (ChartTask.turns w t xs).1.files = w.files ∧ foundPaused w t xs = false
  | [], w => ⟨Logged.refl w t, rfl, rfl⟩
  | x :: xs, w => by
    have hstay : t.step { w with paused := x.paused } x.outcome = ({ w with paused := x.paused }, t) := by
      obtain ⟨symbolName, digits, period, pc⟩ := t
      cases pc <;> first | rfl | exact Bool.noConfusion h
    have hstop : t.atStop = false := by
      obtain ⟨symbolName, digits, period, pc⟩ := t
      cases pc <;> first | rfl | exact Bool.noConfusion h
    obtain ⟨hl, hfiles, hfound⟩ := turns_idle h xs { w with paused := x.paused }
    rw [ChartTask.turns, ChartTask.foundPaused, hstay, hstop]
    exact ⟨hl.of_paused, hfiles, hfound⟩

/-- **A run that finds a pause** has attempted a first part of the rest and stored nothing. -/
theorem ChartTask.turns_found : ∀ (xs : List Turn) {w : World} {t : ChartTask},
    foundPaused w t xs = true →
    ∃ cs, Logged w t cs (ChartTask.turns w t xs).1 (ChartTask.turns w t xs).2 ∧
      cs.map PublishCall.attempt <+: (t.rest w).map (t.series.attempt w.names) ∧
      (ChartTask.turns w t xs).1.files = w.files
  | [], _, _, hfound => Bool.noConfusion hfound
  | x :: xs, w, t, hfound => by
    have hlogged := t.step_logged { w with paused := x.paused } x.outcome
    by_cases hstop : (t.atStop && x.paused) = true
    · -- this look finds the pause
      obtain ⟨hat, hpaused⟩ := Bool.and_eq_true_iff.mp hstop
      have hstep : t.callsNow { w with paused := x.paused } x.outcome = [] ∧
          (Task.chart (t.step { w with paused := x.paused } x.outcome).2).ended = true ∧
          (t.step { w with paused := x.paused } x.outcome).1.files = w.files := by
        obtain ⟨symbolName, digits, period, pc⟩ := t
        cases pc with
        | stop newest fromTime rate older =>
          refine ⟨rfl, ?_, rfl⟩
          simp only [ChartTask.step, hpaused]
          rfl
        | _ => exact Bool.noConfusion hat
      obtain ⟨hnone, hended, hfiles⟩ := hstep
      obtain ⟨hl, hfiles', -⟩ := turns_idle hended xs
        (t.step { w with paused := x.paused } x.outcome).1
      rw [hnone] at hlogged
      exact ⟨_, hlogged.of_paused.trans hl, List.nil_prefix, hfiles'.trans hfiles⟩
    · have hstop' := Bool.not_eq_true _ ▸ hstop
      have hfound' : foundPaused (t.step { w with paused := x.paused } x.outcome).1
          (t.step { w with paused := x.paused } x.outcome).2 xs = true := by
        rw [ChartTask.foundPaused, hstop', Bool.false_or] at hfound
        exact hfound
      -- the step does not end the task, since a later look finds the pause
      have hgoes : (Task.chart (t.step { w with paused := x.paused } x.outcome).2).ended = false := by
        cases hcase : (Task.chart (t.step { w with paused := x.paused } x.outcome).2).ended with
        | false => rfl
        | true => rw [(turns_idle hcase xs _).2.2] at hfound'; cases hfound'
      have hthrew := (Bool.or_eq_false_iff.mp hgoes).2
      have hkept := ChartTask.step_kept (w := { w with paused := x.paused }) hstop' hthrew
      have hfiles : (t.step { w with paused := x.paused } x.outcome).1.files = w.files := by
        refine t.step_files { w with paused := x.paused } x.outcome fun newest hpc => ?_
        unfold ChartTask.step at hgoes
        rw [hpc] at hgoes
        cases hgoes
      obtain ⟨ds, hl, hpre, hfiles'⟩ := turns_found xs hfound'
      refine ⟨_, hlogged.of_paused.trans hl, ?_, hfiles'.trans hfiles⟩
      rw [hlogged.series, hlogged.names] at hpre
      have hrest := hkept.of_paused.attempts
      rw [← hrest, List.map_append]
      exact (List.prefix_append_right_inj _).mpr hpre

/-! ## The unsynchronised tail -/

/-- The publish calls of a run of the series. -/
def Series.newCalls (s : Series) (w : World) (xs : List Turn) : List PublishCall :=
  (ChartTask.turns w s.task xs).1.calls.drop w.calls.length

/-- The log entries of a run of the series. -/
def Series.newLogs (s : Series) (w : World) (xs : List Turn) : List LogEntry :=
  (ChartTask.turns w s.task xs).1.logs.drop w.logs.length

/-- The run has come to its end, by returning or by an exception. -/
def Series.Ends (s : Series) (w : World) (xs : List Turn) : Prop :=
  (Task.chart (ChartTask.turns w s.task xs).2).ended = true

/-- The candles at or after the stored time point, newest first. -/
def Series.due (s : Series) (w : World) : List RateInfo :=
  ((s.history w).filter fun r => decide (s.point w ≤ r.time)).reverse

/-- The entry reports the failed call. -/
def Series.Reports (s : Series) (c : PublishCall) (e : LogEntry) : Prop :=
  (∃ text, e = .error text) ∧ ∀ text, c.result = .error text → e = .error (s.task.failedText text)

/-- Unless it finds the pool paused, a run attempts each due candle once, newest first, and logs one
error for each publish that fails; when it finds it paused, it attempts a first part of them and
leaves the stored time point. -/
structure SendsTail (s : Series) (w : World) : Prop where
  attempts : ∀ xs, ChartTask.foundPaused w s.task xs = false → s.Ends w xs →
    (s.newCalls w xs).map PublishCall.attempt = (s.due w).map (s.attempt w.names)
  reports : ∀ xs, ChartTask.foundPaused w s.task xs = false → s.Ends w xs →
    List.Forall₂ s.Reports ((s.newCalls w xs).filter fun c => c.result != .ok) (s.newLogs w xs)
  paused : ∀ xs, ChartTask.foundPaused w s.task xs = true →
    (s.newCalls w xs).map PublishCall.attempt <+: (s.due w).map (s.attempt w.names) ∧
      s.point (ChartTask.turns w s.task xs).1 = s.point w

variable {s : Series}

theorem Series.tail_eq_due (h : Chronological (s.history w)) : s.tail w = s.due w :=
  backlog_eq_filter h

/-- No exception leaves a run of a series whose name is UTF-8, or that has nothing to publish. -/
theorem Series.turns_threw (h : ChartPublishes w s.symbolName s.period → utf8Valid s.symbolName = true)
    (xs : List Turn) : (Task.chart (ChartTask.turns w s.task xs).2).threw = false := by
  have hturns := congrArg Prod.snd (Task.turns_chart xs w s.task)
  rw [← show (Task.turns w (.chart s.task) xs).2 = .chart (ChartTask.turns w s.task xs).2 from hturns]
  by_cases hpub : ChartPublishes w s.symbolName s.period
  · exact chart_turns_valid xs (h hpub) rfl
  · exact chart_turns_idle xs (t := s.task) trivial hpub

/-- A task that has ended has nothing before it. -/
theorem ChartTask.rest_of_ended (h : (Task.chart t).ended = true) (w : World) :
    t.rest w = [] ∧ t.pending = [] ∧ t.stores w = none := by
  obtain ⟨symbolName, digits, period, pc⟩ := t
  cases pc <;> first
    | exact ⟨rfl, rfl, rfl⟩
    | exact Bool.noConfusion h

theorem ChartTask.Logged.newCalls {cs : List PublishCall} {xs : List Turn}
    (h : ChartTask.Logged w s.task cs (ChartTask.turns w s.task xs).1
      (ChartTask.turns w s.task xs).2) : s.newCalls w xs = cs := by
  unfold Series.newCalls
  rw [h.calls, List.drop_left]

/-- At its end a run has logged what it owed. -/
theorem ChartTask.Logged.newLogs {cs : List PublishCall} {xs : List Turn}
    (h : ChartTask.Logged w s.task cs (ChartTask.turns w s.task xs).1
      (ChartTask.turns w s.task xs).2) (hends : s.Ends w xs) :
    s.newLogs w xs = cs.filterMap s.failure := by
  obtain ⟨-, hpending, -⟩ := ChartTask.rest_of_ended hends w
  have hlogs := h.logs
  rw [hpending, List.append_nil] at hlogs
  unfold Series.newLogs
  rw [hlogs, List.drop_left]
  rfl

/-- The errors among calls that do not throw are those that failed. -/
theorem forall₂_failures : ∀ {cs : List PublishCall}, (∀ c ∈ cs, c.result ≠ .threw) →
    List.Forall₂ s.Reports (cs.filter fun c => c.result != .ok) (cs.filterMap s.failure)
  | [], _ => List.Forall₂.nil
  | c :: cs, h => by
    have ih := forall₂_failures fun d hd => h d (List.mem_cons_of_mem _ hd)
    cases hres : c.result with
    | ok =>
      simp only [List.filter_cons, List.filterMap_cons, Series.failure, hres]
      exact ih
    | error e =>
      simp only [List.filter_cons, List.filterMap_cons, Series.failure, hres]
      refine List.Forall₂.cons ⟨⟨_, rfl⟩, fun text htext => ?_⟩ ih
      rw [hres] at htext
      cases htext
      rfl
    | threw => exact absurd hres (h c List.mem_cons_self)

/-- A call that throws has no error entry. -/
theorem length_failures (s : Series) : ∀ cs : List PublishCall,
    (cs.filterMap s.failure).length + (cs.filter fun c => c.result == .threw).length =
      (cs.filter fun c => c.result != .ok).length
  | [] => rfl
  | c :: cs => by
    have ih := length_failures s cs
    cases hres : c.result with
    | ok => simpa [List.filter_cons, List.filterMap_cons, Series.failure, hres] using ih
    | error e =>
      simp only [List.filter_cons, List.filterMap_cons, Series.failure, hres]
      simp
      omega
    | threw =>
      simp only [List.filter_cons, List.filterMap_cons, Series.failure, hres]
      simp
      omega

theorem ChartTask.foundPaused_of_unpaused : ∀ {xs : List Turn} {w : World} {t : ChartTask},
    (∀ x ∈ xs, x.paused = false) → foundPaused w t xs = false
  | [], _, _, _ => rfl
  | x :: xs, w, t, h => by
    have hx := h x List.mem_cons_self
    have ih := foundPaused_of_unpaused (fun y hy => h y (List.mem_cons_of_mem _ hy))
      (w := (t.step { w with paused := x.paused } x.outcome).1)
      (t := (t.step { w with paused := x.paused } x.outcome).2)
    rw [ChartTask.foundPaused, ih, hx, Bool.and_false, Bool.or_false]

theorem SendsTail.of_noThrow (hsort : Chronological (s.history w))
    (hno : ∀ xs, (Task.chart (ChartTask.turns w s.task xs).2).threw = false) : SendsTail s w := by
  refine ⟨fun xs hfound hends => ?_, fun xs hfound hends => ?_, fun xs hfound => ?_⟩
  · obtain ⟨cs, hl, hk⟩ := ChartTask.turns_kept xs hfound (hno xs)
    obtain ⟨hrest, -⟩ := ChartTask.rest_of_ended hends (ChartTask.turns w s.task xs).1
    have := hk.attempts
    rw [hrest, List.map_nil, List.append_nil] at this
    rw [hl.newCalls, this, ← Series.tail_eq_due hsort]
    rfl
  · obtain ⟨cs, hl⟩ := ChartTask.turns_logged xs w s.task
    rw [hl.newCalls, hl.newLogs hends]
    refine forall₂_failures fun c hc hthrew => ?_
    have := hl.threw.mpr (Or.inr ⟨c, hc, hthrew⟩)
    rw [hno xs] at this
    cases this
  · obtain ⟨cs, hl, hpre, hfiles⟩ := ChartTask.turns_found xs hfound
    rw [hl.newCalls, ← Series.tail_eq_due hsort]
    exact ⟨hpre, World.loadChartPoint_congr hl.platform hl.names hfiles _ _⟩

/-- **A run that throws owes an error entry** that nothing will log. -/
theorem SendsTail.utf8 (h : SendsTail s w) (hpub : ChartPublishes w s.symbolName s.period) :
    utf8Valid s.symbolName = true := by
  cases hv : utf8Valid s.symbolName with
  | true => rfl
  | false =>
    have hthrew : (Task.chart (ChartTask.turns w s.task (allOk 4)).2).threw = true := by
      have hturns : (Task.turns w (.chart s.task) (allOk 4)).2.threw = true :=
        chart_turns_throw hpub hv
      rw [Task.turns_chart] at hturns
      exact hturns
    have hfound : ChartTask.foundPaused w s.task (allOk 4) = false :=
      ChartTask.foundPaused_of_unpaused fun x hx => (mem_allOk hx).1
    have hreports := (h.reports _ hfound (Task.ended_of_threw hthrew)).length_eq
    obtain ⟨cs, hl⟩ := ChartTask.turns_logged (allOk 4) w s.task
    obtain ⟨c, hc, hres⟩ : ∃ c ∈ cs, c.result = .threw :=
      (hl.threw.mp hthrew).resolve_left Bool.false_ne_true
    rw [hl.newCalls, hl.newLogs (Task.ended_of_threw hthrew)] at hreports
    have hone : 0 < (cs.filter fun c => c.result == .threw).length :=
      List.length_pos_of_mem (List.mem_filter.mpr ⟨hc, by rw [hres]; rfl⟩)
    have := length_failures s cs
    omega

/-- **A run sends exactly the unsynchronised tail** of a sorted history iff the symbol's name is
UTF-8 or no candle is due. -/
theorem sendsTail_iff (hsort : Chronological (s.history w)) :
    SendsTail s w ↔
      (ChartPublishes w s.symbolName s.period → utf8Valid s.symbolName = true) :=
  ⟨SendsTail.utf8, fun h => .of_noThrow hsort (Series.turns_threw h)⟩

/-- The two candles of a symbol with an ASCII name. -/
theorem sendsTail_twoCandles : SendsTail eurusdM1 twoCandles :=
  (sendsTail_iff (by decide)).mpr fun _ => by decide

/-- The name is one Cyrillic letter in the code page 1251. -/
def cyrillicM1 : Series := ⟨[0xC5], 5, periodM1⟩

/-- **After a name in a single-byte code page the older of two candles is not attempted**, and
nothing is logged. -/
theorem a_cyrillic_name_loses_the_tail : ¬ SendsTail cyrillicM1 twoCandles := fun h =>
  absurd (h.utf8 ⟨_, _, rfl, rfl, by decide⟩) (by decide)

end TradeBridge
