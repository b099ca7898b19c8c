import TradeBridge.Lib.Threads
import TradeBridge.Steps

/-!
# The chart cursor: which candles are behind the stored time point

Runs of `publish_chart_by_symbol` for one series (symbol and period), interleaved in any order on
the workers of the pool, while the history grows at its end and the pool is paused and resumed.
`chartThreads` is that system; its parameters say which candles the history holds and which runs may
store, so that one definition serves the system of the code and the one in which the property below
holds.

A run walks its snapshot of the history from the newest candle down. It stores the newest candle's
time when the loop ends, whatever its publishes ended with, so a candle whose publish failed can
end up behind the stored point. Opening the time-point file succeeds, as everywhere (`World`).

Results:
* `walkAt_loop`, `Walk.visit`: the invariant of a run. The candles of its snapshot that it has
  passed were published or are among those it failed to publish.
* **`no_candle_lost`**: if no candle is dated before 1970 and no run stores after failing to publish
  a candle older than its newest, every candle behind the stored point has been published.
* `a_failed_candle_is_lost`: without the second condition it fails, on a history of two candles.
-/

namespace TradeBridge

open TradeBridge.Lib

/-- A chart series: the captures of its tasks. -/
structure Series where
  symbolName : Bytes
  digits : Int32
  period : Int

namespace Series

variable (s : Series)

/-- The task `publish_chart_by_symbol` detaches for the series. -/
def task : ChartTask := ⟨s.symbolName, s.digits, s.period, .quotes⟩

/-- The history array, oldest candle first. -/
def history (w : World) : List RateInfo := (w.historyQuotes s.symbolName s.period).getD []

/-- The stored time point. -/
def point (w : World) : Int := w.loadChartPoint s.symbolName s.period

/-- The message of one candle. -/
def message (r : RateInfo) : Message := .candle (s.task.candle r)

end Series

/-- The array is sorted by `ctm`. -/
def Chronological (rates : List RateInfo) : Prop := rates.Pairwise fun a b => a.time ≤ b.time

instance (rates : List RateInfo) : Decidable (Chronological rates) :=
  inferInstanceAs (Decidable (List.Pairwise _ _))

/-- Every candle strictly before the stored time point has been published. -/
def NoCandleLost (s : Series) (w : World) : Prop :=
  ∀ r ∈ s.history w, r.time < s.point w → s.message r ∈ w.sent

/-! ## The system -/

/-- A run of `publish_chart_by_symbol`, and the candles it failed to publish so far. -/
structure ChartRun where
  task : ChartTask
  failed : List RateInfo

/-- One step of the task; a publish that does not succeed adds its candle to `failed`. -/
def ChartRun.step (t : ChartRun) (w : World) (o : Outcome) : World × ChartRun :=
  ((t.task.step w o).1,
    { task := (t.task.step w o).2
      failed := match t.task.pc with
        | .publish _ _ rate _ =>
          if (w.publish o.status w.names.topicNameMt4Candle (.candle (t.task.candle rate))).2 = .ok
          then t.failed else rate :: t.failed
        | _ => t.failed })

/-- The history gains candles at its end and stays sorted. -/
def Grows (s : Series) (w w' : World) : Prop :=
  ∃ q more, w' = { w with historyQuotes := q } ∧ s.history w' = s.history w ++ more ∧
    Chronological (s.history w')

/-- Runs of one series over a history of candles satisfying `Dated`, in which a run stores its
newest candle's time only when `Stores`. -/
def chartThreads (s : Series) (Dated : RateInfo → Prop) (Stores : ChartRun → RateInfo → Prop) :
    Threads World ChartRun where
  env w w' := (∃ b, w' = { w with paused := b }) ∨ (Grows s w w' ∧ ∀ r ∈ s.history w', Dated r)
  spawn _ t := t = ⟨s.task, []⟩
  run w t w' t' := (∀ newest, t.task.pc = .save newest → Stores t newest) ∧
    ∃ o, t.step w o = (w', t')

/-- The system of the code: any candle, any store. -/
def codeThreads (s : Series) : Threads World ChartRun :=
  chartThreads s (fun _ => True) fun _ _ => True

/-- No candle is dated before 1970. -/
def DatedSince1970 (r : RateInfo) : Prop := 0 ≤ r.time

instance : DecidablePred DatedSince1970 := fun _ => inferInstanceAs (Decidable (_ ≤ _))

/-- Every candle the run failed to publish is as new as the one whose time it stores. -/
def StoresAfterSuccess (t : ChartRun) (newest : RateInfo) : Prop :=
  ∀ r ∈ t.failed, newest.time ≤ r.time

/-- Nothing is stored yet for the series, and its history is sorted. -/
structure Fresh (s : Series) (w : World) : Prop where
  sorted : Chronological (s.history w)
  noFile : w.files (w.pointFile s.symbolName s.period) = none

/-! ## One run -/

/-- The run has passed the candles of its snapshot above `rest`: each was published or is among
those it failed to publish. -/
def Walk (s : Series) (w : World) (failed : List RateInfo) (newest : RateInfo)
    (rest : List RateInfo) : Prop :=
  ∃ passed, rest.reverse ++ passed <+: s.history w ∧
    (rest.reverse ++ passed).getLast? = some newest ∧
    ∀ r ∈ passed, s.message r ∈ w.sent ∨ r ∈ failed

/-- The same by place. -/
def WalkAt (s : Series) (w : World) (failed : List RateInfo) : ChartPc → Prop
  | .quotes => True
  | .load newest rates => Walk s w failed newest rates
  | .stop newest _ rate older => Walk s w failed newest (rate :: older)
  | .publish newest _ rate older => Walk s w failed newest (rate :: older)
  | .failed newest _ older _ => Walk s w failed newest older
  | .save newest => Walk s w failed newest []
  | .done => True
  | .threw => True

theorem Walk.mono {s : Series} {w w' : World} {failed failed' : List RateInfo} {newest : RateInfo}
    {rest : List RateInfo} (h : Walk s w failed newest rest)
    (hh : s.history w <+: s.history w') (hs : ∀ m ∈ w.sent, m ∈ w'.sent)
    (hf : ∀ r ∈ failed, r ∈ failed') : Walk s w' failed' newest rest := by
  obtain ⟨passed, hpre, hlast, hpassed⟩ := h
  exact ⟨passed, hpre.trans hh, hlast, fun r hr => (hpassed r hr).imp (hs _) (hf r)⟩

theorem WalkAt.mono {s : Series} {w w' : World} {failed : List RateInfo} {pc : ChartPc}
    (h : WalkAt s w failed pc) (hh : s.history w <+: s.history w')
    (hs : ∀ m ∈ w.sent, m ∈ w'.sent) : WalkAt s w' failed pc := by
  cases pc with
  | quotes => trivial
  | done => trivial
  | threw => trivial
  | _ => exact Walk.mono h hh hs fun _ hr => hr

/-- The candle at hand is passed once it was published or has failed. -/
theorem Walk.visit {s : Series} {w w' : World} {failed failed' : List RateInfo}
    {newest rate : RateInfo} {older : List RateInfo} (h : Walk s w failed newest (rate :: older))
    (hh : s.history w <+: s.history w') (hs : ∀ m ∈ w.sent, m ∈ w'.sent)
    (hf : ∀ r ∈ failed, r ∈ failed') (hrate : s.message rate ∈ w'.sent ∨ rate ∈ failed') :
    Walk s w' failed' newest older := by
  obtain ⟨passed, hpre, hlast, hpassed⟩ := h
  rw [List.reverse_cons, List.append_assoc, List.singleton_append] at hpre hlast
  refine ⟨rate :: passed, hpre.trans hh, hlast, fun r hr => ?_⟩
  rcases List.mem_cons.mp hr with rfl | hr
  · exact hrate
  · exact (hpassed r hr).imp (hs _) (hf r)

/-- **The loop head keeps the walk**, whichever way the loop goes on. -/
theorem walkAt_loop {s : Series} {w : World} {failed : List RateInfo} {newest : RateInfo}
    (fromTime : Int) {rest : List RateInfo} (h : Walk s w failed newest rest) :
    WalkAt s w failed (.loop newest fromTime rest) := by
  cases rest with
  | nil => exact h
  | cons rate older =>
    simp only [ChartPc.loop]
    split_ifs
    · trivial
    · exact h
    · exact h

/-- A finished walk has passed every candle older than its newest. -/
theorem Walk.behind {s : Series} {w : World} {failed : List RateInfo} {newest : RateInfo}
    (h : Walk s w failed newest []) (hsort : Chronological (s.history w)) :
    newest ∈ s.history w ∧
      ∀ r ∈ s.history w, r.time < newest.time → s.message r ∈ w.sent ∨ r ∈ failed := by
  obtain ⟨passed, ⟨tail, htail⟩, hlast, hpassed⟩ := h
  rw [List.reverse_nil, List.nil_append] at htail hlast
  have hnew : newest ∈ passed := List.mem_of_getLast? hlast
  unfold Chronological at hsort
  rw [← htail] at hsort ⊢
  refine ⟨List.mem_append.mpr (Or.inl hnew), fun r hr hlt => ?_⟩
  rcases List.mem_append.mp hr with hr | hr
  · exact hpassed r hr
  · -- a candle appended since the snapshot is no older than its newest
    have := (List.pairwise_append.mp hsort).2.2 newest hnew r hr
    omega

/-! ## The invariants -/

/-- The invariant of the shared state. -/
structure CursorInv (s : Series) (w : World) : Prop where
  sorted : Chronological (s.history w)
  dated : ∀ r ∈ s.history w, DatedSince1970 r
  covered : NoCandleLost s w
  bounded : s.point w ≤ 0 ∨ ∃ r ∈ s.history w, s.point w ≤ r.time

/-- The invariant of a run. -/
structure RunInv (s : Series) (w : World) (t : ChartRun) : Prop where
  symbolName : t.task.symbolName = s.symbolName
  digits : t.task.digits = s.digits
  period : t.task.period = s.period
  walk : WalkAt s w t.failed t.task.pc

theorem RunInv.candle {s : Series} {w : World} {t : ChartRun} (h : RunInv s w t) (r : RateInfo) :
    Message.candle (t.task.candle r) = s.message r := by
  unfold Series.message ChartTask.candle Series.task
  rw [h.symbolName, h.digits]

theorem CursorInv.fresh {s : Series} {w : World} (h : Fresh s w)
    (hd : ∀ r ∈ s.history w, DatedSince1970 r) : CursorInv s w := by
  have hp : s.point w = 0 := by
    unfold Series.point World.loadChartPoint
    rw [h.noFile]
  refine ⟨h.sorted, hd, fun r hr hlt => ?_, Or.inl (le_of_eq hp)⟩
  have := hd r hr
  unfold DatedSince1970 at this
  omega

theorem CursorInv.grows {s : Series} {w w' : World} (h : CursorInv s w) (hg : Grows s w w')
    (hd : ∀ r ∈ s.history w', DatedSince1970 r) : CursorInv s w' := by
  obtain ⟨q, more, hw', hhist, hsort⟩ := hg
  have hpoint : s.point w' = s.point w := by
    rw [hw']
    rfl
  have hsent : w'.sent = w.sent := by
    rw [hw']
    rfl
  refine ⟨hsort, hd, fun r hr hlt => ?_, ?_⟩
  · rw [hpoint] at hlt
    rw [hsent]
    rw [hhist] at hr
    rcases List.mem_append.mp hr with hr' | hr'
    · exact h.covered r hr' hlt
    · -- a new candle is not behind the point: the point is 0 or the time of an older candle
      rcases h.bounded with h0 | ⟨b, hb, hle⟩
      · have := hd r (hhist ▸ hr)
        unfold DatedSince1970 at this
        omega
      · unfold Chronological at hsort
        rw [hhist] at hsort
        have := (List.pairwise_append.mp hsort).2.2 b hb r hr'
        omega
  · rw [hpoint]
    refine h.bounded.imp_right fun ⟨b, hb, hle⟩ => ⟨b, ?_, hle⟩
    rw [hhist]
    exact List.mem_append.mpr (Or.inl hb)

/-- A step that leaves the files alone keeps the shared invariant. -/
theorem CursorInv.of_files {s : Series} {w w' : World} (h : CursorInv s w)
    (hsame : World.SameServer w w') (hfiles : w'.files = w.files)
    (hsent : ∀ m ∈ w.sent, m ∈ w'.sent) : CursorInv s w' := by
  have hhist : s.history w' = s.history w := by
    unfold Series.history
    rw [hsame.historyQuotes]
  have hpoint : s.point w' = s.point w :=
    World.loadChartPoint_congr hsame.platform hsame.names hfiles _ _
  refine ⟨?_, ?_, fun r hr hlt => ?_, ?_⟩
  · rw [hhist]
    exact h.sorted
  · rw [hhist]
    exact h.dated
  · rw [hhist] at hr
    rw [hpoint] at hlt
    exact hsent _ (h.covered r hr hlt)
  · rw [hhist, hpoint]
    exact h.bounded

/-- **Storing keeps the shared invariant**, when every failed candle is as new as the newest. -/
theorem CursorInv.save {s : Series} {w : World} (h : CursorInv s w) {t : ChartRun}
    (ht : RunInv s w t) {newest : RateInfo} (hpc : t.task.pc = .save newest)
    (hok : StoresAfterSuccess t newest) :
    CursorInv s (w.saveChartPoint s.symbolName newest.time s.period) := by
  have hwalk : Walk s w t.failed newest [] := by
    have := ht.walk
    rw [hpc] at this
    exact this
  obtain ⟨hmem, hbehind⟩ := hwalk.behind h.sorted
  have hpoint : s.point (w.saveChartPoint s.symbolName newest.time s.period) = newest.time :=
    World.loadChartPoint_saveChartPoint w s.symbolName newest.ctm s.period
  refine ⟨h.sorted, h.dated, fun r hr hlt => ?_, Or.inr ⟨newest, hmem, le_of_eq hpoint⟩⟩
  rw [hpoint] at hlt
  rcases hbehind r hr hlt with hsent | hfail
  · exact hsent
  · have := hok r hfail
    omega

/-! ## The steps of a run -/

theorem ChartTask.step_files (t : ChartTask) (w : World) (o : Outcome)
    (h : ∀ newest, t.pc ≠ .save newest) : (t.step w o).1.files = w.files := by
  unfold ChartTask.step
  cases hpc : t.pc with
  | quotes =>
    simp only
    split <;> rfl
  | publish newest fromTime rate older =>
    simp only
    split <;> rfl
  | save newest => exact absurd hpc (h newest)
  | _ => rfl

/-- The shared invariant after a step of a run. -/
theorem cursorInv_step {s : Series} {w : World} {t : ChartRun} (h : CursorInv s w)
    (ht : RunInv s w t) (hok : ∀ newest, t.task.pc = .save newest → StoresAfterSuccess t newest)
    (o : Outcome) : CursorInv s (t.step w o).1 := by
  by_cases hsave : ∃ newest, t.task.pc = .save newest
  · obtain ⟨newest, hpc⟩ := hsave
    have hw : (t.step w o).1 = w.saveChartPoint s.symbolName newest.time s.period := by
      unfold ChartRun.step ChartTask.step
      rw [hpc, ht.symbolName, ht.period]
    rw [hw]
    exact h.save ht hpc (hok newest hpc)
  · exact h.of_files (t.task.step_same w o)
      (t.task.step_files w o fun newest hpc => hsave ⟨newest, hpc⟩)
      fun _ hm => World.sent_mono ((Task.chart t.task).step_calls_grow w o) hm

/-- The walk of a run after one step of it. -/
theorem walkAt_step {s : Series} {w : World} {t : ChartRun} (ht : RunInv s w t) (o : Outcome) :
    WalkAt s (t.step w o).1 (t.step w o).2.failed (t.step w o).2.task.pc := by
  have hwalk := ht.walk
  unfold ChartRun.step ChartTask.step
  cases hpc : t.task.pc with
  | quotes =>
    simp only [ht.symbolName, ht.period]
    split
    · rename_i newest older hq
      obtain ⟨rates, hrates, hrev⟩ := Option.map_eq_some_iff.mp hq
      have hhist : s.history w = rates := by
        unfold Series.history
        rw [hrates]
        rfl
      have hall : (newest :: older).reverse ++ [] = s.history w := by
        rw [List.append_nil, ← hrev, List.reverse_reverse, hhist]
      refine ⟨[], hall ▸ List.prefix_refl _, ?_, fun r hr => absurd hr List.not_mem_nil⟩
      · rw [List.append_nil, List.getLast?_reverse]
        rfl
    · trivial
  | load newest rates =>
    rw [hpc] at hwalk
    exact walkAt_loop _ hwalk
  | stop newest fromTime rate older =>
    rw [hpc] at hwalk
    cases hp : w.paused with
    | true => trivial
    | false => exact hwalk
  | publish newest fromTime rate older =>
    rw [hpc] at hwalk
    simp only
    cases hres : (w.publish o.status w.names.topicNameMt4Candle
        (.candle (t.task.candle rate))).2 with
    | ok =>
      have hsent : (w.publish o.status w.names.topicNameMt4Candle
          (.candle (t.task.candle rate))).1.sent = w.sent ++ [s.message rate] := by
        rw [World.publish_snd] at hres
        rw [World.publish_fst, World.sent_append, if_pos hres, ht.candle]
      refine walkAt_loop _ (hwalk.visit (List.prefix_refl _) ?_ ?_ (Or.inl ?_))
      · intro m hm
        rw [hsent]
        exact List.mem_append.mpr (Or.inl hm)
      · intro r hr
        exact hr
      · rw [hsent]
        exact List.mem_append.mpr (Or.inr (List.mem_singleton_self _))
    | error e =>
      refine hwalk.visit (List.prefix_refl _)
        (fun m hm => World.sent_mono (List.prefix_append _ _) hm) ?_ (Or.inr ?_)
      · intro r hr
        exact List.mem_cons_of_mem _ hr
      · exact List.mem_cons_self
    | threw => trivial
  | failed newest fromTime older e =>
    rw [hpc] at hwalk
    exact walkAt_loop _ hwalk
  | save newest => trivial
  | done =>
    simp only [hpc]
    trivial
  | threw =>
    simp only [hpc]
    trivial

/-- The two invariants of the system. -/
theorem cursor_invariant (s : Series) :
    Threads.Invariant (chartThreads s DatedSince1970 StoresAfterSuccess) (CursorInv s)
      (RunInv s) where
  env_inv := by
    intro w w' h he
    rcases he with ⟨b, rfl⟩ | ⟨hg, hd⟩
    · exact ⟨h.sorted, h.dated, h.covered, h.bounded⟩
    · exact h.grows hg hd
  env_local := by
    intro w w' t _ he ht
    refine ⟨ht.symbolName, ht.digits, ht.period, ?_⟩
    rcases he with ⟨b, rfl⟩ | ⟨⟨q, more, hw', hhist, -⟩, -⟩
    · exact ht.walk.mono (List.prefix_refl _) fun _ hm => hm
    · refine ht.walk.mono (hhist ▸ List.prefix_append _ _) fun m hm => ?_
      rw [hw']
      exact hm
  spawn_local := by
    rintro w t _ rfl
    exact ⟨rfl, rfl, rfl, trivial⟩
  run_inv := by
    rintro w t w' t' h ht ⟨hok, o, hstep⟩
    have hw' : w' = (t.step w o).1 := by rw [hstep]
    rw [hw']
    exact cursorInv_step h ht hok o
  run_own := by
    rintro w t w' t' _ ht ⟨-, o, hstep⟩
    have hw' : w' = (t.step w o).1 := by rw [hstep]
    have ht' : t' = (t.step w o).2 := by rw [hstep]
    obtain ⟨hsym, hdig, hper⟩ := t.task.step_captures w o
    rw [hw', ht']
    exact ⟨hsym.trans ht.symbolName, hdig.trans ht.digits, hper.trans ht.period,
      walkAt_step ht o⟩
  run_other := by
    rintro w t w' t' u _ _ ⟨-, o, hstep⟩ hu
    have hw' : w' = (t.task.step w o).1 := congrArg Prod.fst hstep.symm
    have hhist : s.history w' = s.history w := by
      unfold Series.history
      rw [hw', (t.task.step_same w o).historyQuotes]
    refine ⟨hu.symbolName, hu.digits, hu.period, hu.walk.mono (hhist ▸ List.prefix_refl _) ?_⟩
    intro m hm
    rw [hw']
    exact World.sent_mono ((Task.chart t.task).step_calls_grow w o) hm

/-- **No candle is lost behind the stored time point**, in any run whose candles are dated since
1970 and in which no run of the task stores after failing to publish an older candle. -/
theorem no_candle_lost {s : Series} {w₀ w : World} {ts : List ChartRun} (h₀ : Fresh s w₀)
    (hd : ∀ r ∈ s.history w₀, DatedSince1970 r)
    (hr : (chartThreads s DatedSince1970 StoresAfterSuccess).Reach (w₀, []) (w, ts)) :
    NoCandleLost s w :=
  ((cursor_invariant s).reach hr
    ⟨CursorInv.fresh h₀ hd, fun _ ht => absurd ht List.not_mem_nil⟩).1.covered

/-! ## Runs of one task, by their outcomes -/

/-- The steps of one run, each with the outcome NATS gives it. -/
def ChartRun.steps (p : World × ChartRun) (os : List Outcome) : World × ChartRun :=
  os.foldl (fun p o => p.2.step p.1 o) p

/-- Every store of these steps is one after success. -/
def ChartRun.storesSafely : World × ChartRun → List Outcome → Bool
  | _, [] => true
  | p, o :: os =>
    (match p.2.task.pc with
      | .save newest => p.2.failed.all fun r => decide (newest.time ≤ r.time)
      | _ => true) && storesSafely (p.2.step p.1 o) os

theorem codeThreads_steps (s : Series) : ∀ (os : List Outcome) (p : World × ChartRun),
    (codeThreads s).Reach (p.1, [p.2])
      ((ChartRun.steps p os).1, [(ChartRun.steps p os).2])
  | [], _ => Relation.ReflTransGen.refl
  | o :: os, p => by
    refine Relation.ReflTransGen.head (b := ((p.2.step p.1 o).1, [(p.2.step p.1 o).2])) ?_
      (codeThreads_steps s os (p.2.step p.1 o))
    exact Threads.Step.run (l := []) (r := []) ⟨fun _ _ => trivial, o, rfl⟩

theorem safeThreads_steps (s : Series) : ∀ (os : List Outcome) (p : World × ChartRun),
    ChartRun.storesSafely p os = true →
    (chartThreads s DatedSince1970 StoresAfterSuccess).Reach (p.1, [p.2])
      ((ChartRun.steps p os).1, [(ChartRun.steps p os).2])
  | [], _, _ => Relation.ReflTransGen.refl
  | o :: os, p, h => by
    simp only [ChartRun.storesSafely, Bool.and_eq_true] at h
    refine Relation.ReflTransGen.head (b := ((p.2.step p.1 o).1, [(p.2.step p.1 o).2])) ?_
      (safeThreads_steps s os (p.2.step p.1 o) h.2)
    refine Threads.Step.run (l := []) (r := []) ⟨fun newest hpc r hr => ?_, o, rfl⟩
    have hall := h.1
    rw [hpc] at hall
    simpa using List.all_eq_true.mp hall r hr

/-! ## A failed candle is lost -/

/-- The M1 series of a five-digit symbol. -/
def eurusdM1 : Series := ⟨bytes "EURUSD", 5, periodM1⟩

/-- Two candles a minute apart, with nothing stored and nothing published. -/
def twoCandles : World :=
  World.start .win32 (.ofServer (bytes "mt4api") (bytes "srv")) [] [] fun _ _ =>
    some [⟨60, 110000, 5, -5, 2⟩, ⟨120, 110002, 7, 0, 3⟩]

theorem twoCandles_fresh : Fresh eurusdM1 twoCandles := ⟨by decide, rfl⟩

/-- The run that publishes the newer candle and fails to publish the older one: `HistoryQuotes`,
`load_chart_point`, `publish`, `is_paused`, `publish`, `log_error`, `save_chart_point`. -/
def failsOnce : List Outcome :=
  [.ofStatus .ok, .ofStatus .ok, .ofStatus .ok, .ofStatus .ok, .ofStatus .timeout,
    .ofStatus .ok, .ofStatus .ok]

/-- **A candle whose publish failed is left behind the stored point.** -/
theorem a_failed_candle_is_lost :
    ¬ ∀ w ts, (codeThreads eurusdM1).Reach (twoCandles, []) (w, ts) → NoCandleLost eurusdM1 w := by
  intro h
  have hreach : (codeThreads eurusdM1).Reach (twoCandles, [])
      ((ChartRun.steps (twoCandles, ⟨eurusdM1.task, []⟩) failsOnce).1,
        [(ChartRun.steps (twoCandles, ⟨eurusdM1.task, []⟩) failsOnce).2]) :=
    Threads.Reach.of_spawn rfl
      (codeThreads_steps eurusdM1 failsOnce (twoCandles, ⟨eurusdM1.task, []⟩))
  have hlost := h _ _ hreach ⟨60, 110000, 5, -5, 2⟩ (by decide) (by decide)
  exact absurd hlost (by decide)

/-- The run that publishes both candles stores the newer one's time, and none is lost. -/
theorem no_candle_lost_twoCandles :
    NoCandleLost eurusdM1 (ChartRun.steps (twoCandles, ⟨eurusdM1.task, []⟩)
      (List.replicate 6 (.ofStatus .ok))).1 :=
  no_candle_lost twoCandles_fresh (by decide)
    (Threads.Reach.of_spawn rfl
      (safeThreads_steps eurusdM1 (List.replicate 6 (.ofStatus .ok))
        (twoCandles, ⟨eurusdM1.task, []⟩) (by decide)))

end TradeBridge
