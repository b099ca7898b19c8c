import TradeBridge.ChartCursor
import TradeBridge.Lib.Register

/-!
# The order of the stores of a series

A run of `publish_chart_by_symbol` takes its snapshot of the history, then loads the point, and
stores the newest candle's time of the snapshot at its end. It returns at once where that candle is
before the loaded point, so on its own it never stores an older point. What is stored in between by
another task of the series it does not look at: a task with an older snapshot that stores last takes
the point back.

`pointThreads` is the system of `ChartCursor.lean`, any number of runs in any order over a history
that grows, with two histories of its own: the stores of the series so far, each with the snapshot it
was made from, and for each run how many of them there were when it loaded the point. Opening a
time-point file succeeds, as everywhere (`World`).

Results:
* **`never_back_iff`**: in a run of the system no store lowers the point iff no task stores after
  another one whose snapshot has a newer candle has stored, since it loaded the point.
* `an_older_snapshot_stores_last`: two tasks, one candle and then a second.
-/

namespace TradeBridge

open TradeBridge.Lib

/-! ## The system -/

/-- A store of the series: the newest candle of its task's snapshot, the number of stores there were
when the task loaded the point, and the point before and after. -/
structure PointStore where
  newest : RateInfo
  loaded : Nat
  point : Write Int

/-- The shared state, and the stores of the series so far. -/
structure Charts where
  world : World
  stores : List PointStore

/-- The stores, as writes of the point. -/
def Charts.points (c : Charts) : List (Write Int) := c.stores.map PointStore.point

/-- No task stores after another one whose snapshot has a newer candle has stored, since it loaded
the point. -/
def NeverOvertaken (stores : List PointStore) : Prop :=
  ∀ before x after, stores = before ++ x :: after →
    ∀ y ∈ before.drop x.loaded, y.newest.time ≤ x.newest.time

/-- A run of the series, and the number of stores there were when it loaded the point. -/
structure Reader where
  task : ChartTask
  loaded : Nat

/-- The run before `HistoryQuotes`. -/
def Series.reader (s : Series) : Reader := ⟨s.task, 0⟩

/-- One step of the task. -/
def Reader.step (s : Series) (t : Reader) (c : Charts) (o : Outcome) : Charts × Reader :=
  let p := t.task.step c.world o
  match t.task.pc with
  | .load _ _ => ({ c with world := p.1 }, ⟨p.2, c.stores.length⟩)
  | .save newest =>
    ({ world := p.1
       stores := c.stores ++ [⟨newest, t.loaded, ⟨s.point c.world, s.point p.1⟩⟩] },
      ⟨p.2, t.loaded⟩)
  | _ => ({ c with world := p.1 }, ⟨p.2, t.loaded⟩)

/-- Runs of one series over a history that grows. -/
def pointThreads (s : Series) : Threads Charts Reader where
  env c c' := ∃ w, c' = { c with world := w } ∧
    ((∃ b, w = { c.world with paused := b }) ∨ Grows s c.world w)
  spawn _ t := t = s.reader
  run c t c' t' := ∃ o, t.step s c o = (c', t')

/-- Nothing has been stored in the run so far. -/
def Charts.start (w : World) : Charts := ⟨w, []⟩

/-! ## What a run has read -/

/-- The newest candle of the snapshot, once the point has been loaded. -/
def ChartPc.newest? : ChartPc → Option RateInfo
  | .stop newest _ _ _ | .publish newest _ _ _ | .failed newest _ _ _ | .save newest => some newest
  | .quotes | .load _ _ | .done | .threw => none

theorem newest?_loop {newest newest' : RateInfo} {fromTime : Int} {rates : List RateInfo}
    (h : (ChartPc.loop newest fromTime rates).newest? = some newest') : newest = newest' := by
  cases rates with
  | nil => exact Option.some.inj h
  | cons rate older =>
    simp only [ChartPc.loop] at h
    split at h
    · cases h
    · split at h
      · exact Option.some.inj h
      · exact Option.some.inj h

/-- A loop that begins with the newest candle goes on only if it is not before the loaded point. -/
theorem le_of_loop {newest newest' : RateInfo} {fromTime : Int} {older : List RateInfo}
    (h : (ChartPc.loop newest fromTime (newest :: older)).newest? = some newest') :
    fromTime ≤ newest.time := by
  by_contra hlt
  simp only [ChartPc.loop, if_pos (Int.not_le.mp hlt)] at h
  cases h

/-- The newest candle stays the same. -/
theorem ChartTask.step_newest? {t : ChartTask} {w : World} {o : Outcome} {newest : RateInfo}
    (hload : ∀ newest rates, t.pc ≠ .load newest rates)
    (h : (t.step w o).2.pc.newest? = some newest) : t.pc.newest? = some newest := by
  obtain ⟨symbolName, digits, period, pc⟩ := t
  cases pc with
  | load newest rates => exact absurd rfl (hload newest rates)
  | quotes =>
    simp only [ChartTask.step] at h
    split at h <;> cases h
  | stop newest' fromTime rate older =>
    simp only [ChartTask.step] at h
    split at h
    · cases h
    · exact h
  | publish newest' fromTime rate older =>
    simp only [ChartTask.step] at h
    split at h
    · exact congrArg some (newest?_loop h)
    · exact h
    · cases h
  | failed newest' fromTime older e => exact congrArg some (newest?_loop h)
  | save newest' => cases h
  | done => cases h
  | threw => cases h

theorem loop_ne_load {newest newest' : RateInfo} {fromTime : Int} {rates rates' : List RateInfo} :
    ChartPc.loop newest fromTime rates ≠ .load newest' rates' := by
  intro h
  cases rates with
  | nil => cases h
  | cons rate older =>
    simp only [ChartPc.loop] at h
    split at h
    · cases h
    · split at h <;> cases h

/-- A snapshot begins with its newest candle. -/
theorem ChartTask.step_load {t : ChartTask} {w : World} {o : Outcome} {newest : RateInfo}
    {rates : List RateInfo} (h : (t.step w o).2.pc = .load newest rates) :
    rates.head? = some newest := by
  obtain ⟨symbolName, digits, period, pc⟩ := t
  cases pc with
  | quotes =>
    simp only [ChartTask.step] at h
    split at h
    · cases h
      rfl
    · cases h
  | load newest' rates' => exact absurd h loop_ne_load
  | stop newest' fromTime rate older =>
    simp only [ChartTask.step] at h
    split at h <;> cases h
  | publish newest' fromTime rate older =>
    simp only [ChartTask.step] at h
    split at h
    · exact absurd h loop_ne_load
    · cases h
    · cases h
  | failed newest' fromTime older e => exact absurd h loop_ne_load
  | save newest' => cases h
  | done => cases h
  | threw => cases h

/-! ## The invariants -/

theorem neverOvertaken_concat {stores : List PointStore} {x : PointStore} :
    NeverOvertaken (stores ++ [x]) ↔
      NeverOvertaken stores ∧ ∀ y ∈ stores.drop x.loaded, y.newest.time ≤ x.newest.time := by
  constructor
  · refine fun h => ⟨fun before y after hsplit => ?_, h stores x [] rfl⟩
    exact h before y (after ++ [x]) (by rw [hsplit, List.append_assoc, List.cons_append])
  · rintro ⟨h, hx⟩ before y after hsplit
    rcases List.eq_nil_or_concat after with rfl | ⟨after, z, rfl⟩
    · obtain ⟨rfl, hy⟩ := List.append_inj' hsplit rfl
      obtain rfl := (List.cons.inj hy).1
      exact hx
    · rw [List.concat_eq_append, ← List.cons_append, ← List.append_assoc] at hsplit
      exact h before y after (List.append_inj' hsplit rfl).1

/-- The stores lead from the first point to the stored one, each leaves the time of its snapshot's
newest candle, and they ascend iff no task was overtaken. -/
structure ChartsInv (s : Series) (p₀ : Int) (c : Charts) : Prop where
  chained : Chained p₀ c.points
  point : s.point c.world = finalValue p₀ c.points
  newest : ∀ x ∈ c.stores, x.point.after = x.newest.time
  ascending : Ascending c.points ↔ NeverOvertaken c.stores

/-- A run has a snapshot whose newest candle is not before the point it has loaded. -/
structure ReaderInv (s : Series) (p₀ : Int) (c : Charts) (t : Reader) : Prop where
  symbolName : t.task.symbolName = s.symbolName
  period : t.task.period = s.period
  loaded : t.loaded ≤ c.stores.length
  snapshot : ∀ newest rates, t.task.pc = .load newest rates → rates.head? = some newest
  read : ∀ newest, t.task.pc.newest? = some newest →
    finalValue p₀ (c.points.take t.loaded) ≤ newest.time

variable {s : Series} {p₀ : Int} {c c' : Charts} {t t' : Reader}

/-- A step that does not store leaves the point. -/
theorem Reader.point_step (hsave : ∀ newest, t.task.pc ≠ .save newest) (o : Outcome) :
    s.point (t.task.step c.world o).1 = s.point c.world := by
  have hsame := t.task.step_same c.world o
  exact World.loadChartPoint_congr hsame.platform hsame.names
    (t.task.step_files c.world o hsave) _ _

/-- **What one step of a run does** to the stores and to what the run has read. -/
theorem Reader.step_cases (h : ∃ o, t.step s c o = (c', t')) :
    (∃ o, c'.world = (t.task.step c.world o).1 ∧ t'.task = (t.task.step c.world o).2) ∧
      ((∃ newest rates, t.task.pc = .load newest rates ∧ c'.stores = c.stores ∧
          t'.loaded = c.stores.length) ∨
        (∃ newest, t.task.pc = .save newest ∧
          c'.stores = c.stores ++ [⟨newest, t.loaded, ⟨s.point c.world, s.point c'.world⟩⟩] ∧
          t'.loaded = t.loaded) ∨
        ((∀ newest rates, t.task.pc ≠ .load newest rates) ∧
          (∀ newest, t.task.pc ≠ .save newest) ∧ c'.stores = c.stores ∧
          t'.loaded = t.loaded)) := by
  obtain ⟨o, hstep⟩ := h
  unfold Reader.step at hstep
  cases hpc : t.task.pc with
  | load newest rates =>
    simp only [hpc] at hstep
    cases hstep
    exact ⟨⟨o, rfl, rfl⟩, Or.inl ⟨newest, rates, rfl, rfl, rfl⟩⟩
  | save newest =>
    simp only [hpc] at hstep
    cases hstep
    exact ⟨⟨o, rfl, rfl⟩, Or.inr (Or.inl ⟨newest, rfl, rfl, rfl⟩)⟩
  | _ =>
    simp only [hpc] at hstep
    cases hstep
    refine ⟨⟨o, rfl, rfl⟩, Or.inr (Or.inr ⟨fun _ _ h => ?_, fun _ h => ?_, rfl, rfl⟩)⟩
    · cases h
    · cases h

/-- The stores of a run only grow. -/
theorem Reader.step_stores (h : ∃ o, t.step s c o = (c', t')) : c.stores <+: c'.stores := by
  rcases (Reader.step_cases h).2 with ⟨_, _, -, hst, -⟩ | ⟨_, -, hst, -⟩ | ⟨-, -, hst, -⟩
  · exact hst ▸ List.prefix_refl _
  · exact hst ▸ List.prefix_append _ _
  · exact hst ▸ List.prefix_refl _

/-- What was read before stays what it was. -/
theorem finalValue_take {n : Nat} (hn : n ≤ c.stores.length) (h : c.stores <+: c'.stores) :
    finalValue p₀ (c'.points.take n) = finalValue p₀ (c.points.take n) := by
  obtain ⟨more, hmore⟩ := h
  unfold Charts.points
  rw [← hmore, List.map_append, List.take_append_of_le_length (by rwa [List.length_map])]

/-- A store leaves the newest candle's time of the snapshot. -/
theorem Reader.point_save (ht : ReaderInv s p₀ c t) {newest : RateInfo}
    (hpc : t.task.pc = .save newest) (o : Outcome) :
    s.point (t.task.step c.world o).1 = newest.time := by
  have hw : (t.task.step c.world o).1 =
      c.world.saveChartPoint s.symbolName newest.time s.period := by
    unfold ChartTask.step
    rw [hpc, ht.symbolName, ht.period]
  rw [hw]
  exact World.loadChartPoint_saveChartPoint c.world s.symbolName newest.ctm s.period

/-- A step that does not store keeps the account. -/
theorem ChartsInv.of_same_stores (h : ChartsInv s p₀ c) (hst : c'.stores = c.stores)
    (hpoint : s.point c'.world = s.point c.world) : ChartsInv s p₀ c' := by
  have hpoints : c'.points = c.points := congrArg (List.map PointStore.point) hst
  exact ⟨hpoints ▸ h.chained, by rw [hpoint, h.point, hpoints], hst ▸ h.newest,
    by rw [hpoints, hst]; exact h.ascending⟩

/-- Since a task loaded the point, no store from a newer snapshot: neither was a later point
stored. -/
theorem ChartsInv.drop_iff (h : ChartsInv s p₀ c) (n : Nat) (newest : RateInfo) :
    (∀ x ∈ c.points.drop n, x.after ≤ newest.time) ↔
      ∀ x ∈ c.stores.drop n, x.newest.time ≤ newest.time := by
  unfold Charts.points
  rw [← List.map_drop, List.forall_mem_map]
  exact forall₂_congr fun x hx => by rw [h.newest x (List.mem_of_mem_drop hx)]

/-- **A step of a run keeps the account of the stores.** -/
theorem ChartsInv.step (h : ChartsInv s p₀ c) (ht : ReaderInv s p₀ c t)
    (hrun : ∃ o, t.step s c o = (c', t')) : ChartsInv s p₀ c' := by
  obtain ⟨⟨o, hworld, -⟩, hcases⟩ := Reader.step_cases hrun
  rcases hcases with ⟨newest, rates, hpc, hst, -⟩ | ⟨newest, hpc, hst, -⟩ | ⟨-, hsave, hst, -⟩
  · refine h.of_same_stores hst ?_
    rw [hworld, Reader.point_step fun newest' hpc' => ?_]
    rw [hpc] at hpc'
    cases hpc'
  · have hnew : s.point c'.world = newest.time := by rw [hworld, Reader.point_save ht hpc]
    have hpoints : c'.points = c.points ++ [⟨s.point c.world, s.point c'.world⟩] := by
      unfold Charts.points
      rw [hst, List.map_append]
      rfl
    refine ⟨?_, ?_, ?_, ?_⟩
    · rw [hpoints]
      exact chained_append.mpr ⟨h.chained, h.point, trivial⟩
    · rw [hpoints, finalValue_append]
      rfl
    · rw [hst, List.forall_mem_append, List.forall_mem_singleton]
      exact ⟨h.newest, hnew⟩
    · rw [hpoints, hst, ascending_concat, neverOvertaken_concat, h.ascending]
      refine and_congr_right fun hnone => ?_
      rw [hnew, h.point, ← h.drop_iff]
      exact ascends_iff h.chained (h.ascending.mpr hnone) (ht.read newest (by rw [hpc]; rfl))
  · exact h.of_same_stores hst (by rw [hworld, Reader.point_step hsave])

/-- What a step of one run leaves to another. -/
theorem ReaderInv.mono (h : ReaderInv s p₀ c t) (hst : c.stores <+: c'.stores) :
    ReaderInv s p₀ c' t :=
  ⟨h.symbolName, h.period, h.loaded.trans hst.length_le, h.snapshot, fun newest hnew => by
    rw [finalValue_take h.loaded hst]
    exact h.read newest hnew⟩

/-- **A step of a run keeps what it knows of the point it has loaded.** -/
theorem ReaderInv.step (h : ChartsInv s p₀ c) (ht : ReaderInv s p₀ c t)
    (hrun : ∃ o, t.step s c o = (c', t')) : ReaderInv s p₀ c' t' := by
  have hgrow := Reader.step_stores hrun
  obtain ⟨⟨o, hworld, htask⟩, hcases⟩ := Reader.step_cases hrun
  obtain ⟨hname, -, hperiod⟩ := t.task.step_captures c.world o
  have hloaded : t'.loaded ≤ c'.stores.length := by
    rcases hcases with ⟨_, _, -, hst, hl⟩ | ⟨_, -, -, hl⟩ | ⟨-, -, -, hl⟩
    · rw [hl, hst]
    · exact hl ▸ ht.loaded.trans hgrow.length_le
    · exact hl ▸ ht.loaded.trans hgrow.length_le
  refine ⟨by rw [htask, hname, ht.symbolName], by rw [htask, hperiod, ht.period], hloaded,
    fun newest rates hpc => ChartTask.step_load (htask ▸ hpc), fun newest hnew => ?_⟩
  rw [htask] at hnew
  have hkept : (∀ newest rates, t.task.pc ≠ .load newest rates) → t'.loaded = t.loaded →
      finalValue p₀ (c'.points.take t'.loaded) ≤ newest.time := by
    intro hload hl
    rw [hl, finalValue_take ht.loaded hgrow]
    exact ht.read newest (ChartTask.step_newest? hload hnew)
  rcases hcases with ⟨newest', rates, hpc, hst, hl⟩ | ⟨newest', hpc, -, hl⟩ | ⟨hload, -, -, hl⟩
  · -- the loop begins with the newest candle, and the point is the last one stored
    obtain ⟨older, rfl⟩ : ∃ older, rates = newest' :: older := by
      have hhead := ht.snapshot newest' rates hpc
      exact ⟨rates.tail, (List.cons_head?_tail hhead).symm⟩
    have hall : c'.points.take t'.loaded = c.points := by
      unfold Charts.points
      rw [hst, hl, List.take_of_length_le (List.length_map _).le]
    simp only [ChartTask.step, hpc] at hnew
    rw [hall, ← h.point, ← newest?_loop hnew]
    unfold Series.point
    rw [← ht.symbolName, ← ht.period]
    exact le_of_loop hnew
  · refine hkept (fun _ _ hpc' => ?_) hl
    rw [hpc] at hpc'
    cases hpc'
  · exact hkept hload hl

/-- **The stores of any run of the system** have an account. -/
theorem stores_invariant (s : Series) (p₀ : Int) :
    Threads.Invariant (pointThreads s) (ChartsInv s p₀) (ReaderInv s p₀) where
  env_inv := by
    rintro c c' h ⟨w, rfl, hw⟩
    rcases hw with ⟨b, rfl⟩ | ⟨q, more, rfl, -⟩
    · exact h.of_same_stores rfl rfl
    · exact h.of_same_stores rfl rfl
  env_local := by
    rintro c c' t - ⟨w, rfl, -⟩ ht
    exact ht.mono (List.prefix_refl _)
  spawn_local := by
    rintro c t - rfl
    exact ⟨rfl, rfl, Nat.zero_le _, fun _ _ hpc => (nomatch hpc), fun _ hnew => (nomatch hnew)⟩
  run_inv := fun h ht hrun => h.step ht hrun
  run_own := fun h ht hrun => ht.step h hrun
  run_other := fun _ _ hrun hu => hu.mono (Reader.step_stores hrun)

/-- **When the stored point never goes back**: no store of a run of the system lowers it iff no task
stores after another one whose snapshot has a newer candle has stored, since it loaded the point. -/
theorem never_back_iff {w : World} {ts : List Reader}
    (hr : (pointThreads s).Reach (.start w, []) (c, ts)) :
    Ascending c.points ↔ NeverOvertaken c.stores := by
  have hstart : ChartsInv s (s.point w) (.start w) := by
    refine ⟨trivial, rfl, fun x hx => absurd hx List.not_mem_nil, iff_of_true ?_ ?_⟩
    · exact fun x hx => absurd hx List.not_mem_nil
    · exact fun before x after h => absurd h.symm (by simp [Charts.start])
  exact ((stores_invariant s (s.point w)).reach hr
    ⟨hstart, fun t ht => absurd ht List.not_mem_nil⟩).1.ascending

/-! ## Two snapshots -/

/-- The steps of one run, each with what NATS answers. -/
def Reader.steps (s : Series) (p : Charts × Reader) (os : List Outcome) : Charts × Reader :=
  os.foldl (fun p o => p.2.step s p.1 o) p

/-- They are a run of the system, beside any other runs. -/
theorem Reader.steps_reach (s : Series) (l r : List Reader) : ∀ (os : List Outcome)
    (p : Charts × Reader), (pointThreads s).Reach (p.1, l ++ p.2 :: r)
      ((Reader.steps s p os).1, l ++ (Reader.steps s p os).2 :: r)
  | [], _ => Relation.ReflTransGen.refl
  | o :: os, p => Relation.ReflTransGen.head (Threads.Step.run (M := pointThreads s) ⟨o, rfl⟩)
      (Reader.steps_reach s l r os (p.2.step s p.1 o))

/-- `n` publishes that NATS accepts, and any other step. -/
def oks (n : Nat) : List Outcome := List.replicate n (.ofStatus .ok)

/-- The stores of a single run ascend. -/
theorem never_back_twoCandles :
    Ascending (Reader.steps eurusdM1 (.start twoCandles, eurusdM1.reader) (oks 6)).1.points := by
  have hreach : (pointThreads eurusdM1).Reach (.start twoCandles, [])
      ((Reader.steps eurusdM1 (.start twoCandles, eurusdM1.reader) (oks 6)).1,
        [(Reader.steps eurusdM1 (.start twoCandles, eurusdM1.reader) (oks 6)).2]) :=
    Threads.Reach.of_spawn rfl
      (Reader.steps_reach eurusdM1 [] [] (oks 6) (.start twoCandles, eurusdM1.reader))
  refine (never_back_iff hreach).mpr fun before x after hsplit => ?_
  have hlen := congrArg List.length hsplit
  have hone : (Reader.steps eurusdM1 (.start twoCandles, eurusdM1.reader) (oks 6)).1.stores.length =
      1 := by decide
  have hbefore : before = [] := by
    rw [hone, List.length_append, List.length_cons] at hlen
    exact List.length_eq_zero_iff.mp (by omega)
  rw [hbefore, List.drop_nil]
  exact fun y hy => absurd hy List.not_mem_nil

/-- The history with its first candle only. -/
def firstCandle : World :=
  { twoCandles with historyQuotes := fun _ _ => some [⟨60, 110000, 5, -5, 2⟩] }

/-- A task that has the first candle and stands before its store. -/
def early : Charts × Reader := Reader.steps eurusdM1 (.start firstCandle, eurusdM1.reader) (oks 4)

/-- The second candle comes. -/
def grown : Charts :=
  { early.1 with world := { early.1.world with historyQuotes := twoCandles.historyQuotes } }

/-- Another task publishes both candles and stores the second one's time. -/
def late : Charts × Reader := Reader.steps eurusdM1 (grown, eurusdM1.reader) (oks 6)

/-- The first task stores the first one's time. -/
def back : Charts × Reader := Reader.steps eurusdM1 (late.1, early.2) (oks 1)

theorem back_reach : (pointThreads eurusdM1).Reach (.start firstCandle, [])
    (back.1, [back.2, late.2]) := by
  have hearly : (pointThreads eurusdM1).Reach (.start firstCandle, []) (early.1, [early.2]) :=
    Threads.Reach.of_spawn rfl
      (Reader.steps_reach eurusdM1 [] [] (oks 4) (.start firstCandle, eurusdM1.reader))
  have hgrown : (pointThreads eurusdM1).Step (early.1, [early.2]) (grown, [early.2]) :=
    Threads.Step.env ⟨_, rfl, Or.inr ⟨_, [⟨120, 110002, 7, 0, 3⟩], rfl, by decide, by decide⟩⟩
  have hspawn : (pointThreads eurusdM1).Step (grown, [early.2])
      (grown, [early.2] ++ [eurusdM1.reader]) := Threads.Step.spawn rfl
  have hlate : (pointThreads eurusdM1).Reach (grown, [early.2, eurusdM1.reader])
      (late.1, [early.2, late.2]) :=
    Reader.steps_reach eurusdM1 [early.2] [] (oks 6) (grown, eurusdM1.reader)
  have hback : (pointThreads eurusdM1).Reach (late.1, [early.2, late.2])
      (back.1, [back.2, late.2]) :=
    Reader.steps_reach eurusdM1 [] [late.2] (oks 1) (late.1, early.2)
  exact ((hearly.tail hgrown).tail hspawn).trans (hlate.trans hback)

/-- **An older snapshot that stores last takes the point back**, from the second candle's time to the
first one's, in a sorted history that only grows. -/
theorem an_older_snapshot_stores_last :
    ¬ ∀ (w : World) (c : Charts) (ts : List Reader), Chronological (eurusdM1.history w) →
      (pointThreads eurusdM1).Reach (.start w, []) (c, ts) → Ascending c.points := fun h =>
  absurd (h firstCandle back.1 _ (by decide) back_reach) (by decide)

end TradeBridge
