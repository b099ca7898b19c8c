import TradeBridge.ChartCursor

/-!
# The time-point files of two series

`get_file_path` writes the name and the decimal period of a series one after the other, with nothing
between them, so two series share a file when the two texts meet: the M5 series of `X1` and the M15
series of `X` both use `X15.timepoint`. `collide_iff` says this is the only case over the periods of
`chart_periods`, apart from names that differ only in a letter case the file system ignores. Opening
a file succeeds, as everywhere (`World`).

Results:
* `Series.point_steps`: a run changes the time point of no series with another file.
* `Series.steps_same`: what a run publishes depends on the world through its own time point and the
  constant parts only.
* **`nonInterfering_iff`**: two series do not interfere iff they do not collide.
* `a15_interferes`: the M5 series of `A1` changes the time point of the M15 series of `A`.
-/

namespace TradeBridge

open TradeBridge.Lib

/-! ## Runs -/

/-- The steps of a chart task, each with the outcome NATS gives it. -/
def ChartTask.steps (p : World × ChartTask) (os : List Outcome) : World × ChartTask :=
  os.foldl (fun p o => p.2.step p.1 o) p

/-- The publish calls a run of the series makes from `w`. -/
def Series.callsFrom (s : Series) (w : World) (os : List Outcome) : List PublishCall :=
  (ChartTask.steps (w, s.task) os).1.calls.drop w.calls.length

/-- A run of the first series, of any length, leaves the time point of the second alone, and what
the second publishes is the same whether or not the first ran before. -/
def NonInterfering (platform : Platform) (first second : Series) : Prop :=
  ∀ (w : World) (os os' : List Outcome), w.platform = platform →
    second.point (ChartTask.steps (w, first.task) os).1 = second.point w ∧
      second.callsFrom (ChartTask.steps (w, first.task) os).1 os' = second.callsFrom w os'

/-- Letters and digits of ASCII. -/
def Alphanumeric (name : Bytes) : Prop :=
  ∀ c ∈ name, (48 ≤ c ∧ c ≤ 57) ∨ (65 ≤ c ∧ c ≤ 90) ∨ (97 ≤ c ∧ c ≤ 122)

instance (name : Bytes) : Decidable (Alphanumeric name) :=
  List.decidableBAll _ name

/-- The name as the file system compares it. -/
def Series.folded (platform : Platform) (s : Series) : Bytes := s.symbolName.map platform.fold

/-- The two series share a time-point file. -/
def Collide (platform : Platform) (a b : Series) : Prop :=
  (a.period = b.period ∧ a.folded platform = b.folded platform) ∨
    (a.period = periodM5 ∧ b.period = periodM15 ∧
      a.folded platform = b.folded platform ++ bytes "1") ∨
    (a.period = periodM15 ∧ b.period = periodM5 ∧
      b.folded platform = a.folded platform ++ bytes "1")

/-! ## When two series share a file -/

/-- The file of a series in a world. -/
def Series.file (w : World) (s : Series) : Bytes := w.pointFile s.symbolName s.period

/-- No period is a decimal suffix of another, but M5 of M15. -/
theorem decimal_suffix : ∀ p ∈ chartPeriods, ∀ q ∈ chartPeriods,
    decimal p <:+ decimal q → p = q ∨ (p = periodM5 ∧ q = periodM15) := by
  decide +kernel

theorem decimal_isDigit : ∀ p ∈ chartPeriods, ∀ b ∈ decimal p, 48 ≤ b ∧ b ≤ 57 := by
  decide +kernel

theorem fold_decimal (platform : Platform) {p : Int} (hp : p ∈ chartPeriods) :
    (decimal p).map platform.fold = decimal p := by
  have hid : ∀ b ∈ decimal p, platform.fold b = b := fun b hb =>
    platform.fold_digit b (decimal_isDigit p hp b hb).1 (decimal_isDigit p hp b hb).2
  exact (List.map_congr_left hid).trans (List.map_id _)

theorem file_eq_iff {w : World} {a b : Series} (ha : a.period ∈ chartPeriods)
    (hb : b.period ∈ chartPeriods) : a.file w = b.file w ↔
      a.folded w.platform ++ decimal a.period = b.folded w.platform ++ decimal b.period := by
  unfold Series.file World.pointFile World.getFilePath World.timepointName Series.folded
  simp only [List.map_append, fold_decimal w.platform ha, fold_decimal w.platform hb,
    List.append_cancel_left_eq, List.append_cancel_right_eq]

/-- **Two series of chart periods share a file iff they collide.** -/
theorem collide_iff {platform : Platform} {a b : Series} (ha : a.period ∈ chartPeriods)
    (hb : b.period ∈ chartPeriods) :
    a.folded platform ++ decimal a.period = b.folded platform ++ decimal b.period ↔
      Collide platform a b := by
  have h15 : decimal periodM15 = bytes "1" ++ decimal periodM5 := by decide
  constructor
  · intro h
    have hsuf : decimal a.period <:+ decimal b.period ∨ decimal b.period <:+ decimal a.period :=
      List.suffix_or_suffix_of_suffix (h ▸ List.suffix_append _ _) (List.suffix_append _ _)
    have hcases : a.period = b.period ∨ (a.period = periodM5 ∧ b.period = periodM15) ∨
        (a.period = periodM15 ∧ b.period = periodM5) := by
      rcases hsuf with hs | hs
      · exact (decimal_suffix _ ha _ hb hs).imp_right Or.inl
      · rcases decimal_suffix _ hb _ ha hs with heq | ⟨h5, h15⟩
        · exact Or.inl heq.symm
        · exact Or.inr (Or.inr ⟨h15, h5⟩)
    rcases hcases with heq | ⟨h5, hq⟩ | ⟨hp, h5⟩
    · rw [heq] at h
      exact Or.inl ⟨heq, List.append_cancel_right h⟩
    · rw [h5, hq, h15, ← List.append_assoc] at h
      exact Or.inr (Or.inl ⟨h5, hq, List.append_cancel_right h⟩)
    · rw [hp, h5, h15, ← List.append_assoc] at h
      exact Or.inr (Or.inr ⟨hp, h5, (List.append_cancel_right h).symm⟩)
  · rintro (⟨hp, hn⟩ | ⟨h5, hq, hn⟩ | ⟨hp, h5, hn⟩)
    · rw [hp, hn]
    · rw [h5, hq, hn, h15, List.append_assoc]
    · rw [hp, h5, hn, h15, List.append_assoc]

/-! ## Another file's time point stays -/

theorem ChartTask.step_file (t : ChartTask) (w : World) (o : Outcome) (s : Series) :
    s.file (t.step w o).1 = s.file w := by
  have hsame := t.step_same w o
  unfold Series.file World.pointFile
  rw [hsame.platform, hsame.names]

/-- One step of a task leaves the time point of a series with another file alone. -/
theorem ChartTask.step_point {t : ChartTask} {w : World} {s : Series}
    (hne : s.file w ≠ w.pointFile t.symbolName t.period) (o : Outcome) :
    s.point (t.step w o).1 = s.point w := by
  by_cases hsave : ∃ newest, t.pc = .save newest
  · obtain ⟨newest, hpc⟩ := hsave
    have hstep : (t.step w o).1 = w.saveChartPoint t.symbolName newest.time t.period := by
      unfold ChartTask.step
      rw [hpc]
    rw [hstep]
    exact World.loadChartPoint_saveChartPoint_of_ne _ hne
  · have hsame := t.step_same w o
    exact World.loadChartPoint_congr hsame.platform hsame.names
      (t.step_files w o fun newest hpc => hsave ⟨newest, hpc⟩) _ _

/-- **A run changes the time point of no series with another file.** -/
theorem Series.point_steps {s : Series} : ∀ (os : List Outcome) {w : World} {t : ChartTask},
    s.file w ≠ w.pointFile t.symbolName t.period →
    s.point (ChartTask.steps (w, t) os).1 = s.point w
  | [], _, _, _ => rfl
  | o :: os, w, t, hne => by
    obtain ⟨hname, -, hperiod⟩ := t.step_captures w o
    have hsame := t.step_same w o
    have hne' : s.file (t.step w o).1 ≠
        (t.step w o).1.pointFile (t.step w o).2.symbolName (t.step w o).2.period := by
      rw [t.step_file w o s, hname, hperiod]
      unfold World.pointFile
      rw [hsame.platform, hsame.names]
      exact hne
    exact (point_steps os hne').trans (ChartTask.step_point hne o)

theorem ChartTask.steps_same : ∀ (os : List Outcome) (w : World) (t : ChartTask),
    World.SameServer w (ChartTask.steps (w, t) os).1
  | [], w, _ => World.SameServer.refl w
  | o :: os, w, t => (t.step_same w o).trans (steps_same os _ _)

/-! ## What a run depends on -/

/-- The two worlds look the same to the series. -/
structure SameFor (s : Series) (w w' : World) : Prop where
  same : World.SameServer w w'
  point : s.point w' = s.point w

/-- **One step from two worlds that look the same** goes to the same place, makes the same calls,
and keeps the worlds alike. -/
theorem SameFor.step {s : Series} {w w' : World} (h : SameFor s w w') {t : ChartTask}
    (hname : t.symbolName = s.symbolName) (hperiod : t.period = s.period) (o : Outcome) :
    (t.step w' o).2 = (t.step w o).2 ∧ SameFor s (t.step w o).1 (t.step w' o).1 ∧
      ∃ cs, (t.step w o).1.calls = w.calls ++ cs ∧ (t.step w' o).1.calls = w'.calls ++ cs := by
  have hcalls : ∃ cs, (t.step w o).1.calls = w.calls ++ cs ∧
      (t.step w' o).1.calls = w'.calls ++ cs := by
    refine ⟨_, (Task.chart t).step_calls w o, ?_⟩
    have := (Task.chart t).step_calls w' o
    rw [h.same.names] at this
    unfold World.callOf at this ⊢
    rw [h.same.platform] at this
    exact this
  have hservers : World.SameServer (t.step w o).1 (t.step w' o).1 := by
    have hs := t.step_same w o
    have hs' := t.step_same w' o
    exact ⟨hs'.platform.trans (h.same.platform.trans hs.platform.symm),
      hs'.names.trans (h.same.names.trans hs.names.symm),
      hs'.groups.trans (h.same.groups.trans hs.groups.symm),
      hs'.symbols.trans (h.same.symbols.trans hs.symbols.symm),
      hs'.historyQuotes.trans (h.same.historyQuotes.trans hs.historyQuotes.symm),
      hs'.paused.trans (h.same.paused.trans hs.paused.symm)⟩
  have hpc : (t.step w' o).2 = (t.step w o).2 := by
    obtain ⟨symbolName, digits, period, pc⟩ := t
    obtain rfl : symbolName = s.symbolName := hname
    obtain rfl : period = s.period := hperiod
    cases pc with
    | quotes =>
      simp only [ChartTask.step, h.same.historyQuotes]
      split <;> rfl
    | load newest rates =>
      have hload : w'.loadChartPoint s.symbolName s.period =
          w.loadChartPoint s.symbolName s.period := h.point
      simp only [ChartTask.step, hload]
    | stop newest fromTime rate older => simp only [ChartTask.step, h.same.paused]
    | publish newest fromTime rate older =>
      simp only [ChartTask.step, World.publish_snd, h.same.platform]
      split <;> rfl
    | _ => rfl
  have hpoint : s.point (t.step w' o).1 = s.point (t.step w o).1 := by
    by_cases hsave : ∃ newest, t.pc = .save newest
    · obtain ⟨newest, hpc⟩ := hsave
      have hstored : ∀ w, s.point (t.step w o).1 = newest.time := by
        intro w
        unfold ChartTask.step
        rw [hpc, hname, hperiod]
        exact World.loadChartPoint_saveChartPoint w s.symbolName newest.ctm s.period
      rw [hstored w', hstored w]
    · have hkeep : ∀ w, s.point (t.step w o).1 = s.point w := by
        intro w
        have hs := t.step_same w o
        exact World.loadChartPoint_congr hs.platform hs.names
          (t.step_files w o fun newest hpc => hsave ⟨newest, hpc⟩) _ _
      rw [hkeep w', hkeep w, h.point]
  exact ⟨hpc, ⟨hservers, hpoint⟩, hcalls⟩

/-- What a run publishes depends on its own time point and the constant parts only. -/
theorem Series.steps_same {s : Series} : ∀ (os : List Outcome) {w w' : World} {t : ChartTask},
    SameFor s w w' → t.symbolName = s.symbolName → t.period = s.period →
    ∃ cs, (ChartTask.steps (w, t) os).1.calls = w.calls ++ cs ∧
      (ChartTask.steps (w', t) os).1.calls = w'.calls ++ cs
  | [], w, w', _, _, _, _ => ⟨[], (List.append_nil _).symm, (List.append_nil _).symm⟩
  | o :: os, w, w', t, h, hname, hperiod => by
    obtain ⟨hpc, h', cs, hc, hc'⟩ := h.step hname hperiod o
    obtain ⟨hn, -, hp⟩ := t.step_captures w o
    obtain ⟨ds, hd, hd'⟩ := steps_same os h' (hn.trans hname) (hp.trans hperiod)
    refine ⟨cs ++ ds, ?_, ?_⟩
    · rw [← List.append_assoc, ← hc]
      exact hd
    · rw [← List.append_assoc, ← hc']
      have hsteps : ChartTask.steps (w', t) (o :: os) =
          ChartTask.steps ((t.step w' o).1, (t.step w' o).2) os := rfl
      rw [hsteps, hpc]
      exact hd'

/-! ## A run that stores -/

/-- The one candle of a history. -/
def sixty : RateInfo := ⟨60, 0, 0, 0, 0⟩

/-- Every series has a history of one candle, and nothing is stored. -/
def oneCandle (platform : Platform) : World :=
  World.start platform (.ofServer (bytes "mt4api") (bytes "srv")) [] [] fun _ _ => some [sixty]

/-- `HistoryQuotes`, `load_chart_point`, `is_paused`, `publish`, `save_chart_point`. -/
def fiveOk : List Outcome := List.replicate 5 (.ofStatus .ok)

theorem Alphanumeric.utf8 {name : Bytes} (h : Alphanumeric name) : utf8Valid name = true := by
  refine utf8Valid_of_ascii fun b hb => ?_
  rw [UInt8.lt_iff_toNat_lt]
  rcases h b hb with ⟨-, hle⟩ | ⟨-, hle⟩ | ⟨-, hle⟩
  all_goals
    rw [UInt8.le_iff_toNat_le] at hle
    exact Nat.lt_of_le_of_lt hle (by decide)

/-- **A run over one new candle publishes it and stores its time.** -/
theorem steps_fiveOk (platform : Platform) {s : Series} (hs : Alphanumeric s.symbolName) :
    ∃ w : World, (ChartTask.steps (oneCandle platform, s.task) fiveOk).1 =
      w.saveChartPoint s.symbolName sixty.time s.period := by
  obtain ⟨symbolName, digits, period⟩ := s
  have hok : ((oneCandle platform).publish .ok (oneCandle platform).names.topicNameMt4Candle
      (.candle (ChartTask.candle ⟨symbolName, digits, period, .quotes⟩ sixty))).2 = .ok :=
    publish_ok_iff.mpr ⟨(candle_encodable _).trans hs.utf8, rfl⟩
  have h₃ : (ChartTask.step ⟨symbolName, digits, period, .publish sixty 0 sixty []⟩
      (oneCandle platform) (.ofStatus .ok)).2 = ⟨symbolName, digits, period, .save sixty⟩ := by
    simp only [ChartTask.step]
    split
    · rfl
    · rename_i h
      exact absurd (h.symm.trans hok) (by simp)
    · rename_i h
      exact absurd (h.symm.trans hok) (by simp)
  have hsteps : ChartTask.steps (oneCandle platform, Series.task ⟨symbolName, digits, period⟩)
      fiveOk = (ChartTask.step ⟨symbolName, digits, period, .publish sixty 0 sixty []⟩
        (oneCandle platform) (.ofStatus .ok)).2.step (ChartTask.step
          ⟨symbolName, digits, period, .publish sixty 0 sixty []⟩ (oneCandle platform)
          (.ofStatus .ok)).1 (.ofStatus .ok) := rfl
  rw [hsteps, h₃]
  exact ⟨_, rfl⟩

/-- Series that share a file share their time point. -/
theorem point_eq_of_file {w : World} {a b : Series} (h : a.file w = b.file w) :
    a.point w = b.point w := by
  unfold Series.file at h
  unfold Series.point World.loadChartPoint
  rw [h]

/-- **Two series that share a file interfere.** -/
theorem interferes_of_file {platform : Platform} {a b : Series}
    (ha : Alphanumeric a.symbolName) (h : ∀ w : World, w.platform = platform →
      a.file w = b.file w) : ¬ NonInterfering platform a b := by
  intro hni
  obtain ⟨w, hw⟩ := steps_fiveOk platform ha
  have hstay := (hni (oneCandle platform) fiveOk [] rfl).1
  have hstored : a.point (ChartTask.steps (oneCandle platform, a.task) fiveOk).1 = 60 := by
    rw [hw]
    exact World.loadChartPoint_saveChartPoint w a.symbolName sixty.ctm a.period
  have hsame := ChartTask.steps_same fiveOk (oneCandle platform) a.task
  have hzero : b.point (oneCandle platform) = 0 := rfl
  rw [← point_eq_of_file (h _ hsame.platform), hstored, hzero] at hstay
  exact absurd hstay (by decide)

/-- **Two series do not interfere iff they do not collide.** -/
theorem nonInterfering_iff (platform : Platform) {a b : Series}
    (ha : Alphanumeric a.symbolName) (hpa : a.period ∈ chartPeriods)
    (hpb : b.period ∈ chartPeriods) :
    NonInterfering platform a b ↔ ¬ Collide platform a b := by
  constructor
  · intro hni hcollide
    refine interferes_of_file ha (fun w hw => ?_) hni
    rw [file_eq_iff hpa hpb, hw]
    exact (collide_iff hpa hpb).mpr hcollide
  · rintro hno w os os' rfl
    have hne : b.file w ≠ w.pointFile a.symbolName a.period := by
      intro heq
      exact hno ((collide_iff hpa hpb).mp ((file_eq_iff hpa hpb).mp heq.symm))
    have hpoint := Series.point_steps os (t := a.task) hne
    have hsame : SameFor b w (ChartTask.steps (w, a.task) os).1 :=
      ⟨ChartTask.steps_same os w a.task, hpoint⟩
    obtain ⟨cs, hcs, hcs'⟩ := Series.steps_same os' (t := b.task) hsame rfl rfl
    refine ⟨hpoint, ?_⟩
    unfold Series.callsFrom
    rw [hcs, hcs', List.drop_left, List.drop_left]

/-! ## The M5 series of `A1` and the M15 series of `A` -/

def a1M5 : Series := ⟨bytes "A1", 5, periodM5⟩

def aM15 : Series := ⟨bytes "A", 5, periodM15⟩

/-- **The M5 series of `A1` changes the time point of the M15 series of `A`.** -/
theorem a15_interferes : ¬ NonInterfering .win32 a1M5 aM15 := by
  refine interferes_of_file (by decide +kernel) fun w hw => ?_
  rw [file_eq_iff (by decide +kernel) (by decide +kernel), hw]
  decide +kernel

/-- The M1 series of two names do not interfere. -/
theorem m1_nonInterfering :
    NonInterfering .win32 ⟨bytes "EURUSD", 5, periodM1⟩ ⟨bytes "GBPUSD", 5, periodM1⟩ :=
  (nonInterfering_iff .win32 (by decide +kernel) (by decide +kernel) (by decide +kernel)).mpr (by
    unfold Collide Series.folded
    decide +kernel)

end TradeBridge
