import TradeBridge.ChartRuns

/-!
# What a successful sync stores

`save_chart_point` stands behind the loop of `publish_chart_by_symbol`, and the loop is left by
`return` at the first candle before the stored time point. So a run stores the newest candle's time
only where it walks the history to its start, with no candle behind the point; from then on the
point stays where it is, and each run publishes everything since again. Opening the time-point file
succeeds, as everywhere (`World`).

Results:
* `Synced.sent`, `Synced.point`: what a successful run publishes and what it leaves stored.
* `stuck_count`, `syncRuns_count_le`: how often a sequence of runs publishes a candle.
* **`sync_advances_iff`**: a run advances the point iff no candle is behind it, or it is the newest's
  already; over a growing history each candle is published at most twice iff there are at most two
  runs, or three from a history of one candle.
* `the_second_sync_does_not_advance`: two candles, then a third.
-/

namespace TradeBridge

open TradeBridge.Lib

/-! ## Successful runs -/

/-- A run of the series that is never paused, returns, and publishes with success only. -/
def Synced (s : Series) (w w' : World) : Prop :=
  ∃ xs, (∀ x ∈ xs, x.paused = false) ∧
    (Task.chart (ChartTask.turns w s.task xs).2).finished = true ∧
    (ChartTask.turns w s.task xs).1 = w' ∧ ∀ c ∈ s.newCalls w xs, c.result = .ok

/-- Sorted strictly by `ctm`, every `ctm` positive. -/
structure Dated (rates : List RateInfo) : Prop where
  sorted : rates.Pairwise fun a b => a.time < b.time
  positive : ∀ r ∈ rates, 0 < r.time

/-- A successful run leaves the newest candle's time stored, and another one on the same history
publishes that candle only. -/
structure Advances (s : Series) (w : World) (newest : RateInfo) : Prop where
  point : ∀ w', Synced s w w' → s.point w' = newest.time
  again : ∀ w' w'', Synced s w w' → Synced s w' w'' → w''.sent = w'.sent ++ [s.message newest]

/-- A sequence of successful runs, each over the next history. -/
inductive SyncRuns (s : Series) : World → List (List RateInfo) → World → Prop
  | nil (w : World) : SyncRuns s w [] w
  | cons {w w₁ w₂ : World} {rates : List RateInfo} {rest : List (List RateInfo)}
      {q : Bytes → Int → Option (List RateInfo)}
      (history : s.history { w with historyQuotes := q } = rates)
      (run : Synced s { w with historyQuotes := q } w₁) (runs : SyncRuns s w₁ rest w₂) :
      SyncRuns s w (rates :: rest) w₂

/-- Histories of candles, each with at least one newer candle at its end than the one before. -/
structure Growing (hs : List (List RateInfo)) : Prop where
  nonempty : ∀ rates ∈ hs, rates ≠ []
  dated : ∀ rates ∈ hs, Dated rates
  gains : hs.Pairwise fun a b => ∃ more, more ≠ [] ∧ b = a ++ more

/-- What was sent since contains no candle more than twice. -/
def AtMostTwice (s : Series) (w w' : World) : Prop :=
  ∀ r, ((w'.sent.drop w.sent.length).count (s.message r)) ≤ 2

variable {s : Series} {w w' : World}

/-! ## One run -/

/-- The account of a successful run. -/
theorem Synced.kept (h : Synced s w w') : ∃ cs, (∀ c ∈ cs, c.result = .ok) ∧
    w'.calls = w.calls ++ cs ∧ cs.map PublishCall.attempt = (s.tail w).map (s.attempt w.names) ∧
    w'.platform = w.platform ∧ w'.names = w.names ∧ w'.historyQuotes = w.historyQuotes ∧
    w'.files = s.filesAfter w (s.task.stores w) := by
  obtain ⟨xs, hxs, hfin, rfl, hok⟩ := h
  have hends : s.Ends w xs := Task.ended_of_finished hfin
  have hthrew : (Task.chart (ChartTask.turns w s.task xs).2).threw = false :=
    Task.threw_of_finished hfin
  obtain ⟨cs, hl, hk⟩ :=
    ChartTask.turns_kept xs (ChartTask.foundPaused_of_unpaused hxs) hthrew
  obtain ⟨hrest, -, hstores⟩ :=
    ChartTask.rest_of_ended hends (ChartTask.turns w s.task xs).1
  have hattempts := hk.attempts
  have hfiles := hk.files
  rw [hrest, List.map_nil, List.append_nil] at hattempts
  rw [hstores] at hfiles
  rw [hl.newCalls] at hok
  exact ⟨cs, hok, hl.calls, hattempts, hl.platform, hl.names, hl.historyQuotes, hfiles⟩

/-- **What a successful run publishes**: the tail. -/
theorem Synced.sent (h : Synced s w w') : w'.sent = w.sent ++ (s.tail w).map s.message := by
  obtain ⟨cs, hok, hcalls, hattempts, -⟩ := h.kept
  have hall : cs.filter (fun c => c.result == .ok) = cs :=
    List.filter_eq_self.mpr fun c hc => beq_iff_eq.mpr (hok c hc)
  have hmessages : cs.map PublishCall.message = (s.tail w).map s.message := by
    have := congrArg (List.map Prod.snd) hattempts
    rw [List.map_map, List.map_map] at this
    exact this
  unfold World.sent
  rw [hcalls, List.filter_append, List.map_append, hall, hmessages]

theorem Synced.history (h : Synced s w w') : s.history w' = s.history w := by
  obtain ⟨cs, -, -, -, -, -, hquotes, -⟩ := h.kept
  unfold Series.history
  rw [hquotes]

/-- **What a successful run leaves stored**: the newest candle's time if no candle is behind the
point, and else the point. -/
theorem Synced.point (h : Synced s w w') {newest : RateInfo}
    (hnew : (s.history w).getLast? = some newest) :
    s.point w' = if ∀ r ∈ s.history w, s.point w ≤ r.time then newest.time else s.point w := by
  obtain ⟨cs, -, -, -, hplat, hnames, -, hfiles⟩ := h.kept
  have hstores : s.task.stores w =
      if (s.history w).all (isDue RateInfo.time (s.point w)) then some newest.time else none := by
    have : s.task.stores w = if (s.history w).all (isDue RateInfo.time (s.point w)) then
      (s.history w).getLast?.map RateInfo.time else none := rfl
    rw [this, hnew]
    rfl
  rw [hstores] at hfiles
  by_cases hall : ∀ r ∈ s.history w, s.point w ≤ r.time
  · have hdue : (s.history w).all (isDue RateInfo.time (s.point w)) = true :=
      List.all_eq_true.mpr fun r hr => isDue_iff.mpr (hall r hr)
    rw [if_pos hdue] at hfiles
    rw [if_pos hall]
    refine (World.loadChartPoint_congr (w := w.saveChartPoint s.symbolName newest.time s.period)
      hplat hnames hfiles _ _).trans ?_
    exact World.loadChartPoint_saveChartPoint w s.symbolName newest.ctm s.period
  · have hdue : ¬ (s.history w).all (isDue RateInfo.time (s.point w)) = true := fun h =>
      hall fun r hr => isDue_iff.mp (List.all_eq_true.mp h r hr)
    rw [if_neg hdue] at hfiles
    rw [if_neg hall]
    exact World.loadChartPoint_congr hplat hnames hfiles _ _

/-! ## When there is a successful run -/

/-- NATS answers `NATS_OK`, so a call succeeds or throws. -/
theorem ChartTask.turns_results : ∀ (xs : List Turn) (w : World) (t : ChartTask),
    (∀ x ∈ xs, x.outcome.status = .ok) →
    ∃ cs, Logged w t cs (ChartTask.turns w t xs).1 (ChartTask.turns w t xs).2 ∧
      ∀ c ∈ cs, c.result = .ok ∨ c.result = .threw
  | [], w, t, _ => ⟨[], Logged.refl w t, fun _ hc => absurd hc List.not_mem_nil⟩
  | x :: xs, w, t, h => by
    have hstep := t.step_logged { w with paused := x.paused } x.outcome
    obtain ⟨ds, hds, hresults⟩ :=
      turns_results xs (t.step { w with paused := x.paused } x.outcome).1
        (t.step { w with paused := x.paused } x.outcome).2
        fun y hy => h y (List.mem_cons_of_mem _ hy)
    refine ⟨_, hstep.of_paused.trans hds, fun c hc => ?_⟩
    rcases List.mem_append.mp hc with hc | hc
    · obtain ⟨p, -, rfl⟩ := ChartTask.mem_callsNow.mp hc
      cases henc : p.2.toJson.encodable with
      | true => exact Or.inl (publish_ok_iff.mpr ⟨henc, h x List.mem_cons_self⟩)
      | false => exact Or.inr (publish_threw_iff.mpr henc)
    · exact hresults c hc

/-- **A series whose name is UTF-8 has a successful run.** -/
theorem exists_synced (hv : utf8Valid s.symbolName = true) (w : World) : ∃ w', Synced s w w' := by
  let xs := allOk ((Task.chart s.task).size w)
  have hxs : ∀ x ∈ xs, x.paused = false ∧ x.outcome.status = .ok := fun x hx => mem_allOk hx
  have hthrew := Series.turns_threw (w := w) (fun _ => hv) xs
  have hended : (Task.chart (ChartTask.turns w s.task xs).2).ended = true := by
    have := Task.turns_ended xs (t := .chart s.task) rfl (w := w) List.length_replicate.symm.le
    rw [Task.turns_chart] at this
    exact this
  obtain ⟨cs, hl, hresults⟩ := ChartTask.turns_results xs w s.task fun x hx => (hxs x hx).2
  refine ⟨_, xs, fun x hx => (hxs x hx).1, ?_, rfl, fun c hc => ?_⟩
  · exact Task.finished_of_ended hended hthrew
  · rw [hl.newCalls] at hc
    refine (hresults c hc).resolve_right fun hres => ?_
    have := hl.threw.mpr (Or.inr ⟨c, hc, hres⟩)
    rw [hthrew] at this
    cases this

/-- A successful run over a due candle has a name that is UTF-8. -/
theorem Synced.utf8 (h : Synced s w w') {r : RateInfo} (hr : r ∈ s.tail w) :
    utf8Valid s.symbolName = true := by
  obtain ⟨xs, -, hfin, rfl, -⟩ := id h
  obtain ⟨cs, hcs, henc⟩ := Task.turns_encodable xs (w := w) (t := .chart s.task) (by
    rw [Task.turns_chart]
    exact Task.threw_of_finished hfin)
  rw [Task.turns_chart] at hcs
  obtain ⟨ds, -, hds, hattempts, -⟩ := h.kept
  obtain rfl : ds = cs := List.append_cancel_left (hds.symm.trans hcs)
  have hmem : s.attempt w.names r ∈ ds.map PublishCall.attempt := by
    rw [hattempts]
    exact List.mem_map_of_mem hr
  obtain ⟨c, hc, hcr⟩ := List.mem_map.mp hmem
  have hmessage : c.message = s.message r := congrArg Prod.snd hcr
  have := henc c hc
  rw [hmessage] at this
  exact (candle_encodable _).symm.trans this

/-! ## One run and the next -/

theorem Series.mem_tail (h : Dated (s.history w)) {r : RateInfo} (hr : r ∈ s.history w)
    (hdue : s.point w ≤ r.time) : r ∈ s.tail w := by
  unfold Series.tail
  rw [backlog_eq_filter (h.sorted.imp fun hlt => le_of_lt hlt)]
  exact List.mem_reverse.mpr (List.mem_filter.mpr ⟨hr, isDue_iff.mpr hdue⟩)

/-- **When a run advances the point**: no candle is behind it, or it is the newest's already. -/
theorem advances_iff {newest : RateInfo} (hd : Dated (s.history w))
    (hnew : (s.history w).getLast? = some newest) (hle : s.point w ≤ newest.time) :
    Advances s w newest ↔ (utf8Valid s.symbolName = true →
      (∀ r ∈ s.history w, s.point w ≤ r.time) ∨ s.point w = newest.time) := by
  constructor
  · intro h hv
    obtain ⟨w', hw'⟩ := exists_synced hv w
    have hpoint := hw'.point hnew
    rw [h.point w' hw'] at hpoint
    by_cases hall : ∀ r ∈ s.history w, s.point w ≤ r.time
    · exact Or.inl hall
    · rw [if_neg hall] at hpoint
      exact Or.inr hpoint.symm
  · intro h
    have hdue : newest ∈ s.tail w := Series.mem_tail hd (List.mem_of_getLast? hnew) hle
    have hpoint : ∀ w', Synced s w w' → s.point w' = newest.time := by
      intro w' hw'
      rw [hw'.point hnew]
      rcases h (hw'.utf8 hdue) with hall | heq
      · rw [if_pos hall]
      · rw [heq, ite_self]
    refine ⟨hpoint, fun w' w'' hw' hw'' => ?_⟩
    have htail : s.tail w' = [newest] := by
      unfold Series.tail
      rw [hpoint w' hw', hw'.history]
      exact backlog_newest hd.sorted hnew
    rw [hw''.sent, htail]
    rfl

/-! ## How often a candle is published -/

theorem message_injective {a b : RateInfo} (h : s.message a = s.message b) : a.time = b.time := by
  have hcandle : s.task.candle a = s.task.candle b := Message.candle.inj h
  have hts : a.ctm = b.ctm := congrArg Candle.ts hcandle
  unfold RateInfo.time
  rw [hts]

/-- One run publishes no candle twice. -/
theorem count_tail_le (hd : Dated (s.history w)) (m : Message) :
    ((s.tail w).map s.message).count m ≤ 1 := by
  have hsorted : (s.tail w).Pairwise fun a b => b.time < a.time :=
    (List.pairwise_reverse.mpr hd.sorted).sublist (List.takeWhile_sublist _)
  have hnodup : ((s.tail w).map s.message).Nodup := by
    refine List.pairwise_map.mpr (hsorted.imp fun {a b} hlt heq => ?_)
    have := message_injective heq
    omega
  exact List.nodup_iff_count_le_one.mp hnodup m

theorem count_tail_pos (hd : Dated (s.history w)) {r : RateInfo} (hr : r ∈ s.history w)
    (hdue : s.point w ≤ r.time) : 1 ≤ ((s.tail w).map s.message).count (s.message r) :=
  List.count_pos_iff.mpr (List.mem_map_of_mem (Series.mem_tail hd hr hdue))

/-- A candle before the point is not published. -/
theorem count_tail_behind {r : RateInfo} (hlt : r.time < s.point w) :
    ((s.tail w).map s.message).count (s.message r) = 0 := by
  refine List.count_eq_zero_of_not_mem fun hm => ?_
  obtain ⟨a, ha, heq⟩ := List.mem_map.mp hm
  have hdue := (mem_backlog ha).2
  have := message_injective heq
  omega

/-- What a sequence of runs publishes. -/
theorem SyncRuns.sent {hs : List (List RateInfo)} (h : SyncRuns s w hs w') :
    ∃ ms, w'.sent = w.sent ++ ms := by
  induction h with
  | nil w => exact ⟨[], (List.append_nil _).symm⟩
  | cons history run runs ih =>
    obtain ⟨ms, hms⟩ := ih
    exact ⟨_, by rw [hms, run.sent, List.append_assoc]; rfl⟩

/-- A sequence over a first history starts with a run over it. -/
theorem SyncRuns.first {rates : List RateInfo} {rest : List (List RateInfo)}
    (h : SyncRuns s w (rates :: rest) w') :
    ∃ q w₁, s.history { w with historyQuotes := q } = rates ∧
      Synced s { w with historyQuotes := q } w₁ ∧ SyncRuns s w₁ rest w' := by
  cases h with
  | cons history run runs => exact ⟨_, _, history, run, runs⟩

/-- The number of times a sequence of runs publishes a message. -/
def sentCount (w w' : World) (m : Message) : Nat := (w'.sent.drop w.sent.length).count m

theorem sentCount_of_sent {m : Message} {ms : List Message} (h : w'.sent = w.sent ++ ms) :
    sentCount w w' m = ms.count m := by
  unfold sentCount
  rw [h, List.drop_left]

/-- The first run and the others share the count. -/
theorem sentCount_cons {w₁ w₂ : World} {q : Bytes → Int → Option (List RateInfo)}
    {rest : List (List RateInfo)} (run : Synced s { w with historyQuotes := q } w₁)
    (runs : SyncRuns s w₁ rest w₂) (m : Message) :
    sentCount w w₂ m =
      ((s.tail { w with historyQuotes := q }).map s.message).count m + sentCount w₁ w₂ m := by
  obtain ⟨ms, hms⟩ := runs.sent
  have hall : w₂.sent = w.sent ++
      ((s.tail { w with historyQuotes := q }).map s.message ++ ms) := by
    rw [hms, run.sent, List.append_assoc]
    rfl
  rw [sentCount_of_sent hall, sentCount_of_sent hms, List.count_append]

theorem sentCount_self (w : World) (m : Message) : sentCount w w m = 0 :=
  sentCount_of_sent (List.append_nil _).symm

/-- **Each run publishes a candle once at most.** -/
theorem syncRuns_count_le {hs : List (List RateInfo)} (h : SyncRuns s w hs w')
    (hd : ∀ rates ∈ hs, Dated rates) (m : Message) : sentCount w w' m ≤ hs.length := by
  induction h with
  | nil w => rw [sentCount_self]; exact Nat.zero_le _
  | @cons w w₁ w₂ rates rest q history run runs ih =>
    have hone := count_tail_le (s := s) (w := { w with historyQuotes := q })
      (history ▸ hd rates List.mem_cons_self) m
    have := ih fun h hh => hd h (List.mem_cons_of_mem _ hh)
    rw [sentCount_cons run runs, List.length_cons]
    omega

/-- **A point between two candles of every history stays**, and its candle is published by every
run. -/
theorem stuck_count {hs : List (List RateInfo)} (h : SyncRuns s w hs w')
    (hd : ∀ rates ∈ hs, Dated rates) {older r : RateInfo} (hlt : older.time < r.time)
    (hpoint : s.point w = r.time) (hmem : ∀ rates ∈ hs, older ∈ rates ∧ r ∈ rates) :
    hs.length ≤ sentCount w w' (s.message r) := by
  induction h with
  | nil w => exact Nat.zero_le _
  | @cons w w₁ w₂ rates rest q history run runs ih =>
    obtain ⟨holder, hr⟩ := hmem rates List.mem_cons_self
    subst history
    have hpoint' : s.point { w with historyQuotes := q } = r.time := hpoint
    have hdue := count_tail_pos (hd _ List.mem_cons_self) hr (le_of_eq hpoint')
    have hstuck : s.point w₁ = r.time := by
      obtain ⟨newest, hnew⟩ : ∃ newest,
          (s.history { w with historyQuotes := q }).getLast? = some newest :=
        ⟨_, List.getLast?_eq_some_getLast (List.ne_nil_of_mem hr)⟩
      have hnot : ¬ ∀ a ∈ s.history { w with historyQuotes := q },
          s.point { w with historyQuotes := q } ≤ a.time := fun hall => by
        have := hall older holder
        omega
      rw [run.point hnew, if_neg hnot, hpoint']
    have := ih (fun h hh => hd h (List.mem_cons_of_mem _ hh)) hstuck
      fun h hh => hmem h (List.mem_cons_of_mem _ hh)
    rw [sentCount_cons run runs, List.length_cons]
    omega

/-- A series whose name is UTF-8 has a successful run over each of the histories. -/
theorem exists_syncRuns (hv : utf8Valid s.symbolName = true) :
    ∀ (hs : List (List RateInfo)) (w : World), ∃ w', SyncRuns s w hs w'
  | [], w => ⟨w, .nil w⟩
  | rates :: rest, w => by
    obtain ⟨w₁, hw₁⟩ := exists_synced hv { w with historyQuotes := fun _ _ => some rates }
    obtain ⟨w₂, hw₂⟩ := exists_syncRuns hv rest w₁
    exact ⟨w₂, .cons rfl hw₁ hw₂⟩

/-! ## Sequences of runs -/

theorem Synced.point_of_due (h : Synced s w w') {newest : RateInfo}
    (hnew : (s.history w).getLast? = some newest)
    (hall : ∀ r ∈ s.history w, s.point w ≤ r.time) : s.point w' = newest.time := by
  rw [h.point hnew, if_pos hall]

theorem point_of_noFile (h : w.files (w.pointFile s.symbolName s.period) = none) :
    s.point w = 0 := by
  unfold Series.point World.loadChartPoint
  rw [h]

/-- The oldest candle of a dated history is behind no other. -/
theorem Dated.oldest_le {r : RateInfo} {more : List RateInfo} (h : Dated (r :: more)) :
    ∀ a ∈ r :: more, r.time ≤ a.time := by
  intro a ha
  rcases List.mem_cons.mp ha with rfl | ha
  · exact le_refl _
  · exact le_of_lt ((List.pairwise_cons.mp h.sorted).1 a ha)

/-- The first run over dated candles stores the newest one's time. -/
theorem Synced.first_point (h : Synced s w w') (hd : Dated (s.history w)) (hzero : s.point w = 0)
    {newest : RateInfo} (hnew : (s.history w).getLast? = some newest) :
    s.point w' = newest.time :=
  h.point_of_due hnew fun r hr => by
    have := hd.positive r hr
    omega

/-- A run from the oldest candle's time over a longer history stores a newer one's. -/
theorem Synced.second_point (h : Synced s w w') (hd : Dated (s.history w)) {r : RateInfo}
    {more : List RateInfo} (hmore : more ≠ []) (hhist : s.history w = r :: more)
    (hpoint : s.point w = r.time) :
    ∃ newest ∈ s.history w, r.time < newest.time ∧ s.point w' = newest.time := by
  obtain ⟨newest, hnew⟩ : ∃ newest, more.getLast? = some newest :=
    ⟨_, List.getLast?_eq_some_getLast hmore⟩
  have hmem : newest ∈ more := List.mem_of_getLast? hnew
  have hlast : (s.history w).getLast? = some newest := by
    rw [hhist, List.getLast?_cons, hnew]
    rfl
  rw [hhist] at hd
  refine ⟨newest, hhist ▸ List.mem_cons_of_mem _ hmem,
    (List.pairwise_cons.mp hd.sorted).1 newest hmem, h.point_of_due hlast fun a ha => ?_⟩
  rw [hpoint]
  exact hd.oldest_le a (hhist ▸ ha)

/-- From a history of two candles or more three runs publish its newest one each. -/
theorem thrice_of_two {rates : List RateInfo} {rest : List (List RateInfo)}
    (h : SyncRuns s w (rates :: rest) w') (hg : Growing (rates :: rest)) (hzero : s.point w = 0)
    (hone : ∀ r, rates ≠ [r]) (hlen : 2 ≤ rest.length) : ¬ AtMostTwice s w w' := by
  intro htwice
  obtain ⟨q, w₁, rfl, run, runs⟩ := h.first
  have hd := hg.dated _ List.mem_cons_self
  have hzero' : s.point { w with historyQuotes := q } = 0 := hzero
  obtain ⟨newest, hnew⟩ : ∃ newest,
      (s.history { w with historyQuotes := q }).getLast? = some newest :=
    ⟨_, List.getLast?_eq_some_getLast (hg.nonempty _ List.mem_cons_self)⟩
  obtain ⟨front, hfront⟩ := List.getLast?_eq_some_iff.mp hnew
  obtain ⟨older, holder⟩ : ∃ older, older ∈ front := by
    cases front with
    | nil => exact absurd hfront (hone newest)
    | cons older _ => exact ⟨older, List.mem_cons_self⟩
  have hmem : older ∈ s.history { w with historyQuotes := q } ∧
      newest ∈ s.history { w with historyQuotes := q } := by
    rw [hfront]
    exact ⟨List.mem_append.mpr (Or.inl holder),
      List.mem_append.mpr (Or.inr (List.mem_singleton_self _))⟩
  have hlt : older.time < newest.time := by
    have := hd.sorted
    rw [hfront] at this
    exact (List.pairwise_append.mp this).2.2 older holder newest (List.mem_singleton_self _)
  have hpos := hd.positive newest hmem.2
  have hfirst := count_tail_pos hd hmem.2 (by omega)
  have hothers := stuck_count runs (fun h hh => hg.dated h (List.mem_cons_of_mem _ hh)) hlt
    (run.first_point hd hzero' hnew) fun h hh => by
      obtain ⟨more, -, rfl⟩ := (List.pairwise_cons.mp hg.gains).1 h hh
      exact ⟨List.mem_append.mpr (Or.inl hmem.1), List.mem_append.mpr (Or.inl hmem.2)⟩
  have hcount : sentCount w w' (s.message newest) ≤ 2 := htwice newest
  rw [sentCount_cons run runs] at hcount
  omega

/-- From a history of one candle the second run advances once more, to a candle the third and the
fourth publish again. -/
theorem thrice_of_one {r : RateInfo} {rest : List (List RateInfo)}
    (h : SyncRuns s w ([r] :: rest) w') (hg : Growing ([r] :: rest)) (hzero : s.point w = 0)
    (hlen : 3 ≤ rest.length) : ¬ AtMostTwice s w w' := by
  intro htwice
  obtain ⟨rates, rest, rfl⟩ : ∃ rates rest', rest = rates :: rest' := by
    cases rest with
    | nil => exact absurd hlen (by decide)
    | cons rates rest => exact ⟨rates, rest, rfl⟩
  obtain ⟨hgains, hgains'⟩ := List.pairwise_cons.mp hg.gains
  obtain ⟨more, hmore, hrates⟩ := hgains rates List.mem_cons_self
  obtain ⟨q, w₁, history, run, runs⟩ := h.first
  have hzero' : s.point { w with historyQuotes := q } = 0 := hzero
  have hpoint : s.point w₁ = r.time := run.first_point
    (history.symm ▸ hg.dated [r] List.mem_cons_self) hzero' (by rw [history]; rfl)
  obtain ⟨q', w₂, rfl, run', runs'⟩ := runs.first
  have hd := hg.dated _ (List.mem_cons_of_mem _ List.mem_cons_self)
  have hpoint' : s.point { w₁ with historyQuotes := q' } = r.time := hpoint
  obtain ⟨newest, hmem, hlt, hadvanced⟩ := run'.second_point hd hmore hrates hpoint'
  have holdest : r ∈ s.history { w₁ with historyQuotes := q' } := hrates ▸ List.mem_cons_self
  have hsecond := count_tail_pos hd hmem (by omega)
  have hothers := stuck_count runs'
    (fun h hh => hg.dated h (List.mem_cons_of_mem _ (List.mem_cons_of_mem _ hh))) hlt hadvanced
    fun h hh => by
      obtain ⟨more, -, rfl⟩ := (List.pairwise_cons.mp hgains').1 h hh
      exact ⟨List.mem_append.mpr (Or.inl holdest), List.mem_append.mpr (Or.inl hmem)⟩
  have hcount : sentCount w w' (s.message newest) ≤ 2 := htwice newest
  rw [sentCount_cons run runs, sentCount_cons run' runs'] at hcount
  rw [List.length_cons] at hlen
  omega

/-- From a history of one candle three runs publish none of them three times. -/
theorem twice_of_one {r : RateInfo} {rates rates' : List RateInfo}
    (h : SyncRuns s w [[r], rates, rates'] w') (hg : Growing [[r], rates, rates'])
    (hzero : s.point w = 0) : AtMostTwice s w w' := by
  intro a
  obtain ⟨more, hmore, hrates⟩ := (List.pairwise_cons.mp hg.gains).1 rates List.mem_cons_self
  have hd₁ := hg.dated [r] List.mem_cons_self
  have hd₂ := hg.dated rates (List.mem_cons_of_mem _ List.mem_cons_self)
  have hd₃ := hg.dated rates'
    (List.mem_cons_of_mem _ (List.mem_cons_of_mem _ List.mem_cons_self))
  obtain ⟨q, w₁, history, run, runs⟩ := h.first
  obtain ⟨q', w₂, rfl, run', runs'⟩ := runs.first
  obtain ⟨q'', w₃, rfl, run'', runs''⟩ := runs'.first
  have hfirst := count_tail_le (s := s) (w := { w with historyQuotes := q }) (history.symm ▸ hd₁)
    (s.message a)
  have hsecond := count_tail_le hd₂ (s.message a)
  have hthird := count_tail_le hd₃ (s.message a)
  have hend : sentCount w₃ w' (s.message a) = 0 := by
    cases runs''
    exact sentCount_self _ _
  show sentCount w w' (s.message a) ≤ 2
  rw [sentCount_cons run runs, sentCount_cons run' runs', sentCount_cons run'' runs'', hend]
  by_cases ha : s.message a = s.message r
  · -- the third run starts behind the one candle of the first
    have hzero' : s.point { w with historyQuotes := q } = 0 := hzero
    have hpoint : s.point { w₁ with historyQuotes := q' } = r.time :=
      run.first_point (history.symm ▸ hd₁) hzero' (by rw [history]; rfl)
    obtain ⟨newest, -, hlt, hadvanced⟩ := run'.second_point hd₂ hmore hrates hpoint
    have hbehind : r.time < s.point { w₂ with historyQuotes := q'' } := hadvanced.symm ▸ hlt
    have := count_tail_behind (s := s) hbehind
    rw [ha] at hfirst hsecond ⊢
    omega
  · -- the first run publishes that one candle only
    have hnone : ((s.tail { w with historyQuotes := q }).map s.message).count (s.message a) = 0 := by
      refine List.count_eq_zero_of_not_mem fun hm => ha ?_
      obtain ⟨b, hb, heq⟩ := List.mem_map.mp hm
      have hbr := (mem_backlog hb).1
      rw [history] at hbr
      rw [← heq, List.mem_singleton.mp hbr]
    omega

/-- **When each candle is published at most twice** by runs over a growing history. -/
theorem atMostTwice_iff {hs : List (List RateInfo)} (hg : Growing hs)
    (hfile : w.files (w.pointFile s.symbolName s.period) = none) :
    (∀ w', SyncRuns s w hs w' → AtMostTwice s w w') ↔ (utf8Valid s.symbolName = true →
      hs.length ≤ 2 ∨ (hs.length ≤ 3 ∧ ∃ r, hs.head? = some [r])) := by
  have hzero : s.point w = 0 := point_of_noFile hfile
  constructor
  · intro h hv
    obtain ⟨w', hw'⟩ := exists_syncRuns hv hs w
    have htwice := h w' hw'
    by_contra hno
    obtain ⟨hlen, hlen'⟩ := not_or.mp hno
    cases hs with
    | nil => exact hlen (Nat.zero_le 2)
    | cons rates rest =>
      by_cases hone : ∃ r, rates = [r]
      · obtain ⟨r, rfl⟩ := hone
        refine thrice_of_one hw' hg hzero ?_ htwice
        by_contra hshort
        exact hlen' ⟨by rw [List.length_cons]; omega, r, rfl⟩
      · refine thrice_of_two hw' hg hzero (fun r hr => hone ⟨r, hr⟩) ?_ htwice
        by_contra hshort
        exact hlen (by rw [List.length_cons]; omega)
  · intro h w' hw' r
    have hle := syncRuns_count_le hw' hg.dated (s.message r)
    cases hs with
    | nil => exact hle.trans (Nat.zero_le 2)
    | cons rates rest =>
      have hv : utf8Valid s.symbolName = true := by
        obtain ⟨q, w₁, rfl, run, -⟩ := hw'.first
        have hd := hg.dated _ List.mem_cons_self
        have hzero' : s.point { w with historyQuotes := q } = 0 := hzero
        obtain ⟨a, ha⟩ := List.exists_mem_of_ne_nil _ (hg.nonempty _ List.mem_cons_self)
        have hpos := hd.positive a ha
        exact run.utf8 (Series.mem_tail hd ha (by omega))
      rcases h hv with hlen | ⟨hlen, a, ha⟩
      · exact hle.trans hlen
      · obtain rfl : rates = [a] := Option.some.inj ha
        match rest, hw', hg, hle, hlen with
        | [], _, _, hle, _ => exact hle.trans (Nat.le_succ 1)
        | [_], _, _, hle, _ => exact hle
        | [_, _], hw', hg, _, _ => exact twice_of_one hw' hg hzero r
        | _ :: _ :: _ :: _, _, _, _, hlen => simp only [List.length_cons] at hlen; omega

/-- **When a successful sync advances the time point**: in one run, no candle is behind it, or it is
the newest's already; over a growing history from no stored point, there are at most two runs, or
three that start with one candle. (A series whose name is not UTF-8 has no successful run.) -/
theorem sync_advances_iff (s : Series) :
    (∀ w newest, Dated (s.history w) → (s.history w).getLast? = some newest →
      s.point w ≤ newest.time →
      (Advances s w newest ↔ (utf8Valid s.symbolName = true →
        (∀ r ∈ s.history w, s.point w ≤ r.time) ∨ s.point w = newest.time))) ∧
    ∀ (w : World) (hs : List (List RateInfo)), Growing hs →
      w.files (w.pointFile s.symbolName s.period) = none →
      ((∀ w', SyncRuns s w hs w' → AtMostTwice s w w') ↔ (utf8Valid s.symbolName = true →
        hs.length ≤ 2 ∨ (hs.length ≤ 3 ∧ ∃ r, hs.head? = some [r]))) :=
  ⟨fun _ _ hd hnew hle => advances_iff hd hnew hle, fun _ _ hg hfile => atMostTwice_iff hg hfile⟩

instance (rates : List RateInfo) : Decidable (Dated rates) :=
  decidable_of_iff ((rates.Pairwise fun a b => a.time < b.time) ∧ ∀ r ∈ rates, 0 < r.time)
    ⟨fun h => ⟨h.1, h.2⟩, fun h => ⟨h.sorted, h.positive⟩⟩

/-- The first sync of the two candles advances the point, and one more is all of the next
histories that a sequence may have. -/
theorem sync_twoCandles :
    Advances eurusdM1 twoCandles ⟨120, 110002, 7, 0, 3⟩ ∧
      ∀ w', SyncRuns eurusdM1 twoCandles
        [[⟨60, 110000, 5, -5, 2⟩], [⟨60, 110000, 5, -5, 2⟩, ⟨120, 110002, 7, 0, 3⟩]] w' →
        AtMostTwice eurusdM1 twoCandles w' :=
  ⟨((sync_advances_iff eurusdM1).1 twoCandles _ (by decide) rfl (by decide)).mpr fun _ =>
      Or.inl (by decide),
    ((sync_advances_iff eurusdM1).2 twoCandles _ ⟨by decide, by decide, by
      refine List.pairwise_pair.mpr ⟨[⟨120, 110002, 7, 0, 3⟩], ?_, rfl⟩
      exact List.cons_ne_nil _ _⟩ rfl).mpr fun _ => Or.inl (Nat.le_refl 2)⟩

/-! ## The second sync -/

/-- The two candles were synchronised, and a third has come. -/
def thirdCandle : World :=
  { twoCandles with
    historyQuotes := fun _ _ => some
      [⟨60, 110000, 5, -5, 2⟩, ⟨120, 110002, 7, 0, 3⟩, ⟨180, 110005, 1, -1, 0⟩] }.saveChartPoint
    eurusdM1.symbolName 120 eurusdM1.period

/-- **The second sync does not advance**: the point stays at the second candle. -/
theorem the_second_sync_does_not_advance :
    ¬ Advances eurusdM1 thirdCandle ⟨180, 110005, 1, -1, 0⟩ := by
  have hpoint : eurusdM1.point thirdCandle = 120 :=
    World.loadChartPoint_saveChartPoint _ eurusdM1.symbolName 120 eurusdM1.period
  intro h
  have hd : Dated (eurusdM1.history thirdCandle) := by decide
  rcases (advances_iff hd rfl (by rw [hpoint]; decide)).mp h (by decide) with hall | heq
  · have := hall ⟨60, 110000, 5, -5, 2⟩ List.mem_cons_self
    rw [hpoint] at this
    exact absurd this (by decide)
  · rw [hpoint] at heq
    exact absurd heq (by decide)

end TradeBridge
