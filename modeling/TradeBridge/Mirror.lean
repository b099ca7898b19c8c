import TradeBridge.ChartSync

/-!
# A copy of the history behind the candle topic

A subscriber of the candle topic that keeps, for each timestamp, the last candle it has seen. Runs
of `publish_chart_by_symbol` for one series in any order fill it while the history grows; only
candles of the history are ever published (`FromHistory`), and a run that succeeds publishes what is
still missing, as none is missing behind the stored time point. Opening the time-point file succeeds,
as everywhere (`World`).

Results:
* `fromHistory_step`: one step publishes a candle of the history or nothing.
* `mirror_invariant`: so does a run of the system.
* **`Mirrors.of_synced`**: after a successful run the subscriber holds the history.
-/

namespace TradeBridge

open TradeBridge.Lib

/-- The message is a candle with this timestamp. -/
def Message.isCandleAt (ts : Int32) : Message → Bool
  | .candle c => c.ts == ts
  | _ => false

/-- What the subscriber holds for a timestamp. -/
def World.lastCandleAt (w : World) (ts : Int32) : Option Message :=
  lastWith (Message.isCandleAt ts) w.sent

/-- Everything published is a candle of the history. -/
def FromHistory (s : Series) (w : World) : Prop :=
  ∀ m ∈ w.sent, ∃ r ∈ s.history w, m = s.message r

/-- The subscriber's copy is the history. -/
structure Mirrors (s : Series) (w : World) : Prop where
  exactly : ∀ m, m ∈ w.sent ↔ ∃ r ∈ s.history w, m = s.message r
  holds : ∀ r ∈ s.history w, w.lastCandleAt r.ctm = some (s.message r)
  nothing : ∀ ts, (∀ r ∈ s.history w, r.ctm ≠ ts) → w.lastCandleAt ts = none

variable {s : Series} {w : World}

/-! ## Only the history is published -/

theorem World.mem_sent {w : World} {m : Message} :
    m ∈ w.sent ↔ ∃ c ∈ w.calls, c.result = .ok ∧ c.message = m := by
  unfold World.sent
  simp only [List.mem_map, List.mem_filter, beq_iff_eq, and_assoc]

/-- **One step publishes a candle of the history** or nothing. -/
theorem fromHistory_step {t : ChartRun} (h : FromHistory s w) (ht : RunInv s w t) (o : Outcome) :
    FromHistory s (t.step w o).1 := by
  intro m hm
  have hhist : s.history (t.step w o).1 = s.history w := by
    unfold Series.history
    rw [show (t.step w o).1 = (t.task.step w o).1 from rfl, (t.task.step_same w o).historyQuotes]
  rw [hhist]
  obtain ⟨c, hc, hok, rfl⟩ := World.mem_sent.mp hm
  rcases Task.mem_step_calls (t := .chart t.task) hc with hc | ⟨p, hp, rfl⟩
  · exact h _ (World.mem_sent.mpr ⟨c, hc, hok, rfl⟩)
  · -- the step stands before the publish of the candle at hand
    have hwalk := ht.walk
    cases hpc : t.task.pc with
    | publish newest fromTime rate older =>
      rw [hpc] at hwalk
      obtain ⟨passed, hpre, -, -⟩ := hwalk
      simp only [Task.atPublish, hpc] at hp
      obtain rfl := Option.some.inj hp
      refine ⟨rate, hpre.subset ?_, ht.candle rate⟩
      simp
    | _ =>
      simp only [Task.atPublish, hpc] at hp
      cases hp

theorem fromHistory_env {w' : World} (h : FromHistory s w)
    (he : (∃ b, w' = { w with paused := b }) ∨
      (Grows s w w' ∧ ∀ r ∈ s.history w', DatedSince1970 r)) : FromHistory s w' := by
  rcases he with ⟨b, rfl⟩ | ⟨⟨q, more, hw', hhist, -⟩, -⟩
  · exact h
  · intro m hm
    have hsent : w'.sent = w.sent := by
      rw [hw']
      rfl
    rw [hsent] at hm
    obtain ⟨r, hr, rfl⟩ := h m hm
    refine ⟨r, ?_, rfl⟩
    rw [hhist]
    exact List.mem_append.mpr (Or.inl hr)

/-- The two invariants of the system, with what is published. -/
theorem mirror_invariant (s : Series) :
    Threads.Invariant (chartThreads s DatedSince1970 StoresAfterSuccess)
      (fun w => CursorInv s w ∧ FromHistory s w) (RunInv s) where
  env_inv h he := ⟨(cursor_invariant s).env_inv h.1 he, fromHistory_env h.2 he⟩
  env_local h he := (cursor_invariant s).env_local h.1 he
  spawn_local h := (cursor_invariant s).spawn_local h.1
  run_inv := by
    rintro w t w' t' h ht hrun
    refine ⟨(cursor_invariant s).run_inv h.1 ht hrun, ?_⟩
    obtain ⟨-, o, hstep⟩ := hrun
    have hw' : w' = (t.step w o).1 := by rw [hstep]
    rw [hw']
    exact fromHistory_step h.2 ht o
  run_own h := (cursor_invariant s).run_own h.1
  run_other h := (cursor_invariant s).run_other h.1

/-! ## After a successful run -/

/-- Candles of one timestamp are one candle. -/
theorem eq_of_ctm {rates : List RateInfo} (hs : rates.Pairwise fun a b => a.time < b.time)
    {a b : RateInfo} (ha : a ∈ rates) (hb : b ∈ rates) (h : a.ctm = b.ctm) : a = b := by
  have hnodup : (rates.map RateInfo.time).Nodup :=
    List.pairwise_map.mpr (hs.imp fun {a b} hlt => ne_of_lt hlt)
  refine List.inj_on_of_nodup_map hnodup ha hb ?_
  unfold RateInfo.time
  rw [h]

theorem isCandleAt_message (s : Series) (r : RateInfo) (ts : Int32) :
    (s.message r).isCandleAt ts = (r.ctm == ts) := rfl

/-- What holds of a subscriber that has got exactly the candles of the history. -/
theorem Mirrors.of_exactly (hs : (s.history w).Pairwise fun a b => a.time < b.time)
    (h : ∀ m, m ∈ w.sent ↔ ∃ r ∈ s.history w, m = s.message r) : Mirrors s w := by
  refine ⟨h, fun r hr => ?_, fun ts hts => ?_⟩
  · refine lastWith_eq_some_of_unique ((h _).mpr ⟨r, hr, rfl⟩) ?_ fun m hm hp => ?_
    · rw [isCandleAt_message, beq_self_eq_true]
    · obtain ⟨r', hr', rfl⟩ := (h m).mp hm
      rw [isCandleAt_message, beq_iff_eq] at hp
      rw [eq_of_ctm hs hr' hr hp]
  · refine lastWith_eq_none_iff.mpr fun m hm => ?_
    obtain ⟨r, hr, rfl⟩ := (h m).mp hm
    rw [isCandleAt_message, beq_eq_false_iff_ne]
    exact hts r hr

/-- **A successful run sends what is missing**: before it nothing is missing behind the point, and
nothing but the history was sent. -/
theorem Mirrors.of_synced {v : World} (hcursor : CursorInv s v) (hfrom : FromHistory s v)
    (hsorted : (s.history v).Pairwise fun a b => a.time < b.time) (hsync : Synced s v w) :
    Mirrors s w := by
  rw [← hsync.history] at hsorted
  refine Mirrors.of_exactly hsorted fun m => ?_
  rw [hsync.sent, hsync.history, List.mem_append]
  constructor
  · rintro (hm | hm)
    · exact hfrom m hm
    · obtain ⟨r, htail, rfl⟩ := List.mem_map.mp hm
      exact ⟨r, (mem_backlog htail).1, rfl⟩
  · rintro ⟨r, hr, rfl⟩
    by_cases hlt : r.time < s.point v
    · exact Or.inl (hcursor.covered r hr hlt)
    · right
      refine List.mem_map_of_mem ?_
      unfold Series.tail
      rw [backlog_eq_filter hcursor.sorted]
      exact List.mem_reverse.mpr
        (List.mem_filter.mpr ⟨hr, isDue_iff.mpr (Int.not_lt.mp hlt)⟩)

end TradeBridge
