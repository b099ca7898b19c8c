import TradeBridge.Mock
import TradeBridge.Timeframes

/-!
# The candle stream of the mock

`candlesGenerator` (`src/mock/main.go:112-137`) publishes a batch of candles for the minute before
the start and one for the start minute, taken from one reading of the clock, and then one for each
timestamp of `PeriodicScheduler`, which reads the clock again. The minutes follow each other only if
that second reading is in the start minute too. From then on each minute is reached where its
predecessor's batch was published in time (`clockAt` is the instant the scheduler has come to).

`math.Sin` is a parameter, a `float64` is a rational; a publish that fails is a panic of the mock and
is left out.

Results:
* `candlesGenerator_of_whole`: what the mock publishes, away from the zero time.
* **`gapless_iff`**: with timers that are less than a minute late the minutes are consecutive iff no
  minute begins between the two readings, nor while a batch is published.
* `a_minute_is_skipped`: a start a millisecond before the next minute.
-/

namespace TradeBridge.Mock

open TradeBridge.Lib

/-- `time.Minute`. -/
def minute : Int := 60 * 10 ^ 9

theorem minute_pos : 0 < minute := by decide

/-- `ts.Unix()`. -/
def unix (ts : Int) : Int := ts / 10 ^ 9 - 62135596800

/-- What the candles are made of: the topic, the configured symbols and `math.Sin`. -/
structure CandleFeed where
  topic : Bytes
  symbolList : List Bytes
  sin : Int → Rat

/-- `generateCandlesBySymbols`. -/
def CandleFeed.generateCandlesBySymbols (f : CandleFeed) (ts : Int) : List Json :=
  f.symbolList.map fun symbol =>
    let price := f.sin (unix ts) + 1
    Candle.marshal
      { symbol := symbol
        ts := Int32.ofInt (unix ts)
        openPrice := price - 1 / 10
        high := price + 1 / 10
        low := price - 2 / 10
        close := price + 5 / 100 }

/-- One call of `publishCandles`. -/
structure Batch where
  ts : Int
  topic : Bytes
  candles : List Json

/-- `publishCandles`. -/
def CandleFeed.publishCandles (f : CandleFeed) (ts : Int) : Batch :=
  ⟨ts, f.topic, f.generateCandlesBySymbols ts⟩

/-- The minute of a batch. -/
def Batch.minute (b : Batch) : Int := Go.truncate b.ts Mock.minute

/-- The body of the first loop, whose batch number `i` takes `took i`: the clock and the batches. -/
def CandleFeed.publishInitial (f : CandleFeed) (took : Nat → Nat) (s : Int × List Batch) (ts : Int) :
    (Int × List Batch) × Bool :=
  ((s.1 + took s.2.length, s.2 ++ [f.publishCandles ts]), true)

/-- The first loop, of at most two batches, started at `start`. -/
def CandleFeed.initial (f : CandleFeed) (start : Int) (took : Nat → Nat) :
    Option (Int × List Batch) :=
  let nowTime := Go.truncate start minute
  ((timeframeGenerator (nowTime - minute * 2) nowTime minute).iterate (f.publishInitial took) 3
    (start, [])).map Prod.snd

/-- `candlesGenerator`, started at `start`, until the context is done after these wakes. -/
def CandleFeed.candlesGenerator (f : CandleFeed) (start : Int) (took : Nat → Nat)
    (wakes : List Wake) : Option (List Batch) :=
  (f.initial start took).map fun p =>
    p.2 ++ (periodicScheduler minute p.1 wakes).map f.publishCandles

/-! ## What the stream should be -/

/-- The minutes follow each other without a gap from `first` on. -/
def Consecutive (first : Int) (minutes : List Int) : Prop :=
  minutes = (List.range minutes.length).map fun i : Nat => first + i * minute

/-- However long it runs, the mock publishes a batch for each minute, from the one before the start
minute on. -/
def Gapless (f : CandleFeed) (start : Int) (took : Nat → Nat) (wakes : Nat → Wake) : Prop :=
  ∀ n, ∃ batches, f.candlesGenerator start took ((List.range n).map wakes) = some batches ∧
    Consecutive (Go.truncate start minute - minute) (batches.map Batch.minute)

/-- The instant the scheduler has come to: the end of the first loop, then its last timestamp. -/
def clockAt (clock : Int) (wakes : Nat → Wake) : Nat → Int
  | 0 => clock
  | k + 1 => (wakes k).timestamp minute (clockAt clock wakes k)

/-- The reading of the clock before the timer of wake `k`. -/
def readAt (clock : Int) (wakes : Nat → Wake) (k : Nat) : Int :=
  (wakes k).now (clockAt clock wakes k)

/-- How long after its deadline wake `k` comes. -/
def latenessAt (clock : Int) (wakes : Nat → Wake) (k : Nat) : Int :=
  clockAt clock wakes (k + 1) - (wakes k).toTime minute (clockAt clock wakes k)

/-- The clock at the end of the first loop. -/
def CandleFeed.handover (f : CandleFeed) (start : Int) (took : Nat → Nat) : Int :=
  ((f.initial start took).map Prod.fst).getD start

/-- Each batch, with what the next wake is late by, takes less than a minute. -/
structure Timely (f : CandleFeed) (start : Int) (took : Nat → Nat) (wakes : Nat → Wake) : Prop where
  first : took 0 + latenessAt (f.handover start took) wakes 0 < minute
  second : took 1 + (wakes 0).delay + latenessAt (f.handover start took) wakes 0 < minute
  next : ∀ k, (wakes (k + 1)).delay + latenessAt (f.handover start took) wakes (k + 1) < minute

/-- The first loop does not come to the zero time. -/
def AwayFromZero (start : Int) : Prop := start < minute ∨ 3 * minute ≤ start

/-- No minute begins between the start and the scheduler's first reading of the clock. -/
def HandedOverInTime (f : CandleFeed) (start : Int) (took : Nat → Nat) (wakes : Nat → Wake) : Prop :=
  Go.truncate (readAt (f.handover start took) wakes 0) minute = Go.truncate start minute

/-- No minute begins between a wake and the next reading, while its batch is published. -/
def PublishedInTime (clock : Int) (wakes : Nat → Wake) : Prop :=
  ∀ k, Go.truncate (readAt clock wakes (k + 1)) minute =
    Go.truncate (clockAt clock wakes (k + 1)) minute

/-! ## The first loop -/

variable {f : CandleFeed} {start : Int} {took : Nat → Nat} {wakes : Nat → Wake}

theorem AwayFromZero.truncate (h : AwayFromZero start) :
    Go.truncate start minute ≤ 0 ∨ 3 * minute ≤ Go.truncate start minute := by
  rcases h with h | h
  · refine Or.inl (Int.not_lt.mp fun hpos => ?_)
    have := Go.add_le_of_dvd (Int.dvd_zero minute) (Go.dvd_truncate minute_pos start) hpos
    have := Go.truncate_le minute_pos start
    omega
  · exact Or.inr ((Go.le_truncate_iff minute_pos (Int.dvd_mul_left 3 minute)).mpr h)

/-- **Away from the zero time the first loop publishes two batches.** -/
theorem initial_of_awayFromZero (h : AwayFromZero start) :
    f.initial start took = some (start + took 0 + took 1,
      [f.publishCandles (Go.truncate start minute - minute),
        f.publishCandles (Go.truncate start minute)]) := by
  have hdvd := Go.dvd_truncate minute_pos start
  have hstart : Go.truncate (Go.truncate start minute - minute * 2) minute =
      Go.truncate start minute - minute * 2 :=
    Go.truncate_of_dvd minute_pos (Int.dvd_sub hdvd (Int.dvd_mul_right minute 2))
  have hend : Go.truncate (Go.truncate start minute) minute =
      Go.truncate start minute - minute * 2 + (2 : Nat) * minute := by
    rw [Go.truncate_of_dvd minute_pos hdvd]
    omega
  have hzero : ∀ i : Nat, i < 2 → Go.truncate start minute - minute * 2 + i * minute ≠ 0 := by
    intro i hi
    have hsign := h.truncate
    have hpos := minute_pos
    obtain rfl | rfl : i = 0 ∨ i = 1 := by omega
    · omega
    · omega
  have hloop : ∃ g', TimeframeGenerator.iterate (f.publishInitial took) 3
      ⟨Go.truncate start minute - minute * 2,
        Go.truncate start minute - minute * 2 + (2 : Nat) * minute, minute⟩ (start, []) =
      some (g', Go.feed (f.publishInitial took) (start, [])
        (Go.ticks minute 2 (Go.truncate start minute - minute * 2))) :=
    iterate_ticks _ minute_pos 2 _ (by omega) hzero
  obtain ⟨g', hg'⟩ := hloop
  have hfirst : Go.truncate start minute - minute * 2 + minute =
      Go.truncate start minute - minute := by omega
  have hsecond : Go.truncate start minute - minute + minute = Go.truncate start minute := by omega
  unfold CandleFeed.initial timeframeGenerator
  simp only
  rw [hstart, hend, hg', Go.ticks, Go.ticks, Go.ticks, hfirst, hsecond]
  rfl

/-- Within two minutes of the zero time it stands at it after less than two batches. -/
theorem initial_of_nearZero (f : CandleFeed) (took : Nat → Nat) (h : ¬ AwayFromZero start) :
    ∃ c bs, f.initial start took = some (c, bs) ∧ start ≤ c ∧ bs.length < 2 := by
  unfold AwayFromZero at h
  have hlow : minute ≤ start := by omega
  have hhigh : start < 3 * minute := by omega
  unfold CandleFeed.initial timeframeGenerator
  rcases Int.lt_or_le start (2 * minute) with hlt | hge
  · have hT : Go.truncate start minute = minute :=
      (Go.truncate_eq_iff minute_pos).mpr ⟨Int.dvd_refl _, hlow, by omega⟩
    refine ⟨start + took 0, [f.publishCandles 0], ?_, by omega, Nat.one_lt_two⟩
    rw [hT]
    rfl
  · have hT : Go.truncate start minute = 2 * minute :=
      (Go.truncate_eq_iff minute_pos).mpr ⟨Int.dvd_mul_left 2 minute, hge, by omega⟩
    refine ⟨start, [], ?_, Int.le_refl start, Nat.two_pos⟩
    rw [hT]
    rfl

/-! ## The scheduler -/

theorem clockAt_succ (clock : Int) (wakes : Nat → Wake) (k : Nat) :
    clockAt clock wakes (k + 1) =
      clockAt ((wakes 0).timestamp minute clock) (fun i => wakes (i + 1)) k := by
  induction k with
  | zero => rfl
  | succ k ih => rw [clockAt, ih, clockAt]

/-- The timestamps of the first `n` wakes. -/
theorem periodicScheduler_range (clock : Int) (n : Nat) (wakes : Nat → Wake) :
    periodicScheduler minute clock ((List.range n).map wakes) =
      (List.range n).map fun k => clockAt clock wakes (k + 1) := by
  induction n generalizing clock wakes with
  | zero => rfl
  | succ n ih =>
    have hrest := ih ((wakes 0).timestamp minute clock) fun i => wakes (i + 1)
    rw [List.range_succ_eq_map, List.map_cons, List.map_cons, List.map_map, List.map_map,
      periodicScheduler]
    refine congrArg (List.cons _) (hrest.trans (List.map_congr_left fun k _ => ?_))
    exact (clockAt_succ clock wakes (k + 1)).symm

/-- **A timer that is less than a minute late** sends in the minute of its deadline, the one behind
that of the reading. -/
theorem minute_of_wake {clock : Int} {k : Nat} (h : latenessAt clock wakes k < minute) :
    Go.truncate (clockAt clock wakes (k + 1)) minute =
      Go.truncate (readAt clock wakes k) minute + minute := by
  have hto := (wakes k).toTime_le_timestamp minute (clockAt clock wakes k)
  unfold latenessAt at h
  refine (Go.truncate_eq_iff minute_pos).mpr
    ⟨Int.dvd_add (Go.dvd_truncate minute_pos _) (Int.dvd_refl minute), hto, ?_⟩
  have hdeadline : (wakes k).toTime minute (clockAt clock wakes k) =
      Go.truncate (readAt clock wakes k) minute + minute := rfl
  omega

/-- The readings never go back. -/
theorem clockAt_le_readAt (clock : Int) (wakes : Nat → Wake) (k : Nat) :
    clockAt clock wakes k ≤ readAt clock wakes k := by
  unfold readAt Wake.now
  omega

/-! ## The whole stream -/

/-- **What the mock publishes**, away from the zero time. -/
theorem candlesGenerator_of_whole (h : AwayFromZero start) (n : Nat) :
    f.candlesGenerator start took ((List.range n).map wakes) =
      some ([f.publishCandles (Go.truncate start minute - minute),
        f.publishCandles (Go.truncate start minute)] ++
          (List.range n).map fun k =>
            f.publishCandles (clockAt (f.handover start took) wakes (k + 1))) := by
  unfold CandleFeed.candlesGenerator CandleFeed.handover
  rw [initial_of_awayFromZero h, Option.map_some, Option.map_some, Option.getD_some,
    periodicScheduler_range, List.map_map]
  rfl

theorem eq_of_getElem?_range {n i j : Nat} (h : (List.range n)[i]? = some j) : j = i := by
  obtain ⟨hi, hj⟩ := List.getElem?_eq_some_iff.mp h
  rw [← hj, List.getElem_range]

theorem consecutive_iff {first : Int} {minutes : List Int} : Consecutive first minutes ↔
    ∀ (i : Nat) (m : Int), minutes[i]? = some m → m = first + i * minute := by
  constructor
  · intro h i m hm
    rw [h, List.getElem?_map] at hm
    obtain ⟨j, hj, rfl⟩ := Option.map_eq_some_iff.mp hm
    rw [eq_of_getElem?_range hj]
  · intro h
    refine List.ext_getElem (by rw [List.length_map, List.length_range]) fun i hi hi' => ?_
    rw [List.getElem_map, List.getElem_range]
    exact h i _ (List.getElem?_eq_getElem hi)

theorem minute_publishCandles (ts : Int) :
    (f.publishCandles ts).minute = Go.truncate ts minute := rfl

/-- A stream of the minutes before `m`, `m` and some others is consecutive iff each of the others is
in its turn. -/
theorem consecutive_stream_iff {m : Int} {g : Nat → Int} {n : Nat} :
    Consecutive (m - minute) ((m - minute) :: m :: (List.range n).map g) ↔
      ∀ k : Nat, k < n → g k = m + (k + 1 : Nat) * minute := by
  rw [consecutive_iff]
  constructor
  · intro h k hk
    have hturn : g k = m - minute + (k + 2 : Nat) * minute := h (k + 2) (g k) (by
      rw [List.getElem?_cons_succ, List.getElem?_cons_succ, List.getElem?_map,
        List.getElem?_range hk, Option.map_some])
    rw [hturn, Go.periods_succ (k + 1)]
    omega
  · intro h i t ht
    match i, ht with
    | 0, ht =>
      obtain rfl := Option.some.inj ht
      simp
    | 1, ht =>
      obtain rfl := Option.some.inj ht
      simp
    | i + 2, ht =>
      rw [List.getElem?_cons_succ, List.getElem?_cons_succ, List.getElem?_map] at ht
      obtain ⟨j, hj, rfl⟩ := Option.map_eq_some_iff.mp ht
      have hi : i < n := by simpa using (List.getElem?_eq_some_iff.mp hj).1
      rw [eq_of_getElem?_range hj, h i hi, Go.periods_succ (i + 1)]
      omega

/-- The stream is gapless iff each wake is in the minute that is its turn. -/
theorem gapless_iff_of_whole (h : AwayFromZero start) :
    Gapless f start took wakes ↔ ∀ k : Nat,
      Go.truncate (clockAt (f.handover start took) wakes (k + 1)) minute =
        Go.truncate start minute + (k + 1 : Nat) * minute := by
  have hdvd := Go.dvd_truncate minute_pos start
  have hbefore : Go.truncate (Go.truncate start minute - minute) minute =
      Go.truncate start minute - minute :=
    Go.truncate_of_dvd minute_pos (Int.dvd_sub hdvd (Int.dvd_refl minute))
  have hstart : Go.truncate (Go.truncate start minute) minute = Go.truncate start minute :=
    Go.truncate_of_dvd minute_pos hdvd
  have hstream : ∀ n, (∃ batches,
      f.candlesGenerator start took ((List.range n).map wakes) = some batches ∧
        Consecutive (Go.truncate start minute - minute) (batches.map Batch.minute)) ↔
      ∀ k : Nat, k < n → Go.truncate (clockAt (f.handover start took) wakes (k + 1)) minute =
        Go.truncate start minute + (k + 1 : Nat) * minute := by
    intro n
    rw [candlesGenerator_of_whole h, ← consecutive_stream_iff]
    simp only [Option.some.injEq, exists_eq_left', List.cons_append, List.nil_append,
      List.map_cons, List.map_map, minute_publishCandles, hbefore, hstart, Function.comp_def]
  refine (forall_congr' hstream).trans ⟨fun hall k => hall (k + 1) k (Nat.lt_succ_self k), ?_⟩
  exact fun hall n k _ => hall k

/-- With timers that are less than a minute late each wake is in its turn iff the first reading is in
the minute before, and each later one in the minute of the wake before it. -/
theorem turns_iff {clock m : Int} (hlate : ∀ k, latenessAt clock wakes k < minute) :
    (∀ k : Nat, Go.truncate (clockAt clock wakes (k + 1)) minute = m + (k + 1 : Nat) * minute) ↔
      Go.truncate (readAt clock wakes 0) minute = m ∧ PublishedInTime clock wakes := by
  have hturn : ∀ k, Go.truncate (clockAt clock wakes (k + 1)) minute =
      Go.truncate (readAt clock wakes k) minute + minute := fun k => minute_of_wake (hlate k)
  constructor
  · intro hall
    have hread : ∀ k : Nat, Go.truncate (readAt clock wakes k) minute = m + k * minute := by
      intro k
      have hk := hall k
      rw [hturn k, Go.periods_succ] at hk
      omega
    refine ⟨?_, fun k => (hread (k + 1)).trans (hall k).symm⟩
    have hfirst := hread 0
    rwa [Int.natCast_zero, Int.zero_mul, Int.add_zero] at hfirst
  · rintro ⟨hfirst, hpublished⟩ k
    induction k with
    | zero => rw [hturn 0, hfirst, Nat.zero_add, Int.natCast_one, Int.one_mul]
    | succ k ih =>
      rw [hturn (k + 1), hpublished k, ih, Go.periods_succ (k + 1)]
      omega

/-- Where each wake, with the publishing of its own batch, takes less than a minute, the reading
behind the batch is in the minute of the wake. -/
theorem publishedInTime_of_own {clock : Int}
    (hown : ∀ k, latenessAt clock wakes k + (wakes (k + 1)).delay < minute) :
    PublishedInTime clock wakes := by
  intro k
  have hown := hown k
  have hlate : latenessAt clock wakes k < minute := by omega
  have hle := clockAt_le_readAt clock wakes (k + 1)
  have htrunc := Go.truncate_le minute_pos (clockAt clock wakes (k + 1))
  have hdeadline : (wakes k).toTime minute (clockAt clock wakes k) =
      Go.truncate (readAt clock wakes k) minute + minute := rfl
  have hread : readAt clock wakes (k + 1) = clockAt clock wakes (k + 1) + (wakes (k + 1)).delay :=
    rfl
  unfold latenessAt at hown
  refine (Go.truncate_eq_iff minute_pos).mpr ⟨Go.dvd_truncate minute_pos _, by omega, ?_⟩
  rw [minute_of_wake hlate]
  omega

/-- Near the zero time the first wake is too late for the minute that is its turn. -/
theorem not_gapless_of_nearZero (h : ¬ AwayFromZero start) : ¬ Gapless f start took wakes := by
  intro hgap
  obtain ⟨c, bs, hinitial, hle, hlen⟩ := initial_of_nearZero f took h
  obtain ⟨batches, hbatches, hcons⟩ := hgap 1
  unfold CandleFeed.candlesGenerator at hbatches
  rw [hinitial, Option.map_some] at hbatches
  obtain rfl := Option.some.inj hbatches
  have hts : ((bs ++ (periodicScheduler minute c ((List.range 1).map wakes)).map
      f.publishCandles).map Batch.minute)[bs.length]? =
        some (Go.truncate ((wakes 0).timestamp minute c) minute) := by
    rw [List.map_append, List.getElem?_append_right (by rw [List.length_map]), List.length_map,
      Nat.sub_self]
    rfl
  have hturn := consecutive_iff.mp hcons bs.length _ hts
  have hlate := (wakes 0).toTime_le_truncate minute_pos c
  have hdeadline := (wakes 0).le_toTime minute_pos c
  have hmono := Go.truncate_mono minute_pos hle
  have hpos := minute_pos
  obtain hzero | hone : bs.length = 0 ∨ bs.length = 1 := by omega
  · rw [hzero] at hturn
    omega
  · rw [hone] at hturn
    omega

/-- **When the candle stream has no gaps**, with timers that are less than a minute late: away from
the zero time, iff no minute begins between the start and the scheduler's first reading of the
clock, and none while a later batch is published. Where each wake, with the publishing of its own
batch, takes less than a minute, the last cannot happen. -/
theorem gapless_iff (hlate : ∀ k, latenessAt (f.handover start took) wakes k < minute) :
    (Gapless f start took wakes ↔ AwayFromZero start ∧ HandedOverInTime f start took wakes ∧
      PublishedInTime (f.handover start took) wakes) ∧
    ((∀ k, latenessAt (f.handover start took) wakes k + (wakes (k + 1)).delay < minute) →
      (Gapless f start took wakes ↔ AwayFromZero start ∧ HandedOverInTime f start took wakes)) := by
  have hiff : Gapless f start took wakes ↔ AwayFromZero start ∧
      HandedOverInTime f start took wakes ∧ PublishedInTime (f.handover start took) wakes := by
    by_cases haway : AwayFromZero start
    · rw [gapless_iff_of_whole haway, turns_iff hlate]
      exact (and_iff_right haway).symm
    · exact iff_of_false (not_gapless_of_nearZero haway) fun h => haway h.1
  refine ⟨hiff, fun hown => hiff.trans (and_congr_right fun _ => ?_)⟩
  exact and_iff_left (publishedInTime_of_own hown)

/-! ## A start at the end of a minute -/

/-- A timer that sends at its deadline is not late. -/
theorem latenessAt_of_punctual {clock : Int} {k : Nat} (h : (wakes k).pass = 0)
    (h' : (wakes k).late = 0) : latenessAt clock wakes k = 0 := by
  have hlt := Go.lt_truncate_add minute_pos (readAt clock wakes k)
  have hto : (wakes k).toTime minute (clockAt clock wakes k) =
      Go.truncate (readAt clock wakes k) minute + minute := rfl
  have hts : clockAt clock wakes (k + 1) = Go.timer (readAt clock wakes k + (wakes k).pass)
      ((wakes k).toTime minute (clockAt clock wakes k) - (readAt clock wakes k + (wakes k).pass))
      (wakes k).late := rfl
  unfold latenessAt
  rw [hts, hto, h, h', Go.timer, Int.max_eq_left (by omega)]
  omega

/-- One symbol. -/
def eurusdFeed : CandleFeed := ⟨bytes "srv.mt4_candle", [bytes "EURUSD"], fun _ => 0⟩

/-- 22:13 on 14 November 2023. -/
def startMinute : Int := 1063926613 * minute

/-- 22:13:59.999 on that day. -/
def lastMillisecond : Int := startMinute + 59999 * 10 ^ 6

/-- Each batch takes a millisecond. -/
def oneMillisecond : Nat → Nat := fun _ => 10 ^ 6

/-- Timers that send at their deadline, and batches that take a millisecond. -/
def punctual : Nat → Wake := fun _ => ⟨10 ^ 6, 0, 0⟩

theorem timely_punctual (f : CandleFeed) (start : Int) :
    Timely f start oneMillisecond punctual where
  first := by
    rw [latenessAt_of_punctual rfl rfl]
    decide
  second := by
    rw [latenessAt_of_punctual rfl rfl]
    decide
  next := fun k => by
    rw [latenessAt_of_punctual rfl rfl]
    show ((10 ^ 6 : Nat) : Int) + 0 < minute
    decide

/-- **A minute is skipped** by a start right before it: the batches are for 22:12, 22:13 and
22:15. -/
theorem a_minute_is_skipped : ¬ ∀ (f : CandleFeed) (start : Int) (took : Nat → Nat)
    (wakes : Nat → Wake), Timely f start took wakes → Gapless f start took wakes := by
  intro h
  obtain ⟨batches, hbatches, hcons⟩ :=
    h eurusdFeed lastMillisecond oneMillisecond punctual (timely_punctual _ _) 1
  have hminutes : batches.map Batch.minute =
      [startMinute - minute, startMinute, startMinute + 2 * minute] := by
    obtain rfl := Option.some.inj hbatches
    decide
  rw [hminutes] at hcons
  exact absurd (consecutive_iff.mp hcons 2 _ rfl) (by decide)

/-- In the middle of a minute the handover is in time. -/
theorem gapless_of_midMinute :
    Gapless eurusdFeed (startMinute + 30 * 10 ^ 9) oneMillisecond punctual := by
  have hzero : ∀ k, latenessAt (eurusdFeed.handover (startMinute + 30 * 10 ^ 9) oneMillisecond)
      punctual k = 0 := fun k => latenessAt_of_punctual rfl rfl
  have hhandover : HandedOverInTime eurusdFeed (startMinute + 30 * 10 ^ 9) oneMillisecond
      punctual := by
    unfold HandedOverInTime
    decide
  refine ((gapless_iff fun k => ?_).2 fun k => ?_).mpr ⟨Or.inr (by decide), hhandover⟩
  · rw [hzero k]
    exact minute_pos
  · rw [hzero k]
    show 0 + ((10 ^ 6 : Nat) : Int) < minute
    decide

end TradeBridge.Mock
