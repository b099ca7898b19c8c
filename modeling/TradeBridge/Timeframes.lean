import TradeBridge.Lib.GoTime

/-!
# The time iterators of the mock

`TimeframeGenerator` and `PeriodicScheduler` of `src/mock/pkg/tools`. The first walks the multiples
of a duration between two instants, the second waits for the next multiple with a timer, again and
again, and reads the clock anew each time.

What the clock shows is given by the delays of a `Wake`, so it never goes back: how long after the
last instant the loop reads it, how long after that `time.Until` reads it, and how long after its
end the timer sends. The first of the three has two parts (`Round`): what the consumer of the last
timestamp takes, and what passes between its return and the reading. A boundary in the second part
costs a period, since each deadline is that of a fresh reading.

Results:
* `iterate_ticks`: the generator hands its consumer the multiples behind its start, until it stops.
* **`generator_enumerates`**: they are those up to its end, and the iteration terminates.
* `truncate_timestamp_iff`: when the next timestamp is in the next period.
* `a_period_is_missed`: a consumer that returns in time, and a clock that is read too late.
* **`scheduler_fires_once_per_period`**: no two timestamps are in one period, and none is missed where
  the clock is read again in time.
-/

namespace TradeBridge.Mock

open TradeBridge.Lib

/-! ## `TimeframeGenerator` -/

/-- What the iterator has captured. Its loop advances `fromTime`. -/
structure TimeframeGenerator where
  fromTime : Int
  toTime : Int
  duration : Int

/-- `TimeframeGenerator(from, to, duration)`. -/
def timeframeGenerator (fromTime toTime duration : Int) : TimeframeGenerator :=
  ⟨Go.truncate fromTime duration, Go.truncate toTime duration, duration⟩

/-- One `range` over the iterator, of `fuel` rounds at most: the iterator and the consumer at its
end, `none` where it has not ended. -/
def TimeframeGenerator.iterate {σ : Type} (yield : σ → Int → σ × Bool) :
    Nat → TimeframeGenerator → σ → Option (TimeframeGenerator × σ)
  | 0, _, _ => none
  | fuel + 1, g, s =>
    if !Go.isZero g.fromTime && decide (g.fromTime < g.toTime) then
      let next := { g with fromTime := g.fromTime + g.duration }
      match yield s next.fromTime with
      | (s', true) => iterate yield fuel next s'
      | (s', false) => some (next, s')
    else some (g, s)

/-- Whatever its consumer does, an iteration ends, and has handed it the frames until it stopped. -/
structure Enumerates (g : TimeframeGenerator) (frames : List Int) : Prop where
  feeds : ∀ (σ : Type) (yield : σ → Int → σ × Bool) (s : σ) (fuel : Nat), frames.length < fuel →
    ∃ g', g.iterate yield fuel s = some (g', Go.feed yield s frames)
  all : ∀ fuel, frames.length < fuel → ∃ g', g.iterate Go.collect fuel [] = some (g', frames)
  first : ∀ k fuel, 0 < k → frames.length < fuel →
    ∃ g', g.iterate (Go.stopAfter k) fuel [] = some (g', frames.take k)

variable {d : Int}

theorem iterate_of_not_lt {σ : Type} (yield : σ → Int → σ × Bool) {g : TimeframeGenerator}
    (h : ¬ g.fromTime < g.toTime) {fuel : Nat} (hfuel : 0 < fuel) (s : σ) :
    g.iterate yield fuel s = some (g, s) := by
  obtain ⟨n, rfl⟩ := Nat.exists_eq_add_of_lt hfuel
  rw [Nat.zero_add, TimeframeGenerator.iterate, decide_eq_false h, Bool.and_false]
  rfl

/-- **An iteration over `n` periods** hands its consumer the multiples behind its start, as long as
the loop does not stand at the zero time. -/
theorem iterate_ticks {σ : Type} (yield : σ → Int → σ × Bool) (hd : 0 < d) :
    ∀ (n : Nat) {a : Int} {fuel : Nat} (s : σ), n < fuel → (∀ i : Nat, i < n → a + i * d ≠ 0) →
      ∃ g', TimeframeGenerator.iterate yield fuel ⟨a, a + n * d, d⟩ s =
        some (g', Go.feed yield s (Go.ticks d n a))
  | 0, a, fuel, s, hfuel, _ => by
    refine ⟨_, iterate_of_not_lt yield ?_ hfuel s⟩
    rw [Int.natCast_zero, Int.zero_mul, Int.add_zero]
    exact Int.lt_irrefl a
  | n + 1, a, fuel, s, hfuel, hzero => by
    obtain ⟨fuel, rfl⟩ := Nat.exists_eq_add_of_lt hfuel
    have hcast : a + ((n + 1 : Nat) : Int) * d = (a + d) + n * d := by
      rw [Go.periods_succ]
      omega
    have hnn : 0 ≤ (n : Int) * d := Int.mul_nonneg (Int.natCast_nonneg n) (Int.le_of_lt hd)
    have hstart : Go.isZero a = false := by
      have := hzero 0 (Nat.succ_pos n)
      rw [Int.natCast_zero, Int.zero_mul, Int.add_zero] at this
      exact beq_false_of_ne this
    have hlt : a < a + ((n + 1 : Nat) : Int) * d := by omega
    have hnext : ∀ i : Nat, i < n → (a + d) + i * d ≠ 0 := by
      intro i hi heq
      refine hzero (i + 1) (Nat.succ_lt_succ hi) ?_
      rw [Go.periods_succ]
      omega
    rw [TimeframeGenerator.iterate, hstart, decide_eq_true hlt, hcast, Go.ticks, Go.feed]
    simp only [Bool.not_false, Bool.and_self, if_true]
    cases yield s (a + d) with
    | mk s' goesOn =>
      cases goesOn with
      | true => exact iterate_ticks yield hd n s' (by omega) hnext
      | false => exact ⟨_, rfl⟩

theorem Enumerates.of_feeds {g : TimeframeGenerator} {frames : List Int}
    (h : ∀ (σ : Type) (yield : σ → Int → σ × Bool) (s : σ) (fuel : Nat), frames.length < fuel →
      ∃ g', g.iterate yield fuel s = some (g', Go.feed yield s frames)) :
    Enumerates g frames := by
  refine ⟨h, fun fuel hfuel => ?_, fun k fuel hk hfuel => ?_⟩
  · obtain ⟨g', hg'⟩ := h _ Go.collect [] fuel hfuel
    exact ⟨g', by rw [hg', Go.feed_collect, List.nil_append]⟩
  · obtain ⟨g', hg'⟩ := h _ (Go.stopAfter k) [] fuel hfuel
    exact ⟨g', by rw [hg', Go.feed_stopAfter _ _ hk, List.nil_append, List.length_nil,
      Nat.sub_zero]⟩

/-- **The generator enumerates the multiples of its interval**: those behind the truncated start up
to the truncated end, in order and each once; and each iteration ends. -/
theorem generator_enumerates {fromTime toTime : Int} (hd : 0 < d)
    (hfrom : 0 < Go.truncate fromTime d) :
    ∃ frames : List Int, frames.Pairwise (· < ·) ∧
      (∀ m, m ∈ frames ↔ d ∣ m ∧ Go.truncate fromTime d < m ∧ m ≤ Go.truncate toTime d) ∧
      Enumerates (timeframeGenerator fromTime toTime d) frames := by
  have ha := Go.dvd_truncate hd fromTime
  rcases Int.lt_or_le (Go.truncate toTime d) (Go.truncate fromTime d) with hlt | hle
  · refine ⟨[], List.Pairwise.nil, fun m => ⟨fun h => absurd h List.not_mem_nil, fun h => ?_⟩,
      .of_feeds fun σ yield s fuel hfuel => ⟨_, iterate_of_not_lt yield ?_ hfuel s⟩⟩
    · omega
    · exact Int.not_lt.mpr (Int.le_of_lt hlt)
  · obtain ⟨n, hn⟩ := Go.exists_periods hd ha (Go.dvd_truncate hd toTime) hle
    refine ⟨Go.ticks d n (Go.truncate fromTime d), Go.ticks_sorted hd ha,
      fun m => by rw [hn]; exact Go.mem_ticks hd ha,
      .of_feeds fun σ yield s fuel hfuel => ?_⟩
    have hzero : ∀ i : Nat, i < n → Go.truncate fromTime d + i * d ≠ 0 := by
      intro i _
      have : 0 ≤ (i : Int) * d := Int.mul_nonneg (Int.natCast_nonneg i) (Int.le_of_lt hd)
      omega
    unfold timeframeGenerator
    rw [hn]
    exact iterate_ticks yield hd n s ((Go.length_ticks d n _).symm ▸ hfuel) hzero

/-- The multiples of 10 behind 20 up to 50. -/
theorem generator_enumerates_tens : ∃ frames : List Int, frames.Pairwise (· < ·) ∧
    (∀ m, m ∈ frames ↔ (10 : Int) ∣ m ∧ Go.truncate 25 10 < m ∧ m ≤ Go.truncate 57 10) ∧
      Enumerates (timeframeGenerator 25 57 10) frames :=
  generator_enumerates (by decide) (by decide)

example : (timeframeGenerator 25 57 10).iterate (Go.stopAfter 2) 4 [] =
    some (⟨40, 50, 10⟩, [30, 40]) := by rfl

/-! ## `PeriodicScheduler` -/

/-- The delays of one round of the loop, in nanoseconds: until `time.Now()` is called, from there
until `time.Until` reads the clock, and from the end of the timer until it sends. -/
structure Wake where
  delay : Nat
  pass : Nat
  late : Nat
  deriving DecidableEq

namespace Wake

/-- What `time.Now()` shows, where the loop has come to `clock`. -/
def now (clock : Int) (x : Wake) : Int := clock + x.delay

/-- `time.Now().Truncate(duration).Add(duration)`, the deadline. -/
def toTime (d clock : Int) (x : Wake) : Int := Go.truncate (x.now clock) d + d

/-- What `timer.C` sends, of `time.NewTimer(time.Until(toTime))`. -/
def timestamp (d clock : Int) (x : Wake) : Int :=
  Go.timer (x.now clock + x.pass) (x.toTime d clock - (x.now clock + x.pass)) x.late

end Wake

/-- The timestamps `PeriodicScheduler` yields from `clock` on, until the context is done or the
consumer stops. -/
def periodicScheduler (d : Int) : Int → List Wake → List Int
  | _, [] => []
  | clock, x :: xs => x.timestamp d clock :: periodicScheduler d (x.timestamp d clock) xs

/-- One round of the loop, in nanoseconds: what the consumer of the last timestamp takes, from its
return until `time.Now()` is called, and then as in a `Wake`. -/
structure Round where
  consumed : Nat
  resumed : Nat
  pass : Nat
  late : Nat
  deriving DecidableEq

namespace Round

/-- The loop reads the clock after both. -/
def wake (r : Round) : Wake := ⟨r.consumed + r.resumed, r.pass, r.late⟩

/-- The consumer of `ts` returns before the end of its period. -/
def ReturnsInTime (d ts : Int) (r : Round) : Prop := ts + r.consumed < Go.truncate ts d + d

/-- The clock is read again before the end of the period of `ts`. -/
def ReadsInTime (d ts : Int) (r : Round) : Prop := r.wake.now ts < Go.truncate ts d + d

/-- The timer behind `ts` sends less than a period after its deadline. -/
def SendsInTime (d ts : Int) (r : Round) : Prop :=
  r.wake.timestamp d ts < r.wake.toTime d ts + d

variable (d ts : Int) (r : Round)

instance : Decidable (r.ReturnsInTime d ts) := inferInstanceAs (Decidable (_ < _))
instance : Decidable (r.ReadsInTime d ts) := inferInstanceAs (Decidable (_ < _))
instance : Decidable (r.SendsInTime d ts) := inferInstanceAs (Decidable (_ < _))

end Round

/-- The timestamps of the rounds. -/
def timestamps (d clock : Int) (rounds : List Round) : List Int :=
  periodicScheduler d clock (rounds.map Round.wake)

/-- Each round yields a timestamp; they are in periods of their own, in order; and behind a timestamp
whose period is not over, as `InTime` has it, and with a timer that is late by less than a period,
there is one in the next period. -/
structure FiresOncePerPeriod (d clock : Int) (rounds : List Round) (InTime : Int → Round → Prop) :
    Prop where
  yields : (timestamps d clock rounds).length = rounds.length
  increasing : ((timestamps d clock rounds).map fun ts => Go.truncate ts d).Pairwise (· < ·)
  multiples : ∀ ts ∈ timestamps d clock rounds, d ∣ Go.truncate ts d
  next : ∀ (i : Nat) (ts : Int) (r : Round), (timestamps d clock rounds)[i]? = some ts →
    rounds[i + 1]? = some r → InTime ts r → r.SendsInTime d ts →
    ∃ ts', (timestamps d clock rounds)[i + 1]? = some ts' ∧
      Go.truncate ts' d = Go.truncate ts d + d

theorem Wake.toTime_le_timestamp (d clock : Int) (x : Wake) :
    x.toTime d clock ≤ x.timestamp d clock := by
  have := (Go.le_timer (x.now clock + x.pass) (x.toTime d clock - (x.now clock + x.pass)) x.late).1
  unfold Wake.timestamp
  omega

theorem Wake.le_toTime (hd : 0 < d) (clock : Int) (x : Wake) :
    Go.truncate clock d + d ≤ x.toTime d clock := by
  have hnow : clock ≤ x.now clock := by
    unfold Wake.now
    omega
  exact Int.add_le_add_right (Go.truncate_mono hd hnow) d

theorem Wake.toTime_le_truncate (hd : 0 < d) (clock : Int) (x : Wake) :
    x.toTime d clock ≤ Go.truncate (x.timestamp d clock) d :=
  (Go.le_truncate_iff hd (Int.dvd_add (Go.dvd_truncate hd _) (Int.dvd_refl d))).mpr
    (x.toTime_le_timestamp d clock)

/-- **When the next timestamp is in the next period**: the clock is read before that begins, and the
timer sends within the period of its deadline. -/
theorem truncate_timestamp_iff (hd : 0 < d) (clock : Int) (x : Wake) :
    Go.truncate (x.timestamp d clock) d = Go.truncate clock d + d ↔
      x.now clock < Go.truncate clock d + d ∧ x.timestamp d clock < x.toTime d clock + d := by
  have hle := x.le_toTime hd clock
  have hto := x.toTime_le_truncate hd clock
  constructor
  · intro h
    have hnow := Go.lt_truncate_add hd (x.now clock)
    have hts := Go.lt_truncate_add hd (x.timestamp d clock)
    unfold Wake.toTime at hle hto ⊢
    exact ⟨by omega, by omega⟩
  · rintro ⟨hnow, hlate⟩
    have hsame : Go.truncate (x.now clock) d = Go.truncate clock d := by
      refine (Go.truncate_eq_iff hd).mpr ⟨Go.dvd_truncate hd clock, ?_, hnow⟩
      have := Go.truncate_le hd clock
      unfold Wake.now
      omega
    have heq : x.toTime d clock = Go.truncate clock d + d := by rw [Wake.toTime, hsame]
    rw [← heq]
    exact (Go.truncate_eq_iff hd).mpr ⟨Int.dvd_add (Go.dvd_truncate hd _) (Int.dvd_refl d),
      x.toTime_le_timestamp d clock, hlate⟩

/-- Every timestamp is in a later period than the instant the scheduler starts from. -/
theorem truncate_lt_of_mem (hd : 0 < d) : ∀ {wakes : List Wake} {clock ts : Int},
    ts ∈ periodicScheduler d clock wakes → Go.truncate clock d < Go.truncate ts d
  | [], _, _, h => absurd h List.not_mem_nil
  | x :: xs, clock, ts, h => by
    have hfirst : Go.truncate clock d < Go.truncate (x.timestamp d clock) d := by
      have := x.le_toTime hd clock
      have := x.toTime_le_truncate hd clock
      omega
    rcases List.mem_cons.mp h with rfl | h
    · exact hfirst
    · exact Int.lt_trans hfirst (truncate_lt_of_mem hd h)

theorem periodicScheduler_increasing (hd : 0 < d) : ∀ (wakes : List Wake) (clock : Int),
    ((periodicScheduler d clock wakes).map fun ts => Go.truncate ts d).Pairwise (· < ·)
  | [], _ => List.Pairwise.nil
  | x :: xs, clock => by
    rw [periodicScheduler, List.map_cons]
    refine List.pairwise_cons.mpr ⟨fun m hm => ?_, periodicScheduler_increasing hd xs _⟩
    obtain ⟨ts, hts, rfl⟩ := List.mem_map.mp hm
    exact truncate_lt_of_mem hd hts

theorem length_periodicScheduler (d : Int) : ∀ (wakes : List Wake) (clock : Int),
    (periodicScheduler d clock wakes).length = wakes.length
  | [], _ => rfl
  | x :: xs, clock => by
    rw [periodicScheduler, List.length_cons, List.length_cons, length_periodicScheduler d xs]

/-- Behind a timestamp comes the one of a wake from it. -/
theorem timestamp_succ : ∀ {wakes : List Wake} {clock ts : Int} {i : Nat} {x : Wake},
    (periodicScheduler d clock wakes)[i]? = some ts → wakes[i + 1]? = some x →
    (periodicScheduler d clock wakes)[i + 1]? = some (x.timestamp d ts)
  | [], _, _, _, _, h, _ => by cases h
  | [_], _, _, _, _, _, hx => by cases hx
  | y :: z :: wakes, clock, ts, 0, x, h, hx => by
    obtain rfl : y.timestamp d clock = ts := Option.some.inj h
    obtain rfl : z = x := Option.some.inj hx
    rfl
  | y :: z :: wakes, clock, ts, i + 1, x, h, hx =>
    have hts : (periodicScheduler d (y.timestamp d clock) (z :: wakes))[i]? = some ts := h
    have hnext := timestamp_succ hts hx
    hnext

/-- **A period is missed**: of 10, from 3. The consumer of the timestamp 10 returns at 19 and the clock
is read at 20, so the next timestamp is 30. -/
theorem a_period_is_missed : ¬ ∀ (d clock : Int) (rounds : List Round), 0 < d →
    FiresOncePerPeriod d clock rounds (Round.ReturnsInTime d) := by
  intro h
  have hfires := h 10 3 [⟨0, 0, 0, 0⟩, ⟨9, 1, 0, 0⟩] (by decide)
  have hreturns : Round.ReturnsInTime 10 10 ⟨9, 1, 0, 0⟩ := by decide
  have hsends : Round.SendsInTime 10 10 ⟨9, 1, 0, 0⟩ := by decide
  obtain ⟨ts, hts, hperiod⟩ := hfires.next 0 10 _ rfl rfl hreturns hsends
  obtain rfl : 30 = ts := Option.some.inj hts
  exact absurd hperiod (by decide)

/-- **The scheduler fires at most once per period and misses none it can make**, whatever the delays
of its rounds: none behind a timestamp in whose period the clock is read again. -/
theorem scheduler_fires_once_per_period (hd : 0 < d) (clock : Int) (rounds : List Round) :
    FiresOncePerPeriod d clock rounds (Round.ReadsInTime d) where
  yields := by rw [timestamps, length_periodicScheduler, List.length_map]
  increasing := periodicScheduler_increasing hd _ clock
  multiples := fun ts _ => Go.dvd_truncate hd ts
  next := by
    intro i ts r hts hr hreads hsends
    have hwake : (rounds.map Round.wake)[i + 1]? = some r.wake := by rw [List.getElem?_map, hr]; rfl
    exact ⟨_, timestamp_succ hts hwake, (truncate_timestamp_iff hd ts r.wake).mpr ⟨hreads, hsends⟩⟩

/-- A period of 10, from 3: a timer that is late by 4, a consumer that takes 2, one that takes 13. -/
def threeRounds : List Round := [⟨0, 0, 1, 4⟩, ⟨2, 0, 0, 0⟩, ⟨13, 0, 0, 1⟩]

theorem threeRounds_fire_once_per_period :
    FiresOncePerPeriod 10 3 threeRounds (Round.ReadsInTime 10) :=
  scheduler_fires_once_per_period (by decide) 3 threeRounds

example : timestamps 10 3 [⟨0, 0, 1, 4⟩, ⟨2, 0, 0, 0⟩, ⟨13, 0, 0, 1⟩] = [14, 20, 41] := by decide

end TradeBridge.Mock
