import TradeBridge.MockProcess

/-!
# The mock exits when its context is done

`CreateGrexitContext`, `LoopUntilCtxDone` and `PeriodicScheduler` are there for the mock to end on
an interrupt; the `errgroup` ends it on an error of the trade loop. What the goroutines have before
them once the context is done is a number (`Program.size`) that each step lowers, but for a `select`
that finds its timer fired as well and takes that case (`Setup.Late`).

Results:
* `Setup.Step.kinds`: the steps of the process.
* **`graceful_exit`**: every schedule from a state in which the context is done ends within the
  bound, with `main` returned, whatever NATS answers; each late timer adds a batch to the bound.
-/

namespace TradeBridge.Mock

open TradeBridge.Lib

/-- A step of a goroutine, no timer being taken. -/
abbrev Setup.Prompt (m : Setup) : Program → Program → Prop := m.Runs fun _ x => x.timer = none

/-- A `select` takes its timer, and a batch or a tick is published. -/
inductive Setup.Late (m : Setup) : Program → Nat → Program → Prop
  | candles {s : Program} {toTime ts : Int} (hc : s.shared.crashed = false)
      (place : s.candles = .select toTime) (h : toTime ≤ ts ∧ ts ≤ s.shared.clock) :
      Late m s (m.symbolList.length + 2)
        { s with candles := .publish (m.feed.generateCandlesBySymbols ts) none }
  | ticks {s : Program} {toTime ts : Int} (hc : s.shared.crashed = false)
      (place : s.ticks = .select toTime) (h : toTime ≤ ts ∧ ts ≤ s.shared.clock) :
      Late m s 2 { s with ticks := .publish ts }

variable {m : Setup} {p p' : Process} {x : Answer} {s s' : Program}

/-- Only a `select` looks at its timer. -/
theorem candles_noTimer {pc : CandlesPc} (h : ∀ toTime, pc ≠ .select toTime) :
    m.candles p { x with timer := none } pc = m.candles p x pc := by
  cases pc with
  | select toTime => exact absurd rfl (h toTime)
  | publish rest g => cases rest <;> cases g <;> rfl
  | _ => rfl

theorem ticks_noTimer {pc : TicksPc} (h : ∀ toTime, pc ≠ .select toTime) :
    m.ticks p { x with timer := none } pc = m.ticks p x pc := by
  cases pc with
  | select toTime => exact absurd rfl (h toTime)
  | _ => rfl

/-- **A step is prompt, or a timer is taken**, or it happens outside. -/
theorem Setup.Step.kinds (h : m.Step s s') : m.Prompt s s' ∨ Outside s s' ∨ ∃ k, m.Late s k s' := by
  rcases h with hout | hrun
  · exact Or.inr (Or.inl hout)
  · cases hrun with
    | @main x _ _ _ hc h => exact Or.inl (.main (x := { x with timer := none }) rfl hc h)
    | @candles x _ _ _ hc h =>
      by_cases hselect : ∃ toTime, s.candles = .select toTime
      · obtain ⟨toTime, hpc⟩ := hselect
        cases ht : x.timer with
        | none => exact Or.inl (.candles ht hc h)
        | some ts =>
          simp only [hpc, Setup.candles, ht] at h
          split at h
          · rename_i hin
            obtain ⟨rfl, rfl⟩ := Prod.mk.inj (Option.some.inj h)
            exact Or.inr (Or.inr ⟨_, .candles hc hpc hin⟩)
          · cases h
      · refine Or.inl (.candles (x := { x with timer := none }) rfl hc ?_)
        rw [candles_noTimer fun toTime heq => hselect ⟨toTime, heq⟩]
        exact h
    | @ticks x _ _ _ hc h =>
      by_cases hselect : ∃ toTime, s.ticks = .select toTime
      · obtain ⟨toTime, hpc⟩ := hselect
        cases ht : x.timer with
        | none => exact Or.inl (.ticks ht hc h)
        | some ts =>
          simp only [hpc, Setup.ticks, ht] at h
          split at h
          · rename_i hin
            obtain ⟨rfl, rfl⟩ := Prod.mk.inj (Option.some.inj h)
            exact Or.inr (Or.inr ⟨_, .ticks hc hpc hin⟩)
          · cases h
      · refine Or.inl (.ticks (x := { x with timer := none }) rfl hc ?_)
        rw [ticks_noTimer fun toTime heq => hselect ⟨toTime, heq⟩]
        exact h
    | @trades x _ _ _ hc h => exact Or.inl (.trades (x := { x with timer := none }) rfl hc h)

/-! ## What is left to do -/

/-- The frames that the first loop still hands out. -/
def TimeframeGenerator.framesLeft (g : TimeframeGenerator) : Nat :=
  ((g.toTime - g.fromTime + g.duration - 1) / g.duration).toNat

/-- The first loop from its head on, with the scheduler's last round. -/
def TimeframeGenerator.size (symbols : Nat) (g : TimeframeGenerator) : Nat :=
  g.framesLeft * (symbols + 2) + 3

def CandlesPc.size (symbols : Nat) : CandlesPc → Nat
  | .start => 2 * (symbols + 2) + 4
  | .frames g => g.size symbols
  | .publish rest (some g) => rest.length + g.size symbols + 1
  | .publish rest none => rest.length + 3
  | .arm => 2
  | .select _ => 1
  | .returned => 0

def TicksPc.size : TicksPc → Nat
  | .publish _ => 3
  | .arm => 2
  | .select _ => 1
  | .returned => 0

def TradesPc.size : TradesPc → Nat
  | .next _ => 3
  | .subscribe | .publish _ _ => 2
  | .loop _ => 1
  | .returned => 0

def MainPc.size : MainPc → Nat
  | .groups rest => rest.length + 3
  | .wait | .unwind => 2
  | .close | .exit => 1
  | .returned | .dead => 0

/-- What the goroutines have before them once the context is done. -/
def Program.size (m : Setup) (s : Program) : Nat :=
  s.main.size + s.candles.size m.symbolList.length + s.ticks.size + s.trades.size

theorem framesLeft_next {g : TimeframeGenerator} (hd : g.duration = minute)
    (h : g.fromTime < g.toTime) :
    ({ g with fromTime := g.fromTime + g.duration } : TimeframeGenerator).framesLeft + 1 =
      g.framesLeft := by
  unfold TimeframeGenerator.framesLeft
  simp only [hd]
  unfold minute
  omega

theorem framesLeft_start (clock : Int) :
    (timeframeGenerator (Go.truncate clock minute - minute * 2) (Go.truncate clock minute)
      minute).framesLeft = 2 := by
  have hdvd := Go.dvd_truncate minute_pos clock
  unfold timeframeGenerator TimeframeGenerator.framesLeft
  rw [Go.truncate_of_dvd minute_pos (Int.dvd_sub hdvd (Int.dvd_mul_right minute 2)),
    Go.truncate_of_dvd minute_pos hdvd]
  simp only
  unfold minute
  omega

/-- **`candlesGenerator` gets on** once the context is done. -/
theorem candles_size {pc pc' : CandlesPc} (h : m.candles p x pc = some (p', pc'))
    (ht : x.timer = none) (hg : ∀ g, pc.iterator = some g → g.duration = minute) :
    pc'.size m.symbolList.length < pc.size m.symbolList.length := by
  cases pc with
  | start =>
    obtain ⟨-, rfl⟩ := Prod.mk.inj (Option.some.inj h)
    simp only [CandlesPc.size, TimeframeGenerator.size, framesLeft_start]
    omega
  | frames g =>
    simp only [Setup.candles] at h
    split at h
    · rename_i hlt
      obtain ⟨-, rfl⟩ := Prod.mk.inj (Option.some.inj h)
      have hlt' : g.fromTime < g.toTime := by
        simp only [Bool.and_eq_true, decide_eq_true_eq] at hlt
        exact hlt.2
      have hlen : (m.feed.generateCandlesBySymbols (g.fromTime + g.duration)).length =
          m.symbolList.length := List.length_map ..
      simp only [CandlesPc.size, TimeframeGenerator.size, hlen,
        ← framesLeft_next (hg g rfl) hlt', Nat.succ_mul]
      omega
    · obtain ⟨-, rfl⟩ := Prod.mk.inj (Option.some.inj h)
      exact Nat.lt_of_lt_of_le (by decide : 2 < 3) (Nat.le_add_left _ _)
  | publish rest g =>
    cases rest with
    | nil =>
      cases g <;> obtain ⟨-, rfl⟩ := Prod.mk.inj (Option.some.inj h) <;>
        simp only [CandlesPc.size, List.length_nil] <;> omega
    | cons candle rest =>
      obtain ⟨-, rfl⟩ := Prod.mk.inj (Option.some.inj h)
      have hlen : (if p.answer x.published = .ok then rest else []).length ≤ rest.length := by
        split
        · exact Nat.le_refl _
        · exact Nat.zero_le _
      cases g <;> simp only [CandlesPc.size, List.length_cons] <;> omega
  | arm =>
    obtain ⟨-, rfl⟩ := Prod.mk.inj (Option.some.inj h)
    exact Nat.lt_succ_self 1
  | select toTime =>
    simp only [Setup.candles, ht] at h
    split at h
    · obtain ⟨-, rfl⟩ := Prod.mk.inj (Option.some.inj h)
      exact Nat.zero_lt_one
    · cases h
  | returned => cases h

theorem ticks_size {pc pc' : TicksPc} (h : m.ticks p x pc = some (p', pc'))
    (ht : x.timer = none) : pc'.size < pc.size := by
  cases pc with
  | arm =>
    obtain ⟨-, rfl⟩ := Prod.mk.inj (Option.some.inj h)
    exact Nat.lt_succ_self 1
  | select toTime =>
    simp only [Setup.ticks, ht] at h
    split at h
    · obtain ⟨-, rfl⟩ := Prod.mk.inj (Option.some.inj h)
      exact Nat.zero_lt_one
    · cases h
  | publish ts =>
    simp only [Setup.ticks] at h
    split at h <;> obtain ⟨-, rfl⟩ := Prod.mk.inj (Option.some.inj h) <;> exact Nat.lt_succ_self 2
  | returned => cases h

/-- **The trade loop gets on**: it looks at the context before it waits for another message. -/
theorem trades_size {pc pc' : TradesPc} (h : m.trades p x pc = some (p', pc'))
    (hcancel : p.cancelled = true) : pc'.size < pc.size := by
  cases pc with
  | subscribe =>
    simp only [Setup.trades] at h
    split at h <;> obtain ⟨-, rfl⟩ := Prod.mk.inj (Option.some.inj h) <;>
      simp only [TradesPc.size] <;> omega
  | loop orderID =>
    simp only [Setup.trades, hcancel, if_true] at h
    obtain ⟨-, rfl⟩ := Prod.mk.inj (Option.some.inj h)
    exact Nat.zero_lt_one
  | next orderID =>
    simp only [Setup.trades] at h
    split at h <;> obtain ⟨-, rfl⟩ := Prod.mk.inj (Option.some.inj h) <;>
      simp only [TradesPc.size] <;> omega
  | publish orderID data =>
    obtain ⟨-, rfl⟩ := Prod.mk.inj (Option.some.inj h)
    exact Nat.lt_succ_self 1
  | returned => cases h

theorem main_size {pc pc' : MainPc} (h : m.main p x pc = some (p', pc')) : pc'.size < pc.size := by
  cases pc with
  | groups rest =>
    cases rest with
    | nil =>
      obtain ⟨-, rfl⟩ := Prod.mk.inj (Option.some.inj h)
      exact Nat.lt_succ_self 2
    | cons data rest =>
      obtain ⟨-, rfl⟩ := Prod.mk.inj (Option.some.inj h)
      split <;> simp only [MainPc.size, List.length_cons] <;> omega
  | wait =>
    simp only [Setup.main] at h
    split at h
    · obtain ⟨-, rfl⟩ := Prod.mk.inj (Option.some.inj h)
      exact Nat.lt_succ_self 1
    · cases h
  | unwind =>
    obtain ⟨-, rfl⟩ := Prod.mk.inj (Option.some.inj h)
    exact Nat.lt_succ_self 1
  | close | exit =>
    obtain ⟨-, rfl⟩ := Prod.mk.inj (Option.some.inj h)
    exact Nat.zero_lt_one
  | returned | dead => cases h

/-! ## The context stays done -/

theorem Effect.cancelled {topic : Bytes} {k : Nat} (he : Effect topic p p' k)
    (h : p.cancelled = true) : p'.cancelled = true := by
  cases he with
  | finish e =>
    cases e with
    | none => exact h
    | some e => rfl
  | _ => exact h

theorem main_cancelled {pc pc' : MainPc} (h : m.main p x pc = some (p', pc'))
    (hc : p.cancelled = true) : p'.cancelled = true := by
  cases pc with
  | groups rest =>
    cases rest <;> obtain ⟨rfl, -⟩ := Prod.mk.inj (Option.some.inj h) <;> exact hc
  | wait =>
    simp only [Setup.main] at h
    split at h
    · obtain ⟨rfl, -⟩ := Prod.mk.inj (Option.some.inj h)
      rfl
    · cases h
  | close | unwind | exit =>
    obtain ⟨rfl, -⟩ := Prod.mk.inj (Option.some.inj h)
    exact hc
  | returned | dead => cases h

theorem Setup.Runs.mono {A B : Program → Answer → Prop} (hAB : ∀ s x, A s x → B s x)
    (h : m.Runs A s s') : m.Runs B s s' := by
  cases h with
  | main hx hc h => exact .main (hAB _ _ hx) hc h
  | candles hx hc h => exact .candles (hAB _ _ hx) hc h
  | ticks hx hc h => exact .ticks (hAB _ _ hx) hc h
  | trades hx hc h => exact .trades (hAB _ _ hx) hc h

/-- A timer that is taken is a step of the process. -/
theorem Setup.Late.step {k : Nat} (h : m.Late s k s') : m.Step s s' := by
  refine Or.inr ?_
  cases h with
  | @candles toTime ts hc place h =>
    refine .candles (x := ⟨.ok, some ts, none, .timeout, 0, 0⟩) trivial hc ?_
    rw [place]
    exact if_pos h
  | @ticks toTime ts hc place h =>
    refine .ticks (x := ⟨.ok, some ts, none, .timeout, 0, 0⟩) trivial hc ?_
    rw [place]
    exact if_pos h

/-! ## Every schedule ends -/

/-- The invariants, with the context done. -/
def Program.Ending (m : Setup) (s : Program) : Prop := s.Ordered m ∧ s.shared.cancelled = true

theorem Program.Ending.prompt (h : s.Ending m) (hs : m.Prompt s s') :
    s'.Ending m ∧ s'.size m < s.size m := by
  obtain ⟨hord, hcancel⟩ := h
  have hord' : s'.Ordered m := hord.step (Or.inr (hs.mono fun _ _ _ => trivial))
  cases hs with
  | main ht hc hrun =>
    refine ⟨⟨hord', main_cancelled hrun hcancel⟩, ?_⟩
    have := main_size hrun
    unfold Program.size
    simp only
    omega
  | candles ht hc hrun =>
    refine ⟨⟨hord', (candles_effect hrun).2.cancelled hcancel⟩, ?_⟩
    have := candles_size hrun ht hord.period
    unfold Program.size
    simp only
    omega
  | ticks ht hc hrun =>
    refine ⟨⟨hord', (ticks_effect hrun).2.cancelled hcancel⟩, ?_⟩
    have := ticks_size hrun ht
    unfold Program.size
    simp only
    omega
  | trades ht hc hrun =>
    refine ⟨⟨hord', (trades_effect hrun).2.cancelled hcancel⟩, ?_⟩
    have := trades_size hrun hcancel
    unfold Program.size
    simp only
    omega

/-- **What each kind of step does to what is left.** -/
theorem ending_potential (m : Setup) :
    Potential m.Prompt Outside m.Late (Program.Ending m) (Program.size m) where
  work h hs := h.prompt hs
  rest h hs := by
    refine ⟨⟨h.1.step (Or.inl hs), ?_⟩, ?_⟩
    · cases hs with
      | clock _ => exact h.2
      | interrupt => rfl
    · cases hs <;> exact Nat.le_refl _
  gain := by
    intro s s' k h hs
    refine ⟨⟨h.1.step hs.step, ?_⟩, ?_⟩
    · cases hs <;> exact h.2
    · cases hs with
      | @candles toTime ts hc place _ =>
        have hlen : (m.feed.generateCandlesBySymbols ts).length = m.symbolList.length :=
          List.length_map ..
        simp only [Program.size, place, CandlesPc.size, hlen]
        omega
      | @ticks toTime ts hc place _ =>
        simp only [Program.size, place, TicksPc.size]
        omega

/-- A goroutine that has not returned has a step, once the context is done. -/
theorem candles_live {pc : CandlesPc} (hc : p.cancelled = true) (hpc : pc ≠ .returned) :
    ∃ r, m.candles p quiet pc = some r := by
  cases pc with
  | frames g =>
    simp only [Setup.candles]
    split <;> exact ⟨_, rfl⟩
  | publish rest g => cases rest <;> cases g <;> exact ⟨_, rfl⟩
  | select toTime => exact ⟨_, if_pos hc⟩
  | returned => exact absurd rfl hpc
  | _ => exact ⟨_, rfl⟩

theorem ticks_live {pc : TicksPc} (hc : p.cancelled = true) (hpc : pc ≠ .returned) :
    ∃ r, m.ticks p quiet pc = some r := by
  cases pc with
  | arm => exact ⟨_, rfl⟩
  | select toTime => exact ⟨_, if_pos hc⟩
  | publish ts =>
    simp only [Setup.ticks]
    split <;> exact ⟨_, rfl⟩
  | returned => exact absurd rfl hpc

theorem trades_live {pc : TradesPc} (hpc : pc ≠ .returned) :
    ∃ r, m.trades p quiet pc = some r := by
  cases pc with
  | loop orderID =>
    simp only [Setup.trades]
    split <;> exact ⟨_, rfl⟩
  | returned => exact absurd rfl hpc
  | _ => exact ⟨_, rfl⟩

theorem main_live {pc : MainPc} (hrunning : p.running = 0) (hpc : pc ≠ .returned)
    (hdead : pc ≠ .dead) : ∃ r, m.main p quiet pc = some r := by
  cases pc with
  | groups rest => cases rest <;> exact ⟨_, rfl⟩
  | wait => exact ⟨_, if_pos hrunning⟩
  | returned => exact absurd rfl hpc
  | dead => exact absurd rfl hdead
  | _ => exact ⟨_, rfl⟩

/-- **A process that cannot go on has ended.** -/
theorem Program.Ending.returned (h : s.Ending m) (hc : s.shared.crashed = false)
    (hstuck : ∀ s', ¬ m.Prompt s s') : s.main = .returned := by
  have hcandles : s.candles = .returned := by
    by_contra hne
    obtain ⟨⟨p', pc'⟩, hrun⟩ := candles_live (m := m) h.2 hne
    exact hstuck _ (.candles (x := quiet) rfl hc hrun)
  have hticks : s.ticks = .returned := by
    by_contra hne
    obtain ⟨⟨p', pc'⟩, hrun⟩ := ticks_live (m := m) h.2 hne
    exact hstuck _ (.ticks (x := quiet) rfl hc hrun)
  have htrades : s.trades = .returned := by
    by_contra hne
    obtain ⟨⟨p', pc'⟩, hrun⟩ := trades_live (m := m) (p := s.shared) hne
    exact hstuck _ (.trades (x := quiet) rfl hc hrun)
  have hrunning : s.shared.running = 0 := by
    rw [h.1.running, hcandles, hticks, htrades]
    rfl
  have hdead : s.main ≠ .dead := by
    intro hd
    have := h.1.dead hd
    rw [hc] at this
    cases this
  by_contra hne
  obtain ⟨⟨p', pc'⟩, hrun⟩ := main_live (m := m) hrunning hne hdead
  exact hstuck _ (.main (x := quiet) rfl hc hrun)

/-- **Once the context is done every schedule ends, with `main` returned.** From a reachable state a
run has at most `size` steps of goroutines, and for each timer that is taken as many more as its
batch or its tick needs (`g` is their sum). Where no further step is possible but a timer, `main`
has returned, unless a panic has ended the process. -/
theorem graceful_exit {clock : Int} {n g : Nat} (hr : m.Reach (m.start clock) s)
    (hcancel : s.shared.cancelled = true) (hrun : Spend m.Prompt Outside m.Late s n g s') :
    n + s'.size m ≤ s.size m + g ∧
      (s'.shared.crashed = false → (∀ s'', ¬ m.Prompt s' s'') → s'.main = .returned) := by
  have hending : s.Ending m := ⟨(Program.Ordered.start m clock).reach hr, hcancel⟩
  refine ⟨hrun.bound (ending_potential m) hending, fun hc hstuck => ?_⟩
  exact (hrun.inv (ending_potential m) hending).returned hc hstuck

/-- A schedule in which no timer is taken, behind a run. -/
theorem turns_spend {g : Nat} {s₂ : Program} (hx : x.timer = none) :
    ∀ {schedule : List Goroutine} {n : Nat} {s₁ : Program},
      Spend m.Prompt Outside m.Late s n g s₁ → m.turns x s₁ schedule = some s₂ →
      Spend m.Prompt Outside m.Late s (n + schedule.length) g s₂
  | [], _, _, hr, h => by
    obtain rfl := Option.some.inj h
    exact hr
  | who :: schedule, n, _, hr, h => by
    obtain ⟨s', hfirst, hrest⟩ := Option.bind_eq_some_iff.mp h
    have := turns_spend hx (hr.work (Setup.turn_runs hx hfirst)) hrest
    rwa [Nat.add_assoc, Nat.add_comm 1] at this

/-- The interrupted mock makes eighteen steps. -/
theorem graceful_exit_interrupted : ∃ s,
    Spend demoSetup.Prompt Outside demoSetup.Late interrupted 18 0 s ∧
    18 + s.size demoSetup ≤ interrupted.size demoSetup + 0 ∧
    (s.shared.crashed = false → (∀ s'', ¬ demoSetup.Prompt s s'') → s.main = .returned) := by
  have hrun : ∃ s, demoSetup.turns quiet interrupted toTheEnd = some s := ⟨_, rfl⟩
  obtain ⟨s, hs⟩ := hrun
  have hspend := turns_spend rfl Spend.refl hs
  exact ⟨s, hspend, graceful_exit interrupted_reach rfl hspend⟩

end TradeBridge.Mock
