import TradeBridge.Lib.Potential
import TradeBridge.CandleStream
import TradeBridge.TradeAnswers

/-!
# The mock as a process

`main` of `src/mock/main.go` starts three goroutines in an `errgroup`, publishes the group symbols,
waits for the group and closes the connection as it returns. The goroutines end when the context is
done: on an interrupt (`CreateGrexitContext`), or when one of them has returned an error. They run
one call at a time, in any order; what NATS, the timers and `math/rand` answer is an `Answer`.

A publish that fails is a panic (`must`), unless with `context.Canceled`. A panic of a goroutine
ends the process; one of `main` does so behind the deferred `nc.Close`, and until then the
goroutines run on. `select` takes either of two cases that are ready, so a goroutine that comes to
it after its timer has fired may go on once more although the context is done (`Setup.Late`).

Results:
* `Program.Ordered`: the invariants of the process.
* **`closes_last`**: nothing gets through after `nc.Close`; when `main` returns, it was the last
  call, every goroutine had returned before, and each configured pair of a group and a symbol has
  been published once, in order.
-/

namespace TradeBridge.Mock

open TradeBridge.Lib

/-! ## What the goroutines share -/

/-- `config`, with what is not in the repository: `math.Sin` and the parser of `encoding/json`. -/
structure Setup where
  serverName : Bytes
  symbolList : List Bytes
  groupNames : List Bytes
  sin : Int → Rat
  parse : Bytes → Option Json

/-- What `nc.Publish` returns: `nil`, `context.Canceled`, or an error that `must` panics on. -/
inductive PublishAnswer
  | ok
  | canceled
  | failed
  deriving DecidableEq

/-- A call on the connection, with what a publish returned. -/
inductive Event
  | publish (topic : Bytes) (data : Json) (answer : PublishAnswer)
  | close

/-- The clock, the context, the `errgroup` and the connection. -/
structure Process where
  clock : Int
  /-- `ctx.Done()` is closed. -/
  cancelled : Bool
  /-- The counter of the group's `WaitGroup`. -/
  running : Nat
  /-- The first error a goroutine has returned. -/
  err : Option Bytes
  /-- `nc.Close` has been called. -/
  closed : Bool
  /-- A panic has ended the process. -/
  crashed : Bool
  /-- The calls on the connection so far, oldest first. -/
  events : List Event

/-- What `nc.Publish` returns: a closed connection fails. -/
def Process.answer (p : Process) (a : PublishAnswer) : PublishAnswer :=
  if p.closed then .failed else a

/-- `nc.Publish(topic, data)`. -/
def Process.publish (p : Process) (a : PublishAnswer) (topic : Bytes) (data : Json) : Process :=
  { p with events := p.events ++ [.publish topic data (p.answer a)] }

/-- `must.ReturnNothing(nc.Publish(topic, data))` on a goroutine: a panic ends the process. -/
def Process.mustPublish (p : Process) (a : PublishAnswer) (topic : Bytes) (data : Json) : Process :=
  { p.publish a topic data with crashed := decide (p.answer a = .failed) }

/-- `nc.Close()`. -/
def Process.close (p : Process) : Process :=
  { p with events := p.events ++ [.close], closed := true }

/-- A function given to `errGroup.Go` returns: its first error is kept and cancels the context. -/
def Process.finish (p : Process) : Option Bytes → Process
  | none => { p with running := p.running - 1 }
  | some e => { p with running := p.running - 1, cancelled := true, err := p.err <|> some e }

/-- What one step is answered. -/
structure Answer where
  published : PublishAnswer
  /-- The timestamp of the timer, where a `select` takes that case. -/
  timer : Option Int
  /-- The error of `SubscribeSync`. -/
  subscribed : Option Bytes
  received : Received
  /-- `rand.Intn(10)`. -/
  drawn : Fin 10
  /-- `rand.Intn(len(cfg.SymbolList))`, if the list is not empty. -/
  symbol : Nat

/-! ## `main.go` -/

namespace Setup

variable (m : Setup)

/-- `candlesGenerator`'s parameters. -/
def feed : CandleFeed := ⟨m.serverName ++ bytes ".mt4_candle", m.symbolList, m.sin⟩

/-- The topic of the ticks. -/
def tickTopic : Bytes := m.serverName ++ bytes ".mt4_tick"

/-- The topic of the group symbols. -/
def groupTopic : Bytes := m.serverName ++ bytes ".mt4_group"

/-- `json.Marshal(&GroupSymbol{…})` of the last loop of `main`. -/
def groupSymbol (group symbol : Bytes) : Json :=
  GroupSymbol.marshal
    { accountGroup := group
      symbol := symbol
      description := group ++ bytes " " ++ symbol
      digits := 5
      mode := tradeMode .tradeFull
      contractSize := 100000
      tickSize := 1 / 100000
      swapLong := 1 / 10
      swapShort := 1 / 10
      lotMin := 1 / 100
      lotMax := 10
      lotStep := 1 / 100 }

/-- What the last loop of `main` publishes. -/
def groupSymbols : List Json :=
  m.groupNames.flatMap fun group => m.symbolList.map fun symbol => groupSymbol group symbol

/-- `json.Marshal(&Tick{…})` at a timestamp. -/
def tick (symbol : Bytes) (ts : Int) : Json :=
  let price := m.sin (unix ts) + 1
  Tick.marshal
    { symbol := symbol, ts := Int32.ofInt (unix ts), bid := price - 1 / 10, ask := price + 1 / 10 }

end Setup

/-- Where `candlesGenerator` stands. -/
inductive CandlesPc
  | start
  /-- At the head of the first loop. -/
  | frames (g : TimeframeGenerator)
  /-- In `publishCandles`; `g` is the iterator of the first loop. -/
  | publish (rest : List Json) (g : Option TimeframeGenerator)
  /-- Before the timer of `PeriodicScheduler` is made. -/
  | arm
  | select (toTime : Int)
  | returned

/-- Where the goroutine of the ticks stands. -/
inductive TicksPc
  | arm
  | select (toTime : Int)
  | publish (ts : Int)
  | returned

/-- Where the trade loop stands. -/
inductive TradesPc
  | subscribe
  /-- In `LoopUntilCtxDone`. -/
  | loop (orderID : Int)
  | next (orderID : Int)
  | publish (orderID : Int) (data : Json)
  | returned

/-- Where `main` stands, behind the three calls of `errGroup.Go`. -/
inductive MainPc
  | groups (rest : List Json)
  /-- In `errGroup.Wait`. -/
  | wait
  /-- At its end, before the deferred `nc.Close`. -/
  | close
  | returned
  /-- In a panic, before the deferred `nc.Close`. -/
  | unwind
  /-- Behind it, before the panic ends the process. -/
  | exit
  | dead

namespace Setup

variable (m : Setup)

/-- `candlesGenerator`; `none` where it is blocked or has returned. The second reading of the clock,
in `time.Until`, is part of the timer's lateness. -/
def candles (p : Process) (x : Answer) : CandlesPc → Option (Process × CandlesPc)
  | .start =>
    let nowTime := Go.truncate p.clock minute
    some (p, .frames (timeframeGenerator (nowTime - minute * 2) nowTime minute))
  | .frames g =>
    if !Go.isZero g.fromTime && decide (g.fromTime < g.toTime) then
      let next := { g with fromTime := g.fromTime + g.duration }
      some (p, .publish (m.feed.generateCandlesBySymbols next.fromTime) (some next))
    else some (p, .arm)
  | .publish [] (some g) => some (p, .frames g)
  | .publish [] none => some (p, .arm)
  | .publish (candle :: rest) g =>
    -- an error stops the batch; only `context.Canceled` lets the goroutine go on behind it
    some (p.mustPublish x.published m.feed.topic candle,
      .publish (if p.answer x.published = .ok then rest else []) g)
  | .arm => some (p, .select (Go.truncate p.clock minute + minute))
  | .select toTime =>
    match x.timer with
    | some ts =>
      if toTime ≤ ts ∧ ts ≤ p.clock then
        some (p, .publish (m.feed.generateCandlesBySymbols ts) none)
      else none
    | none => if p.cancelled then some (p.finish none, .returned) else none
  | .returned => none

/-- The goroutine of the ticks. `rand.Intn` panics if there is no symbol. -/
def ticks (p : Process) (x : Answer) : TicksPc → Option (Process × TicksPc)
  | .arm => some (p, .select (Go.truncate p.clock (10 ^ 9) + 10 ^ 9))
  | .select toTime =>
    match x.timer with
    | some ts => if toTime ≤ ts ∧ ts ≤ p.clock then some (p, .publish ts) else none
    | none => if p.cancelled then some (p.finish none, .returned) else none
  | .publish ts =>
    match m.symbolList[x.symbol % m.symbolList.length]? with
    | none => some ({ p with crashed := true }, .arm)
    | some symbol => some (p.mustPublish x.published m.tickTopic (m.tick symbol ts), .arm)
  | .returned => none

/-- The trade loop. -/
def trades (p : Process) (x : Answer) : TradesPc → Option (Process × TradesPc)
  | .subscribe =>
    match x.subscribed with
    | some e => some (p.finish (some (bytes "failed to subscribe to updates: " ++ e)), .returned)
    | none => some (p, .loop 0)
  | .loop orderID =>
    if p.cancelled then some (p.finish none, .returned) else some (p, .next orderID)
  | .next orderID =>
    match x.received with
    | .timeout => some (p, .loop orderID)
    | .failure e => some (p.finish (some (bytes "failed to get next message: " ++ e)), .returned)
    | .msg data =>
      let tradeRequest := (TradeRequest.unmarshal m.parse data).1
      let orderID := increment orderID
      some (p, .publish orderID (respond tradeRequest.requestID orderID x.drawn).marshal)
  | .publish orderID data =>
    some (p.mustPublish x.published (tradeResponseTopic m.serverName) data, .loop orderID)
  | .returned => none

/-- `main`, behind the three calls of `errGroup.Go`. `Wait` cancels the context as it returns. -/
def main (p : Process) (x : Answer) : MainPc → Option (Process × MainPc)
  | .groups [] => some (p, .wait)
  | .groups (data :: rest) =>
    some (p.publish x.published m.groupTopic data,
      if p.answer x.published = .failed then .unwind else .groups rest)
  | .wait => if p.running = 0 then some ({ p with cancelled := true }, .close) else none
  | .close => some (p.close, .returned)
  | .unwind => some (p.close, .exit)
  | .exit => some ({ p with crashed := true }, .dead)
  | .returned | .dead => none

end Setup

/-- The state of the process. -/
structure Program where
  shared : Process
  main : MainPc
  candles : CandlesPc
  ticks : TicksPc
  trades : TradesPc

/-- The three goroutines are started, and nothing is published. -/
def Setup.start (m : Setup) (clock : Int) : Program where
  shared := ⟨clock, false, 3, none, false, false, []⟩
  main := .groups m.groupSymbols
  candles := .start
  ticks := .arm
  trades := .subscribe

/-- Time passes, or the process is interrupted. -/
inductive Outside : Program → Program → Prop
  | clock {s : Program} {c : Int} (h : s.shared.clock ≤ c) :
      Outside s { s with shared := { s.shared with clock := c } }
  | interrupt {s : Program} : Outside s { s with shared := { s.shared with cancelled := true } }

/-- A step of one goroutine of a process that has not crashed, where `Allowed` of the answer. -/
inductive Setup.Runs (m : Setup) (Allowed : Program → Answer → Prop) : Program → Program → Prop
  | main {s : Program} {x : Answer} {p' : Process} {pc' : MainPc} (hx : Allowed s x)
      (hc : s.shared.crashed = false) (h : m.main s.shared x s.main = some (p', pc')) :
      Runs m Allowed s { s with shared := p', main := pc' }
  | candles {s : Program} {x : Answer} {p' : Process} {pc' : CandlesPc} (hx : Allowed s x)
      (hc : s.shared.crashed = false) (h : m.candles s.shared x s.candles = some (p', pc')) :
      Runs m Allowed s { s with shared := p', candles := pc' }
  | ticks {s : Program} {x : Answer} {p' : Process} {pc' : TicksPc} (hx : Allowed s x)
      (hc : s.shared.crashed = false) (h : m.ticks s.shared x s.ticks = some (p', pc')) :
      Runs m Allowed s { s with shared := p', ticks := pc' }
  | trades {s : Program} {x : Answer} {p' : Process} {pc' : TradesPc} (hx : Allowed s x)
      (hc : s.shared.crashed = false) (h : m.trades s.shared x s.trades = some (p', pc')) :
      Runs m Allowed s { s with shared := p', trades := pc' }

/-- One step of the process. -/
def Setup.Step (m : Setup) (s s' : Program) : Prop :=
  Outside s s' ∨ m.Runs (fun _ _ => True) s s'

/-- The states a run of the process passes through. -/
def Setup.Reach (m : Setup) : Program → Program → Prop := Relation.ReflTransGen m.Step

/-! ## Schedules -/

/-- The goroutine that a step is of. -/
inductive Goroutine
  | main
  | candles
  | ticks
  | trades

/-- The step of one goroutine; `none` where it has none. -/
def Setup.turn (m : Setup) (s : Program) (x : Answer) (who : Goroutine) : Option Program :=
  if s.shared.crashed then none
  else
    match who with
    | .main => (m.main s.shared x s.main).map fun r => { s with shared := r.1, main := r.2 }
    | .candles =>
      (m.candles s.shared x s.candles).map fun r => { s with shared := r.1, candles := r.2 }
    | .ticks => (m.ticks s.shared x s.ticks).map fun r => { s with shared := r.1, ticks := r.2 }
    | .trades => (m.trades s.shared x s.trades).map fun r => { s with shared := r.1, trades := r.2 }

/-- The steps of a schedule, all answered alike. -/
def Setup.turns (m : Setup) (x : Answer) : Program → List Goroutine → Option Program
  | s, [] => some s
  | s, who :: schedule => (m.turn s x who).bind fun s' => m.turns x s' schedule

theorem Setup.turn_runs {m : Setup} {Allowed : Program → Answer → Prop} {s s' : Program}
    {x : Answer} {who : Goroutine} (hx : Allowed s x) (h : m.turn s x who = some s') :
    m.Runs Allowed s s' := by
  unfold Setup.turn at h
  split at h
  · cases h
  · rename_i hc
    have hc' : s.shared.crashed = false := Bool.eq_false_iff.mpr hc
    cases who <;> obtain ⟨r, hr, rfl⟩ := Option.map_eq_some_iff.mp h
    · exact .main hx hc' hr
    · exact .candles hx hc' hr
    · exact .ticks hx hc' hr
    · exact .trades hx hc' hr

theorem Setup.turns_reach {m : Setup} {x : Answer} : ∀ {schedule : List Goroutine} {s s' : Program},
    m.turns x s schedule = some s' → m.Reach s s'
  | [], s, s', h => by
    obtain rfl := Option.some.inj h
    exact Relation.ReflTransGen.refl
  | who :: schedule, s, s', h => by
    obtain ⟨s₁, hfirst, hrest⟩ := Option.bind_eq_some_iff.mp h
    exact Relation.ReflTransGen.head (Or.inr (turn_runs trivial hfirst)) (turns_reach hrest)

/-! ## The invariants -/

/-- The data of the publish calls on a topic. -/
def Process.attempts (p : Process) (topic : Bytes) : List Json :=
  p.events.filterMap fun
    | .publish t data _ => if t = topic then some data else none
    | .close => none

/-- What a goroutine adds to the counter of the group. -/
def CandlesPc.running : CandlesPc → Nat
  | .returned => 0
  | _ => 1

def TicksPc.running : TicksPc → Nat
  | .returned => 0
  | _ => 1

def TradesPc.running : TradesPc → Nat
  | .returned => 0
  | _ => 1

/-- The group symbols still to come, if `main` has not panicked. -/
def MainPc.rest? : MainPc → Option (List Json)
  | .groups rest => some rest
  | .wait | .close | .returned => some []
  | _ => none

/-- `Wait` has returned. -/
def MainPc.waited : MainPc → Bool
  | .close | .returned => true
  | _ => false

/-- The deferred `nc.Close` has run. -/
def MainPc.behindClose : MainPc → Bool
  | .returned | .exit | .dead => true
  | _ => false

/-- The call is a publish that failed. -/
def Event.failed : Event → Bool
  | .publish _ _ a => decide (a = .failed)
  | .close => false

/-- What the calls on the connection say about it: it is closed once, and what is tried behind that
fails. -/
structure Process.Sound (p : Process) : Prop where
  opened : p.closed = false → .close ∉ p.events
  once : p.closed = true → ∃ before after, p.events = before ++ .close :: after ∧
    .close ∉ before ∧ ∀ e ∈ after, e.failed = true

/-- The iterator of the first loop, while it runs. -/
def CandlesPc.iterator : CandlesPc → Option TimeframeGenerator
  | .frames g => some g
  | .publish _ g => g
  | _ => none

/-- The invariants of the process. -/
structure Program.Ordered (m : Setup) (s : Program) : Prop where
  sound : s.shared.Sound
  running : s.shared.running = s.candles.running + s.ticks.running + s.trades.running
  groups : s.shared.attempts m.groupTopic <+: m.groupSymbols
  rest : ∀ rest, s.main.rest? = some rest →
    s.shared.attempts m.groupTopic ++ rest = m.groupSymbols
  waits : s.main.waited = true → s.shared.running = 0 ∧ s.shared.cancelled = true
  closed : s.shared.closed = s.main.behindClose
  last : s.main = .returned → ∃ before, s.shared.events = before ++ [.close]
  dead : s.main = .dead → s.shared.crashed = true
  period : ∀ g, s.candles.iterator = some g → g.duration = minute

/-- What a step of a started goroutine does to what is shared, with what the goroutine counts
afterwards. -/
inductive Effect (topic : Bytes) (p : Process) : Process → Nat → Prop
  | inside : Effect topic p p 1
  | publish (a : PublishAnswer) (data : Json) : Effect topic p (p.mustPublish a topic data) 1
  | panic : Effect topic p { p with crashed := true } 1
  | finish (e : Option Bytes) : Effect topic p (p.finish e) 0

variable {m : Setup} {p p' : Process} {x : Answer}

theorem candles_effect {pc pc' : CandlesPc} (h : m.candles p x pc = some (p', pc')) :
    pc.running = 1 ∧ Effect m.feed.topic p p' pc'.running := by
  cases pc with
  | start =>
    obtain ⟨rfl, rfl⟩ := Prod.mk.inj (Option.some.inj h)
    exact ⟨rfl, .inside⟩
  | frames g =>
    simp only [Setup.candles] at h
    split at h <;> obtain ⟨rfl, rfl⟩ := Prod.mk.inj (Option.some.inj h) <;> exact ⟨rfl, .inside⟩
  | publish rest g =>
    cases rest with
    | nil =>
      cases g <;> obtain ⟨rfl, rfl⟩ := Prod.mk.inj (Option.some.inj h) <;> exact ⟨rfl, .inside⟩
    | cons candle rest =>
      obtain ⟨rfl, rfl⟩ := Prod.mk.inj (Option.some.inj h)
      exact ⟨rfl, .publish _ _⟩
  | arm =>
    obtain ⟨rfl, rfl⟩ := Prod.mk.inj (Option.some.inj h)
    exact ⟨rfl, .inside⟩
  | select toTime =>
    simp only [Setup.candles] at h
    split at h
    · split at h
      · obtain ⟨rfl, rfl⟩ := Prod.mk.inj (Option.some.inj h)
        exact ⟨rfl, .inside⟩
      · cases h
    · split at h
      · obtain ⟨rfl, rfl⟩ := Prod.mk.inj (Option.some.inj h)
        exact ⟨rfl, .finish none⟩
      · cases h
  | returned => cases h

theorem ticks_effect {pc pc' : TicksPc} (h : m.ticks p x pc = some (p', pc')) :
    pc.running = 1 ∧ Effect m.tickTopic p p' pc'.running := by
  cases pc with
  | arm =>
    obtain ⟨rfl, rfl⟩ := Prod.mk.inj (Option.some.inj h)
    exact ⟨rfl, .inside⟩
  | select toTime =>
    simp only [Setup.ticks] at h
    split at h
    · split at h
      · obtain ⟨rfl, rfl⟩ := Prod.mk.inj (Option.some.inj h)
        exact ⟨rfl, .inside⟩
      · cases h
    · split at h
      · obtain ⟨rfl, rfl⟩ := Prod.mk.inj (Option.some.inj h)
        exact ⟨rfl, .finish none⟩
      · cases h
  | publish ts =>
    simp only [Setup.ticks] at h
    split at h <;> obtain ⟨rfl, rfl⟩ := Prod.mk.inj (Option.some.inj h)
    · exact ⟨rfl, .panic⟩
    · exact ⟨rfl, .publish _ _⟩
  | returned => cases h

theorem trades_effect {pc pc' : TradesPc} (h : m.trades p x pc = some (p', pc')) :
    pc.running = 1 ∧ Effect (tradeResponseTopic m.serverName) p p' pc'.running := by
  cases pc with
  | subscribe =>
    simp only [Setup.trades] at h
    split at h <;> obtain ⟨rfl, rfl⟩ := Prod.mk.inj (Option.some.inj h)
    · exact ⟨rfl, .finish _⟩
    · exact ⟨rfl, .inside⟩
  | loop orderID =>
    simp only [Setup.trades] at h
    split at h <;> obtain ⟨rfl, rfl⟩ := Prod.mk.inj (Option.some.inj h)
    · exact ⟨rfl, .finish none⟩
    · exact ⟨rfl, .inside⟩
  | next orderID =>
    simp only [Setup.trades] at h
    split at h <;> obtain ⟨rfl, rfl⟩ := Prod.mk.inj (Option.some.inj h)
    · exact ⟨rfl, .inside⟩
    · exact ⟨rfl, .finish _⟩
    · exact ⟨rfl, .inside⟩
  | publish orderID data =>
    obtain ⟨rfl, rfl⟩ := Prod.mk.inj (Option.some.inj h)
    exact ⟨rfl, .publish _ _⟩
  | returned => cases h

theorem attempts_publish (a : PublishAnswer) (t topic : Bytes) (data : Json) :
    (p.publish a t data).attempts topic =
      p.attempts topic ++ if t = topic then [data] else [] := by
  unfold Process.attempts Process.publish
  rw [List.filterMap_append]
  by_cases h : t = topic <;> simp [h]

theorem attempts_close (topic : Bytes) : p.close.attempts topic = p.attempts topic := by
  unfold Process.attempts Process.close
  rw [List.filterMap_append]
  exact List.append_nil _

/-! ### What is known of the connection -/

theorem Process.Sound.congr (h : p.Sound) (hevents : p'.events = p.events)
    (hclosed : p'.closed = p.closed) : p'.Sound :=
  ⟨fun hc => hevents ▸ h.opened (hclosed ▸ hc), fun hc => hevents ▸ h.once (hclosed ▸ hc)⟩

/-- **A publish on a closed connection fails.** -/
theorem Process.Sound.publish (h : p.Sound) (a : PublishAnswer) (topic : Bytes) (data : Json) :
    (p.publish a topic data).Sound where
  opened hc hmem := by
    rcases List.mem_append.mp hmem with hmem | hmem
    · exact h.opened hc hmem
    · cases List.mem_singleton.mp hmem
  once hc := by
    have hanswer : p.answer a = .failed := if_pos hc
    obtain ⟨before, after, hevents, hfirst, hfailed⟩ := h.once hc
    refine ⟨before, after ++ [.publish topic data (p.answer a)], ?_, hfirst, fun e he => ?_⟩
    · show p.events ++ [_] = _
      rw [hevents, List.append_assoc, List.cons_append]
    · rcases List.mem_append.mp he with he | he
      · exact hfailed e he
      · rw [List.mem_singleton.mp he, hanswer]
        rfl

theorem Process.Sound.close (h : p.Sound) (hc : p.closed = false) : p.close.Sound where
  opened hopen := by cases hopen
  once _ := ⟨p.events, [], rfl, h.opened hc, fun _ he => absurd he List.not_mem_nil⟩

/-! ### One step -/

/-- Topics of one server differ where their last parts do. -/
theorem topic_ne (serverName : Bytes) {a b : Bytes} (h : a ≠ b) :
    serverName ++ a ≠ serverName ++ b :=
  fun heq => h (List.append_cancel_left heq)

/-- What a step of a started goroutine keeps. -/
structure Kept (m : Setup) (p p' : Process) : Prop where
  sound : p.Sound → p'.Sound
  groups : p'.attempts m.groupTopic = p.attempts m.groupTopic
  closed : p'.closed = p.closed

/-- **A step of a started goroutine publishes no group symbol**, and closes nothing. -/
theorem Effect.kept {topic : Bytes} {k : Nat} (he : Effect topic p p' k)
    (htopic : topic ≠ m.groupTopic) : Kept m p p' := by
  cases he with
  | inside => exact ⟨id, rfl, rfl⟩
  | publish a data =>
    refine ⟨fun h => (h.publish a topic data).congr rfl rfl, ?_, rfl⟩
    show (p.publish a topic data).attempts _ = _
    rw [attempts_publish, if_neg htopic, List.append_nil]
  | panic => exact ⟨fun h => h.congr rfl rfl, rfl, rfl⟩
  | finish e => cases e <;> exact ⟨fun h => h.congr rfl rfl, rfl, rfl⟩

theorem Effect.count {topic : Bytes} {k : Nat} (he : Effect topic p p' k) (h : 0 < p.running) :
    p'.running + 1 = p.running + k := by
  cases he with
  | finish e => cases e <;> exact Nat.sub_add_cancel h
  | _ => rfl

variable {s s' : Program}

theorem Program.Ordered.start (m : Setup) (clock : Int) : (m.start clock).Ordered m where
  sound := ⟨fun _ => List.not_mem_nil, fun h => by cases h⟩
  running := rfl
  groups := List.nil_prefix
  rest rest h := by
    obtain rfl := Option.some.inj h
    rfl
  waits h := by cases h
  closed := rfl
  last h := by cases h
  dead h := by cases h
  period _ h := by cases h

/-- While a goroutine runs, `main` has not come behind `Wait`. -/
theorem Program.Ordered.notWaited (h : s.Ordered m) (hrun : 0 < s.shared.running) :
    s.main.waited = false := by
  cases hw : s.main.waited with
  | false => rfl
  | true => exact absurd (h.waits hw).1 (Nat.ne_of_gt hrun)

/-- **A step of one of the three goroutines keeps the invariants** that are not about its place. -/
theorem Program.Ordered.effect (h : s.Ordered m) {candles : CandlesPc} {ticks : TicksPc}
    {trades : TradesPc} (hc : s.shared.crashed = false) (hrun : 0 < s.shared.running)
    (hk : Kept m s.shared p')
    (hrunning : p'.running = candles.running + ticks.running + trades.running)
    (hperiod : ∀ g, candles.iterator = some g → g.duration = minute) :
    Program.Ordered m ⟨p', s.main, candles, ticks, trades⟩ where
  sound := hk.sound h.sound
  running := hrunning
  groups := hk.groups ▸ h.groups
  rest rest hrest := hk.groups ▸ h.rest rest hrest
  waits hw := by
    rw [h.notWaited hrun] at hw
    cases hw
  closed := hk.closed.trans h.closed
  last hmain := by
    have hmain : s.main = .returned := hmain
    have := h.notWaited hrun
    rw [hmain] at this
    cases this
  dead hmain := by
    have := h.dead hmain
    rw [hc] at this
    cases this
  period := hperiod

/-- The iterator of the first loop keeps its period. -/
theorem candles_period {pc pc' : CandlesPc} (h : m.candles p x pc = some (p', pc'))
    (hg : ∀ g, pc.iterator = some g → g.duration = minute) :
    ∀ g, pc'.iterator = some g → g.duration = minute := by
  intro g' hg'
  cases pc with
  | start =>
    obtain ⟨-, rfl⟩ := Prod.mk.inj (Option.some.inj h)
    obtain rfl := Option.some.inj hg'
    rfl
  | frames g =>
    simp only [Setup.candles] at h
    split at h <;> obtain ⟨-, rfl⟩ := Prod.mk.inj (Option.some.inj h)
    · obtain rfl := Option.some.inj hg'
      exact hg g rfl
    · cases hg'
  | publish rest g =>
    cases rest with
    | nil =>
      cases g with
      | none =>
        obtain ⟨-, rfl⟩ := Prod.mk.inj (Option.some.inj h)
        cases hg'
      | some g =>
        obtain ⟨-, rfl⟩ := Prod.mk.inj (Option.some.inj h)
        obtain rfl := Option.some.inj hg'
        exact hg _ rfl
    | cons candle rest =>
      obtain ⟨-, rfl⟩ := Prod.mk.inj (Option.some.inj h)
      exact hg g' hg'
  | arm =>
    obtain ⟨-, rfl⟩ := Prod.mk.inj (Option.some.inj h)
    cases hg'
  | select toTime =>
    simp only [Setup.candles] at h
    split at h
    · split at h
      · obtain ⟨-, rfl⟩ := Prod.mk.inj (Option.some.inj h)
        cases hg'
      · cases h
    · split at h
      · obtain ⟨-, rfl⟩ := Prod.mk.inj (Option.some.inj h)
        cases hg'
      · cases h
  | returned => cases h

/-- **A step of `main` keeps the invariants**: it publishes the group symbols in order, and closes
the connection at its end or in a panic. -/
theorem Program.Ordered.main {pc' : MainPc} (h : s.Ordered m)
    (hs : m.main s.shared x s.main = some (p', pc')) :
    Program.Ordered m { s with shared := p', main := pc' } := by
  obtain ⟨hsound, hrunning, hgroups, hrest, hwaits, hclosed, hlast, hdead, hperiod⟩ := h
  cases hmain : s.main with
  | groups rest =>
    rw [hmain] at hs hrest hclosed
    cases rest with
    | nil =>
      obtain ⟨rfl, rfl⟩ := Prod.mk.inj (Option.some.inj hs)
      exact ⟨hsound, hrunning, hgroups, hrest, fun hw => (by cases hw), hclosed,
        fun hr => (by cases hr), fun hd => (by cases hd), hperiod⟩
    | cons data rest =>
      obtain ⟨rfl, rfl⟩ := Prod.mk.inj (Option.some.inj hs)
      have hall : (s.shared.publish x.published m.groupTopic data).attempts m.groupTopic ++ rest =
          m.groupSymbols := by
        rw [attempts_publish, if_pos rfl, List.append_assoc]
        exact hrest _ rfl
      have hprefix : (s.shared.publish x.published m.groupTopic data).attempts m.groupTopic <+:
          m.groupSymbols := ⟨rest, hall⟩
      have hsound' := hsound.publish x.published m.groupTopic data
      -- a panic stops the publishing
      by_cases hpanic : s.shared.answer x.published = .failed
      · simp only [if_pos hpanic]
        exact ⟨hsound', hrunning, hprefix, fun _ hr => (by cases hr), fun hw => (by cases hw),
          hclosed, fun hr => (by cases hr), fun hd => (by cases hd), hperiod⟩
      · simp only [if_neg hpanic]
        refine ⟨hsound', hrunning, hprefix, fun rest' hr => ?_, fun hw => (by cases hw), hclosed,
          fun hr => (by cases hr), fun hd => (by cases hd), hperiod⟩
        obtain rfl := Option.some.inj hr
        exact hall
  | wait =>
    rw [hmain] at hs hrest hclosed
    simp only [Setup.main] at hs
    split at hs
    · rename_i hzero
      obtain ⟨rfl, rfl⟩ := Prod.mk.inj (Option.some.inj hs)
      exact ⟨hsound.congr rfl rfl, hrunning, hgroups, hrest, fun _ => ⟨hzero, rfl⟩, hclosed,
        fun hr => (by cases hr), fun hd => (by cases hd), hperiod⟩
    · cases hs
  | close =>
    rw [hmain] at hs hrest hclosed hwaits
    obtain ⟨rfl, rfl⟩ := Prod.mk.inj (Option.some.inj hs)
    refine ⟨hsound.close hclosed, hrunning, ?_, fun rest hr => ?_, fun _ => hwaits rfl, rfl,
      fun _ => ⟨s.shared.events, rfl⟩, fun hd => (by cases hd), hperiod⟩
    · rw [attempts_close]
      exact hgroups
    · rw [attempts_close]
      exact hrest rest hr
  | unwind =>
    rw [hmain] at hs hclosed
    obtain ⟨rfl, rfl⟩ := Prod.mk.inj (Option.some.inj hs)
    refine ⟨hsound.close hclosed, hrunning, ?_, fun _ hr => (by cases hr),
      fun hw => (by cases hw), rfl, fun hr => (by cases hr), fun hd => (by cases hd), hperiod⟩
    rw [attempts_close]
    exact hgroups
  | exit =>
    rw [hmain] at hs hclosed
    obtain ⟨rfl, rfl⟩ := Prod.mk.inj (Option.some.inj hs)
    exact ⟨hsound.congr rfl rfl, hrunning, hgroups, fun _ hr => (by cases hr),
      fun hw => (by cases hw), hclosed, fun hr => (by cases hr), fun _ => rfl, hperiod⟩
  | returned =>
    rw [hmain] at hs
    cases hs
  | dead =>
    rw [hmain] at hs
    cases hs

theorem Setup.topics_ne (m : Setup) : m.feed.topic ≠ m.groupTopic ∧ m.tickTopic ≠ m.groupTopic ∧
    tradeResponseTopic m.serverName ≠ m.groupTopic :=
  ⟨topic_ne _ (by decide), topic_ne _ (by decide), topic_ne _ (by decide)⟩

/-- What happens outside keeps the invariants. -/
theorem Program.Ordered.outside (h : s.Ordered m) (hs : Outside s s') : s'.Ordered m := by
  obtain ⟨hsound, hrunning, hgroups, hrest, hwaits, hclosed, hlast, hdead, hperiod⟩ := h
  cases hs with
  | clock _ =>
    exact ⟨hsound.congr rfl rfl, hrunning, hgroups, hrest, hwaits, hclosed, hlast, hdead, hperiod⟩
  | interrupt =>
    exact ⟨hsound.congr rfl rfl, hrunning, hgroups, hrest, fun hw => ⟨(hwaits hw).1, rfl⟩, hclosed,
      hlast, hdead, hperiod⟩

/-- **Every step keeps the invariants.** -/
theorem Program.Ordered.step (h : s.Ordered m) (hs : m.Step s s') : s'.Ordered m := by
  obtain ⟨hcandles, hticks, htrades⟩ := m.topics_ne
  have hrunning := h.running
  rcases hs with hout | hrun
  · exact h.outside hout
  · cases hrun with
    | main _ _ hs => exact h.main hs
    | candles _ hc hs =>
      obtain ⟨hone, he⟩ := candles_effect hs
      have hpos : 0 < s.shared.running := by omega
      have := he.count hpos
      exact h.effect hc hpos (he.kept hcandles) (by omega) (candles_period hs h.period)
    | ticks _ hc hs =>
      obtain ⟨hone, he⟩ := ticks_effect hs
      have hpos : 0 < s.shared.running := by omega
      have := he.count hpos
      exact h.effect hc hpos (he.kept hticks) (by omega) h.period
    | trades _ hc hs =>
      obtain ⟨hone, he⟩ := trades_effect hs
      have hpos : 0 < s.shared.running := by omega
      have := he.count hpos
      exact h.effect hc hpos (he.kept htrades) (by omega) h.period

theorem Program.Ordered.reach (h : s.Ordered m) (hr : m.Reach s s') : s'.Ordered m := by
  induction hr with
  | refl => exact h
  | tail _ hs ih => exact ih.step hs

/-! ## Nothing gets through after `nc.Close` -/

/-- What holds of the calls on the connection. -/
structure ClosesLast (m : Setup) (s : Program) : Prop where
  groups : s.shared.attempts m.groupTopic <+: m.groupSymbols
  once : ∀ before after, s.shared.events = before ++ .close :: after →
    .close ∉ before ∧ ∀ e ∈ after, e.failed = true
  returned : s.main = .returned →
    (∃ before, s.shared.events = before ++ [.close]) ∧
      s.shared.attempts m.groupTopic = m.groupSymbols ∧
      s.candles = .returned ∧ s.ticks = .returned ∧ s.trades = .returned

theorem CandlesPc.running_eq_zero {pc : CandlesPc} (h : pc.running = 0) : pc = .returned := by
  cases pc <;> first | rfl | cases h

theorem TicksPc.running_eq_zero {pc : TicksPc} (h : pc.running = 0) : pc = .returned := by
  cases pc <;> first | rfl | cases h

theorem TradesPc.running_eq_zero {pc : TradesPc} (h : pc.running = 0) : pc = .returned := by
  cases pc <;> first | rfl | cases h

theorem Program.Ordered.allReturned (h : s.Ordered m) (hzero : s.shared.running = 0) :
    s.candles = .returned ∧ s.ticks = .returned ∧ s.trades = .returned := by
  have := h.running
  exact ⟨CandlesPc.running_eq_zero (by omega), TicksPc.running_eq_zero (by omega),
    TradesPc.running_eq_zero (by omega)⟩

/-- The first `nc.Close` splits the calls in one way. -/
theorem Process.Sound.once_split (h : p.Sound) {before after : List Event}
    (hevents : p.events = before ++ .close :: after) :
    .close ∉ before ∧ ∀ e ∈ after, e.failed = true := by
  have hclose : .close ∈ p.events := by
    rw [hevents]
    exact List.mem_append.mpr (Or.inr List.mem_cons_self)
  have hclosed : p.closed = true := Bool.of_not_eq_false fun hc => h.opened hc hclose
  obtain ⟨first, rest, hfirst, hnot, hfailed⟩ := h.once hclosed
  rw [hevents] at hfirst
  rcases List.append_eq_append_iff.mp hfirst with ⟨mid, hsplit, htail⟩ | ⟨mid, hsplit, htail⟩
  · cases mid with
    | nil =>
      rw [List.append_nil] at hsplit
      rw [List.nil_append] at htail
      obtain ⟨-, rfl⟩ := List.cons.inj htail
      exact ⟨hsplit ▸ hnot, hfailed⟩
    | cons e mid =>
      obtain ⟨rfl, -⟩ := List.cons.inj htail
      refine absurd ?_ hnot
      rw [hsplit]
      exact List.mem_append.mpr (Or.inr List.mem_cons_self)
  · cases mid with
    | nil =>
      rw [List.append_nil] at hsplit
      rw [List.nil_append] at htail
      obtain ⟨-, rfl⟩ := List.cons.inj htail
      exact ⟨hsplit ▸ hnot, hfailed⟩
    | cons e mid =>
      obtain ⟨rfl, hrest⟩ := List.cons.inj htail
      -- a second `nc.Close` would be a call that failed
      have hmem : .close ∈ rest := by
        rw [hrest]
        exact List.mem_append.mpr (Or.inr List.mem_cons_self)
      cases hfailed .close hmem

/-- **The connection is closed once, and nothing gets through behind it**, in every state a run of
the mock reaches, a panic of `main` included. When `main` has returned it was the last call, every
goroutine has returned, and the group symbols have been published, each configured pair once and in
order. -/
theorem closes_last {clock : Int} (hr : m.Reach (m.start clock) s) : ClosesLast m s := by
  have h : s.Ordered m := (Program.Ordered.start m clock).reach hr
  refine ⟨h.groups, fun before after => h.sound.once_split, fun hmain => ⟨h.last hmain, ?_, ?_⟩⟩
  · have hrest : s.main.rest? = some [] := by rw [hmain]; rfl
    have hall := h.rest [] hrest
    rwa [List.append_nil] at hall
  · have hwaited : s.main.waited = true := by rw [hmain]; rfl
    exact h.allReturned (h.waits hwaited).1

/-- One group and one symbol. -/
def demoSetup : Setup := ⟨bytes "srv", [bytes "EURUSD"], [bytes "demo"], fun _ => 0, fun _ => none⟩

/-- The answers to a goroutine that is to end. -/
def quiet : Answer := ⟨.ok, none, none, .timeout, .last 9, 0⟩

/-- The mock is interrupted as it starts. -/
def interrupted : Program :=
  { demoSetup.start startMinute with
    shared := { (demoSetup.start startMinute).shared with cancelled := true } }

theorem interrupted_reach : demoSetup.Reach (demoSetup.start startMinute) interrupted :=
  Relation.ReflTransGen.single (Or.inl Outside.interrupt)

/-- One goroutine after the other to its end, and `main`. -/
def toTheEnd : List Goroutine :=
  [.ticks, .ticks, .trades, .trades] ++ List.replicate 10 .candles ++ List.replicate 4 .main

/-- The interrupted mock ends: it has published two candles and its one group symbol. -/
theorem closes_last_interrupted : ∃ s, s.main = .returned ∧ s.shared.events.length = 4 ∧
    ClosesLast demoSetup s := by
  have hrun : ∃ s, demoSetup.turns quiet interrupted toTheEnd = some s ∧ s.main = .returned ∧
      s.shared.events.length = 4 := ⟨_, rfl, rfl, rfl⟩
  obtain ⟨s, hs, hmain, hlength⟩ := hrun
  exact ⟨s, hmain, hlength, closes_last (interrupted_reach.trans (Setup.turns_reach hs))⟩

end TradeBridge.Mock
