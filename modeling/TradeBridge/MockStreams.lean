import TradeBridge.MockProcess

/-!
# What the running mock publishes

`CandleStream`, `Timeframes` and `TradeAnswers` follow one goroutine at a time. Here all of the mock
runs, in any interleaving: what it publishes on a topic is that of the goroutine of the topic.

Results:
* `step_candles`, `step_ticks`, `step_trades`: a step is of the goroutine or leaves its topic alone.
* **`answers_refine_loop`**: the responses are those of `tradeLoop` to what has been received.
* **`candle_minutes_increase`**: the candles come in batches, with minutes that increase.
* **`tick_seconds_increase`**: the ticks are of configured symbols, with seconds that increase.
-/

namespace TradeBridge.Mock

open TradeBridge.Lib

variable {m : Setup} {p p' : Process} {x : Answer} {s s' s₀ : Program}

/-! ## Steps beside a goroutine -/

/-- Time has passed, and nothing has been published on the topic. -/
structure Process.Beside (topic : Bytes) (p p' : Process) : Prop where
  attempts : p'.attempts topic = p.attempts topic
  clock : p.clock ≤ p'.clock
  events : p.events <+: p'.events
  alive : p'.crashed = false → p.crashed = false

theorem Effect.beside {topic other : Bytes} {k : Nat} (he : Effect topic p p' k)
    (hc : p.crashed = false) (h : topic ≠ other) : p.Beside other p' := by
  cases he with
  | inside => exact ⟨rfl, Int.le_refl _, List.prefix_rfl, fun _ => hc⟩
  | publish a data =>
    refine ⟨?_, Int.le_refl _, List.prefix_append _ _, fun _ => hc⟩
    show (p.publish a topic data).attempts _ = _
    rw [attempts_publish, if_neg h, List.append_nil]
  | panic => exact ⟨rfl, Int.le_refl _, List.prefix_rfl, fun _ => hc⟩
  | finish e => cases e <;> exact ⟨rfl, Int.le_refl _, List.prefix_rfl, fun _ => hc⟩

theorem main_beside {pc pc' : MainPc} {other : Bytes} (h : m.main p x pc = some (p', pc'))
    (hc : p.crashed = false) (htopic : m.groupTopic ≠ other) : p.Beside other p' := by
  cases pc with
  | groups rest =>
    cases rest with
    | nil =>
      obtain ⟨rfl, -⟩ := Prod.mk.inj (Option.some.inj h)
      exact ⟨rfl, Int.le_refl _, List.prefix_rfl, fun _ => hc⟩
    | cons data rest =>
      obtain ⟨rfl, -⟩ := Prod.mk.inj (Option.some.inj h)
      refine ⟨?_, Int.le_refl _, List.prefix_append _ _, fun _ => hc⟩
      rw [attempts_publish, if_neg htopic, List.append_nil]
  | wait =>
    simp only [Setup.main] at h
    split at h
    · obtain ⟨rfl, -⟩ := Prod.mk.inj (Option.some.inj h)
      exact ⟨rfl, Int.le_refl _, List.prefix_rfl, fun _ => hc⟩
    · cases h
  | close | unwind =>
    obtain ⟨rfl, -⟩ := Prod.mk.inj (Option.some.inj h)
    exact ⟨attempts_close other, Int.le_refl _, List.prefix_append _ _, fun _ => hc⟩
  | exit =>
    obtain ⟨rfl, -⟩ := Prod.mk.inj (Option.some.inj h)
    exact ⟨rfl, Int.le_refl _, List.prefix_rfl, fun _ => hc⟩
  | returned | dead => cases h

theorem Outside.beside (h : Outside s s') (topic : Bytes) :
    s.shared.Beside topic s'.shared ∧ s'.candles = s.candles ∧ s'.ticks = s.ticks ∧
      s'.trades = s.trades := by
  cases h with
  | clock h => exact ⟨⟨rfl, h, List.prefix_rfl, id⟩, rfl, rfl, rfl⟩
  | interrupt => exact ⟨⟨rfl, Int.le_refl _, List.prefix_rfl, id⟩, rfl, rfl, rfl⟩

/-- **A step is of `candlesGenerator` or beside it.** -/
theorem step_candles (h : m.Step s s') :
    (∃ x p' pc', s.shared.crashed = false ∧ m.candles s.shared x s.candles = some (p', pc') ∧
        s' = { s with shared := p', candles := pc' }) ∨
      (s.shared.Beside m.feed.topic s'.shared ∧ s'.candles = s.candles) := by
  rcases h with hout | hrun
  · obtain ⟨hb, hpc, -⟩ := hout.beside m.feed.topic
    exact Or.inr ⟨hb, hpc⟩
  · cases hrun with
    | main _ hc hs => exact Or.inr ⟨main_beside hs hc (topic_ne _ (by decide)), rfl⟩
    | candles _ hc hs => exact Or.inl ⟨_, _, _, hc, hs, rfl⟩
    | ticks _ hc hs => exact Or.inr ⟨(ticks_effect hs).2.beside hc (topic_ne _ (by decide)), rfl⟩
    | trades _ hc hs => exact Or.inr ⟨(trades_effect hs).2.beside hc (topic_ne _ (by decide)), rfl⟩

/-- **A step is of the goroutine of the ticks or beside it.** -/
theorem step_ticks (h : m.Step s s') :
    (∃ x p' pc', s.shared.crashed = false ∧ m.ticks s.shared x s.ticks = some (p', pc') ∧
        s' = { s with shared := p', ticks := pc' }) ∨
      (s.shared.Beside m.tickTopic s'.shared ∧ s'.ticks = s.ticks) := by
  rcases h with hout | hrun
  · obtain ⟨hb, -, hpc, -⟩ := hout.beside m.tickTopic
    exact Or.inr ⟨hb, hpc⟩
  · cases hrun with
    | main _ hc hs => exact Or.inr ⟨main_beside hs hc (topic_ne _ (by decide)), rfl⟩
    | candles _ hc hs =>
      exact Or.inr ⟨(candles_effect hs).2.beside hc (topic_ne _ (by decide)), rfl⟩
    | ticks _ hc hs => exact Or.inl ⟨_, _, _, hc, hs, rfl⟩
    | trades _ hc hs => exact Or.inr ⟨(trades_effect hs).2.beside hc (topic_ne _ (by decide)), rfl⟩

/-- **A step is of the trade loop or beside it.** -/
theorem step_trades (h : m.Step s s') :
    (∃ x p' pc', s.shared.crashed = false ∧ m.trades s.shared x s.trades = some (p', pc') ∧
        s' = { s with shared := p', trades := pc' }) ∨
      (s.shared.Beside (tradeResponseTopic m.serverName) s'.shared ∧ s'.trades = s.trades) := by
  rcases h with hout | hrun
  · obtain ⟨hb, -, -, hpc⟩ := hout.beside (tradeResponseTopic m.serverName)
    exact Or.inr ⟨hb, hpc⟩
  · cases hrun with
    | main _ hc hs => exact Or.inr ⟨main_beside hs hc (topic_ne _ (by decide)), rfl⟩
    | candles _ hc hs =>
      exact Or.inr ⟨(candles_effect hs).2.beside hc (topic_ne _ (by decide)), rfl⟩
    | ticks _ hc hs => exact Or.inr ⟨(ticks_effect hs).2.beside hc (topic_ne _ (by decide)), rfl⟩
    | trades _ hc hs => exact Or.inl ⟨_, _, _, hc, hs, rfl⟩

/-! ## The answers -/

/-- The runs from `s₀`, with what the trade loop has received and drawn on the way. -/
inductive Setup.Hears (m : Setup) (s₀ : Program) : List (Received × Fin 10) → Program → Prop
  | start : Hears m s₀ [] s₀
  | step {heard : List (Received × Fin 10)} {s s' : Program} (h : Hears m s₀ heard s)
      (hs : m.Step s s') (silent : ∀ orderID, s.trades = .next orderID → s'.trades = s.trades) :
      Hears m s₀ heard s'
  | receive {heard : List (Received × Fin 10)} {s : Program} {x : Answer} {p' : Process}
      {pc' : TradesPc} {orderID : Int} (h : Hears m s₀ heard s)
      (place : s.trades = .next orderID) (hc : s.shared.crashed = false)
      (hs : m.trades s.shared x (.next orderID) = some (p', pc')) :
      Hears m s₀ (heard ++ [(x.received, x.drawn)]) { s with shared := p', trades := pc' }

/-- Every run is one of these. -/
theorem Setup.Reach.hears (h : m.Reach s₀ s) : ∃ heard, m.Hears s₀ heard s := by
  induction h with
  | refl => exact ⟨[], .start⟩
  | @tail s s' _ hs ih =>
    obtain ⟨heard, ih⟩ := ih
    by_cases hnext : ∃ orderID, s.trades = .next orderID
    · obtain ⟨orderID, hpc⟩ := hnext
      rcases hs with hout | hrun
      · exact ⟨heard, ih.step (Or.inl hout) fun _ _ => (hout.beside []).2.2.2⟩
      · cases hrun with
        | trades _ hc hrun =>
          rw [hpc] at hrun
          exact ⟨_, ih.receive hpc hc hrun⟩
        | main hx hc hrun => exact ⟨heard, ih.step (Or.inr (.main hx hc hrun)) fun _ _ => rfl⟩
        | candles hx hc hrun =>
          exact ⟨heard, ih.step (Or.inr (.candles hx hc hrun)) fun _ _ => rfl⟩
        | ticks hx hc hrun => exact ⟨heard, ih.step (Or.inr (.ticks hx hc hrun)) fun _ _ => rfl⟩
    · exact ⟨heard, ih.step hs fun orderID hpc => absurd ⟨orderID, hpc⟩ hnext⟩

/-- What is drawn for a message. -/
def drawnFor : Received × Fin 10 → Option (Fin 10)
  | (.msg _, drawn) => some drawn
  | _ => none

/-- `rand.Intn(10)` has returned what was drawn for the messages. -/
def Draws (heard : List (Received × Fin 10)) (intn : Nat → Fin 10) : Prop :=
  ∀ i d, (heard.filterMap drawnFor)[i]? = some d → intn i = d

/-- `tradeLoop` over what has been received. -/
def Setup.tradeLoop (m : Setup) (heard : List (Received × Fin 10)) (intn : Nat → Fin 10) :
    TradeLoop :=
  TradeServer.tradeLoop ⟨m.serverName, m.parse, intn⟩ .start (heard.map Prod.fst)

/-- The response that is about to be published. -/
def TradesPc.pending : TradesPc → List Json
  | .publish _ data => [data]
  | _ => []

/-- `orderID`, until the loop has returned. -/
def TradesPc.orderID? : TradesPc → Option Int
  | .subscribe => some 0
  | .loop orderID | .next orderID | .publish orderID _ => some orderID
  | .returned => none

/-- The goroutine stands where `tradeLoop` does. -/
structure Follows (m : Setup) (heard : List (Received × Fin 10)) (intn : Nat → Fin 10) (p : Process)
    (pc : TradesPc) : Prop where
  answers : p.attempts (tradeResponseTopic m.serverName) ++ pc.pending =
    (m.tradeLoop heard intn).responses.map TradeResponse.marshal
  counts : ∀ orderID, pc.orderID? = some orderID → (m.tradeLoop heard intn).orderID = orderID ∧
    (m.tradeLoop heard intn).drawn = (heard.filterMap drawnFor).length ∧
      (m.tradeLoop heard intn).returned = none

theorem tradeLoop_concat {t : TradeServer} (r : Received) : ∀ {received : List Received}
    {l : TradeLoop}, (t.tradeLoop l received).returned = none →
      t.tradeLoop l (received ++ [r]) = t.tradeLoop (t.tradeLoop l received) [r]
  | [], _, _ => rfl
  | .timeout :: received, l, h => @tradeLoop_concat t r received l h
  | .failure _ :: _, _, h => by cases h
  | .msg data :: received, l, h => tradeLoop_concat (l := t.onMsg l data) r h

variable {heard : List (Received × Fin 10)} {intn : Nat → Fin 10}

/-- A step behind which nothing new has been received. -/
theorem Follows.trades {pc pc' : TradesPc} (h : Follows m heard intn p pc)
    (hs : m.trades p x pc = some (p', pc')) (hnext : ∀ orderID, pc ≠ .next orderID) :
    Follows m heard intn p' pc' := by
  obtain ⟨hanswers, hcounts⟩ := h
  cases pc with
  | subscribe =>
    simp only [Setup.trades] at hs
    split at hs <;> obtain ⟨rfl, rfl⟩ := Prod.mk.inj (Option.some.inj hs)
    · exact ⟨hanswers, fun _ h => (by cases h)⟩
    · exact ⟨hanswers, hcounts⟩
  | loop orderID =>
    simp only [Setup.trades] at hs
    split at hs <;> obtain ⟨rfl, rfl⟩ := Prod.mk.inj (Option.some.inj hs)
    · exact ⟨hanswers, fun _ h => (by cases h)⟩
    · exact ⟨hanswers, hcounts⟩
  | next orderID => exact absurd rfl (hnext orderID)
  | publish orderID data =>
    obtain ⟨rfl, rfl⟩ := Prod.mk.inj (Option.some.inj hs)
    refine ⟨?_, hcounts⟩
    show (p.publish _ _ data).attempts _ ++ [] = _
    rw [attempts_publish, if_pos rfl, List.append_nil]
    exact hanswers
  | returned => cases hs

/-- **What is received is handled as `tradeLoop` does.** -/
theorem Follows.receive {pc' : TradesPc} {orderID : Int}
    (h : Follows m heard intn p (.next orderID))
    (hs : m.trades p x (.next orderID) = some (p', pc'))
    (hdraws : Draws (heard ++ [(x.received, x.drawn)]) intn) :
    Follows m (heard ++ [(x.received, x.drawn)]) intn p' pc' := by
  obtain ⟨hanswers, hcounts⟩ := h
  obtain ⟨horder, hdrawn, hreturned⟩ := hcounts orderID rfl
  have hloop : m.tradeLoop (heard ++ [(x.received, x.drawn)]) intn =
      TradeServer.tradeLoop ⟨m.serverName, m.parse, intn⟩ (m.tradeLoop heard intn)
        [x.received] := by
    unfold Setup.tradeLoop
    rw [List.map_append]
    exact tradeLoop_concat x.received hreturned
  have hpending : p.attempts (tradeResponseTopic m.serverName) =
      (m.tradeLoop heard intn).responses.map TradeResponse.marshal := by
    rw [← hanswers]
    exact (List.append_nil _).symm
  cases hr : x.received with
  | timeout =>
    simp only [Setup.trades, hr] at hs
    obtain ⟨rfl, rfl⟩ := Prod.mk.inj (Option.some.inj hs)
    rw [hr] at hloop
    refine ⟨?_, fun orderID' ho => ?_⟩
    · rw [hloop]
      exact hanswers
    · obtain rfl := Option.some.inj ho
      rw [hloop, List.filterMap_append, List.length_append]
      exact ⟨horder, hdrawn, hreturned⟩
  | failure e =>
    simp only [Setup.trades, hr] at hs
    obtain ⟨rfl, rfl⟩ := Prod.mk.inj (Option.some.inj hs)
    rw [hr] at hloop
    refine ⟨?_, fun _ ho => (by cases ho)⟩
    rw [hloop]
    cases e <;> exact (List.append_nil _).trans hpending
  | msg data =>
    simp only [Setup.trades, hr] at hs
    obtain ⟨rfl, rfl⟩ := Prod.mk.inj (Option.some.inj hs)
    rw [hr] at hloop hdraws
    have hintn : intn (heard.filterMap drawnFor).length = x.drawn := by
      refine hdraws _ _ ?_
      rw [List.filterMap_append, List.getElem?_append_right (Nat.le_refl _), Nat.sub_self]
      rfl
    refine ⟨?_, fun orderID' ho => ?_⟩
    · rw [hloop, hpending]
      show _ = (((m.tradeLoop heard intn).published ++ [_]).map Prod.snd).map TradeResponse.marshal
      rw [List.map_append, List.map_append]
      show _ = _ ++ [(respond _ (increment (m.tradeLoop heard intn).orderID)
        (intn (m.tradeLoop heard intn).drawn)).marshal]
      rw [horder, hdrawn, hintn]
      rfl
    · obtain rfl := Option.some.inj ho
      rw [hloop, List.filterMap_append, List.length_append]
      refine ⟨?_, ?_, hreturned⟩
      · show increment (m.tradeLoop heard intn).orderID = _
        rw [horder]
      · show (m.tradeLoop heard intn).drawn + 1 = _
        rw [hdrawn]
        rfl

/-- **The responses are those of `tradeLoop`** to what has been received, in every state of the
running mock, but for the one about to be published. -/
theorem answers_refine_loop {clock : Int} (h : m.Hears (m.start clock) heard s)
    (hdraws : Draws heard intn) :
    s.shared.attempts (tradeResponseTopic m.serverName) ++ s.trades.pending =
      (m.tradeLoop heard intn).responses.map TradeResponse.marshal := by
  have hfollows : Follows m heard intn s.shared s.trades := by
    induction h with
    | start =>
      refine ⟨rfl, fun orderID ho => ?_⟩
      obtain rfl := Option.some.inj ho
      exact ⟨rfl, rfl, rfl⟩
    | @step heard s s' h hs silent ih =>
      have ih := ih hdraws
      rcases step_trades hs with ⟨x, p', pc', -, hrun, rfl⟩ | ⟨hb, hpc⟩
      · by_cases hnext : ∃ orderID, s.trades = .next orderID
        · -- a step of the goroutine does not leave it where it stands
          obtain ⟨orderID, hplace⟩ := hnext
          have hsame : pc' = .next orderID := (silent orderID hplace).trans hplace
          rw [hplace] at hrun
          simp only [Setup.trades] at hrun
          split at hrun <;> obtain ⟨-, rfl⟩ := Prod.mk.inj (Option.some.inj hrun) <;> cases hsame
        · exact ih.trades hrun fun orderID hpc => hnext ⟨orderID, hpc⟩
      · rw [hpc]
        refine ⟨?_, ih.counts⟩
        rw [hb.attempts]
        exact ih.answers
    | @receive heard s x p' pc' orderID h hplace hc hs ih =>
      have hbefore : Draws heard intn := by
        intro i d hi
        refine hdraws i d ?_
        rw [List.filterMap_append, List.getElem?_append_left (List.getElem?_eq_some_iff.mp hi).1]
        exact hi
      have ih := ih hbefore
      rw [hplace] at ih
      exact ih.receive hs hdraws
  exact hfollows.answers

/-- What the trade loop is answered when a request comes. -/
def asked : Answer := { quiet with received := .msg (bytes "request") }

/-- The mock is about to answer its first request. -/
theorem answers_refine_loop_first : ∃ s : Program, s.trades.pending.length = 1 ∧
    s.shared.attempts (tradeResponseTopic demoSetup.serverName) ++ s.trades.pending =
      (demoSetup.tradeLoop [(asked.received, asked.drawn)] fun _ => asked.drawn).responses.map
        TradeResponse.marshal := by
  have hstart : demoSetup.Hears (demoSetup.start startMinute) [] (demoSetup.start startMinute) :=
    .start
  have hsubscribed := hstart.step (Or.inr (.trades (x := quiet) trivial rfl rfl))
    fun _ h => by cases h
  have hlooping := hsubscribed.step (Or.inr (.trades (x := quiet) trivial rfl rfl))
    fun _ h => by cases h
  have hheard := hlooping.receive (x := asked) rfl rfl rfl
  refine ⟨_, rfl, answers_refine_loop hheard fun i d hi => ?_⟩
  exact List.mem_singleton.mp (List.mem_of_getElem? hi) ▸ rfl

/-! ## The ticks -/

/-- The timestamp of the tick that is about to be published. -/
def TicksPc.stamp : TicksPc → List Int
  | .publish ts => [ts]
  | _ => []

/-- What the goroutine has published: the ticks of these timestamps and symbols. -/
structure TicksOf (m : Setup) (p : Process) (pc : TicksPc) (sent : List (Int × Bytes)) : Prop where
  attempts : p.attempts m.tickTopic = sent.map fun t => m.tick t.2 t.1
  symbols : ∀ t ∈ sent, t.2 ∈ m.symbolList
  stamped : Go.Stamped (10 ^ 9) p.clock (sent.map Prod.fst ++ pc.stamp)
  waits : ∀ toTime, pc = .select toTime → Go.Deadline (10 ^ 9) (sent.map Prod.fst) toTime

/-- **A step of the goroutine** publishes the tick of a new second, or nothing. -/
theorem TicksOf.step {pc pc' : TicksPc} {sent : List (Int × Bytes)} (h : TicksOf m p pc sent)
    (hs : m.ticks p x pc = some (p', pc')) : ∃ sent', TicksOf m p' pc' sent' := by
  obtain ⟨hattempts, hsymbols, hstamped, hwaits⟩ := h
  have hsecond : (0 : Int) < 10 ^ 9 := by decide
  cases pc with
  | arm =>
    obtain ⟨rfl, rfl⟩ := Prod.mk.inj (Option.some.inj hs)
    refine ⟨sent, hattempts, hsymbols, hstamped, fun toTime heq => ?_⟩
    obtain rfl := TicksPc.select.inj heq
    have hdl : Go.Deadline (10 ^ 9) (sent.map Prod.fst ++ []) _ := hstamped.deadline hsecond
    rwa [List.append_nil] at hdl
  | select toTime =>
    have hwhole : Go.Stamped (10 ^ 9) p.clock (sent.map Prod.fst ++ []) := hstamped
    rw [List.append_nil] at hwhole
    simp only [Setup.ticks] at hs
    split at hs
    · rename_i ts _
      split at hs
      · rename_i hin
        obtain ⟨rfl, rfl⟩ := Prod.mk.inj (Option.some.inj hs)
        exact ⟨sent, hattempts, hsymbols, hwhole.concat hsecond (hwaits toTime rfl) hin.1 hin.2,
          fun _ heq => by cases heq⟩
      · cases hs
    · split at hs
      · obtain ⟨rfl, rfl⟩ := Prod.mk.inj (Option.some.inj hs)
        exact ⟨sent, hattempts, hsymbols, hstamped, fun _ heq => by cases heq⟩
      · cases hs
  | publish ts =>
    simp only [Setup.ticks] at hs
    split at hs
    · obtain ⟨rfl, rfl⟩ := Prod.mk.inj (Option.some.inj hs)
      refine ⟨sent, hattempts, hsymbols, ?_, fun _ heq => by cases heq⟩
      show Go.Stamped _ _ (sent.map Prod.fst ++ [])
      rw [List.append_nil]
      exact hstamped.of_append
    · rename_i symbol hsymbol
      obtain ⟨rfl, rfl⟩ := Prod.mk.inj (Option.some.inj hs)
      refine ⟨sent ++ [(ts, symbol)], ?_, fun t ht => ?_, ?_, fun _ heq => by cases heq⟩
      · show (p.publish _ _ _).attempts _ = _
        rw [attempts_publish, if_pos rfl, hattempts, List.map_append]
        rfl
      · rcases List.mem_append.mp ht with ht | ht
        · exact hsymbols t ht
        · rw [List.mem_singleton.mp ht]
          exact List.mem_of_getElem? hsymbol
      · show Go.Stamped _ _ ((sent ++ [(ts, symbol)]).map Prod.fst ++ [])
        rw [List.append_nil, List.map_append]
        exact hstamped
  | returned => cases hs

theorem TicksOf.beside {pc : TicksPc} {sent : List (Int × Bytes)} (h : TicksOf m p pc sent)
    (hb : p.Beside m.tickTopic p') : TicksOf m p' pc sent :=
  ⟨hb.attempts.trans h.attempts, h.symbols, h.stamped.mono hb.clock, h.waits⟩

/-- Ticks of configured symbols in later and later seconds. -/
structure SecondTicks (m : Setup) (p : Process) (sent : List (Int × Bytes)) : Prop where
  attempts : p.attempts m.tickTopic = sent.map fun t => m.tick t.2 t.1
  symbols : ∀ t ∈ sent, t.2 ∈ m.symbolList ∧ t.1 ≤ p.clock
  increasing : (sent.map fun t => Go.truncate t.1 (10 ^ 9)).Pairwise (· < ·)

/-- **The ticks of the running mock are of configured symbols, at most one in a second**, and the
seconds increase. -/
theorem tick_seconds_increase {clock : Int} (hr : m.Reach (m.start clock) s) :
    ∃ sent, SecondTicks m s.shared sent := by
  have hsent : ∃ sent, TicksOf m s.shared s.ticks sent := by
    induction hr with
    | refl =>
      exact ⟨[], rfl, fun _ h => absurd h List.not_mem_nil, Go.Stamped.nil _ _,
        fun _ h => by cases h⟩
    | tail _ hs ih =>
      obtain ⟨sent, ih⟩ := ih
      rcases step_ticks hs with ⟨x, p', pc', -, hrun, rfl⟩ | ⟨hb, hpc⟩
      · exact ih.step hrun
      · rw [hpc]
        exact ⟨sent, ih.beside hb⟩
  obtain ⟨sent, h⟩ := hsent
  have hstamped := h.stamped.of_append
  have hincreasing := hstamped.increasing
  rw [List.map_map] at hincreasing
  exact ⟨sent, h.attempts,
    fun t ht => ⟨h.symbols t ht, hstamped.passed _ (List.mem_map_of_mem ht)⟩, hincreasing⟩

/-- The mock publishes a tick behind its first second. -/
theorem tick_seconds_increase_first : ∃ s : Program,
    (s.shared.attempts demoSetup.tickTopic).length = 1 ∧
      ∃ sent, SecondTicks demoSetup s.shared sent := by
  let second := startMinute + 10 ^ 9
  have harmed : ∃ s, demoSetup.turns quiet (demoSetup.start startMinute) [.ticks] = some s ∧
      s.shared.clock = startMinute ∧ ∃ s',
        demoSetup.turns { quiet with timer := some second }
            { s with shared := { s.shared with clock := second } } [.ticks, .ticks] = some s' ∧
          (s'.shared.attempts demoSetup.tickTopic).length = 1 := ⟨_, rfl, rfl, _, rfl, rfl⟩
  obtain ⟨s, hs, hclock, s', hs', hlength⟩ := harmed
  have hle : s.shared.clock ≤ second := by
    rw [hclock]
    exact Int.le_add_of_nonneg_right (by decide)
  exact ⟨s', hlength, tick_seconds_increase
    (((Setup.turns_reach hs).tail (Or.inl (.clock hle))).trans (Setup.turns_reach hs'))⟩

/-! ## The candles -/

/-- No publish has returned `context.Canceled`. -/
def Process.NoneStopped (p : Process) : Prop :=
  ∀ topic data, .publish topic data .canceled ∉ p.events

/-- The candles of the batch that are still to be published. -/
def CandlesPc.rest : CandlesPc → List Json
  | .publish rest _ => rest
  | _ => []

/-- The first loop stands behind all batches, with an end that has passed. -/
structure TimeframeGenerator.Within (g : TimeframeGenerator) (clock : Int) (stamps : List Int) :
    Prop where
  period : g.duration = minute
  first : minute ∣ g.fromTime
  last : minute ∣ g.toTime
  passed : g.toTime ≤ clock
  behind : ∀ ts ∈ stamps, Go.truncate ts minute ≤ g.fromTime

/-- The last batch is under way, with these candles still to come. -/
def Under (m : Setup) (batches : List Batch) (rest : List Json) : Prop :=
  ∃ init b, batches = init ++ [b] ∧ b.candles ++ rest <+: m.feed.generateCandlesBySymbols b.ts

/-- What the batches say about the place of `candlesGenerator`. -/
def CandlesPc.Place (m : Setup) (clock : Int) (batches : List Batch) : CandlesPc → Prop
  | .start => batches = []
  | .frames g => g.Within clock (batches.map Batch.ts)
  | .publish rest g =>
    Under m batches rest ∧ ∀ g', g = some g' → g'.Within clock (batches.map Batch.ts)
  | .select toTime => Go.Deadline minute (batches.map Batch.ts) toTime
  | .arm | .returned => True

/-- What `candlesGenerator` has published. -/
structure BatchesOf (m : Setup) (p : Process) (pc : CandlesPc) (batches : List Batch) : Prop where
  attempts : p.attempts m.feed.topic = batches.flatMap Batch.candles
  parts : ∀ b ∈ batches, b.candles <+: m.feed.generateCandlesBySymbols b.ts
  stamped : Go.Stamped minute p.clock (batches.map Batch.ts)
  place : pc.Place m p.clock batches
  whole : p.NoneStopped → ∀ b ∈ batches.dropLast, b.candles = m.feed.generateCandlesBySymbols b.ts
  last : p.NoneStopped → p.crashed = false → ∀ b, batches.getLast? = some b →
    b.candles ++ pc.rest = m.feed.generateCandlesBySymbols b.ts

variable {batches : List Batch} {clock clock' : Int} {stamps : List Int}

theorem TimeframeGenerator.Within.mono {g : TimeframeGenerator} (h : g.Within clock stamps)
    (hle : clock ≤ clock') : g.Within clock' stamps :=
  ⟨h.period, h.first, h.last, Int.le_trans h.passed hle, h.behind⟩

theorem CandlesPc.Place.mono {pc : CandlesPc} (h : pc.Place m clock batches)
    (hle : clock ≤ clock') : pc.Place m clock' batches := by
  cases pc with
  | frames g => exact TimeframeGenerator.Within.mono h hle
  | publish rest g => exact ⟨h.1, fun g' hg' => (h.2 g' hg').mono hle⟩
  | _ => exact h

theorem BatchesOf.beside {pc : CandlesPc} (h : BatchesOf m p pc batches)
    (hb : p.Beside m.feed.topic p') : BatchesOf m p' pc batches := by
  have hstopped : p'.NoneStopped → p.NoneStopped := fun hn topic data hmem =>
    hn topic data (hb.events.subset hmem)
  exact ⟨hb.attempts.trans h.attempts, h.parts, h.stamped.mono hb.clock, h.place.mono hb.clock,
    fun hn => h.whole (hstopped hn), fun hn hc => h.last (hstopped hn) (hb.alive hc)⟩

/-- Between two batches all are whole. -/
theorem BatchesOf.allWhole {pc : CandlesPc} (h : BatchesOf m p pc batches)
    (hc : p.crashed = false) (hrest : pc.rest = []) (hn : p.NoneStopped) :
    ∀ b ∈ batches, b.candles = m.feed.generateCandlesBySymbols b.ts := by
  intro b hb
  rcases List.eq_nil_or_concat batches with rfl | ⟨init, last, rfl⟩
  · cases hb
  · rw [List.concat_eq_append] at hb h
    rcases List.mem_append.mp hb with hb | hb
    · exact h.whole hn b (by rwa [List.dropLast_concat])
    · obtain rfl := List.mem_singleton.mp hb
      have := h.last hn hc b List.getLast?_concat
      rwa [hrest, List.append_nil] at this

/-- **A batch is begun** for a timestamp in a later minute. -/
theorem BatchesOf.begin {pc : CandlesPc} {ts : Int} {g : Option TimeframeGenerator}
    (h : BatchesOf m p pc batches) (hc : p.crashed = false) (hrest : pc.rest = [])
    (hstamped : Go.Stamped minute p.clock (batches.map Batch.ts ++ [ts]))
    (hg : ∀ g', g = some g' → g'.Within p.clock (batches.map Batch.ts ++ [ts])) :
    BatchesOf m p (.publish (m.feed.generateCandlesBySymbols ts) g)
      (batches ++ [⟨ts, m.feed.topic, []⟩]) where
  attempts := by
    rw [List.flatMap_append, h.attempts]
    exact (List.append_nil _).symm
  parts b hb := by
    rcases List.mem_append.mp hb with hb | hb
    · exact h.parts b hb
    · rw [List.mem_singleton.mp hb]
      exact List.nil_prefix
  stamped := by
    rw [List.map_append]
    exact hstamped
  place := by
    refine ⟨⟨batches, _, rfl, List.prefix_rfl⟩, fun g' hg' => ?_⟩
    rw [List.map_append]
    exact hg g' hg'
  whole hn b hb := by
    rw [List.dropLast_concat] at hb
    exact h.allWhole hc hrest hn b hb
  last _ _ b hb := by
    rw [List.getLast?_concat] at hb
    obtain rfl := Option.some.inj hb
    rfl

/-- **A candle is published** of the batch under way. -/
theorem BatchesOf.publish {candle : Json} {rest : List Json} {g : Option TimeframeGenerator}
    (h : BatchesOf m p (.publish (candle :: rest) g) batches) (hc : p.crashed = false) :
    ∃ batches', BatchesOf m (p.mustPublish x.published m.feed.topic candle)
      (.publish (if p.answer x.published = .ok then rest else []) g) batches' := by
  obtain ⟨hattempts, hparts, hstamped, ⟨⟨init, b, rfl, hunder⟩, hg⟩, hwhole, hlast⟩ := h
  have hstamps : (init ++ [{ b with candles := b.candles ++ [candle] }]).map Batch.ts =
      (init ++ [b]).map Batch.ts := by
    rw [List.map_append, List.map_append]
    rfl
  have hpart : b.candles ++ [candle] ++ rest <+: m.feed.generateCandlesBySymbols b.ts := by
    rwa [List.append_assoc]
  have hstopped : (p.mustPublish x.published m.feed.topic candle).NoneStopped → p.NoneStopped :=
    fun hn topic data hmem => hn topic data (List.mem_append.mpr (Or.inl hmem))
  refine ⟨init ++ [{ b with candles := b.candles ++ [candle] }], ⟨?_, fun b' hb' => ?_, ?_,
    ⟨⟨init, _, rfl, ?_⟩, ?_⟩, fun hn b' hb' => ?_, fun hn hc' b' hb' => ?_⟩⟩
  · show (p.publish _ _ candle).attempts _ = _
    rw [attempts_publish, if_pos rfl, hattempts, List.flatMap_append, List.flatMap_append,
      List.append_assoc]
    simp only [List.flatMap_cons, List.flatMap_nil, List.append_nil]
  · rcases List.mem_append.mp hb' with hb' | hb'
    · exact hparts b' (List.mem_append.mpr (Or.inl hb'))
    · rw [List.mem_singleton.mp hb']
      exact (List.prefix_append _ rest).trans hpart
  · rw [hstamps]
    exact hstamped
  · show b.candles ++ [candle] ++ _ <+: _
    split
    · exact hpart
    · rw [List.append_nil]
      exact (List.prefix_append _ rest).trans hpart
  · rw [hstamps]
    exact hg
  · rw [List.dropLast_concat] at hb'
    exact hwhole (hstopped hn) b' (by rwa [List.dropLast_concat])
  · rw [List.getLast?_concat] at hb'
    obtain rfl := Option.some.inj hb'
    have hbefore : b.candles ++ candle :: rest = m.feed.generateCandlesBySymbols b.ts :=
      hlast (hstopped hn) hc b List.getLast?_concat
    have hok : p.answer x.published = .ok := by
      cases ha : p.answer x.published with
      | ok => rfl
      | canceled =>
        refine absurd (List.mem_append.mpr (Or.inr (List.mem_singleton.mpr ?_)))
          (hn m.feed.topic candle)
        rw [ha]
      | failed => exact absurd ha (of_decide_eq_false hc')
    show b.candles ++ [candle] ++ (if p.answer x.published = .ok then rest else []) =
      m.feed.generateCandlesBySymbols b.ts
    rw [if_pos hok, ← hbefore]
    exact (List.append_cons _ _ _).symm

/-- The next frame of the first loop. -/
theorem TimeframeGenerator.Within.next {g : TimeframeGenerator} (h : g.Within clock stamps)
    (hlt : g.fromTime < g.toTime) (hstamped : Go.Stamped minute clock stamps) :
    Go.Stamped minute clock (stamps ++ [g.fromTime + g.duration]) ∧
      TimeframeGenerator.Within { g with fromTime := g.fromTime + g.duration } clock
        (stamps ++ [g.fromTime + g.duration]) := by
  obtain ⟨fromTime, toTime, duration⟩ := g
  obtain ⟨hperiod, hfirst, hlast, hpassed, hbehind⟩ := h
  obtain rfl : duration = minute := hperiod
  have hnext : minute ∣ fromTime + minute := Int.dvd_add hfirst (Int.dvd_refl minute)
  have hle : fromTime + minute ≤ toTime := Go.add_le_of_dvd hfirst hlast hlt
  have hdl : Go.Deadline minute stamps (fromTime + minute) :=
    ⟨hnext, fun ts hts =>
      Int.lt_of_le_of_lt (hbehind ts hts) (Int.lt_add_of_pos_right fromTime minute_pos)⟩
  refine ⟨hstamped.concat minute_pos hdl (Int.le_refl _) (Int.le_trans hle hpassed),
    ⟨rfl, hnext, hlast, hpassed, fun ts hts => ?_⟩⟩
  rcases List.mem_append.mp hts with hts | hts
  · exact Int.le_of_lt (hdl.behind ts hts)
  · rw [List.mem_singleton.mp hts]
    exact Go.truncate_le minute_pos _

/-- **A step of the goroutine** begins a batch, publishes a candle of the last one, or nothing. -/
theorem BatchesOf.step {pc pc' : CandlesPc} (h : BatchesOf m p pc batches)
    (hc : p.crashed = false) (hs : m.candles p x pc = some (p', pc')) :
    ∃ batches', BatchesOf m p' pc' batches' := by
  cases pc with
  | start =>
    obtain ⟨rfl, rfl⟩ := Prod.mk.inj (Option.some.inj hs)
    obtain rfl : batches = [] := h.place
    refine ⟨[], h.attempts, h.parts, h.stamped, ⟨rfl, ?_, ?_, ?_, ?_⟩, h.whole, h.last⟩
    · exact Go.dvd_truncate minute_pos _
    · exact Go.dvd_truncate minute_pos _
    · exact Int.le_trans (Go.truncate_le minute_pos _) (Go.truncate_le minute_pos _)
    · exact fun _ hts => absurd hts List.not_mem_nil
  | frames g =>
    simp only [Setup.candles] at hs
    split at hs
    · rename_i hnext
      obtain ⟨rfl, rfl⟩ := Prod.mk.inj (Option.some.inj hs)
      have hlt : g.fromTime < g.toTime :=
        of_decide_eq_true (Bool.and_eq_true_iff.mp hnext).2
      obtain ⟨hstamped, hwithin⟩ := TimeframeGenerator.Within.next h.place hlt h.stamped
      exact ⟨_, h.begin hc rfl hstamped fun g' hg' => Option.some.inj hg' ▸ hwithin⟩
    · obtain ⟨rfl, rfl⟩ := Prod.mk.inj (Option.some.inj hs)
      exact ⟨batches, h.attempts, h.parts, h.stamped, trivial, h.whole, h.last⟩
  | publish rest g =>
    cases rest with
    | nil =>
      cases g with
      | none =>
        obtain ⟨rfl, rfl⟩ := Prod.mk.inj (Option.some.inj hs)
        exact ⟨batches, h.attempts, h.parts, h.stamped, trivial, h.whole, h.last⟩
      | some g =>
        obtain ⟨rfl, rfl⟩ := Prod.mk.inj (Option.some.inj hs)
        exact ⟨batches, h.attempts, h.parts, h.stamped, h.place.2 g rfl, h.whole, h.last⟩
    | cons candle rest =>
      obtain ⟨rfl, rfl⟩ := Prod.mk.inj (Option.some.inj hs)
      exact h.publish hc
  | arm =>
    obtain ⟨rfl, rfl⟩ := Prod.mk.inj (Option.some.inj hs)
    exact ⟨batches, h.attempts, h.parts, h.stamped, h.stamped.deadline minute_pos, h.whole, h.last⟩
  | select toTime =>
    simp only [Setup.candles] at hs
    split at hs
    · rename_i ts _
      split at hs
      · rename_i hin
        obtain ⟨rfl, rfl⟩ := Prod.mk.inj (Option.some.inj hs)
        exact ⟨_, h.begin hc rfl (h.stamped.concat minute_pos h.place hin.1 hin.2)
          fun _ hg' => by cases hg'⟩
      · cases hs
    · split at hs
      · obtain ⟨rfl, rfl⟩ := Prod.mk.inj (Option.some.inj hs)
        exact ⟨batches, h.attempts, h.parts, h.stamped, trivial, h.whole, h.last⟩
      · cases hs
  | returned => cases hs

/-- What `candlesGenerator` has published: batches for later and later minutes, each the first
candles of the symbols. -/
structure MinuteBatches (m : Setup) (p : Process) (batches : List Batch) : Prop where
  attempts : p.attempts m.feed.topic = batches.flatMap Batch.candles
  parts : ∀ b ∈ batches, b.candles <+: m.feed.generateCandlesBySymbols b.ts ∧ b.ts ≤ p.clock
  increasing : (batches.map Batch.minute).Pairwise (· < ·)
  whole : p.NoneStopped → ∀ b ∈ batches.dropLast, b.candles = m.feed.generateCandlesBySymbols b.ts

/-- **The candles of the running mock come in batches, at most one for a minute**, and the minutes
increase. Unless a publish has returned `context.Canceled`, all but the last are whole. -/
theorem candle_minutes_increase {clock : Int} (hr : m.Reach (m.start clock) s) :
    ∃ batches, MinuteBatches m s.shared batches := by
  have hbatches : ∃ batches, BatchesOf m s.shared s.candles batches := by
    induction hr with
    | refl =>
      exact ⟨[], rfl, fun _ h => absurd h List.not_mem_nil, Go.Stamped.nil _ _, rfl,
        fun _ _ h => absurd h List.not_mem_nil, fun _ _ _ h => by cases h⟩
    | tail _ hs ih =>
      obtain ⟨batches, ih⟩ := ih
      rcases step_candles hs with ⟨x, p', pc', hc, hrun, rfl⟩ | ⟨hb, hpc⟩
      · exact ih.step hc hrun
      · rw [hpc]
        exact ⟨batches, ih.beside hb⟩
  obtain ⟨batches, h⟩ := hbatches
  have hincreasing := h.stamped.increasing
  rw [List.map_map] at hincreasing
  exact ⟨batches, h.attempts,
    fun b hb => ⟨h.parts b hb, h.stamped.passed _ (List.mem_map_of_mem hb)⟩, hincreasing, h.whole⟩

/-- The interrupted mock has published its two first candles. -/
theorem candle_minutes_increase_interrupted : ∃ s : Program,
    (s.shared.attempts demoSetup.feed.topic).length = 2 ∧
      ∃ batches, MinuteBatches demoSetup s.shared batches := by
  have hrun : ∃ s, demoSetup.turns quiet interrupted toTheEnd = some s ∧
      (s.shared.attempts demoSetup.feed.topic).length = 2 := ⟨_, rfl, rfl⟩
  obtain ⟨s, hs, hlength⟩ := hrun
  exact ⟨s, hlength, candle_minutes_increase (interrupted_reach.trans (Setup.turns_reach hs))⟩

end TradeBridge.Mock
