import TradeBridge.World

/-!
# The tasks of the pool, one outside call at a time

The lambdas that `plugin.cpp` detaches into `m_pool`, as machines. A task's state is what its lambda
captured and where it stands (`ChartPc`, `GroupPc`, `SymbolPc`, `ReceivePc`); one step makes the
one call its place names (the server, `is_paused`, `publish`, the log, a time-point file) and runs
the code up to the next call. Between two steps any other task may run. What NATS answers is the
`Outcome` of the step.

* `publish_chart_by_symbol` (`plugin.cpp:224-270`) walks `rates` from its end: a state holds the
  candle at hand and the `older` ones still to come, newest first, so its index is `older.length`.
* `publish_group_symbols` (`plugin.cpp:281-321`) fills `published_symbols` and never reads it, so
  the model has no such local.
* An exception leaves the lambda from `publish` only (`threw`).
* The loop of `nats_subscribe_to_trade_request` (`plugin.cpp:172-188`) has no exit.
-/

namespace TradeBridge

open TradeBridge.Lib

/-- What NATS answers to the call of one step. -/
structure Outcome where
  /-- The status of `natsConnection_PublishString`. -/
  status : NatsStatus
  /-- What `natsSubscription_NextMsg` returns. -/
  next : NextMsg

/-- The outcome of a step that reads no message. -/
def Outcome.ofStatus (status : NatsStatus) : Outcome := ⟨status, .timeout, []⟩

/-- `sleep_iteration_count`. -/
def sleepIterationCount : Nat := 64

/-- The iterations at which `should_stop_task` looks at the pool. -/
def checksPause (iteration : Nat) : Bool := iteration % sleepIterationCount == 0

/-! ## `publish_chart_by_symbol` -/

/-- Where the lambda of `publish_chart_by_symbol` stands. -/
inductive ChartPc
  /-- Before `HistoryQuotes`. -/
  | quotes
  /-- Before `load_chart_point`. -/
  | load (newest : RateInfo) (rates : List RateInfo)
  /-- Before `is_paused`. -/
  | stop (newest : RateInfo) (fromTime : Int) (rate : RateInfo) (older : List RateInfo)
  /-- Before `publish`. -/
  | publish (newest : RateInfo) (fromTime : Int) (rate : RateInfo) (older : List RateInfo)
  /-- Before `log_error`. -/
  | failed (newest : RateInfo) (fromTime : Int) (older : List RateInfo) (error : Bytes)
  /-- Before `save_chart_point`. -/
  | save (newest : RateInfo)
  | done
  | threw
  deriving DecidableEq

/-- The lambda of `publish_chart_by_symbol`, with its captures. -/
structure ChartTask where
  symbolName : Bytes
  digits : Int32
  period : Int
  pc : ChartPc
  deriving DecidableEq

/-- The head of the loop: `rates` holds the candles still to come, newest first. -/
def ChartPc.loop (newest : RateInfo) (fromTime : Int) : List RateInfo → ChartPc
  | [] => .save newest
  | rate :: older =>
    if rate.time < fromTime then .done
    else if checksPause older.length then .stop newest fromTime rate older
    else .publish newest fromTime rate older

/-- The candle published for `rate`. -/
def ChartTask.candle (t : ChartTask) (rate : RateInfo) : Candle where
  symbol := t.symbolName
  ts := rate.ctm
  openPrice := intPriceToDouble rate.openPrice t.digits
  high := intPriceToDouble rate.high t.digits
  low := intPriceToDouble rate.low t.digits
  close := intPriceToDouble rate.close t.digits

/-- The text logged for a failed publish. -/
def ChartTask.failedText (t : ChartTask) (error : Bytes) : Bytes :=
  bytes "Failed to publish chart candle for symbol: " ++ t.symbolName ++ bytes ", period: " ++
    decimal t.period ++ bytes ": " ++ error

/-- One step of the lambda. -/
def ChartTask.step (t : ChartTask) (w : World) (o : Outcome) : World × ChartTask :=
  match t.pc with
  | .quotes =>
    match (w.historyQuotes t.symbolName t.period).map List.reverse with
    | some (newest :: older) => (w, { t with pc := .load newest (newest :: older) })
    | _ => (w, { t with pc := .done })
  | .load newest rates =>
    (w, { t with pc := .loop newest (w.loadChartPoint t.symbolName t.period) rates })
  | .stop newest fromTime rate older =>
    (w, { t with pc := if w.paused then .done else .publish newest fromTime rate older })
  | .publish newest fromTime rate older =>
    let p := w.publish o.status w.names.topicNameMt4Candle (.candle (t.candle rate))
    match p.2 with
    | .ok => (p.1, { t with pc := .loop newest fromTime older })
    | .error e => (p.1, { t with pc := .failed newest fromTime older e })
    | .threw => (p.1, { t with pc := .threw })
  | .failed newest fromTime older e =>
    (w.logError (t.failedText e), { t with pc := .loop newest fromTime older })
  | .save newest =>
    (w.saveChartPoint t.symbolName newest.time t.period, { t with pc := .done })
  | .done => (w, t)
  | .threw => (w, t)

/-! ## `publish_group_symbols` -/

/-- Where the lambda of `publish_group_symbols` stands. -/
inductive GroupPc
  /-- Before the first `log_info`. -/
  | start
  /-- First loop: before `is_paused`, `SymbolsGet`, `publish`, `log_error`. -/
  | marginStop (i : Nat) (margin : ConGroupMargin)
  | marginGet (i : Nat) (margin : ConGroupMargin)
  | marginPublish (i : Nat) (m : GroupSymbol)
  | marginFailed (i : Nat) (error : Bytes)
  /-- Second loop: before `SymbolsNext`, `is_paused`, `publish`, `log_error`. -/
  | symbolsNext (i : Nat)
  | symbolStop (i : Nat) (symbol : ConSymbol)
  | symbolPublish (i : Nat) (m : GroupSymbol)
  | symbolFailed (i : Nat) (error : Bytes)
  | done
  | threw
  deriving DecidableEq

/-- The lambda of `publish_group_symbols`, with its capture. -/
structure GroupTask where
  group : ConGroup
  pc : GroupPc

/-- The head of the first loop. -/
def GroupPc.marginLoop (group : ConGroup) (i : Nat) : GroupPc :=
  match group.secmargins[i]? with
  | none => .symbolsNext 0
  | some margin => if checksPause i then .marginStop i margin else .marginGet i margin

/-- The second loop after `should_stop_task`. -/
def GroupPc.symbolBody (group : ConGroup) (i : Nat) (symbol : ConSymbol) : GroupPc :=
  match makeGroupSymbol group symbol none with
  | some m => .symbolPublish i m
  | none => .symbolsNext (i + 1)

/-- The text both tasks of the symbol table log for a failed publish. -/
def failedSymbolText (group : ConGroup) (error : Bytes) : Bytes :=
  bytes "Failed to publish symbol for group '" ++ group.group.text ++ bytes "': " ++ error

/-- One step of the lambda. -/
def GroupTask.step (t : GroupTask) (w : World) (o : Outcome) : World × GroupTask :=
  match t.pc with
  | .start =>
    (w.logInfo (bytes "Publishing symbols for group: " ++ t.group.group.text),
      { t with pc := .marginLoop t.group 0 })
  | .marginStop i margin => (w, { t with pc := if w.paused then .done else .marginGet i margin })
  | .marginGet i margin =>
    match (w.symbolsGet margin.symbol).bind fun s => makeGroupSymbol t.group s (some margin) with
    | some m => (w, { t with pc := .marginPublish i m })
    | none => (w, { t with pc := .marginLoop t.group (i + 1) })
  | .marginPublish i m =>
    let p := w.publish o.status w.names.topicNameConSymbol (.symbol m)
    match p.2 with
    | .ok => (p.1, { t with pc := .marginLoop t.group (i + 1) })
    | .error e => (p.1, { t with pc := .marginFailed i e })
    | .threw => (p.1, { t with pc := .threw })
  | .marginFailed i e =>
    (w.logError (failedSymbolText t.group e), { t with pc := .marginLoop t.group (i + 1) })
  | .symbolsNext i =>
    match w.symbols[i]? with
    | none => (w, { t with pc := .done })
    | some symbol =>
      (w, { t with pc := if checksPause i then .symbolStop i symbol
                         else .symbolBody t.group i symbol })
  | .symbolStop i symbol =>
    (w, { t with pc := if w.paused then .done else .symbolBody t.group i symbol })
  | .symbolPublish i m =>
    let p := w.publish o.status w.names.topicNameConSymbol (.symbol m)
    match p.2 with
    | .ok => (p.1, { t with pc := .symbolsNext (i + 1) })
    | .error e => (p.1, { t with pc := .symbolFailed i e })
    | .threw => (p.1, { t with pc := .threw })
  | .symbolFailed i e =>
    (w.logError (failedSymbolText t.group e), { t with pc := .symbolsNext (i + 1) })
  | .done => (w, t)
  | .threw => (w, t)

/-! ## `publish_symbol_for_groups` -/

/-- Where the lambda of `publish_symbol_for_groups` stands. -/
inductive SymbolPc
  /-- Before the first `log_info`. -/
  | start
  /-- Before `GroupsNext`, `is_paused`, `publish`, `log_error`. -/
  | groupsNext (i : Nat)
  | stop (i : Nat) (group : ConGroup)
  | publish (i : Nat) (group : ConGroup) (m : GroupSymbol)
  | failed (i : Nat) (group : ConGroup) (error : Bytes)
  | done
  | threw

/-- The lambda of `publish_symbol_for_groups`, with its capture. -/
structure SymbolTask where
  symbol : ConSymbol
  pc : SymbolPc

/-- The inner loop: the first entry of the group for the symbol. -/
def symbolMarginSec (group : ConGroup) (symbol : ConSymbol) : Option ConGroupMargin :=
  group.secmargins.find? fun m => m.symbol == symbol.symbol

/-- The loop after `should_stop_task`. -/
def SymbolPc.body (symbol : ConSymbol) (i : Nat) (group : ConGroup) : SymbolPc :=
  match makeGroupSymbol group symbol (symbolMarginSec group symbol) with
  | some m => .publish i group m
  | none => .groupsNext (i + 1)

/-- One step of the lambda. -/
def SymbolTask.step (t : SymbolTask) (w : World) (o : Outcome) : World × SymbolTask :=
  match t.pc with
  | .start =>
    (w.logInfo (bytes "Publishing symbol for groups: " ++ t.symbol.symbol.text),
      { t with pc := .groupsNext 0 })
  | .groupsNext i =>
    match w.groups[i]? with
    | none => (w, { t with pc := .done })
    | some group =>
      (w, { t with pc := if checksPause i then .stop i group else .body t.symbol i group })
  | .stop i group => (w, { t with pc := if w.paused then .done else .body t.symbol i group })
  | .publish i group m =>
    let p := w.publish o.status w.names.topicNameConSymbol (.symbol m)
    match p.2 with
    | .ok => (p.1, { t with pc := .groupsNext (i + 1) })
    | .error e => (p.1, { t with pc := .failed i group e })
    | .threw => (p.1, { t with pc := .threw })
  | .failed i group e =>
    (w.logError (failedSymbolText group e), { t with pc := .groupsNext (i + 1) })
  | .done => (w, t)
  | .threw => (w, t)

/-! ## The request-receiving task -/

/-- Where the loop of `nats_subscribe_to_trade_request` stands. -/
inductive ReceivePc
  /-- Before `read_next_message`. -/
  | read
  /-- Before `on_trade_request`. -/
  | request (r : TradeRequest)
  /-- Before `log_error`. -/
  | failed (error : Bytes)
  deriving DecidableEq

/-- The lambda of `nats_subscribe_to_trade_request`; `topicName` is the reader's capture. -/
structure ReceiveTask where
  topicName : Bytes
  pc : ReceivePc
  deriving DecidableEq

/-- The loop's body after `read_next_message`: an error that wraps an `ok` text is not reported. -/
def ReceivePc.ofResult : ReadMessageResult TradeRequest → ReceivePc
  | .ok message => .request message
  | .error (.ok _) => .read
  | .error (.error e) => .failed e

/-- `on_trade_request`. -/
def World.onTradeRequest (w : World) (request : TradeRequest) : World :=
  { w with requests := w.requests ++ [request] }.logInfo
    (bytes "Received trade request with ID: " ++ decimal request.requestId.toInt)

/-- One step of the lambda. -/
def ReceiveTask.step (t : ReceiveTask) (w : World) (o : Outcome) : World × ReceiveTask :=
  match t.pc with
  | .read =>
    (w, { t with pc := .ofResult (readMessage w.platform.json
      (TradeRequest.fromJson w.platform.json) t.topicName o.next) })
  | .request r => (w.onTradeRequest r, { t with pc := .read })
  | .failed e =>
    (w.logError (bytes "Failed to receive trade request: " ++ e), { t with pc := .read })

/-! ## Tasks -/

/-- A task of the pool. -/
inductive Task
  | chart (t : ChartTask)
  | group (t : GroupTask)
  | symbol (t : SymbolTask)
  | receive (t : ReceiveTask)

namespace Task

/-- One step of a task. -/
def step (t : Task) (w : World) (o : Outcome) : World × Task :=
  match t with
  | .chart t => ((t.step w o).1, .chart (t.step w o).2)
  | .group t => ((t.step w o).1, .group (t.step w o).2)
  | .symbol t => ((t.step w o).1, .symbol (t.step w o).2)
  | .receive t => ((t.step w o).1, .receive (t.step w o).2)

/-- The lambda has returned. -/
def finished : Task → Bool
  | .chart t => match t.pc with | .done => true | _ => false
  | .group t => match t.pc with | .done => true | _ => false
  | .symbol t => match t.pc with | .done => true | _ => false
  | .receive _ => false

/-- An exception has left the lambda. -/
def threw : Task → Bool
  | .chart t => match t.pc with | .threw => true | _ => false
  | .group t => match t.pc with | .threw => true | _ => false
  | .symbol t => match t.pc with | .threw => true | _ => false
  | .receive _ => false

/-- The lambda has returned or thrown: it takes no further step. -/
def ended (t : Task) : Bool := t.finished || t.threw

theorem ended_of_finished {t : Task} (h : t.finished = true) : t.ended = true := by
  rw [ended, h, Bool.true_or]

theorem ended_of_threw {t : Task} (h : t.threw = true) : t.ended = true := by
  rw [ended, h, Bool.or_true]

/-- A task that has ended without an exception has returned. -/
theorem finished_of_ended {t : Task} (h : t.ended = true) (hthrew : t.threw = false) :
    t.finished = true := by
  rwa [ended, hthrew, Bool.or_false] at h

/-- No exception has left a task that has returned. -/
theorem threw_of_finished {t : Task} (h : t.finished = true) : t.threw = false := by
  cases t with
  | receive t => rfl
  | chart t =>
    obtain ⟨symbolName, digits, period, pc⟩ := t
    cases pc <;> first | rfl | exact Bool.noConfusion h
  | group t =>
    obtain ⟨group, pc⟩ := t
    cases pc <;> first | rfl | exact Bool.noConfusion h
  | symbol t =>
    obtain ⟨symbol, pc⟩ := t
    cases pc <;> first | rfl | exact Bool.noConfusion h

/-- The task `publish_chart_by_symbol(symbol, period)` detaches. -/
def ofChart (symbol : ConSymbol) (period : Int) : Task :=
  .chart ⟨symbol.symbol.text, symbol.digits, period, .quotes⟩

/-- The task `publish_group_symbols(group)` detaches. -/
def ofGroup (group : ConGroup) : Task := .group ⟨group, .start⟩

/-- The task `publish_symbol_for_groups(symbol)` detaches. -/
def ofSymbol (symbol : ConSymbol) : Task := .symbol ⟨symbol, .start⟩

end Task

end TradeBridge
