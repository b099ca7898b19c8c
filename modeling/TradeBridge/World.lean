import Mathlib.Logic.Function.Basic
import TradeBridge.Nats

/-!
# What a task sees: the server, the pool's pause flag, NATS, the log and the time-point files

`World` is everything the tasks of the plugin read or write outside their own locals. A call of the
server reads a table of it (`plugin.cpp` calls `GroupsNext`, `SymbolsNext`, `SymbolsGet` and
`HistoryQuotes`), a publish appends to `calls`, a log entry to `logs`, and a time point is a file.

The facts of the build and the machine that the source relies on are the parameters of `Platform`:
the size of `time_t`, the letter case the file system ignores, the status texts of NATS, the JSON
library. Opening a time-point file is taken to succeed: where `./charts/` is missing or a name has a
slash in it, nothing is stored and zero is read. The chart directory's name ends in a separator, so
`path / name` is their concatenation.

Results:
* `loadChartPoint_saveChartPoint`: a stored time point of `__time32_t` range is read back.
* `loadChartPoint_saveChartPoint_of_ne`: storing one leaves every other file's point alone.
-/

namespace TradeBridge

open TradeBridge.Lib

/-- The build and the machine. -/
structure Platform where
  /-- `sizeof(time_t)`. -/
  sizeofTimeT : Nat
  /-- A `time_t` holds every `__time32_t`. -/
  four_le : 4 ≤ sizeofTimeT
  /-- What the file system makes of a byte of a file name when it compares names: the identity, or
  lower case where it ignores case. -/
  fold : UInt8 → UInt8
  /-- Digits have no case. -/
  fold_digit : ∀ b, 48 ≤ b → b ≤ 57 → fold b = b
  /-- `natsStatus_GetText`. -/
  getText : NatsStatus → Bytes
  /-- The JSON library. -/
  json : JsonLib

/-- The members of `plugin` that its constructor sets once and the tasks read. -/
structure Names where
  pluginName : Bytes
  topicNameFeedTick : Bytes
  topicNameConSymbol : Bytes
  topicNameMt4Candle : Bytes
  chartTimepointDir : Bytes
  deriving DecidableEq

/-- The constructor's initialisers. -/
def Names.ofServer (pluginName serverName : Bytes) : Names where
  pluginName := pluginName
  topicNameFeedTick := serverName ++ bytes ".mt4_tick"
  topicNameConSymbol := serverName ++ bytes ".mt4_symbol"
  topicNameMt4Candle := serverName ++ bytes ".mt4_candle"
  chartTimepointDir := bytes "./charts/"

/-- A message of one of the three kinds the plugin publishes. -/
inductive Message
  | tick (t : FeedTick)
  | symbol (m : GroupSymbol)
  | candle (c : Candle)
  deriving DecidableEq

def Message.toJson : Message → Json
  | .tick t => t.toJson
  | .symbol m => m.toJson
  | .candle c => c.toJson

/-- One call of `server::publish` and what it ended with. -/
structure PublishCall where
  topic : Bytes
  message : Message
  result : PublishResult
  deriving DecidableEq

/-- An entry of the server's log: `CmdOK` for `log_info`, `CmdErr` for `log_error`. -/
inductive LogEntry
  | info (text : Bytes)
  | error (text : Bytes)
  deriving DecidableEq

/-- The shared state of the tasks. -/
structure World where
  platform : Platform
  names : Names
  /-- The server's group table, in the order of `GroupsNext`. -/
  groups : List ConGroup
  /-- The server's symbol table, in the order of `SymbolsNext`. -/
  symbols : List ConSymbol
  /-- `HistoryQuotes(symbol, period)`: the array, oldest candle first, or a null pointer. -/
  historyQuotes : Bytes → Int → Option (List RateInfo)
  /-- `m_pool->is_paused()`. -/
  paused : Bool
  /-- File contents, by folded path. -/
  files : Bytes → Option Bytes
  /-- The publish calls so far, oldest first. -/
  calls : List PublishCall
  /-- The log so far, oldest first. -/
  logs : List LogEntry
  /-- The requests passed to `on_trade_request` so far, oldest first. -/
  requests : List TradeRequest

/-- The Win32 build on a file system that ignores case. -/
def Platform.win32 : Platform where
  sizeofTimeT := 4
  four_le := Nat.le_refl 4
  fold b := if 65 ≤ b ∧ b ≤ 90 then b + 32 else b
  fold_digit b _ hb := if_neg fun h => absurd (UInt8.le_trans h.1 hb) (by decide)
  getText
    | .ok => bytes "OK"
    | .timeout => bytes "Timeout"
    | .connectionClosed => bytes "Connection Closed"
    | .invalidSubscription => bytes "Invalid Subscription"
    | .other _ => bytes "Error"
  json := ⟨fun _ => none, fun _ => Int32.minValue⟩

namespace World

/-- The world of a freshly started plugin, over the server's tables. -/
def start (platform : Platform) (names : Names) (groups : List ConGroup)
    (symbols : List ConSymbol) (historyQuotes : Bytes → Int → Option (List RateInfo)) : World where
  platform := platform
  names := names
  groups := groups
  symbols := symbols
  historyQuotes := historyQuotes
  paused := false
  files _ := none
  calls := []
  logs := []
  requests := []

/-! ## The server -/

/-- `SymbolsGet(name)`. -/
def symbolsGet (w : World) (name : CStr 12) : Option ConSymbol :=
  w.symbols.find? fun s => s.symbol == name

/-! ## NATS -/

/-- `m_nats_conn.publish(topic, message)`, where the NATS call ends with `status`. -/
def publish (w : World) (status : NatsStatus) (topic : Bytes) (message : Message) :
    World × PublishResult :=
  let result := TradeBridge.publish w.platform.getText status message.toJson
  ({ w with calls := w.calls ++ [⟨topic, message, result⟩] }, result)

/-- The messages published successfully, oldest first. -/
def sent (w : World) : List Message :=
  (w.calls.filter fun c => c.result == .ok).map PublishCall.message

/-! ## The log -/

/-- `m_logger.log_info`. -/
def logInfo (w : World) (text : Bytes) : World := { w with logs := w.logs ++ [.info text] }

/-- `m_logger.log_error`. -/
def logError (w : World) (text : Bytes) : World := { w with logs := w.logs ++ [.error text] }

/-! ## The time-point files -/

/-- The name `get_file_path` formats: `"{}{}.timepoint"`. -/
def timepointName (symbol : Bytes) (period : Int) : Bytes :=
  symbol ++ decimal period ++ bytes ".timepoint"

/-- `get_file_path(path, symbol, period)`. -/
def getFilePath (path symbol : Bytes) (period : Int) : Bytes := path ++ timepointName symbol period

/-- The file of a series, as the file system names it. -/
def pointFile (w : World) (symbol : Bytes) (period : Int) : Bytes :=
  (getFilePath w.names.chartTimepointDir symbol period).map w.platform.fold

/-- `save_chart_point(m_chart_timepoint_dir, symbol, timestamp, period)`. -/
def saveChartPoint (w : World) (symbol : Bytes) (timestamp : Int) (period : Int) : World :=
  { w with
    files := Function.update w.files (w.pointFile symbol period)
      (some (leOfInt w.platform.sizeofTimeT timestamp)) }

/-- `load_chart_point(m_chart_timepoint_dir, symbol, period)`: `0` without a file, and the missing
high bytes of a short file are `0`. -/
def loadChartPoint (w : World) (symbol : Bytes) (period : Int) : Int :=
  match w.files (w.pointFile symbol period) with
  | none => 0
  | some content => intOfLe w.platform.sizeofTimeT content

@[simp] theorem pointFile_saveChartPoint (w : World) (symbol symbol' : Bytes)
    (t period period' : Int) :
    (w.saveChartPoint symbol t period).pointFile symbol' period' = w.pointFile symbol' period' :=
  rfl

@[simp] theorem platform_saveChartPoint (w : World) (symbol : Bytes) (t period : Int) :
    (w.saveChartPoint symbol t period).platform = w.platform := rfl

/-- The point read depends on the files and on the constant parts only. -/
theorem loadChartPoint_congr {w w' : World} (hp : w'.platform = w.platform)
    (hn : w'.names = w.names) (hf : w'.files = w.files) (symbol : Bytes) (period : Int) :
    w'.loadChartPoint symbol period = w.loadChartPoint symbol period := by
  unfold loadChartPoint pointFile
  rw [hp, hn, hf]

/-- **A stored time point is read back.** -/
theorem loadChartPoint_saveChartPoint (w : World) (symbol : Bytes) (t : Int32) (period : Int) :
    (w.saveChartPoint symbol t.toInt period).loadChartPoint symbol period = t.toInt := by
  have hpow : (256 ^ 4 : Nat) ≤ 256 ^ w.platform.sizeofTimeT :=
    Nat.pow_le_pow_right (by omega) w.platform.four_le
  have hlo := Int32.le_toInt t
  have hhi := Int32.toInt_lt t
  have hfile : (w.saveChartPoint symbol t.toInt period).files (w.pointFile symbol period)
      = some (leOfInt w.platform.sizeofTimeT t.toInt) := Function.update_self _ _ _
  unfold loadChartPoint
  rw [pointFile_saveChartPoint, platform_saveChartPoint, hfile]
  exact intOfLe_leOfInt (by omega) (by omega)

/-- Storing a time point leaves the other files' points alone. -/
theorem loadChartPoint_saveChartPoint_of_ne {w : World} {symbol symbol' : Bytes}
    {period period' : Int} (t : Int) (h : w.pointFile symbol' period' ≠ w.pointFile symbol period) :
    (w.saveChartPoint symbol t period).loadChartPoint symbol' period' =
      w.loadChartPoint symbol' period' := by
  have hfile : (w.saveChartPoint symbol t period).files (w.pointFile symbol' period')
      = w.files (w.pointFile symbol' period') := Function.update_of_ne h _ _
  unfold loadChartPoint
  rw [pointFile_saveChartPoint, hfile]
  rfl

/-! ## What each operation leaves alone -/

variable (w : World)

@[simp] theorem publish_snd (status : NatsStatus) (topic : Bytes) (m : Message) :
    (w.publish status topic m).2 = TradeBridge.publish w.platform.getText status m.toJson := rfl

@[simp] theorem publish_fst (status : NatsStatus) (topic : Bytes) (m : Message) :
    (w.publish status topic m).1 = { w with calls := w.calls ++
      [⟨topic, m, TradeBridge.publish w.platform.getText status m.toJson⟩] } := rfl

theorem sent_append (c : PublishCall) :
    ({ w with calls := w.calls ++ [c] } : World).sent =
      if c.result = .ok then w.sent ++ [c.message] else w.sent := by
  unfold sent
  simp only [List.filter_append, List.map_append]
  by_cases h : c.result = .ok <;> simp [h]

end World

end TradeBridge
