import TradeBridge.Decode
import TradeBridge.Lib.GoJson
import TradeBridge.Startup
import TradeBridge.Steps

/-!
# The mock server

`src/mock/main.go` stands in for the plugin: it publishes ticks, candles and group symbols and reads
trade requests, with structs and topics of its own. `SameOnWire` says that for the same data both
publish the same object on the same topic, where objects are compared as JSON values, up to the form
of a number. `SameRequest` says that the mock reads a request the plugin accepts as the plugin does.

The JSON parser of Go is a parameter. The random prices and the answers of the mock, and the
environment it is configured by, are left out.

Results:
* `topics_agree_iff`, `keys_differ`, `shared_values_agree`: the tick and the candle are published on
  the plugin's topics and the group symbol is not; no object has the plugin's keys; under a key
  that both have, the values are the same.
* `a_side_as_text_is_refused`, `requestID_of_no_member`: a request in the plugin's format is an error
  of `Unmarshal`, and its `id` is not read.
* **`never_interchangeable`**: no message and no accepted request is the same on both sides.
-/

namespace TradeBridge

open TradeBridge.Lib

namespace Mock

/-! ## The structs of `main.go` -/

/-- `TradeRequest`; `Side` is an `OrderSide`, an `int`. -/
structure TradeRequest where
  requestID : Int
  side : Int
  login : Int
  volume : Rat
  sl : Rat
  tp : Rat
  symbol : Bytes
  comment : Bytes
  deriving DecidableEq

/-- `OrderSideBuy` and `OrderSideSell`. -/
def orderSide : OrderSide → Int
  | .buy => 0
  | .sell => 1

/-- `GroupSymbol`; `Mode` is a `TradeMode`, an `int`. -/
structure GroupSymbol where
  accountGroup : Bytes
  symbol : Bytes
  description : Bytes
  digits : Int
  mode : Int
  contractSize : Rat
  tickSize : Rat
  swapLong : Rat
  swapShort : Rat
  lotMin : Rat
  lotMax : Rat
  lotStep : Rat

/-- `TradeNo`, `TradeClose`, `TradeFull`, `TradeLongOnly`, and any other `int`. -/
def tradeMode : TradeMode → Int
  | .tradeNo => 0
  | .tradeClose => 1
  | .tradeFull => 2
  | .tradeLongOnly => 3
  | .other raw => raw.toInt

/-- `Candle`. -/
structure Candle where
  symbol : Bytes
  ts : Int32
  openPrice : Rat
  high : Rat
  low : Rat
  close : Rat

/-- `Tick`. -/
structure Tick where
  symbol : Bytes
  ts : Int32
  bid : Rat
  ask : Rat

/-! ## `json.Marshal` -/

/-- `json.Marshal(&Tick{…})`. -/
def Tick.marshal (t : Tick) : Json :=
  .object [
    (bytes "symbol", Go.string t.symbol),
    (bytes "ts", .numberInteger t.ts.toInt),
    (bytes "bid", .numberFloat t.bid),
    (bytes "ask", .numberFloat t.ask)]

/-- `json.Marshal(candle)`. -/
def Candle.marshal (c : Candle) : Json :=
  .object [
    (bytes "symbol", Go.string c.symbol),
    (bytes "ts", .numberInteger c.ts.toInt),
    (bytes "open", .numberFloat c.openPrice),
    (bytes "high", .numberFloat c.high),
    (bytes "low", .numberFloat c.low),
    (bytes "close", .numberFloat c.close)]

/-- `json.Marshal(&GroupSymbol{…})`. -/
def GroupSymbol.marshal (s : GroupSymbol) : Json :=
  .object [
    (bytes "account_group", Go.string s.accountGroup),
    (bytes "symbol", Go.string s.symbol),
    (bytes "description", Go.string s.description),
    (bytes "digits", .numberInteger s.digits),
    (bytes "mode", .numberInteger s.mode),
    (bytes "contract_size", .numberFloat s.contractSize),
    (bytes "tick_size", .numberFloat s.tickSize),
    (bytes "swap_long", .numberFloat s.swapLong),
    (bytes "swap_short", .numberFloat s.swapShort),
    (bytes "lot_min", .numberFloat s.lotMin),
    (bytes "lot_max", .numberFloat s.lotMax),
    (bytes "lot_step", .numberFloat s.lotStep)]

/-! ## `json.Unmarshal` of a trade request -/

/-- The tags of `TradeRequest`. -/
def TradeRequest.fields : List (Go.Field TradeRequest) := [
  .of (bytes "request_id") Go.readInt fun v r => { r with requestID := v },
  .of (bytes "side") Go.readInt fun v r => { r with side := v },
  .of (bytes "login") Go.readInt fun v r => { r with login := v },
  .of (bytes "volume") Go.readFloat64 fun v r => { r with volume := v },
  .of (bytes "sl") Go.readFloat64 fun v r => { r with sl := v },
  .of (bytes "tp") Go.readFloat64 fun v r => { r with tp := v },
  .of (bytes "symbol") Go.readString fun v r => { r with symbol := v },
  .of (bytes "comment") Go.readString fun v r => { r with comment := v }]

/-- `var tradeRequest TradeRequest`. -/
def TradeRequest.zero : TradeRequest := ⟨0, 0, 0, 0, 0, 0, [], []⟩

/-- `json.Unmarshal(msg.Data, &tradeRequest)`. -/
def TradeRequest.unmarshal (parse : Bytes → Option Json) (data : Bytes) : TradeRequest × Bool :=
  Go.unmarshal parse TradeRequest.fields data TradeRequest.zero

/-! ## The same data -/

def Tick.ofFeedTick (t : FeedTick) : Tick := ⟨t.symbol.text, t.ctm, t.bid, t.ask⟩

def Candle.ofCandle (c : TradeBridge.Candle) : Candle :=
  ⟨c.symbol, c.ts, c.openPrice, c.high, c.low, c.close⟩

def GroupSymbol.ofGroupSymbol (s : TradeBridge.GroupSymbol) : GroupSymbol where
  accountGroup := s.accountGroup
  symbol := s.symbol
  description := s.description
  digits := s.digits.toInt
  mode := tradeMode s.mode
  contractSize := s.contractSize
  tickSize := s.tickSize
  swapLong := s.swapLong
  swapShort := s.swapShort
  lotMin := s.lotMin.toInt
  lotMax := s.lotMax.toInt
  lotStep := s.lotStep.toInt

/-- What the mock publishes for the data of a message. -/
def marshal : Message → Json
  | .tick t => (Tick.ofFeedTick t).marshal
  | .symbol s => (GroupSymbol.ofGroupSymbol s).marshal
  | .candle c => (Candle.ofCandle c).marshal

/-- The topic it publishes it on. -/
def topic (serverName : Bytes) : Message → Bytes
  | .tick _ => serverName ++ bytes ".mt4_tick"
  | .symbol _ => serverName ++ bytes ".mt4_group"
  | .candle _ => serverName ++ bytes ".mt4_candle"

/-- The topic it subscribes to. -/
def tradeRequestTopic (serverName : Bytes) : Bytes := serverName ++ bytes ".mt4_trade_request"

end Mock

/-! ## What the property says -/

/-- The topic the plugin publishes a message on. -/
def Message.topic (names : Names) : Message → Bytes
  | .tick _ => names.topicNameFeedTick
  | .symbol _ => names.topicNameConSymbol
  | .candle _ => names.topicNameMt4Candle

/-- The two values are one, up to the form of a number. -/
def SameValue (v w : Json) : Prop :=
  v = w ∨ ∃ q, v.rational? = some q ∧ w.rational? = some q

/-- The two objects have the same keys. -/
def SameKeys (a b : Json) : Prop :=
  ∀ key, (∃ v, a.at key = .ok v) ↔ ∃ v, b.at key = .ok v

/-- Under a key that both have, the values are the same. -/
def SameValues (a b : Json) : Prop :=
  ∀ key v w, a.at key = .ok v → b.at key = .ok w → SameValue v w

/-- The plugin and the mock publish the message as the same object on the same topic. -/
structure SameOnWire (serverName : Bytes) (m : Message) : Prop where
  topic : m.topic (.ofServer pluginInfoName serverName) = Mock.topic serverName m
  keys : SameKeys m.toJson (Mock.marshal m)
  values : SameValues m.toJson (Mock.marshal m)

/-- The mock's request is the plugin's. -/
def Mock.TradeRequest.Same (t : Mock.TradeRequest) (r : TradeBridge.TradeRequest) : Prop :=
  t = ⟨r.requestId.toInt, Mock.orderSide r.side, r.login.toInt, r.volume, r.sl, r.tp, r.symbol,
    r.comment⟩

/-- The mock reads the payload as the plugin's request, on the same topic. -/
structure SameRequest (parse : Bytes → Option Json) (serverName payload : Bytes)
    (r : TradeRequest) : Prop where
  topic : Mock.tradeRequestTopic serverName = tradeRequestTopic serverName
  unmarshal : ∃ t, Mock.TradeRequest.unmarshal parse payload = (t, true) ∧ t.Same r

/-! ## What the plugin and the mock publish -/

/-- The topic of a message is the one a task publishes it on. -/
theorem Task.atPublish_topic {names : Names} {t : Task} {p : Bytes × Message}
    (h : t.atPublish names = some p) : p.1 = p.2.topic names := by
  cases t with
  | chart t =>
    obtain ⟨symbolName, digits, period, pc⟩ := t
    cases pc with
    | publish newest fromTime rate older =>
      obtain rfl := Option.some.inj h
      rfl
    | _ => cases h
  | group t =>
    obtain ⟨group, pc⟩ := t
    cases pc with
    | marginPublish i m | symbolPublish i m =>
      obtain rfl := Option.some.inj h
      rfl
    | _ => cases h
  | symbol t =>
    obtain ⟨symbol, pc⟩ := t
    cases pc with
    | publish i group m =>
      obtain rfl := Option.some.inj h
      rfl
    | _ => cases h
  | receive t => cases h

/-- **The topics agree for the tick and the candle**, and not for the group symbol. -/
theorem topics_agree_iff (serverName : Bytes) (m : Message) :
    m.topic (.ofServer pluginInfoName serverName) = Mock.topic serverName m ↔
      ∀ s, m ≠ .symbol s := by
  cases m with
  | tick t => exact ⟨fun _ s h => (nomatch h), fun _ => rfl⟩
  | candle c => exact ⟨fun _ s h => (nomatch h), fun _ => rfl⟩
  | symbol s =>
    refine ⟨fun h => ?_, fun h => absurd rfl (h s)⟩
    have hsuffix : bytes ".mt4_symbol" = bytes ".mt4_group" := List.append_cancel_left h
    exact absurd hsuffix (by decide)

/-- The key that the mock has another name for. -/
def driftedKey : Message → Bytes
  | .tick _ | .candle _ => bytes "timestamp"
  | .symbol _ => bytes "trade"

/-- **No object of the mock has the plugin's keys.** -/
theorem keys_differ (m : Message) : (∃ v, m.toJson.at (driftedKey m) = .ok v) ∧
    (Mock.marshal m).at (driftedKey m) = .error .outOfRange := by
  cases m with
  | tick t => exact ⟨⟨_, rfl⟩, rfl⟩
  | candle c => exact ⟨⟨_, rfl⟩, rfl⟩
  | symbol s => exact ⟨⟨_, rfl⟩, rfl⟩

/-- A key of an object is one of its members. -/
theorem mem_of_at {members : List (Bytes × Json)} {key : Bytes} {v : Json}
    (h : (Json.object members).at key = .ok v) : (key, v) ∈ members := by
  unfold Json.at at h
  simp only at h
  cases hl : members.lookup key with
  | none =>
    rw [hl] at h
    cases h
  | some w =>
    rw [hl] at h
    obtain rfl := Except.ok.inj h
    exact List.lookup_eq_some_iff.mp hl |> fun ⟨l₁, l₂, hmem, _⟩ =>
      hmem ▸ List.mem_append.mpr (Or.inr List.mem_cons_self)

/-- The other object has no such member, or the same value in it. -/
def MemberAgrees (b : Json) (member : Bytes × Json) : Prop :=
  ∀ w, b.at member.1 = .ok w → SameValue member.2 w

theorem MemberAgrees.same {b v w : Json} {key : Bytes} (hw : b.at key = .ok w)
    (h : SameValue v w) : MemberAgrees b (key, v) := by
  intro w' hw'
  obtain rfl := Except.ok.inj (hw.symm.trans hw')
  exact h

theorem MemberAgrees.absent {b v : Json} {key : Bytes} {e : JsonError}
    (h : b.at key = .error e) : MemberAgrees b (key, v) := by
  intro w hw
  rw [h] at hw
  cases hw

theorem sameValues_of_members {members : List (Bytes × Json)} {b : Json}
    (h : members.Forall (MemberAgrees b)) : SameValues (.object members) b :=
  fun key v w hv hw => List.forall_iff_forall_mem.mp h (key, v) (mem_of_at hv) w hw

theorem SameValue.refl (v : Json) : SameValue v v := Or.inl rfl

theorem sameValue_string {s : Bytes} (h : utf8Valid s = true) :
    SameValue (.string s) (Go.string s) := by
  unfold Go.string
  rw [Go.coerceUtf8_of_valid h]
  exact .refl _

theorem sameValue_int (i : Int) : SameValue (.numberInteger i) (.numberFloat i) :=
  Or.inr ⟨i, rfl, rfl⟩

/-- **Under a key that both have, the values are the same**, of every message that can be
encoded. -/
theorem shared_values_agree {m : Message} (h : m.toJson.encodable = true) :
    SameValues m.toJson (Mock.marshal m) := by
  cases m with
  | tick t =>
    have hsym : utf8Valid t.symbol.text = true := (tick_encodable t).symm.trans h
    exact sameValues_of_members ⟨.same rfl (sameValue_string hsym), .same rfl (.refl _),
      .same rfl (.refl _), .absent rfl⟩
  | candle c =>
    have hsym : utf8Valid c.symbol = true := (candle_encodable c).symm.trans h
    exact sameValues_of_members ⟨.same rfl (sameValue_string hsym), .absent rfl,
      .same rfl (.refl _), .same rfl (.refl _), .same rfl (.refl _), .same rfl (.refl _)⟩
  | symbol s =>
    have htexts := (groupSymbol_encodable s).symm.trans h
    rw [Bool.and_eq_true, Bool.and_eq_true] at htexts
    obtain ⟨⟨hgroup, hsym⟩, hdesc⟩ := htexts
    exact sameValues_of_members ⟨.same rfl (sameValue_string hgroup),
      .same rfl (sameValue_string hsym), .same rfl (sameValue_string hdesc), .same rfl (.refl _),
      .absent rfl, .same rfl (.refl _), .same rfl (.refl _), .same rfl (.refl _),
      .same rfl (.refl _), .same rfl (sameValue_int _), .same rfl (sameValue_int _),
      .same rfl (sameValue_int _)⟩

/-! ## What the mock reads -/

/-- **A side that is a text is an error of `Unmarshal`.** -/
theorem a_side_as_text_is_refused {members : List (Bytes × Json)} {s : Bytes}
    (h : (bytes "side", Json.string s) ∈ members) (t : Mock.TradeRequest) :
    (Go.decode Mock.TradeRequest.fields (.object members) t).2 = false := by
  by_contra hok
  obtain ⟨-, hread⟩ := Go.decodeMembers_ok members ((Bool.not_eq_false _).mp hok)
  obtain ⟨put, hput⟩ := hread _ h _ (Go.fieldOf_of_name rfl)
  cases hput

/-- **Without a member of that name the request has the ID 0**, whatever its `id`. -/
theorem requestID_of_no_member {members : List (Bytes × Json)}
    (h : ∀ m ∈ members, Go.foldName m.1 ≠ bytes "REQUEST_ID") (t : Mock.TradeRequest) :
    (Go.decode Mock.TradeRequest.fields (.object members) t).1.requestID = t.requestID := by
  have hothers : Mock.TradeRequest.fields.tail.Forall
      (Go.Field.Keeps · Mock.TradeRequest.requestID) :=
    ⟨Go.Field.keeps_of fun _ _ => rfl, Go.Field.keeps_of fun _ _ => rfl,
      Go.Field.keeps_of fun _ _ => rfl, Go.Field.keeps_of fun _ _ => rfl,
      Go.Field.keeps_of fun _ _ => rfl, Go.Field.keeps_of fun _ _ => rfl,
      Go.Field.keeps_of fun _ _ => rfl⟩
  refine Go.decodeMembers_keeps members (t, true) fun m hm f hf => ?_
  obtain ⟨hmem, hname⟩ := Go.foldName_of_fieldOf hf
  rcases List.mem_cons.mp hmem with rfl | hmem
  · exact absurd (hname.symm.trans (by decide)) (h m hm)
  · exact List.forall_iff_forall_mem.mp hothers f hmem

/-- The mock refuses each request in the plugin's format. -/
theorem a_request_is_refused {parse : Bytes → Option Json} {payload : Bytes} {j : Json}
    {r : TradeRequest} (hparse : parse payload = some j) (h : Denotes j r) :
    (Mock.TradeRequest.unmarshal parse payload).2 = false := by
  obtain ⟨v, hv, hside⟩ := h.side
  have htext : ∃ s, v = .string s := by
    rcases hside with ⟨rfl, -⟩ | ⟨rfl, -⟩
    · exact ⟨_, rfl⟩
    · exact ⟨_, rfl⟩
  obtain ⟨s, rfl⟩ := htext
  unfold Mock.TradeRequest.unmarshal Go.unmarshal
  rw [hparse]
  cases j with
  | object members => exact a_side_as_text_is_refused (mem_of_at hv) _
  | _ => cases hv

/-! ## Nothing is the same on both sides -/

theorem not_sameOnWire (serverName : Bytes) (m : Message) : ¬ SameOnWire serverName m := by
  intro h
  obtain ⟨hplugin, hmock⟩ := keys_differ m
  obtain ⟨v, hv⟩ := (h.keys (driftedKey m)).mp hplugin
  rw [hmock] at hv
  cases hv

theorem requestTopics_differ (serverName : Bytes) :
    Mock.tradeRequestTopic serverName ≠ tradeRequestTopic serverName := by
  intro h
  have hsuffix : bytes ".mt4_trade_request" = bytes ".trade.request" := List.append_cancel_left h
  exact absurd hsuffix (by decide)

/-- **The mock and the plugin are never the same on the wire**: neither for a message nor for a
request that the plugin accepts. -/
theorem never_interchangeable (lib : JsonLib) (parse : Bytes → Option Json) (serverName : Bytes) :
    (∀ m : Message, ¬ SameOnWire serverName m) ∧
      ∀ payload r, receive lib (tradeRequestTopic serverName) payload = .ok r →
        ¬ SameRequest parse serverName payload r :=
  ⟨not_sameOnWire serverName, fun _ _ _ h => requestTopics_differ serverName h.topic⟩

/-- A request of the plugin's format. -/
def buyPayload : Bytes :=
  bytes "\x7b\"id\":1,\"side\":\"buy\",\"login\":7,\"volume\":1,\"sl\":0,\"tp\":0," ++
    bytes "\"symbol\":\"EURUSD\",\"comment\":\"\"\x7d"

/-- The value of `buyPayload`. -/
def buyJson : Json :=
  .object [
    (bytes "id", .numberUnsigned 1),
    (bytes "side", .string (bytes "buy")),
    (bytes "login", .numberUnsigned 7),
    (bytes "volume", .numberUnsigned 1),
    (bytes "sl", .numberUnsigned 0),
    (bytes "tp", .numberUnsigned 0),
    (bytes "symbol", .string (bytes "EURUSD")),
    (bytes "comment", .string [])]

/-- The plugin accepts a request that the mock does not read as the plugin does. -/
theorem a_buy_request_is_not_the_same :
    receive (JsonLib.ofText buyPayload buyJson) (tradeRequestTopic (bytes "srv")) buyPayload =
        .ok ⟨1, .buy, 7, 1, 0, 0, bytes "EURUSD", []⟩ ∧
      ¬ SameRequest (JsonLib.ofText buyPayload buyJson).parse (bytes "srv") buyPayload
        ⟨1, .buy, 7, 1, 0, 0, bytes "EURUSD", []⟩ := by
  have haccepted : receive (JsonLib.ofText buyPayload buyJson) (tradeRequestTopic (bytes "srv"))
      buyPayload = .ok ⟨1, .buy, 7, 1, 0, 0, bytes "EURUSD", []⟩ := by decide
  exact ⟨haccepted, (never_interchangeable _ _ _).2 _ _ haccepted⟩

/-- **A tick of the mock has a `ts` for the plugin's `timestamp`.** -/
theorem a_tick_of_the_mock_differs :
    ¬ SameOnWire (bytes "srv") (.tick ⟨⟨bytes "EURUSD", by decide, by decide⟩, 1700000000, 1, 2⟩) :=
  not_sameOnWire _ _

end TradeBridge
