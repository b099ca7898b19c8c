import TradeBridge.Lib.Json
import TradeBridge.Server

/-!
# `marshaling.cpp` and `json::marshaler`

`to_json` of the three published messages, `from_json` of a trade request, and the marshaler that
turns them into and from payloads. `marshal` lets an exception of `dump` through; `unmarshal`
turns a discarded text and every exception of `get` into an error text.

Results:
* `fromJson_ok_iff`: what `from_json` accepts, member by member (`Reads`).
* `marshal_eq_ok_iff`: `marshal` returns iff every string of the message is valid UTF-8, by message
  kind in `candle_encodable`, `groupSymbol_encodable` and `tick_encodable`.
-/

namespace TradeBridge

open TradeBridge.Lib

/-! ## `to_json` -/

/-- `to_json(const FeedTick&)`. -/
def FeedTick.toJson (tick : FeedTick) : Json :=
  .object [
    (bytes "symbol", .string tick.symbol.text),
    (bytes "bid", .numberFloat tick.bid),
    (bytes "ask", .numberFloat tick.ask),
    (bytes "timestamp", .numberInteger tick.ctm.toInt)]

/-- `to_json(const candle&)`. -/
def Candle.toJson (b : Candle) : Json :=
  .object [
    (bytes "symbol", .string b.symbol),
    (bytes "timestamp", .numberInteger b.ts.toInt),
    (bytes "open", .numberFloat b.openPrice),
    (bytes "high", .numberFloat b.high),
    (bytes "low", .numberFloat b.low),
    (bytes "close", .numberFloat b.close)]

/-- `NLOHMANN_JSON_SERIALIZE_ENUM(group_symbol::trade_mode, …)`. -/
def TradeMode.toJson (m : TradeMode) : Json :=
  Json.ofEnum (.tradeNo, bytes "no_trade")
    [(.tradeClose, bytes "close_only"), (.tradeFull, bytes "full"),
      (.tradeLongOnly, bytes "long_only")] m

/-- `to_json(const group_symbol&)`. -/
def GroupSymbol.toJson (s : GroupSymbol) : Json :=
  .object [
    (bytes "account_group", .string s.accountGroup),
    (bytes "symbol", .string s.symbol),
    (bytes "description", .string s.description),
    (bytes "digits", .numberInteger s.digits.toInt),
    (bytes "trade", s.mode.toJson),
    (bytes "contract_size", .numberFloat s.contractSize),
    (bytes "tick_size", .numberFloat s.tickSize),
    (bytes "swap_long", .numberFloat s.swapLong),
    (bytes "swap_short", .numberFloat s.swapShort),
    (bytes "lot_min", .numberInteger s.lotMin.toInt),
    (bytes "lot_max", .numberInteger s.lotMax.toInt),
    (bytes "lot_step", .numberInteger s.lotStep.toInt)]

/-! ## `from_json` -/

/-- `NLOHMANN_JSON_SERIALIZE_ENUM(trade_request::order_side, …)`. -/
def OrderSide.fromJson (j : Json) : OrderSide :=
  Json.getEnum (.buy, bytes "buy") [(.sell, bytes "sell")] j

/-- `mt4::from_json`. -/
def TradeRequest.fromJson (lib : JsonLib) (j : Json) : Except JsonError TradeRequest := do
  let requestId ← (← j.at (bytes "id")).getInt lib
  let side := OrderSide.fromJson (← j.at (bytes "side"))
  let login ← (← j.at (bytes "login")).getInt lib
  let volume ← (← j.at (bytes "volume")).getDouble
  let sl ← (← j.at (bytes "sl")).getDouble
  let tp ← (← j.at (bytes "tp")).getDouble
  let symbol ← (← j.at (bytes "symbol")).getString
  let comment ← (← j.at (bytes "comment")).getString
  return { requestId, side, login, volume, sl, tp, symbol, comment }

/-! ## `json::marshaler` -/

/-- `marshaler::marshal`: the payload, or the exception `dump` throws. -/
def marshal (j : Json) : Except JsonError Json :=
  if j.encodable then .ok j else .error .typeError

/-- `marshaler::unmarshal<T>`, where `get` is `j.get<T>()`. -/
def unmarshal {μ : Type} (lib : JsonLib) (get : Json → Except JsonError μ) (sv : Bytes) :
    Except Bytes μ :=
  match lib.parse sv with
  | none => .error (bytes "invalid json")
  | some j =>
    match get j with
    | .ok v => .ok v
    | .error _ => .error (bytes "invalid message")

/-! ## What `from_json` accepts -/

/-- The members `from_json` reads, and the request it builds of them. -/
structure Reads (lib : JsonLib) (j : Json) (r : TradeRequest) : Prop where
  id : ∃ v, j.at (bytes "id") = .ok v ∧ v.getInt lib = .ok r.requestId
  side : ∃ v, j.at (bytes "side") = .ok v ∧ OrderSide.fromJson v = r.side
  login : ∃ v, j.at (bytes "login") = .ok v ∧ v.getInt lib = .ok r.login
  volume : ∃ v, j.at (bytes "volume") = .ok v ∧ v.getDouble = .ok r.volume
  sl : ∃ v, j.at (bytes "sl") = .ok v ∧ v.getDouble = .ok r.sl
  tp : ∃ v, j.at (bytes "tp") = .ok v ∧ v.getDouble = .ok r.tp
  symbol : ∃ v, j.at (bytes "symbol") = .ok v ∧ v.getString = .ok r.symbol
  comment : ∃ v, j.at (bytes "comment") = .ok v ∧ v.getString = .ok r.comment

theorem bind_ok {ε α β : Type} {x : Except ε α} {f : α → Except ε β} {b : β} :
    x >>= f = .ok b ↔ ∃ a, x = .ok a ∧ f a = .ok b := by
  cases x with
  | ok a => exact ⟨fun h => ⟨a, rfl, h⟩, fun ⟨_, ha, h⟩ => by cases ha; exact h⟩
  | error e =>
    exact ⟨fun h => absurd h (by simp [bind, Except.bind]), fun ⟨_, ha, _⟩ => by cases ha⟩

/-- **`from_json` builds `r` iff every member reads as `r`'s field.** -/
theorem fromJson_ok_iff {lib : JsonLib} {j : Json} {r : TradeRequest} :
    TradeRequest.fromJson lib j = .ok r ↔ Reads lib j r := by
  unfold TradeRequest.fromJson
  simp only [bind_ok]
  constructor
  · rintro ⟨vi, hi, i, hri, vs, hs, vl, hl, l, hrl, vv, hv, v, hrv, vsl, hsl, sl, hrsl, vtp, htp,
      tp, hrtp, vsy, hsy, sy, hrsy, vc, hc, c, hrc, hret⟩
    obtain rfl := Except.ok.inj hret
    exact ⟨⟨vi, hi, hri⟩, ⟨vs, hs, rfl⟩, ⟨vl, hl, hrl⟩, ⟨vv, hv, hrv⟩, ⟨vsl, hsl, hrsl⟩,
      ⟨vtp, htp, hrtp⟩, ⟨vsy, hsy, hrsy⟩, ⟨vc, hc, hrc⟩⟩
  · rintro ⟨⟨vi, hi, hri⟩, ⟨vs, hs, hrs⟩, ⟨vl, hl, hrl⟩, ⟨vv, hv, hrv⟩, ⟨vsl, hsl, hrsl⟩,
      ⟨vtp, htp, hrtp⟩, ⟨vsy, hsy, hrsy⟩, ⟨vc, hc, hrc⟩⟩
    refine ⟨vi, hi, _, hri, vs, hs, vl, hl, _, hrl, vv, hv, _, hrv, vsl, hsl, _, hrsl, vtp, htp,
      _, hrtp, vsy, hsy, _, hrsy, vc, hc, _, hrc, ?_⟩
    rw [hrs]
    rfl

/-- Every JSON value reads as a side: `SELL` for `"sell"`, `BUY` for anything else. -/
theorem orderSide_fromJson (j : Json) :
    OrderSide.fromJson j = if j.isString (bytes "sell") then .sell else .buy := by
  unfold OrderSide.fromJson Json.getEnum
  simp only [List.find?_cons, List.find?_nil]
  by_cases hb : j.isString (bytes "buy") = true
  · have hs : j.isString (bytes "sell") = false := by
      rw [Json.isString_iff.mp hb]
      decide
    rw [hb, hs]
    rfl
  · rw [Bool.not_eq_true] at hb
    rw [hb]
    by_cases hs : j.isString (bytes "sell") = true
    · rw [hs]
      rfl
    · rw [Bool.not_eq_true] at hs
      rw [hs]
      rfl

/-! ## Which messages can be encoded -/

theorem marshal_eq_ok_iff {j j' : Json} : marshal j = .ok j' ↔ j.encodable = true ∧ j' = j := by
  unfold marshal
  split
  · rename_i h
    simp only [Except.ok.injEq, h, true_and]
    exact eq_comm
  · rename_i h
    simp [h]

theorem tradeMode_encodable (m : TradeMode) : m.toJson.encodable = true := by
  cases m with
  | other raw =>
    have : (TradeMode.other raw).toJson = .string (bytes "no_trade") := rfl
    rw [this]
    decide
  | _ => decide

theorem tick_encodable (t : FeedTick) : t.toJson.encodable = utf8Valid t.symbol.text := by
  have hk : ∀ k ∈ [bytes "symbol", bytes "bid", bytes "ask", bytes "timestamp"],
      utf8Valid k = true := by decide
  simp only [List.forall_mem_cons] at hk
  simp only [FeedTick.toJson, Json.encodable, Json.encodable.encodableMembers, hk, Bool.true_and,
    Bool.and_true]

theorem candle_encodable (c : Candle) : c.toJson.encodable = utf8Valid c.symbol := by
  have hk : ∀ k ∈ [bytes "symbol", bytes "timestamp", bytes "open", bytes "high", bytes "low",
      bytes "close"], utf8Valid k = true := by decide
  simp only [List.forall_mem_cons] at hk
  simp only [Candle.toJson, Json.encodable, Json.encodable.encodableMembers, hk, Bool.true_and,
    Bool.and_true]

theorem groupSymbol_encodable (m : GroupSymbol) : m.toJson.encodable =
    (utf8Valid m.accountGroup && utf8Valid m.symbol && utf8Valid m.description) := by
  have hk : ∀ k ∈ [bytes "account_group", bytes "symbol", bytes "description", bytes "digits",
      bytes "trade", bytes "contract_size", bytes "tick_size", bytes "swap_long",
      bytes "swap_short", bytes "lot_min", bytes "lot_max", bytes "lot_step"],
      utf8Valid k = true := by decide
  simp only [List.forall_mem_cons] at hk
  simp only [GroupSymbol.toJson, Json.encodable, Json.encodable.encodableMembers, hk,
    tradeMode_encodable, Bool.true_and, Bool.and_true, Bool.and_assoc]

end TradeBridge
