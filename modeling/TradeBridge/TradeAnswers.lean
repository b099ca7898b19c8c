import TradeBridge.Mock

/-!
# The answers of the mock

The loop of `src/mock/main.go:186-245` takes a trade request from the topic it has subscribed to and
publishes a `TradeResponse`, which accepts it, with the next order ID, or rejects it, by the number
that is drawn. A payload that does not unmarshal is logged. The loop goes on to answer it all the
same, with the request ID that was decoded before the error, or 0.

`json.Unmarshal` takes the parser of the text as a parameter. What is drawn is one of ten numbers. A
publish that fails is a panic of the mock and is left out.

Results:
* `tradeLoop_answers`: every payload is answered, with the next order ID.
* `response_of_object`: an object that is published tells the response.
* **`answers_exactly_iff`**: each well-formed request is answered exactly once, and nothing else is,
  iff there is nothing else.
* `a_stray_answer`: a payload with a text for its login.
-/

namespace TradeBridge.Mock

open TradeBridge.Lib

/-! ## The loop -/

/-- `TradeResponse`. -/
structure TradeResponse where
  requestID : Int
  orderID : Int
  rejectCode : Int
  rejectMessage : Bytes
  deriving DecidableEq

/-- `json.Marshal(&TradeResponse{…})`. -/
def TradeResponse.marshal (r : TradeResponse) : Json :=
  .object [
    (bytes "request_id", .numberInteger r.requestID),
    (bytes "order_id", .numberInteger r.orderID),
    (bytes "reject_code", .numberInteger r.rejectCode),
    (bytes "reject_message", Go.string r.rejectMessage)]

/-- The topic it publishes its answers on. -/
def tradeResponseTopic (serverName : Bytes) : Bytes := serverName ++ bytes ".mt4_trade_response"

/-- What `sub.NextMsg(10 * time.Second)` returns: a message, `nats.ErrTimeout` or another error. -/
inductive Received where
  | msg (data : Bytes)
  | timeout
  | failure (err : Bytes)

/-- The server name, the parser of `encoding/json`, and what each call of `rand.Intn(10)` returns. -/
structure TradeServer where
  serverName : Bytes
  parse : Bytes → Option Json
  intn : Nat → Fin 10

/-- The state of the loop: `orderID`, how many numbers have been drawn, what has been published, the
data that has been logged, and the error the loop has returned. -/
structure TradeLoop where
  orderID : Int
  drawn : Nat
  published : List (Bytes × TradeResponse)
  logged : List Bytes
  returned : Option Bytes
  deriving DecidableEq

/-- `var orderID int`. -/
def TradeLoop.start : TradeLoop := ⟨0, 0, [], [], none⟩

/-- `orderID++`, of a 64-bit `int`. -/
def increment (orderID : Int) : Int := Int.bmod (orderID + 1) (2 ^ 64)

/-- The response, for the number that is drawn. -/
def respond (requestID orderID : Int) (draw : Fin 10) : TradeResponse :=
  if draw < 5 then ⟨requestID, orderID, 0, []⟩
  else ⟨requestID, 0, 1, bytes "Wrong parameters"⟩

namespace TradeServer

/-- The body of the loop behind `NextMsg`. The branch of the error only logs. -/
def onMsg (m : TradeServer) (s : TradeLoop) (data : Bytes) : TradeLoop :=
  let (tradeRequest, ok) := TradeRequest.unmarshal m.parse data
  let orderID := increment s.orderID
  let response := respond tradeRequest.requestID orderID (m.intn s.drawn)
  { s with
    orderID := orderID
    drawn := s.drawn + 1
    published := s.published ++ [(tradeResponseTopic m.serverName, response)]
    logged := if ok then s.logged else s.logged ++ [data] }

/-- The loop over what it receives, until the context is done. -/
def tradeLoop (m : TradeServer) : TradeLoop → List Received → TradeLoop
  | s, [] => s
  | s, .timeout :: received => m.tradeLoop s received
  | s, .failure err :: _ =>
    { s with returned := some (bytes "failed to get next message: " ++ err) }
  | s, .msg data :: received => m.tradeLoop (m.onMsg s data) received

/-! ## What the answers should be -/

/-- The request of a payload that `json.Unmarshal` accepts. -/
def accepts? (m : TradeServer) (data : Bytes) : Option TradeRequest :=
  match TradeRequest.unmarshal m.parse data with
  | (tradeRequest, true) => some tradeRequest
  | (_, false) => none

end TradeServer

/-- The payloads that the loop takes: those before the error it returns with. -/
def payloads : List Received → List Bytes
  | [] => []
  | .timeout :: received => payloads received
  | .failure _ :: _ => []
  | .msg data :: received => data :: payloads received

/-- The responses that have been published. -/
def TradeLoop.responses (s : TradeLoop) : List TradeResponse := s.published.map Prod.snd

/-- The order IDs of the accepted ones. -/
def TradeLoop.orders (s : TradeLoop) : List Int :=
  (s.responses.filter fun r => r.rejectCode == 0).map TradeResponse.orderID

/-- The mock answers each well-formed request exactly once, and nothing else: its responses are those
to the accepted payloads, in order; another payload leaves them and the order counter alone; and the
orders count up, where a request is not rejected. -/
structure AnswersExactly (m : TradeServer) (received : List Received) : Prop where
  echoes : (m.tradeLoop .start received).responses.map TradeResponse.requestID =
    ((payloads received).filterMap m.accepts?).map TradeRequest.requestID
  topic : ∀ p ∈ (m.tradeLoop .start received).published, p.1 = tradeResponseTopic m.serverName
  silent : ∀ before data after, received = before ++ .msg data :: after → m.accepts? data = none →
    (m.tradeLoop .start (before ++ [.msg data])).responses =
        (m.tradeLoop .start before).responses ∧
      (m.tradeLoop .start (before ++ [.msg data])).orderID = (m.tradeLoop .start before).orderID
  positive : ∀ orderID ∈ (m.tradeLoop .start received).orders, 0 < orderID
  increasing : (m.tradeLoop .start received).orders.Pairwise (· < ·)
  rejected : ∀ r ∈ (m.tradeLoop .start received).responses, r.rejectCode ≠ 0 → r.orderID = 0
  drawn : ∀ i r, (m.tradeLoop .start received).responses[i]? = some r →
    (r.rejectCode = 0 ↔ m.intn i < 5)

/-! ## A response -/

theorem respond_requestID (requestID orderID : Int) (draw : Fin 10) :
    (respond requestID orderID draw).requestID = requestID := by
  unfold respond
  split <;> rfl

/-- **The response accepts by the number that is drawn**; then it has the order ID, else none. -/
theorem respond_accepts (requestID orderID : Int) (draw : Fin 10) :
    ((respond requestID orderID draw).rejectCode = 0 ↔ draw < 5) ∧
    ((respond requestID orderID draw).rejectCode = 0 →
      (respond requestID orderID draw).orderID = orderID) ∧
    ((respond requestID orderID draw).rejectCode ≠ 0 →
      (respond requestID orderID draw).orderID = 0) := by
  unfold respond
  by_cases h : draw < 5
  · rw [if_pos h]
    exact ⟨iff_of_true rfl h, fun _ => rfl, fun hne => absurd rfl hne⟩
  · rw [if_neg h]
    exact ⟨iff_of_false Int.one_ne_zero h, fun h1 => absurd h1 Int.one_ne_zero, fun _ => rfl⟩

theorem respond_message_valid (requestID orderID : Int) (draw : Fin 10) :
    utf8Valid (respond requestID orderID draw).rejectMessage = true := by
  have hnone : utf8Valid [] = true := by decide
  have htext : utf8Valid (bytes "Wrong parameters") = true := by decide
  unfold respond
  split
  · exact hnone
  · exact htext

theorem TradeResponse.marshal_injective {a b : TradeResponse}
    (ha : utf8Valid a.rejectMessage = true) (hb : utf8Valid b.rejectMessage = true)
    (h : a.marshal = b.marshal) : a = b := by
  obtain ⟨aID, aOrder, aCode, aMessage⟩ := a
  obtain ⟨bID, bOrder, bCode, bMessage⟩ := b
  simp only [marshal, Go.string, Go.coerceUtf8_of_valid ha, Go.coerceUtf8_of_valid hb,
    Json.object.injEq, List.cons.injEq, Prod.mk.injEq, Json.numberInteger.injEq,
    Json.string.injEq, true_and, and_true] at h
  obtain ⟨rfl, rfl, rfl, rfl⟩ := h
  rfl

/-! ## Every payload is answered -/

variable {m : TradeServer}

namespace TradeServer

/-- The answer to the payload `i` places behind the state `s`. -/
def answerTo (m : TradeServer) (s : TradeLoop) (i : Nat) (data : Bytes) : Bytes × TradeResponse :=
  (tradeResponseTopic m.serverName,
    respond (TradeRequest.unmarshal m.parse data).1.requestID
      (Int.bmod (s.orderID + (i + 1 : Nat)) (2 ^ 64)) (m.intn (s.drawn + i)))

theorem answerTo_onMsg (s : TradeLoop) (data : Bytes) :
    m.answerTo (m.onMsg s data) = fun i => m.answerTo s (i + 1) := by
  funext i data'
  have horder : Int.bmod ((m.onMsg s data).orderID + (i + 1 : Nat)) (2 ^ 64) =
      Int.bmod (s.orderID + (i + 1 + 1 : Nat)) (2 ^ 64) := by
    have hcast : s.orderID + 1 + ((i + 1 : Nat) : Int) = s.orderID + (i + 1 + 1 : Nat) := by omega
    rw [← hcast]
    exact Int.bmod_add_bmod
  have hdrawn : (m.onMsg s data).drawn + i = s.drawn + (i + 1) := by
    show s.drawn + 1 + i = _
    omega
  unfold answerTo
  rw [horder, hdrawn]

/-- **The loop answers every payload**, of which it counts one more. -/
theorem tradeLoop_answers (received : List Received) (s : TradeLoop) :
    (m.tradeLoop s received).published =
      s.published ++ (payloads received).mapIdx (m.answerTo s) := by
  induction received generalizing s with
  | nil => simp [tradeLoop, payloads]
  | cons r received ih =>
    cases r with
    | timeout => exact ih s
    | failure err => simp [tradeLoop, payloads]
    | msg data =>
      rw [tradeLoop, ih, answerTo_onMsg, payloads, List.mapIdx_cons, List.append_cons]
      rfl

theorem responses_getElem? (received : List Received) (i : Nat) :
    (m.tradeLoop .start received).responses[i]? = (payloads received)[i]?.map fun data =>
      respond (TradeRequest.unmarshal m.parse data).1.requestID
        (Int.bmod (i + 1 : Nat) (2 ^ 64)) (m.intn i) := by
  unfold TradeLoop.responses
  rw [tradeLoop_answers, List.getElem?_map, TradeLoop.start, List.nil_append, List.getElem?_mapIdx,
    Option.map_map]
  refine congrArg (fun f => Option.map f _) (funext fun data => ?_)
  show respond _ (Int.bmod (0 + (i + 1 : Nat)) (2 ^ 64)) (m.intn (0 + i)) = _
  rw [Int.zero_add, Nat.zero_add]

theorem responses_length (received : List Received) :
    (m.tradeLoop .start received).responses.length = (payloads received).length := by
  simp [TradeLoop.responses, tradeLoop_answers, TradeLoop.start]

/-- Each response is the one to some payload. -/
theorem response_cases {received : List Received} {i : Nat} {r : TradeResponse}
    (hr : (m.tradeLoop .start received).responses[i]? = some r) :
    ∃ requestID, r = respond requestID (Int.bmod (i + 1 : Nat) (2 ^ 64)) (m.intn i) := by
  rw [responses_getElem?] at hr
  obtain ⟨data, -, rfl⟩ := Option.map_eq_some_iff.mp hr
  exact ⟨_, rfl⟩

/-- **What is published tells the response**: two responses with the same object are the same. -/
theorem response_of_object {received : List Received} {r r' : TradeResponse}
    (hr : r ∈ (m.tradeLoop .start received).responses)
    (hr' : r' ∈ (m.tradeLoop .start received).responses) (h : r.marshal = r'.marshal) : r = r' := by
  obtain ⟨i, hi⟩ := List.mem_iff_getElem?.mp hr
  obtain ⟨j, hj⟩ := List.mem_iff_getElem?.mp hr'
  obtain ⟨requestID, rfl⟩ := response_cases hi
  obtain ⟨requestID', rfl⟩ := response_cases hj
  exact TradeResponse.marshal_injective (respond_message_valid _ _ _)
    (respond_message_valid _ _ _) h

theorem topic_of_published {received : List Received} {p : Bytes × TradeResponse}
    (hp : p ∈ (m.tradeLoop .start received).published) : p.1 = tradeResponseTopic m.serverName := by
  rw [tradeLoop_answers, TradeLoop.start, List.nil_append] at hp
  obtain ⟨i, hi, rfl⟩ := List.mem_mapIdx.mp hp
  rfl

theorem rejected_order {received : List Received} {r : TradeResponse}
    (hr : r ∈ (m.tradeLoop .start received).responses) (hcode : r.rejectCode ≠ 0) :
    r.orderID = 0 := by
  obtain ⟨i, hi⟩ := List.mem_iff_getElem?.mp hr
  obtain ⟨requestID, rfl⟩ := response_cases hi
  exact (respond_accepts _ _ _).2.2 hcode

/-- The loop has returned, or it takes the next payload. -/
theorem tradeLoop_append_msg : ∀ (before : List Received) (s : TradeLoop) (data : Bytes)
    (after : List Received),
    m.tradeLoop s (before ++ [.msg data]) = m.tradeLoop s before ∨
      data ∈ payloads (before ++ .msg data :: after)
  | [], _, _, _ => Or.inr List.mem_cons_self
  | .timeout :: before, s, data, after => tradeLoop_append_msg before s data after
  | .failure _ :: _, _, _, _ => Or.inl rfl
  | .msg data' :: before, s, data, after =>
    (tradeLoop_append_msg before (m.onMsg s data') data after).imp_right (List.mem_cons_of_mem _)

/-! ## When nothing else is answered -/

theorem accepts?_of_ok {data : Bytes} (h : (TradeRequest.unmarshal m.parse data).2 = true) :
    m.accepts? data = some (TradeRequest.unmarshal m.parse data).1 := by
  unfold accepts?
  rw [← Prod.eta (TradeRequest.unmarshal m.parse data), h]

theorem ok_of_accepts? {data : Bytes} (h : (m.accepts? data).isSome = true) :
    (TradeRequest.unmarshal m.parse data).2 = true := by
  unfold accepts? at h
  rw [← Prod.eta (TradeRequest.unmarshal m.parse data)] at h
  cases hok : (TradeRequest.unmarshal m.parse data).2 with
  | true => rfl
  | false =>
    rw [hok] at h
    cases h

theorem accepted_of_ok {datas : List Bytes}
    (h : ∀ data ∈ datas, (TradeRequest.unmarshal m.parse data).2 = true) :
    datas.filterMap m.accepts? = datas.map fun data => (TradeRequest.unmarshal m.parse data).1 := by
  rw [← List.filterMap_eq_map]
  exact List.filterMap_congr fun data hdata => accepts?_of_ok (h data hdata)

/-- Where every payload is accepted, the responses echo what is accepted. -/
theorem echoes_of_ok {received : List Received}
    (h : ∀ data ∈ payloads received, (TradeRequest.unmarshal m.parse data).2 = true) :
    (m.tradeLoop .start received).responses.map TradeResponse.requestID =
      ((payloads received).filterMap m.accepts?).map TradeRequest.requestID := by
  rw [accepted_of_ok h]
  refine List.ext_getElem? fun i => ?_
  rw [List.getElem?_map, responses_getElem?, List.getElem?_map, List.getElem?_map, Option.map_map,
    Option.map_map]
  exact congrArg (fun f => Option.map f _) (funext fun data => respond_requestID _ _ _)

/-- The other way round, as many responses as accepted payloads means that all are. -/
theorem ok_of_echoes {received : List Received}
    (h : (m.tradeLoop .start received).responses.map TradeResponse.requestID =
      ((payloads received).filterMap m.accepts?).map TradeRequest.requestID) :
    ∀ data ∈ payloads received, (TradeRequest.unmarshal m.parse data).2 = true := by
  have hlength := congrArg List.length h
  rw [List.length_map, List.length_map, responses_length] at hlength
  exact fun data hdata => ok_of_accepts? (List.filterMap_length_eq_length.mp hlength.symm data hdata)

/-! ## The orders -/

/-- Before the counter overflows, the order of response `i` is `i + 1`. -/
theorem order_of_response {received : List Received} (hlen : (payloads received).length < 2 ^ 63)
    {i : Nat} {r : TradeResponse} (hr : (m.tradeLoop .start received).responses[i]? = some r)
    (hcode : r.rejectCode = 0) : r.orderID = (i + 1 : Nat) := by
  have hi : i < (payloads received).length := by
    rw [← responses_length (m := m)]
    exact (List.getElem?_eq_some_iff.mp hr).1
  obtain ⟨requestID, rfl⟩ := response_cases hr
  rw [(respond_accepts _ _ _).2.1 hcode]
  exact Int.bmod_eq_of_le (by omega) (by omega)

theorem orders_positive {received : List Received} (hlen : (payloads received).length < 2 ^ 63) :
    ∀ orderID ∈ (m.tradeLoop .start received).orders, 0 < orderID := by
  intro orderID hmem
  obtain ⟨r, hr, rfl⟩ := List.mem_map.mp hmem
  obtain ⟨hr, hcode⟩ := List.mem_filter.mp hr
  obtain ⟨i, hi⟩ := List.mem_iff_getElem?.mp hr
  rw [order_of_response hlen hi (beq_iff_eq.mp hcode)]
  omega

theorem orders_increasing {received : List Received} (hlen : (payloads received).length < 2 ^ 63) :
    (m.tradeLoop .start received).orders.Pairwise (· < ·) := by
  refine List.pairwise_map.mpr (List.pairwise_filter.mpr ?_)
  refine List.pairwise_iff_getElem.mpr fun i j hi hj hij hcode hcode' => ?_
  rw [order_of_response hlen (List.getElem?_eq_getElem hi) (beq_iff_eq.mp hcode),
    order_of_response hlen (List.getElem?_eq_getElem hj) (beq_iff_eq.mp hcode')]
  omega

/-- **The counter overflows**: the order of response number 2^63 is negative, if it is accepted. -/
theorem negative_of_overflow {received : List Received} (hdraw : ∀ i, m.intn i < 5)
    (hlen : 2 ^ 63 ≤ (payloads received).length) :
    ∃ orderID ∈ (m.tradeLoop .start received).orders, orderID < 0 := by
  obtain ⟨data, hdata⟩ : ∃ data, (payloads received)[2 ^ 63 - 1]? = some data :=
    ⟨_, List.getElem?_eq_getElem (by omega)⟩
  have hresponse := responses_getElem? (m := m) received (2 ^ 63 - 1)
  rw [hdata, Option.map_some] at hresponse
  have hcode := (respond_accepts (TradeRequest.unmarshal m.parse data).1.requestID
    (Int.bmod (2 ^ 63 - 1 + 1 : Nat) (2 ^ 64)) (m.intn (2 ^ 63 - 1))).1.mpr (hdraw _)
  refine ⟨_, List.mem_map.mpr ⟨_, List.mem_filter.mpr ⟨List.mem_of_getElem? hresponse,
    beq_iff_eq.mpr hcode⟩, rfl⟩, ?_⟩
  rw [(respond_accepts _ _ _).2.1 hcode]
  decide

end TradeServer

open TradeServer

/-- **When the mock answers each well-formed request exactly once**: whatever is drawn, iff every
payload unmarshals, and there are less than 2^63. -/
theorem answers_exactly_iff (serverName : Bytes) (parse : Bytes → Option Json)
    (received : List Received) :
    (∀ intn, AnswersExactly ⟨serverName, parse, intn⟩ received) ↔
      (∀ data ∈ payloads received, (TradeRequest.unmarshal parse data).2 = true) ∧
        (payloads received).length < 2 ^ 63 := by
  constructor
  · intro h
    have hall := h fun _ => 0
    refine ⟨ok_of_echoes hall.echoes, ?_⟩
    by_contra hlong
    have hdraw : (0 : Fin 10) < 5 := by decide
    obtain ⟨orderID, hmem, hneg⟩ := negative_of_overflow
      (m := ⟨serverName, parse, fun _ => 0⟩) (fun _ => hdraw) (Nat.not_lt.mp hlong)
    have := hall.positive orderID hmem
    omega
  · rintro ⟨hok, hlen⟩ intn
    exact {
      echoes := echoes_of_ok hok
      topic := fun p hp => topic_of_published hp
      silent := by
        intro before data after hreceived hnone
        rcases tradeLoop_append_msg (m := ⟨serverName, parse, intn⟩) before .start data after with
          hsame | hmem
        · rw [hsame]
          exact ⟨rfl, rfl⟩
        · rw [accepts?_of_ok (hok data (hreceived ▸ hmem))] at hnone
          cases hnone
      positive := orders_positive hlen
      increasing := orders_increasing hlen
      rejected := fun r hr => rejected_order hr
      drawn := by
        intro i r hr
        obtain ⟨requestID, rfl⟩ := response_cases hr
        exact (respond_accepts _ _ _).1 }

/-! ## A payload that does not unmarshal -/

/-- A request with a text for its login. -/
def textLoginPayload : Bytes := bytes "\x7b\"request_id\":7,\"login\":\"7\"\x7d"

/-- The value of `textLoginPayload`. -/
def textLoginJson : Json :=
  .object [(bytes "request_id", .numberUnsigned 7), (bytes "login", .string (bytes "7"))]

/-- **A stray answer**: the payload is an error of `Unmarshal`, and the mock accepts it as request 7
with order 1. -/
theorem a_stray_answer : ¬ ∀ (m : TradeServer) (received : List Received),
    AnswersExactly m received := by
  intro h
  have hall := h ⟨bytes "srv", (JsonLib.ofText textLoginPayload textLoginJson).parse, fun _ => 0⟩
    [.timeout, .msg textLoginPayload]
  exact absurd hall.echoes (by decide)

end TradeBridge.Mock
