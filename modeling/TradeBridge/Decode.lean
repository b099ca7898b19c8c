import TradeBridge.Nats

/-!
# Decoding a trade request

`receive` is the reader of the trade-request subscription on a delivered payload: `natsMsg_GetData`,
`marshaler::unmarshal`, `mt4::from_json`. `IsRequest` says, with no reference to the code, which
request a payload denotes: the whole payload is one JSON object, `id` and `login` are integers of
`int32`, `side` is `"buy"` or `"sell"`. `volume`, `sl` and `tp` are of type `double`, so a number
there stands for the `double` nearest to it (`0.1` as much as `2^53 + 1`), which is what
`Json.doubleValue?` gives. No JSON text holds a NUL byte, which is why `IsRequest` asks for its
absence; the library itself never sees one.

Results:
* `receive_ok_iff`, `receive_error`: the reader accepts what `from_json` can convert in the payload
  cut at its first NUL (`Reads`), and answers every other payload with the unmarshal error.
* `reads_of_denotes`, `denotes_of_reads`: the reader and the format agree on the requests whose
  numbers and side are `Exact`.
* **`decodesExactly_iff`**: the reader accepts exactly the format on a payload iff that payload is
  not one of those the library converts although it is none: cut at a NUL, a number that is no
  `int32` integer, an unknown side.
-/

namespace TradeBridge

open TradeBridge.Lib

/-- The reader of the trade-request subscription, on a payload delivered with `NATS_OK`. -/
def receive (lib : JsonLib) (topicName payload : Bytes) : ReadMessageResult TradeRequest :=
  readMessage lib (TradeRequest.fromJson lib) topicName ⟨.ok, payload⟩

/-! ## The format -/

/-- The JSON value `j` denotes the request `r`; a number of `volume`, `sl` or `tp` stands for the
`double` nearest to it. -/
structure Denotes (j : Json) (r : TradeRequest) : Prop where
  id : ∃ v, j.at (bytes "id") = .ok v ∧ v.intValue? = some r.requestId.toInt
  side : ∃ v, j.at (bytes "side") = .ok v ∧
    (v = .string (bytes "buy") ∧ r.side = .buy ∨ v = .string (bytes "sell") ∧ r.side = .sell)
  login : ∃ v, j.at (bytes "login") = .ok v ∧ v.intValue? = some r.login.toInt
  volume : ∃ v, j.at (bytes "volume") = .ok v ∧ v.doubleValue? = some r.volume
  sl : ∃ v, j.at (bytes "sl") = .ok v ∧ v.doubleValue? = some r.sl
  tp : ∃ v, j.at (bytes "tp") = .ok v ∧ v.doubleValue? = some r.tp
  symbol : j.at (bytes "symbol") = .ok (.string r.symbol)
  comment : j.at (bytes "comment") = .ok (.string r.comment)

/-- The whole payload is one JSON text, and it denotes `r`. -/
def IsRequest (lib : JsonLib) (payload : Bytes) (r : TradeRequest) : Prop :=
  (0 : UInt8) ∉ payload ∧ ∃ j, lib.parse payload = some j ∧ Denotes j r

/-- The reader's unmarshal error. -/
def IsUnmarshalError (topicName payload : Bytes) (result : ReadMessageResult TradeRequest) :
    Prop :=
  ∃ e, result = .error (.error (bytes "Failed to unmarshal message from topic: " ++ topicName ++
    bytes ", data: " ++ cString payload ++ bytes " error: " ++ e))

/-- The reader yields `r` iff the payload denotes `r`, and the unmarshal error iff it denotes
nothing. -/
def DecodesExactly (lib : JsonLib) (topicName payload : Bytes) : Prop :=
  (∀ r, receive lib topicName payload = .ok r ↔ IsRequest lib payload r) ∧
    ((¬ ∃ r, IsRequest lib payload r) →
      IsUnmarshalError topicName payload (receive lib topicName payload))

/-! ## What the library converts -/

/-- All eight members are there, each of a kind the library converts to its field's type. -/
structure Convertible (j : Json) : Prop where
  id : ∃ v, j.at (bytes "id") = .ok v ∧ v.castable = true
  side : ∃ v, j.at (bytes "side") = .ok v
  login : ∃ v, j.at (bytes "login") = .ok v ∧ v.castable = true
  volume : ∃ v q, j.at (bytes "volume") = .ok v ∧ v.doubleValue? = some q
  sl : ∃ v q, j.at (bytes "sl") = .ok v ∧ v.doubleValue? = some q
  tp : ∃ v q, j.at (bytes "tp") = .ok v ∧ v.doubleValue? = some q
  symbol : ∃ s, j.at (bytes "symbol") = .ok (.string s)
  comment : ∃ s, j.at (bytes "comment") = .ok (.string s)

/-- The member is an integer of `int32`. -/
def IntMember (j : Json) (key : Bytes) : Prop :=
  ∃ v i, j.at key = .ok v ∧ v.intValue? = some i ∧ Json.InInt32 i

/-- The numbers that become an `int` are integers of `int32`, and the side is one of the two. Of the
numbers that become a `double` nothing is asked: each stands for its nearest one. -/
structure Exact (j : Json) : Prop where
  id : IntMember j (bytes "id")
  login : IntMember j (bytes "login")
  side : ∃ v, j.at (bytes "side") = .ok v ∧
    (v = .string (bytes "buy") ∨ v = .string (bytes "sell"))

/-- The payload is not one that the library converts although it denotes no request: whatever
converts, after the cut at the first NUL, was not cut and is exact. -/
def NotMisread (lib : JsonLib) (payload : Bytes) : Prop :=
  ∀ j, lib.parse (cString payload) = some j → Convertible j → (0 : UInt8) ∉ payload ∧ Exact j

/-! ## The reader -/

theorem receive_eq (lib : JsonLib) (topicName payload : Bytes) :
    receive lib topicName payload =
      match unmarshal lib (TradeRequest.fromJson lib) (cString payload) with
      | .ok v => .ok v
      | .error e =>
        .error (.error (bytes "Failed to unmarshal message from topic: " ++ topicName ++
          bytes ", data: " ++ cString payload ++ bytes " error: " ++ e)) := by
  simp only [receive, readMessage]
  cases unmarshal lib (TradeRequest.fromJson lib) (cString payload) <;> rfl

theorem receive_ok_iff {lib : JsonLib} {topicName payload : Bytes} {r : TradeRequest} :
    receive lib topicName payload = .ok r ↔
      ∃ j, lib.parse (cString payload) = some j ∧ Reads lib j r := by
  rw [receive_eq]
  unfold unmarshal
  cases hp : lib.parse (cString payload) with
  | none => simp
  | some j =>
    simp only [Option.some.injEq, exists_eq_left', ← fromJson_ok_iff]
    cases hj : TradeRequest.fromJson lib j <;> simp

theorem receive_error {lib : JsonLib} {topicName payload : Bytes}
    (h : ∀ r, receive lib topicName payload ≠ .ok r) :
    IsUnmarshalError topicName payload (receive lib topicName payload) := by
  rw [receive_eq] at h ⊢
  cases hu : unmarshal lib (TradeRequest.fromJson lib) (cString payload) with
  | ok v =>
    rw [hu] at h
    exact absurd rfl (h v)
  | error e => exact ⟨e, rfl⟩

/-! ## The reader and the format -/

theorem inInt32_toInt (i : Int32) : Json.InInt32 i.toInt :=
  ⟨Int32.le_toInt i, Int32.toInt_lt i⟩

theorem convertible_iff_reads (lib : JsonLib) {j : Json} :
    Convertible j ↔ ∃ r, Reads lib j r := by
  constructor
  · rintro ⟨⟨vi, hi, hci⟩, ⟨vs, hs⟩, ⟨vl, hl, hcl⟩, ⟨vv, qv, hv, hdv⟩, ⟨vsl, qsl, hsl, hdsl⟩,
      ⟨vtp, qtp, htp, hdtp⟩, ⟨sy, hsy⟩, ⟨c, hc⟩⟩
    obtain ⟨i, hi'⟩ := (Json.getInt_isOk_iff lib).mpr hci
    obtain ⟨l, hl'⟩ := (Json.getInt_isOk_iff lib).mpr hcl
    exact ⟨⟨i, OrderSide.fromJson vs, l, qv, qsl, qtp, sy, c⟩, ⟨vi, hi, hi'⟩, ⟨vs, hs, rfl⟩,
      ⟨vl, hl, hl'⟩, ⟨vv, hv, Json.getDouble_ok_iff.mpr hdv⟩,
      ⟨vsl, hsl, Json.getDouble_ok_iff.mpr hdsl⟩, ⟨vtp, htp, Json.getDouble_ok_iff.mpr hdtp⟩,
      ⟨_, hsy, rfl⟩, ⟨_, hc, rfl⟩⟩
  · rintro ⟨r, ⟨vi, hi, hi'⟩, ⟨vs, hs, -⟩, ⟨vl, hl, hl'⟩, ⟨vv, hv, hdv⟩, ⟨vsl, hsl, hdsl⟩,
      ⟨vtp, htp, hdtp⟩, ⟨vsy, hsy, hdsy⟩, ⟨vc, hc, hdc⟩⟩
    obtain rfl := Json.getString_ok.mp hdsy
    obtain rfl := Json.getString_ok.mp hdc
    exact ⟨⟨vi, hi, (Json.getInt_isOk_iff lib).mp ⟨_, hi'⟩⟩, ⟨vs, hs⟩,
      ⟨vl, hl, (Json.getInt_isOk_iff lib).mp ⟨_, hl'⟩⟩, ⟨vv, _, hv, Json.getDouble_ok_iff.mp hdv⟩,
      ⟨vsl, _, hsl, Json.getDouble_ok_iff.mp hdsl⟩, ⟨vtp, _, htp, Json.getDouble_ok_iff.mp hdtp⟩,
      ⟨_, hsy⟩, ⟨_, hc⟩⟩

theorem exact_of_denotes {j : Json} {r : TradeRequest} (h : Denotes j r) : Exact j := by
  obtain ⟨vi, hi, hii⟩ := h.id
  obtain ⟨vl, hl, hli⟩ := h.login
  obtain ⟨vs, hs, hside⟩ := h.side
  exact ⟨⟨vi, _, hi, hii, inInt32_toInt _⟩, ⟨vl, _, hl, hli, inInt32_toInt _⟩,
    ⟨vs, hs, hside.imp And.left And.left⟩⟩

theorem reads_of_denotes (lib : JsonLib) {j : Json} {r : TradeRequest} (h : Denotes j r) :
    Reads lib j r := by
  have hint : ∀ {v : Json} {i : Int32}, v.intValue? = some i.toInt → v.getInt lib = .ok i :=
    fun {v i} hv => by
      rw [Json.getInt_of_intValue lib hv (inInt32_toInt i), Int32.ofInt_toInt]
  obtain ⟨vi, hi, hii⟩ := h.id
  obtain ⟨vl, hl, hli⟩ := h.login
  obtain ⟨vs, hs, hside⟩ := h.side
  obtain ⟨vv, hv, hdv⟩ := h.volume
  obtain ⟨vsl, hsl, hdsl⟩ := h.sl
  obtain ⟨vtp, htp, hdtp⟩ := h.tp
  refine ⟨⟨vi, hi, hint hii⟩, ⟨vs, hs, ?_⟩, ⟨vl, hl, hint hli⟩,
    ⟨vv, hv, Json.getDouble_ok_iff.mpr hdv⟩, ⟨vsl, hsl, Json.getDouble_ok_iff.mpr hdsl⟩,
    ⟨vtp, htp, Json.getDouble_ok_iff.mpr hdtp⟩, ⟨_, h.symbol, rfl⟩, ⟨_, h.comment, rfl⟩⟩
  rcases hside with ⟨rfl, hr⟩ | ⟨rfl, hr⟩
  · rw [hr]
    decide
  · rw [hr]
    decide

theorem at_inj {j v w : Json} {key : Bytes} (hv : j.at key = .ok v) (hw : j.at key = .ok w) :
    v = w :=
  Except.ok.inj (hv.symm.trans hw)

/-- An `int32` integer member denotes the integer it reads as. -/
theorem intMember_reads {lib : JsonLib} {j v : Json} {key : Bytes} {i : Int32}
    (hm : IntMember j key) (hv : j.at key = .ok v) (hi : v.getInt lib = .ok i) :
    v.intValue? = some i.toInt := by
  obtain ⟨w, k, hw, hk, hin⟩ := hm
  obtain rfl := at_inj hv hw
  rw [Json.getInt_of_intValue lib hk hin] at hi
  rw [hk, ← Except.ok.inj hi, Json.toInt_ofInt_of_inInt32 hin]

theorem denotes_of_reads {lib : JsonLib} {j : Json} {r : TradeRequest} (he : Exact j)
    (h : Reads lib j r) : Denotes j r := by
  obtain ⟨vi, hi, hii⟩ := h.id
  obtain ⟨vl, hl, hli⟩ := h.login
  obtain ⟨vs, hs, hrs⟩ := h.side
  obtain ⟨vv, hv, hdv⟩ := h.volume
  obtain ⟨vsl, hsl, hdsl⟩ := h.sl
  obtain ⟨vtp, htp, hdtp⟩ := h.tp
  obtain ⟨vsy, hsy, hdsy⟩ := h.symbol
  obtain ⟨vc, hc, hdc⟩ := h.comment
  obtain rfl := Json.getString_ok.mp hdsy
  obtain rfl := Json.getString_ok.mp hdc
  refine ⟨⟨vi, hi, intMember_reads he.id hi hii⟩, ⟨vs, hs, ?_⟩,
    ⟨vl, hl, intMember_reads he.login hl hli⟩, ⟨vv, hv, Json.getDouble_ok_iff.mp hdv⟩,
    ⟨vsl, hsl, Json.getDouble_ok_iff.mp hdsl⟩, ⟨vtp, htp, Json.getDouble_ok_iff.mp hdtp⟩, hsy, hc⟩
  obtain ⟨ws, hws, hside⟩ := he.side
  obtain rfl := at_inj hs hws
  rcases hside with rfl | rfl
  · exact Or.inl ⟨rfl, by rw [← hrs]; decide⟩
  · exact Or.inr ⟨rfl, by rw [← hrs]; decide⟩

/-- **The reader accepts exactly the format on a payload iff the payload is not misread.** -/
theorem decodesExactly_iff (lib : JsonLib) (topicName payload : Bytes) :
    DecodesExactly lib topicName payload ↔ NotMisread lib payload := by
  constructor
  · rintro ⟨hiff, -⟩ j hj hconv
    obtain ⟨r, hr⟩ := (convertible_iff_reads lib).mp hconv
    obtain ⟨hnul, j', hj', hden⟩ := (hiff r).mp (receive_ok_iff.mpr ⟨j, hj, hr⟩)
    rw [cString_eq_self_iff.mpr hnul, hj', Option.some.injEq] at hj
    exact ⟨hnul, hj ▸ exact_of_denotes hden⟩
  · intro h
    have hiff : ∀ r, receive lib topicName payload = .ok r ↔ IsRequest lib payload r := by
      intro r
      rw [receive_ok_iff]
      constructor
      · rintro ⟨j, hj, hr⟩
        obtain ⟨hnul, he⟩ := h j hj ((convertible_iff_reads lib).mpr ⟨r, hr⟩)
        rw [cString_eq_self_iff.mpr hnul] at hj
        exact ⟨hnul, j, hj, denotes_of_reads he hr⟩
      · rintro ⟨hnul, j, hj, hden⟩
        rw [cString_eq_self_iff.mpr hnul]
        exact ⟨j, hj, reads_of_denotes lib hden⟩
    exact ⟨hiff, fun hno => receive_error fun r hr => hno ⟨r, (hiff r).mp hr⟩⟩

/-! ## A payload that is misread -/

/-- A library that knows one text. -/
def JsonLib.ofText (text : Bytes) (j : Json) : JsonLib where
  parse sv := if sv = text then some j else none
  floatToInt _ := Int32.minValue

/-- A request whose side is neither `"buy"` nor `"sell"`. -/
def holdPayload : Bytes :=
  bytes "\x7b\"id\":1,\"side\":\"hold\",\"login\":7,\"volume\":1,\"sl\":0,\"tp\":0," ++
    bytes "\"symbol\":\"EURUSD\",\"comment\":\"\"\x7d"

/-- The value of `holdPayload`. -/
def holdJson : Json :=
  .object [
    (bytes "id", .numberUnsigned 1),
    (bytes "side", .string (bytes "hold")),
    (bytes "login", .numberUnsigned 7),
    (bytes "volume", .numberUnsigned 1),
    (bytes "sl", .numberUnsigned 0),
    (bytes "tp", .numberUnsigned 0),
    (bytes "symbol", .string (bytes "EURUSD")),
    (bytes "comment", .string [])]

/-- **An unknown side is accepted, as a buy.** -/
theorem hold_is_not_decoded_exactly :
    ¬ DecodesExactly (JsonLib.ofText holdPayload holdJson) (bytes "srv.trade.request")
      holdPayload := by
  rintro ⟨hiff, -⟩
  have hread : receive (JsonLib.ofText holdPayload holdJson) (bytes "srv.trade.request")
      holdPayload = .ok ⟨1, .buy, 7, 1, 0, 0, bytes "EURUSD", []⟩ := by decide
  obtain ⟨-, j, hj, hden⟩ := (hiff _).mp hread
  have hjson : j = holdJson := (Option.some.inj (hj.symm.trans (by rfl)))
  obtain ⟨v, hv, hside⟩ := hden.side
  rw [hjson] at hv
  have hhold : v = .string (bytes "hold") := Except.ok.inj (hv.symm.trans (by rfl))
  rw [hhold] at hside
  rcases hside with ⟨hs, -⟩ | ⟨hs, -⟩
  · exact absurd (Json.string.inj hs) (by decide)
  · exact absurd (Json.string.inj hs) (by decide)

end TradeBridge
