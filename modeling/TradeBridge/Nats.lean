import TradeBridge.Marshaling

/-!
# `nats.h`: publishing and the subscription reader

`server::publish` and the reader `subscribe_sync` returns. The outcome of a NATS call is an input
of the model; the text of a status is the parameter `natsStatus_GetText`.

`tl::expected<T, E>` is `Except E T`. The reader's error is itself an `expected`: an `ok` text is a
condition the caller need not report (timeout, closed connection), an `error` text is a failure.
-/

namespace TradeBridge

open TradeBridge.Lib

/-- `natsStatus`, with the values `nats.h` names. -/
inductive NatsStatus
  | ok
  | timeout
  | connectionClosed
  | invalidSubscription
  | other (code : Nat)
  deriving DecidableEq

/-- What one call of `server::publish` ends with. -/
inductive PublishResult
  | ok
  | error (text : Bytes)
  | threw
  deriving DecidableEq

/-- `server::publish`: the message is marshalled, which may throw, and handed to
`natsConnection_PublishString`, whose outcome is `status`. -/
def publish (getText : NatsStatus → Bytes) (status : NatsStatus) (message : Json) :
    PublishResult :=
  match marshal message with
  | .error _ => .threw
  | .ok _ => if status = .ok then .ok else .error (getText status)

theorem publish_threw_iff {getText : NatsStatus → Bytes} {status : NatsStatus} {m : Json} :
    publish getText status m = .threw ↔ m.encodable = false := by
  unfold publish marshal
  cases m.encodable with
  | true =>
    by_cases hs : status = .ok <;> simp [hs]
  | false => simp

theorem publish_ok_iff {getText : NatsStatus → Bytes} {status : NatsStatus} {m : Json} :
    publish getText status m = .ok ↔ m.encodable = true ∧ status = .ok := by
  unfold publish marshal
  cases m.encodable with
  | true =>
    by_cases hs : status = .ok <;> simp [hs]
  | false => simp

/-! ## The reader -/

/-- `subscription_read_message_error_t`. -/
abbrev ReadMessageError := Except Bytes Bytes

/-- `subscription_read_message_result_t<Message>`. -/
abbrev ReadMessageResult (μ : Type) := Except ReadMessageError μ

/-- The outcome of `natsSubscription_NextMsg`: its status and, with `NATS_OK`, the payload. -/
structure NextMsg where
  status : NatsStatus
  payload : Bytes

/-- The reader returned by `subscribe_sync<Message>`, where `get` is `j.get<Message>()`. The
payload is read through a `const char *` (`natsMsg_GetData`). -/
def readMessage {μ : Type} (lib : JsonLib) (get : Json → Except JsonError μ) (topicName : Bytes)
    (next : NextMsg) : ReadMessageResult μ :=
  match next.status with
  | .timeout => .error (.ok (bytes "Timeout waiting for message on topic: " ++ topicName))
  | .connectionClosed =>
    .error (.ok (bytes "Connection subscription closed for topic: " ++ topicName))
  | .invalidSubscription =>
    .error (.error (bytes "Invalid subscription for topic: " ++ topicName))
  | .ok =>
    let data := cString next.payload
    match unmarshal lib get data with
    | .ok v => .ok v
    | .error e =>
      .error (.error (bytes "Failed to unmarshal message from topic: " ++ topicName ++
        bytes ", data: " ++ data ++ bytes " error: " ++ e))
  | .other _ =>
    .error (.error (bytes "Unknown error while reading message from topic: " ++ topicName))

end TradeBridge
