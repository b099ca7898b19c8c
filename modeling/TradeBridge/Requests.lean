import TradeBridge.Receiving

/-!
# What the receive loop hands over and what it reports

Each outcome of `natsSubscription_NextMsg` goes through two nested `expected`s before the loop of
`nats_subscribe_to_trade_request` sees it. `NextMsg.accepted` and `NextMsg.fails` say from the
status and the payload alone what has to become of it: a request, an error log entry, or nothing.

Results:
* `readMessage_cases`: the reader's result tells these three apart.
* `HandsOver.step`: a step of the loop takes a request or a failure in hand, or puts it down where
  it belongs.
* **`hands_over`**: at every point of every run the requests are those of the outcomes so far, in
  order, and so are the error entries; and every further outcome is read.
-/

namespace TradeBridge

open TradeBridge.Lib

/-! ## What has to become of an outcome -/

/-- The request the marshaler decodes from the payload of a `NATS_OK`. -/
def NextMsg.accepted (lib : JsonLib) (next : NextMsg) : Option TradeRequest :=
  match next.status with
  | .ok => (unmarshal lib (TradeRequest.fromJson lib) (cString next.payload)).toOption
  | _ => none

/-- A rejected payload, an invalid subscription or an unknown status. -/
def NextMsg.fails (lib : JsonLib) (next : NextMsg) : Bool :=
  match next.status with
  | .ok => (next.accepted lib).isNone
  | .timeout | .connectionClosed => false
  | .invalidSubscription | .other _ => true

/-- The text logged for it. -/
def NextMsg.failedText (lib : JsonLib) (topicName : Bytes) (next : NextMsg) : Bytes :=
  bytes "Failed to receive trade request: " ++
    match next.status with
    | .ok =>
      let data := cString next.payload
      bytes "Failed to unmarshal message from topic: " ++ topicName ++ bytes ", data: " ++ data ++
        bytes " error: " ++
          match unmarshal lib (TradeRequest.fromJson lib) data with
          | .ok _ => []
          | .error e => e
    | .invalidSubscription => bytes "Invalid subscription for topic: " ++ topicName
    | _ => bytes "Unknown error while reading message from topic: " ++ topicName

/-- The texts of the error entries of the log, oldest first. -/
def World.errors (w : World) : List Bytes :=
  w.logs.filterMap fun
    | .error text => some text
    | .info _ => none

theorem World.errors_logInfo (w : World) (text : Bytes) : (w.logInfo text).errors = w.errors := by
  unfold World.errors World.logInfo
  rw [List.filterMap_append]
  exact List.append_nil _

theorem World.errors_logError (w : World) (text : Bytes) :
    (w.logError text).errors = w.errors ++ [text] := by
  unfold World.errors World.logError
  rw [List.filterMap_append]
  rfl

/-- **The reader's result tells requests, failures and the rest apart.** -/
theorem readMessage_cases (lib : JsonLib) (topicName : Bytes) (next : NextMsg) :
    (∃ r, ReceivePc.ofResult (readMessage lib (TradeRequest.fromJson lib) topicName next) =
        .request r ∧ next.accepted lib = some r ∧ next.fails lib = false) ∨
      (∃ e, ReceivePc.ofResult (readMessage lib (TradeRequest.fromJson lib) topicName next) =
        .failed e ∧ next.accepted lib = none ∧ next.fails lib = true ∧
        bytes "Failed to receive trade request: " ++ e = next.failedText lib topicName) ∨
      (ReceivePc.ofResult (readMessage lib (TradeRequest.fromJson lib) topicName next) = .read ∧
        next.accepted lib = none ∧ next.fails lib = false) := by
  obtain ⟨status, payload⟩ := next
  unfold readMessage NextMsg.fails NextMsg.accepted NextMsg.failedText
  cases status with
  | timeout => exact Or.inr (Or.inr ⟨rfl, rfl, rfl⟩)
  | connectionClosed => exact Or.inr (Or.inr ⟨rfl, rfl, rfl⟩)
  | invalidSubscription => exact Or.inr (Or.inl ⟨_, rfl, rfl, rfl, rfl⟩)
  | other code => exact Or.inr (Or.inl ⟨_, rfl, rfl, rfl, rfl⟩)
  | ok =>
    simp only
    cases unmarshal lib (TradeRequest.fromJson lib) (cString payload) with
    | ok r => exact Or.inl ⟨r, rfl, rfl, rfl⟩
    | error e => exact Or.inr (Or.inl ⟨_, rfl, rfl, rfl, rfl⟩)

namespace Receiving

/-! ## The account of a run -/

/-- The outcomes of the first `k` reads. -/
def outcomes (rs : Nat → Read) (k : Nat) : List NextMsg := (List.range k).map fun i => (rs i).next

/-- The request the loop has in hand. -/
def inHand (s : Receiving) : List TradeRequest :=
  match s.task.pc with
  | .request r => [r]
  | _ => []

/-- The failure the loop has in hand, as it is going to log it. -/
def failureInHand (s : Receiving) : List Bytes :=
  match s.task.pc with
  | .failed e => [bytes "Failed to receive trade request: " ++ e]
  | _ => []

/-- The requests handed over, and the one in hand, are those of the outcomes read so far; so are the
error entries. Before each read nothing is in hand. -/
structure HandsOver (rs : Nat → Read) (w : World) (topicName : Bytes) (s : Receiving) : Prop where
  requests : s.world.requests ++ s.inHand =
    w.requests ++ (outcomes rs s.reads).filterMap (NextMsg.accepted w.platform.json)
  errors : s.world.errors ++ s.failureInHand = w.errors ++
    ((outcomes rs s.reads).filter (NextMsg.fails w.platform.json)).map
      (NextMsg.failedText w.platform.json topicName)
  platform : s.world.platform = w.platform
  topicName : s.task.topicName = topicName

variable {rs : Nat → Read} {w : World} {topicName : Bytes} {s : Receiving}

theorem HandsOver.start (rs : Nat → Read) (w : World) (topicName : Bytes) :
    HandsOver rs w topicName (.start w topicName) := ⟨rfl, rfl, rfl, rfl⟩

theorem outcomes_succ (rs : Nat → Read) (k : Nat) :
    outcomes rs (k + 1) = outcomes rs k ++ [(rs k).next] := by
  unfold outcomes
  rw [List.range_succ, List.map_append, List.map_singleton]

/-- A read takes what the outcome is in hand. -/
theorem HandsOver.read (h : HandsOver rs w topicName s) (hpc : s.task.pc = .read) :
    HandsOver rs w topicName (s.step rs) := by
  obtain ⟨world, ⟨topic, pc⟩, reads⟩ := s
  obtain ⟨hreq, herr, hplat, htopic⟩ := h
  obtain rfl : pc = .read := hpc
  obtain rfl : topic = topicName := htopic
  have hplat' : world.platform = w.platform := hplat
  have hstep : step rs ⟨world, ⟨topic, .read⟩, reads⟩ =
      ⟨{ world with paused := (rs reads).paused }, ⟨topic, .ofResult (readMessage w.platform.json
        (TradeRequest.fromJson w.platform.json) topic (rs reads).next)⟩, reads + 1⟩ := by
    rw [← hplat']
    rfl
  have hnone : world.requests = w.requests ++
      (outcomes rs reads).filterMap (NextMsg.accepted w.platform.json) :=
    (List.append_nil _).symm.trans hreq
  have hquiet : world.errors = w.errors ++
      ((outcomes rs reads).filter (NextMsg.fails w.platform.json)).map
        (NextMsg.failedText w.platform.json topic) := (List.append_nil _).symm.trans herr
  have hnext := readMessage_cases w.platform.json topic (rs reads).next
  rw [hstep]
  refine ⟨?_, ?_, hplat', rfl⟩
  · simp only [outcomes_succ, List.filterMap_append, ← List.append_assoc, ← hnone]
    rcases hnext with ⟨r, hpc, hacc, -⟩ | ⟨e, hpc, hacc, -⟩ | ⟨hpc, hacc, -⟩ <;>
      simp only [hpc, inHand, List.filterMap_cons, hacc, List.filterMap_nil]
  · simp only [outcomes_succ, List.filter_append, List.map_append, ← List.append_assoc, ← hquiet]
    rcases hnext with ⟨r, hpc, -, hfail⟩ | ⟨e, hpc, -, hfail, htext⟩ | ⟨hpc, -, hfail⟩
    · simp only [hpc, failureInHand, List.filter_cons, hfail]
      rfl
    · simp only [hpc, failureInHand, List.filter_cons, hfail, htext]
      rfl
    · simp only [hpc, failureInHand, List.filter_cons, hfail]
      rfl

/-- Between two reads the loop puts down what it has in hand. -/
theorem HandsOver.put (h : HandsOver rs w topicName s) (hpc : s.task.pc ≠ .read) :
    HandsOver rs w topicName (s.step rs) := by
  obtain ⟨world, ⟨topic, pc⟩, reads⟩ := s
  obtain ⟨hreq, herr, hplat, htopic⟩ := h
  cases pc with
  | read => exact absurd rfl hpc
  | request r =>
    refine ⟨(List.append_nil _).trans hreq, ?_, hplat, htopic⟩
    have herrors : ((step rs ⟨world, ⟨topic, .request r⟩, reads⟩).world).errors = world.errors :=
      World.errors_logInfo { world with requests := world.requests ++ [r] } _
    rw [herrors]
    exact herr
  | failed e =>
    refine ⟨hreq, ?_, hplat, htopic⟩
    have herrors : ((step rs ⟨world, ⟨topic, .failed e⟩, reads⟩).world).errors =
        world.errors ++ [bytes "Failed to receive trade request: " ++ e] :=
      World.errors_logError world _
    rw [herrors]
    exact (List.append_nil _).trans herr

/-- **One step of the loop keeps the account.** -/
theorem HandsOver.step (h : HandsOver rs w topicName s) :
    HandsOver rs w topicName (s.step rs) := by
  by_cases hpc : s.task.pc = .read
  · exact h.read hpc
  · exact h.put hpc

theorem HandsOver.run (h : HandsOver rs w topicName s) :
    ∀ n, HandsOver rs w topicName (s.run rs n)
  | 0 => h
  | n + 1 => (run h n).step

/-- **Every accepted request is handed over, once and in order**, every failure is reported, once
and in order, and nothing else is; and whatever the outcomes, the next one is read. -/
theorem hands_over (rs : Nat → Read) (w : World) (topicName : Bytes) :
    (∀ n, HandsOver rs w topicName ((start w topicName).run rs n)) ∧
      ∀ k, (start w topicName).Performs rs k :=
  ⟨(HandsOver.start rs w topicName).run, performs_all rs w topicName⟩

end Receiving

end TradeBridge
