import TradeBridge.Startup

/-!
# The loop of the request-receiving task

`while (true)` of `nats_subscribe_to_trade_request` (`plugin.cpp:172-188`) has no way out. The
reader tells a closed connection by an error that wraps an `ok` text, as it does a timeout, and the
loop passes over both; it never asks whether the pool is paused, as `should_stop_task` does for the
publish tasks.

A run of the loop is over an infinite sequence of reads: read `k` is what `natsSubscription_NextMsg`
returns to the `k`-th call, and whether the pool is paused then.

Results:
* **`performs_all`**: every read of the sequence is performed.
* **`stopsInTime_iff`**: the loop stops when it has to only where it never has to.
* `silent_of_quiet`: a closed connection is not even logged.
-/

namespace TradeBridge

open TradeBridge.Lib

/-- A call of the reader. -/
structure Read where
  next : NextMsg
  /-- Whether the pool is paused when the call returns. -/
  paused : Bool

/-- After this read there should be no other: the connection is closed, the subscription is invalid
or the pool is paused. -/
def Read.stops (r : Read) : Bool :=
  r.paused || r.next.status == .connectionClosed || r.next.status == .invalidSubscription

/-- The read is neither handled nor reported. -/
def Read.quiet (r : Read) : Bool :=
  r.next.status == .timeout || r.next.status == .connectionClosed

/-- The receive task, what it shares, and how many reads it has performed. -/
structure Receiving where
  world : World
  task : ReceiveTask
  reads : Nat

namespace Receiving

/-- The task as it is detached. -/
def start (w : World) (topicName : Bytes) : Receiving := ⟨w, ⟨topicName, .read⟩, 0⟩

/-- One step of the task; a read takes the next one of the sequence. -/
def step (rs : Nat → Read) (s : Receiving) : Receiving :=
  match s.task.pc with
  | .read =>
    let r := rs s.reads
    let p := s.task.step { s.world with paused := r.paused } ⟨.ok, r.next⟩
    ⟨p.1, p.2, s.reads + 1⟩
  | _ =>
    let p := s.task.step s.world (.ofStatus .ok)
    ⟨p.1, p.2, s.reads⟩

/-- The state after `n` steps. -/
def run (rs : Nat → Read) (s : Receiving) : Nat → Receiving
  | 0 => s
  | n + 1 => (run rs s n).step rs

/-- Read `k` of the sequence is performed. -/
def Performs (rs : Nat → Read) (s : Receiving) (k : Nat) : Prop :=
  ∃ n, (s.run rs n).task.pc = .read ∧ (s.run rs n).reads = k

/-- No read is performed after one that has to be the last. -/
def StopsInTime (rs : Nat → Read) (s : Receiving) : Prop :=
  ∀ k, (rs k).stops = true → ∀ j, s.Performs rs j → j ≤ k

variable {rs : Nat → Read} {s : Receiving}

/-! ## No way out -/

theorem step_reads (rs : Nat → Read) (h : s.task.pc = .read) : (s.step rs).reads = s.reads + 1 := by
  unfold step
  rw [h]

/-- After a message or a failure the loop is before its next read. -/
theorem step_back (rs : Nat → Read) (h : s.task.pc ≠ .read) :
    (s.step rs).task.pc = .read ∧ (s.step rs).reads = s.reads := by
  obtain ⟨world, ⟨topicName, pc⟩, reads⟩ := s
  cases pc with
  | read => exact absurd rfl h
  | request r => exact ⟨rfl, rfl⟩
  | failed e => exact ⟨rfl, rfl⟩

/-- **Every read is performed**, whatever the earlier ones returned. -/
theorem performs_all (rs : Nat → Read) (w : World) (topicName : Bytes) (k : Nat) :
    (start w topicName).Performs rs k := by
  induction k with
  | zero => exact ⟨0, rfl, rfl⟩
  | succ k ih =>
    obtain ⟨n, hread, hk⟩ := ih
    have hreads : ((start w topicName).run rs (n + 1)).reads = k + 1 := by
      have := step_reads rs hread
      rw [hk] at this
      exact this
    by_cases hpc : ((start w topicName).run rs (n + 1)).task.pc = .read
    · exact ⟨n + 1, hpc, hreads⟩
    · obtain ⟨hback, hsame⟩ := step_back rs hpc
      exact ⟨n + 2, hback, hsame.trans hreads⟩

/-- **The loop stops when it has to** if and only if no read of the sequence finds the connection
closed, the subscription invalid or the pool paused. -/
theorem stopsInTime_iff (rs : Nat → Read) (w : World) (topicName : Bytes) :
    (start w topicName).StopsInTime rs ↔ ∀ k, (rs k).stops = false := by
  constructor
  · intro h k
    cases hk : (rs k).stops with
    | false => rfl
    | true =>
      have := h k hk (k + 1) (performs_all rs w topicName (k + 1))
      omega
  · intro h k hk
    rw [h k] at hk
    cases hk

/-- **A closed connection is read again**, and so without end. -/
theorem a_closed_connection_is_read_again :
    ¬ (start (.start .win32 (.ofServer pluginInfoName (bytes "test1")) [] [] fun _ _ => none)
      (tradeRequestTopic (bytes "test1"))).StopsInTime
        fun _ => ⟨⟨.connectionClosed, []⟩, false⟩ := by
  intro h
  have := h 0 rfl 1 ⟨1, rfl, rfl⟩
  omega

/-! ## What is logged -/

/-- **Over a closed connection the loop spins in silence**: each step is a read, and neither the log
nor the requests grow. -/
theorem silent_of_quiet (h : ∀ k, (rs k).quiet = true) (w : World) (topicName : Bytes) :
    ∀ n, ((start w topicName).run rs n).task = ⟨topicName, .read⟩ ∧
      ((start w topicName).run rs n).reads = n ∧
      ((start w topicName).run rs n).world.logs = w.logs ∧
      ((start w topicName).run rs n).world.requests = w.requests
  | 0 => ⟨rfl, rfl, rfl, rfl⟩
  | n + 1 => by
    obtain ⟨htask, hreads, hlogs, hrequests⟩ := silent_of_quiet h w topicName n
    have hquiet := h n
    unfold run step
    simp only [htask, hreads, ReceiveTask.step, hlogs, hrequests, and_true]
    unfold readMessage
    rcases Bool.or_eq_true _ _ ▸ hquiet with hs | hs
    · simp only [beq_iff_eq.mp hs, ReceivePc.ofResult]
    · simp only [beq_iff_eq.mp hs, ReceivePc.ofResult]

end Receiving

end TradeBridge
