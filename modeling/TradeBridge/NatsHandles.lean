import TradeBridge.Lib.Handles
import TradeBridge.Nats

/-!
# The handles of the NATS client

`nats.h` owns what the C client hands out: the connection in a `unique_ptr`, each subscription in a
`shared_ptr` that the callbacks of `subscribe_sync` share, and each message for one read. `Server`
goes through the calls it makes, whatever they return: connecting once more, failing on the way,
copies of a callback on any thread, reads that are under way while others publish.

A handle may be handed out again once it was destroyed, as an address may; it is only known not to
be one of those that are out (`fresh`).

Results:
* `Server.Step.sound`: what is out is what the server, the callbacks and the reads under way hold.
* **`handles_are_safe`**: no handle is used or destroyed when it is not out, and what is no longer
  held has been destroyed, as often as it was handed out.
* `handles_of_a_plugin`: a plugin that reads one message.
-/

namespace TradeBridge.Nats

open TradeBridge.Lib

/-- `natsConnection*`, `natsSubscription*`, `natsMsg*`. -/
inductive Handle
  | conn (p : Nat)
  | sub (p : Nat)
  | msg (p : Nat)
  deriving DecidableEq

/-- A call of the C client; `none` is a null pointer, passed or left by a call that fails. -/
inductive NatsCall
  | connectTo (conn : Option Nat)
  | publishString (conn : Option Nat)
  | subscribeSync (conn : Option Nat) (sub : Option Nat)
  | setPendingLimits (sub : Nat)
  | nextMsg (sub : Nat) (msg : Option Nat)
  | getData (msg : Nat)
  | msgDestroy (msg : Nat)
  | subDrain (sub : Nat)
  | waitForDrainCompletion (sub : Nat)
  | subDestroy (sub : Nat)
  | connDrain (conn : Nat)
  | flushTimeout (conn : Nat)
  | connDestroy (conn : Nat)
  deriving DecidableEq

/-- What the call does with handles. A null connection is an invalid argument of any call. -/
def NatsCall.events : NatsCall → List (Handles.Event Handle)
  | .connectTo none => []
  | .connectTo (some p) => [.acquire (.conn p)]
  | .publishString none => []
  | .publishString (some p) => [.use (.conn p)]
  | .subscribeSync none none => []
  | .subscribeSync (some p) none => [.use (.conn p)]
  | .subscribeSync none (some q) => [.acquire (.sub q)]
  | .subscribeSync (some p) (some q) => [.use (.conn p), .acquire (.sub q)]
  | .setPendingLimits q => [.use (.sub q)]
  | .nextMsg q none => [.use (.sub q)]
  | .nextMsg q (some p) => [.use (.sub q), .acquire (.msg p)]
  | .getData p => [.use (.msg p)]
  | .msgDestroy p => [.release (.msg p)]
  | .subDrain q => [.use (.sub q)]
  | .waitForDrainCompletion q => [.use (.sub q)]
  | .subDestroy q => [.release (.sub q)]
  | .connDrain p => [.use (.conn p)]
  | .flushTimeout p => [.use (.conn p)]
  | .connDestroy p => [.release (.conn p)]

/-- What has been done with handles by the calls. -/
def eventsOf (calls : List NatsCall) : List (Handles.Event Handle) := calls.flatMap NatsCall.events

/-! ## `nats.h` -/

/-- `nats_conn_deleter`. -/
def connDeleter : Option Nat → List NatsCall
  | none => []
  | some p => [.connDrain p, .flushTimeout p, .connDestroy p]

/-- `nats_subscr_deleter`. -/
def subscrDeleter (q : Nat) : List NatsCall :=
  [.subDrain q, .waitForDrainCompletion q, .subDestroy q]

/-- A copy of a callback: its subscription, and the message of a read under way. -/
structure Callback where
  sub : Nat
  msg : Option Nat
  deriving DecidableEq

/-- A `server`, the callbacks it has handed out, and the calls so far, oldest first. -/
structure Server where
  conn : Option Nat
  callbacks : List Callback
  calls : List NatsCall

namespace Server

/-- `server()`. -/
def new : Server := ⟨none, [], []⟩

/-- `connect`, where `natsConnection_ConnectTo` leaves `raw`. -/
def connect (s : Server) : Option Nat → Server
  | none => { s with calls := s.calls ++ [.connectTo none] }
  | some p =>
    { s with conn := some p, calls := s.calls ++ [.connectTo (some p)] ++ connDeleter s.conn }

/-- `publish`, behind the marshaler. -/
def publish (s : Server) : Server := { s with calls := s.calls ++ [.publishString s.conn] }

/-- `subscribe_sync`, where `natsConnection_SubscribeSync` leaves `raw` and `limits` says that
`natsSubscription_SetPendingLimits` succeeds. -/
def subscribeSync (s : Server) (raw : Option Nat) (limits : Bool) : Server :=
  match raw with
  | none => { s with calls := s.calls ++ [.subscribeSync s.conn none] }
  | some q =>
    let calls := s.calls ++ [.subscribeSync s.conn (some q)] ++ [.setPendingLimits q]
    if limits then { s with callbacks := s.callbacks ++ [⟨q, none⟩], calls := calls }
    else { s with calls := calls ++ subscrDeleter q }

/-- A callback is copied, and the `shared_ptr` in it. -/
def copy (s : Server) (r : Callback) : Server :=
  { s with callbacks := s.callbacks ++ [⟨r.sub, none⟩] }

/-- A callback between `l` and `rs` is destroyed; the last one with its subscription destroys it. -/
def drop (s : Server) (l : List Callback) (r : Callback) (rs : List Callback) : Server :=
  { s with
    callbacks := l ++ rs
    calls := s.calls ++ if (l ++ rs).any (·.sub == r.sub) then [] else subscrDeleter r.sub }

/-- A callback calls `natsSubscription_NextMsg`, which leaves `raw`. -/
def nextMsg (s : Server) (l : List Callback) (r : Callback) (rs : List Callback)
    (raw : Option Nat) : Server :=
  { s with
    callbacks := l ++ { r with msg := raw } :: rs
    calls := s.calls ++ [.nextMsg r.sub raw] }

/-- A callback reads the data of its message and returns. -/
def finish (s : Server) (l : List Callback) (r : Callback) (rs : List Callback) (p : Nat) :
    Server :=
  { s with
    callbacks := l ++ { r with msg := none } :: rs
    calls := s.calls ++ [.getData p] ++ [.msgDestroy p] }

/-- `~server()`. -/
def destroy (s : Server) : Server := { s with conn := none, calls := s.calls ++ connDeleter s.conn }

/-- The handle belongs to the connection, to a callback or to a read under way. -/
def Holds (s : Server) : Handle → Prop
  | .conn p => s.conn = some p
  | .sub q => ∃ r ∈ s.callbacks, r.sub = q
  | .msg p => ∃ r ∈ s.callbacks, r.msg = some p

/-- One operation on the server or on a callback, with what the C client returns. -/
inductive Step : Server → Server → Prop
  | connect {s : Server} {raw : Option Nat} (fresh : ∀ p, raw = some p → ¬ s.Holds (.conn p)) :
      Step s (s.connect raw)
  | publish {s : Server} : Step s s.publish
  | subscribeSync {s : Server} {raw : Option Nat} {limits : Bool}
      (fresh : ∀ q, raw = some q → ¬ s.Holds (.sub q)) : Step s (s.subscribeSync raw limits)
  | copy {s : Server} {r : Callback} (hr : r ∈ s.callbacks) : Step s (s.copy r)
  | drop {s : Server} {l rs : List Callback} {r : Callback} (hs : s.callbacks = l ++ r :: rs)
      (idle : r.msg = none) : Step s (s.drop l r rs)
  | nextMsg {s : Server} {l rs : List Callback} {r : Callback} {raw : Option Nat}
      (hs : s.callbacks = l ++ r :: rs) (idle : r.msg = none)
      (fresh : ∀ p, raw = some p → ¬ s.Holds (.msg p)) : Step s (s.nextMsg l r rs raw)
  | finish {s : Server} {l rs : List Callback} {r : Callback} {p : Nat}
      (hs : s.callbacks = l ++ r :: rs) (reading : r.msg = some p) : Step s (s.finish l r rs p)
  | destroy {s : Server} : Step s s.destroy

/-- The states a run of these operations passes through. -/
def Reach : Server → Server → Prop := Relation.ReflTransGen Step

/-- What has been done with handles. -/
def events (s : Server) : List (Handles.Event Handle) := eventsOf s.calls

/-! ## What is out is held -/

/-- Exactly the handles that are held are out, and no two reads have one message. -/
structure Sound (s : Server) : Prop where
  out : Handles.Out s.events s.Holds
  messages : (s.callbacks.filterMap Callback.msg).Nodup

variable {s s' : Server} {l rs : List Callback} {r : Callback} {P : Handle → Prop}

theorem Sound.new : Server.new.Sound :=
  ⟨Handles.Out.nil.congr fun h => ⟨False.elim, fun hh => by
    cases h with
    | conn p => cases hh
    | sub q =>
      obtain ⟨r, hr, -⟩ := hh
      cases hr
    | msg p =>
      obtain ⟨r, hr, -⟩ := hh
      cases hr⟩, List.nodup_nil⟩

theorem eventsOf_append (a b : List NatsCall) : eventsOf (a ++ b) = eventsOf a ++ eventsOf b :=
  List.flatMap_append

/-- One call more that does nothing with handles. -/
theorem eventsOf_noHandle {c : NatsCall} (hc : c.events = []) (cs : List NatsCall) :
    eventsOf (cs ++ [c]) = eventsOf cs := by
  rw [eventsOf_append]
  show _ ++ (c.events ++ []) = _
  rw [hc, List.append_nil, List.append_nil]

/-- One call more that does one thing. -/
theorem out_call {cs : List NatsCall} {c : NatsCall} {e : Handles.Event Handle}
    (he : c.events = [e]) (h : Handles.Out (eventsOf cs ++ [e]) P) :
    Handles.Out (eventsOf (cs ++ [c])) P := by
  rw [eventsOf_append]
  show Handles.Out (_ ++ (c.events ++ [])) P
  rw [he]
  exact h

/-- One call more that does two things. -/
theorem out_call₂ {cs : List NatsCall} {c : NatsCall} {e₁ e₂ : Handles.Event Handle}
    (he : c.events = [e₁, e₂]) (h : Handles.Out (eventsOf cs ++ [e₁] ++ [e₂]) P) :
    Handles.Out (eventsOf (cs ++ [c])) P := by
  rw [eventsOf_append]
  show Handles.Out (_ ++ (c.events ++ [])) P
  rw [he]
  rw [List.append_assoc] at h
  exact h

/-- **The deleter of the connection** drains it, flushes it and destroys it, if there is one. -/
theorem out_connDeleter {cs : List NatsCall} {c : Option Nat}
    (h : Handles.Out (eventsOf cs) P) (hP : ∀ p, c = some p → P (.conn p)) :
    Handles.Out (eventsOf (cs ++ connDeleter c))
      fun a => P a ∧ ∀ p, c = some p → a ≠ .conn p := by
  cases c with
  | none =>
    rw [connDeleter, List.append_nil]
    exact h.congr fun a => ⟨fun ha => ⟨ha, fun p hp => nomatch hp⟩, And.left⟩
  | some p =>
    have hp := hP p rfl
    have hdeleted := ((h.use hp).use hp).release hp
    rw [List.append_assoc, List.append_assoc] at hdeleted
    rw [eventsOf_append]
    exact hdeleted.congr fun a => and_congr_right fun _ =>
      ⟨fun hne q hq => Option.some.inj hq ▸ hne, fun hall => hall p rfl⟩

/-- **The deleter of a subscription.** -/
theorem out_subscrDeleter {cs : List NatsCall} {q : Nat}
    (h : Handles.Out (eventsOf cs) P) (hq : P (.sub q)) :
    Handles.Out (eventsOf (cs ++ subscrDeleter q)) fun a => P a ∧ a ≠ .sub q := by
  have hdeleted := ((h.use hq).use hq).release hq
  rw [List.append_assoc, List.append_assoc] at hdeleted
  rw [eventsOf_append]
  exact hdeleted

theorem exists_middle {φ : Callback → Prop} :
    (∃ a ∈ l ++ r :: rs, φ a) ↔ φ r ∨ ∃ a ∈ l ++ rs, φ a := by
  simp only [List.mem_append, List.mem_cons]
  constructor
  · rintro ⟨a, ha | rfl | ha, h⟩
    · exact Or.inr ⟨a, Or.inl ha, h⟩
    · exact Or.inl h
    · exact Or.inr ⟨a, Or.inr ha, h⟩
  · rintro (h | ⟨a, ha | ha, h⟩)
    · exact ⟨r, Or.inr (Or.inl rfl), h⟩
    · exact ⟨a, Or.inl ha, h⟩
    · exact ⟨a, Or.inr (Or.inr ha), h⟩

/-- A new callback reads no message. -/
theorem messages_push (cs : List Callback) (q : Nat) :
    (cs ++ [(⟨q, none⟩ : Callback)]).filterMap Callback.msg = cs.filterMap Callback.msg := by
  rw [List.filterMap_append]
  exact List.append_nil _

theorem Sound.connect (h : s.Sound) {raw : Option Nat}
    (fresh : ∀ p, raw = some p → ¬ s.Holds (.conn p)) : (s.connect raw).Sound := by
  refine ⟨?_, by cases raw <;> exact h.messages⟩
  cases raw with
  | none =>
    have hcalls : (s.connect none).events = s.events := eventsOf_noHandle rfl s.calls
    rw [hcalls]
    exact h.out
  | some p =>
    have hnew := out_call (c := .connectTo (some p)) rfl (h.out.acquire (fresh p rfl))
    refine (out_connDeleter (c := s.conn) hnew fun q hq => Or.inr hq).congr fun a => ?_
    cases a with
    | conn q =>
      constructor
      · rintro ⟨heq | hold, hne⟩
        · exact congrArg some (Handle.conn.inj heq).symm
        · exact absurd rfl (hne q hold)
      · intro heq
        obtain rfl := Option.some.inj heq
        refine ⟨Or.inl rfl, fun q hq heq' => fresh p rfl ?_⟩
        rw [Handle.conn.inj heq']
        exact hq
    | sub q =>
      exact ⟨fun ha => ha.1.resolve_left (by simp), fun ha => ⟨Or.inr ha, fun _ _ => by simp⟩⟩
    | msg q =>
      exact ⟨fun ha => ha.1.resolve_left (by simp), fun ha => ⟨Or.inr ha, fun _ _ => by simp⟩⟩

theorem Sound.publish (h : s.Sound) : s.publish.Sound := by
  refine ⟨?_, h.messages⟩
  have hout : Handles.Out (eventsOf (s.calls ++ [.publishString s.conn])) s.Holds := by
    cases hc : s.conn with
    | none =>
      rw [eventsOf_noHandle rfl]
      exact h.out
    | some p =>
      have hconn : s.Holds (.conn p) := hc
      exact out_call rfl (h.out.use hconn)
  exact hout.congr fun a => by cases a <;> rfl

/-- A subscription that has been handed out, with its limits. -/
theorem Sound.subscribed (h : s.Sound) {q : Nat} (fresh : ¬ s.Holds (.sub q)) :
    Handles.Out (eventsOf (s.calls ++ [.subscribeSync s.conn (some q)] ++ [.setPendingLimits q]))
      fun a => a = .sub q ∨ s.Holds a := by
  refine out_call (e := .use (.sub q)) rfl (Handles.Out.use ?_ (Or.inl rfl))
  cases hc : s.conn with
  | none => exact out_call rfl (h.out.acquire fresh)
  | some p =>
    have hconn : s.Holds (.conn p) := hc
    exact out_call₂ rfl ((h.out.use hconn).acquire fresh)

theorem Sound.subscribeSync (h : s.Sound) {raw : Option Nat} {limits : Bool}
    (fresh : ∀ q, raw = some q → ¬ s.Holds (.sub q)) : (s.subscribeSync raw limits).Sound := by
  cases raw with
  | none =>
    refine ⟨?_, h.messages⟩
    have hout : Handles.Out (eventsOf (s.calls ++ [.subscribeSync s.conn none])) s.Holds := by
      cases hc : s.conn with
      | none =>
        rw [eventsOf_noHandle rfl]
        exact h.out
      | some p =>
        have hconn : s.Holds (.conn p) := hc
        exact out_call rfl (h.out.use hconn)
    exact hout.congr fun a => by cases a <;> rfl
  | some q =>
    have hsub := h.subscribed (fresh q rfl)
    cases limits with
    | true =>
      refine ⟨hsub.congr fun a => ?_, ?_⟩
      · cases a with
        | conn p => exact ⟨fun ha => ha.resolve_left (by simp), Or.inr⟩
        | sub p =>
          show _ ↔ ∃ r ∈ s.callbacks ++ [⟨q, none⟩], r.sub = p
          rw [exists_middle, List.append_nil]
          exact or_congr_left ⟨fun he => (Handle.sub.inj he).symm, fun he => congrArg _ he.symm⟩
        | msg p =>
          show _ ↔ ∃ r ∈ s.callbacks ++ [⟨q, none⟩], r.msg = some p
          rw [exists_middle, List.append_nil]
          exact ⟨fun ha => Or.inr (ha.resolve_left (by simp)),
            fun ha => Or.inr (ha.resolve_left (by simp))⟩
      · exact (messages_push s.callbacks q).symm ▸ h.messages
    | false =>
      refine ⟨(out_subscrDeleter hsub (Or.inl rfl)).congr fun a => ?_, h.messages⟩
      constructor
      · rintro ⟨heq | ha, hne⟩
        · exact absurd heq hne
        · cases a <;> exact ha
      · intro ha
        have ha' : s.Holds a := by cases a <;> exact ha
        refine ⟨Or.inr ha', fun heq => fresh q rfl ?_⟩
        rw [← heq]
        exact ha'

theorem Sound.copy (h : s.Sound) (hr : r ∈ s.callbacks) : (s.copy r).Sound := by
  refine ⟨h.out.congr fun a => ?_, ?_⟩
  · cases a with
    | conn p => exact Iff.rfl
    | sub q =>
      show _ ↔ ∃ a ∈ s.callbacks ++ [⟨r.sub, none⟩], a.sub = q
      rw [exists_middle, List.append_nil]
      exact ⟨Or.inr, fun ha => ha.elim (fun heq => ⟨r, hr, heq⟩) id⟩
    | msg p =>
      show _ ↔ ∃ a ∈ s.callbacks ++ [⟨r.sub, none⟩], a.msg = some p
      rw [exists_middle, List.append_nil]
      exact ⟨Or.inr, fun ha => ha.resolve_left (by simp)⟩
  · exact (messages_push s.callbacks r.sub).symm ▸ h.messages

theorem Sound.drop (h : s.Sound) (hs : s.callbacks = l ++ r :: rs) (idle : r.msg = none) :
    (s.drop l r rs).Sound := by
  have hmessages : ((l ++ rs).filterMap Callback.msg).Nodup := by
    have := h.messages
    rwa [hs, List.filterMap_append, List.filterMap_cons_none idle, ← List.filterMap_append] at this
  have hmsg : ∀ p, s.Holds (.msg p) ↔ ∃ a ∈ l ++ rs, a.msg = some p := by
    intro p
    show (∃ a ∈ s.callbacks, _) ↔ _
    rw [hs, exists_middle, idle]
    exact ⟨fun ha => ha.resolve_left (by simp), Or.inr⟩
  have hsub : ∀ q, s.Holds (.sub q) ↔ r.sub = q ∨ ∃ a ∈ l ++ rs, a.sub = q := by
    intro q
    show (∃ a ∈ s.callbacks, _) ↔ _
    rw [hs, exists_middle]
  refine ⟨?_, hmessages⟩
  by_cases hany : (l ++ rs).any (·.sub == r.sub) = true
  · -- another copy shares the subscription
    obtain ⟨b, hb, hbr⟩ := List.any_eq_true.mp hany
    have hcalls : (s.drop l r rs).events = s.events := by
      unfold events Server.drop
      rw [if_pos hany, List.append_nil]
    rw [hcalls]
    refine h.out.congr fun a => ?_
    cases a with
    | conn p => exact Iff.rfl
    | sub q =>
      rw [hsub]
      exact ⟨fun ha => ha.elim (fun heq => ⟨b, hb, (beq_iff_eq.mp hbr).trans heq⟩) id, Or.inr⟩
    | msg p => exact hmsg p
  · have hlast : ∀ b ∈ l ++ rs, b.sub ≠ r.sub := fun b hb heq =>
      hany (List.any_eq_true.mpr ⟨b, hb, beq_iff_eq.mpr heq⟩)
    have hcalls : (s.drop l r rs).events =
        eventsOf (s.calls ++ subscrDeleter r.sub) := by
      unfold events Server.drop
      rw [if_neg hany]
    rw [hcalls]
    refine (out_subscrDeleter h.out ((hsub r.sub).mpr (Or.inl rfl))).congr fun a => ?_
    cases a with
    | conn p => exact and_iff_left (by simp)
    | sub q =>
      rw [hsub]
      constructor
      · rintro ⟨heq | ha, hne⟩
        · exact absurd (congrArg Handle.sub heq.symm) hne
        · exact ha
      · rintro ⟨b, hb, rfl⟩
        exact ⟨Or.inr ⟨b, hb, rfl⟩, fun heq => hlast b hb (Handle.sub.inj heq)⟩
    | msg p =>
      rw [hmsg]
      exact and_iff_left (by simp)

theorem Sound.nextMsg (h : s.Sound) (hs : s.callbacks = l ++ r :: rs) (idle : r.msg = none)
    {raw : Option Nat} (fresh : ∀ p, raw = some p → ¬ s.Holds (.msg p)) :
    (s.nextMsg l r rs raw).Sound := by
  have hr : s.Holds (.sub r.sub) := by
    refine ⟨r, ?_, rfl⟩
    rw [hs]
    exact List.mem_append.mpr (Or.inr List.mem_cons_self)
  have hsub : ∀ q, s.Holds (.sub q) ↔ (s.nextMsg l r rs raw).Holds (.sub q) := by
    intro q
    show (∃ a ∈ s.callbacks, _) ↔ ∃ a ∈ l ++ { r with msg := raw } :: rs, _
    rw [hs, exists_middle, exists_middle]
  have hmsg : ∀ p, (s.nextMsg l r rs raw).Holds (.msg p) ↔ raw = some p ∨ s.Holds (.msg p) := by
    intro p
    show (∃ a ∈ l ++ { r with msg := raw } :: rs, _) ↔ _ ∨ ∃ a ∈ s.callbacks, _
    rw [hs, exists_middle, exists_middle, idle]
    exact or_congr_right ⟨Or.inr, fun ha => ha.resolve_left (by simp)⟩
  cases raw with
  | none =>
    refine ⟨(out_call (c := .nextMsg r.sub none) rfl (h.out.use hr)).congr fun a => ?_, ?_⟩
    · cases a with
      | conn p => exact Iff.rfl
      | sub q => exact hsub q
      | msg p => exact (hmsg p).trans ⟨fun ha => ha.resolve_left (by simp), Or.inr⟩ |>.symm
    · have hsame : ({ r with msg := none } : Callback) = r := by rw [← idle]
      show ((l ++ { r with msg := none } :: rs).filterMap Callback.msg).Nodup
      rw [hsame, ← hs]
      exact h.messages
  | some p =>
    have hout : Handles.Out (s.nextMsg l r rs (some p)).events fun a => a = .msg p ∨ s.Holds a :=
      out_call₂ rfl ((h.out.use hr).acquire (fresh p rfl))
    refine ⟨hout.congr fun a => ?_, ?_⟩
    · cases a with
      | conn q => exact ⟨fun ha => ha.resolve_left (by simp), Or.inr⟩
      | sub q => exact ⟨fun ha => (hsub q).mp (ha.resolve_left (by simp)),
          fun ha => Or.inr ((hsub q).mpr ha)⟩
      | msg q =>
        rw [hmsg]
        exact or_congr_left
          ⟨fun he => congrArg some (Handle.msg.inj he).symm, fun he => by rw [Option.some.inj he]⟩
    · show ((l ++ { r with msg := some p } :: rs).filterMap Callback.msg).Nodup
      have hold := h.messages
      rw [hs, List.filterMap_append, List.filterMap_cons_none idle] at hold
      rw [List.filterMap_append]
      show (l.filterMap Callback.msg ++ p :: rs.filterMap Callback.msg).Nodup
      refine List.perm_middle.nodup_iff.mpr (List.nodup_cons.mpr ⟨fun hmem => ?_, hold⟩)
      rw [← List.filterMap_append] at hmem
      obtain ⟨b, hb, hbp⟩ := List.mem_filterMap.mp hmem
      refine fresh p rfl ?_
      show ∃ a ∈ s.callbacks, a.msg = some p
      rw [hs, exists_middle]
      exact Or.inr ⟨b, hb, hbp⟩

theorem Sound.finish (h : s.Sound) {p : Nat} (hs : s.callbacks = l ++ r :: rs)
    (reading : r.msg = some p) : (s.finish l r rs p).Sound := by
  have hr : s.Holds (.msg p) := by
    refine ⟨r, ?_, reading⟩
    rw [hs]
    exact List.mem_append.mpr (Or.inr List.mem_cons_self)
  have hold := h.messages
  rw [hs, List.filterMap_append, List.filterMap_cons_some reading] at hold
  obtain ⟨hnot, hrest⟩ := List.nodup_cons.mp (List.perm_middle.nodup_iff.mp hold)
  rw [← List.filterMap_append] at hnot hrest
  refine ⟨(out_call (c := .msgDestroy p) rfl
    ((out_call (c := .getData p) rfl (h.out.use hr)).release hr)).congr fun a => ?_, ?_⟩
  · cases a with
    | conn q => exact and_iff_left (by simp)
    | sub q =>
      show (∃ a ∈ s.callbacks, _) ∧ _ ↔ ∃ a ∈ l ++ { r with msg := none } :: rs, _
      rw [hs, exists_middle, exists_middle]
      exact and_iff_left (by simp)
    | msg q =>
      show (∃ a ∈ s.callbacks, _) ∧ _ ↔ ∃ a ∈ l ++ { r with msg := none } :: rs, _
      rw [hs, exists_middle, exists_middle, reading]
      constructor
      · rintro ⟨heq | ha, hne⟩
        · exact absurd (congrArg Handle.msg (Option.some.inj heq).symm) hne
        · exact Or.inr ha
      · rintro (hnone | ⟨b, hb, hbq⟩)
        · cases hnone
        · refine ⟨Or.inr ⟨b, hb, hbq⟩, fun heq => hnot ?_⟩
          rw [← Handle.msg.inj heq]
          exact List.mem_filterMap.mpr ⟨b, hb, hbq⟩
  · show ((l ++ { r with msg := none } :: rs).filterMap Callback.msg).Nodup
    rw [List.filterMap_append, List.filterMap_cons_none rfl, ← List.filterMap_append]
    exact hrest

theorem Sound.destroy (h : s.Sound) : s.destroy.Sound := by
  refine ⟨(out_connDeleter (c := s.conn) h.out fun _ hp => hp).congr fun a => ?_, h.messages⟩
  cases a with
  | conn p =>
    constructor
    · rintro ⟨hp, hne⟩
      exact absurd rfl (hne p hp)
    · intro hnone
      cases hnone
  | sub q => exact and_iff_left fun _ _ => by simp
  | msg q => exact and_iff_left fun _ _ => by simp

/-- **Every operation keeps what is out held.** -/
theorem Step.sound (hs : Step s s') (h : s.Sound) : s'.Sound := by
  cases hs with
  | connect fresh => exact h.connect fresh
  | publish => exact h.publish
  | subscribeSync fresh => exact h.subscribeSync fresh
  | copy hr => exact h.copy hr
  | drop hs idle => exact h.drop hs idle
  | nextMsg hs idle fresh => exact h.nextMsg hs idle fresh
  | finish hs reading => exact h.finish hs reading
  | destroy => exact h.destroy

theorem Reach.sound (hr : Reach s s') (h : s.Sound) : s'.Sound := by
  induction hr with
  | refl => exact h
  | tail _ hs ih => exact hs.sound ih

end Server

/-- **The handles of the client are safe**, in every run of operations on a server and the callbacks
it has handed out, whatever the client returns: no call uses or destroys a handle that is not out,
exactly what is held is out, and any other has been destroyed as often as it was handed out. -/
theorem handles_are_safe {s : Server} (hr : Server.Reach .new s) :
    ∃ hs, Handles.live [] s.events = some hs ∧ (∀ a, a ∈ hs ↔ s.Holds a) ∧
      ∀ a, ¬ s.Holds a → s.events.count (.acquire a) = s.events.count (.release a) := by
  have hsound := hr.sound Server.Sound.new
  obtain ⟨hs, hlive, hmem⟩ := hsound.out
  exact ⟨hs, hlive, hmem, fun a ha => hsound.out.count ha⟩

/-- A plugin connects, subscribes, reads a message while it publishes, and is destroyed: its
callback first, with the task in the pool, and then the server. -/
def pluginLife : Server :=
  (((((((Server.new.connect (some 1)).subscribeSync (some 2) true).nextMsg [] ⟨2, none⟩ []
    (some 3)).publish).finish [] ⟨2, some 3⟩ [] 3).drop [] ⟨2, none⟩ []).destroy)

theorem reach_pluginLife : Server.Reach .new pluginLife := by
  have hconnect : Server.Step .new (Server.new.connect (some 1)) :=
    .connect fun p _ h => nomatch h
  have hsubscribe : Server.Step (Server.new.connect (some 1))
      ((Server.new.connect (some 1)).subscribeSync (some 2) true) := by
    refine .subscribeSync fun q _ h => ?_
    obtain ⟨r, hr, -⟩ := h
    cases hr
  have hnext : Server.Step ((Server.new.connect (some 1)).subscribeSync (some 2) true)
      (((Server.new.connect (some 1)).subscribeSync (some 2) true).nextMsg [] ⟨2, none⟩ []
        (some 3)) := by
    refine .nextMsg rfl rfl fun p _ h => ?_
    obtain ⟨r, hr, hmsg⟩ := h
    rw [List.mem_singleton.mp hr] at hmsg
    cases hmsg
  have hread : Server.Reach .new _ := ((Relation.ReflTransGen.single hconnect).tail hsubscribe).tail
    hnext
  exact (((hread.tail .publish).tail (.finish rfl rfl)).tail (.drop rfl rfl)).tail .destroy

/-- Nothing is out at its end. -/
theorem handles_of_a_plugin : Handles.live [] pluginLife.events = some [] ∧
    ∃ hs, Handles.live [] pluginLife.events = some hs ∧ (∀ a, a ∈ hs ↔ pluginLife.Holds a) ∧
      ∀ a, ¬ pluginLife.Holds a →
        pluginLife.events.count (.acquire a) = pluginLife.events.count (.release a) :=
  ⟨by decide, handles_are_safe reach_pluginLife⟩

end TradeBridge.Nats
