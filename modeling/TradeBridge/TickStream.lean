import TradeBridge.Isolation
import TradeBridge.Mock
import TradeBridge.Hooks

/-!
# The ticks on their topic

`MtSrvHistoryTickApply` is called on the server's own threads, for one tick after the other, and
`handle(const FeedTick*)` publishes on that thread, while the tasks of the pool publish candles and
group symbols over the same connection and any task may be detached. `Party` is a thread of either
kind. Outside, the server's tables and the pause flag change as they like.

Results:
* `TickFeed.apply_eq`: the two steps of a call are `handle(const FeedTick*)`.
* `party_adds`: a step publishes at most one message, on the topic of its kind.
* **`ticks_in_order`**: in every run the messages on the tick topic are the ticks that were applied,
  each published once and in the order of its thread, and no task publishes another one.
-/

namespace TradeBridge

open TradeBridge.Lib

/-- A thread of the server that applies ticks: those to come, and an error that is still to be
logged. -/
structure TickFeed where
  ticks : List FeedTick
  error : Option Bytes
  deriving DecidableEq

/-- A server thread before its first tick. -/
def TickFeed.ofTicks (ticks : List FeedTick) : TickFeed := ⟨ticks, none⟩

/-- A step of `handle(const FeedTick*)`: the publish, or the log of its error. The server may call
again after an exception. -/
def TickFeed.step (f : TickFeed) (w : World) (status : NatsStatus) : World × TickFeed :=
  match f.error, f.ticks with
  | some e, ticks => (w.logError (bytes "Failed to publish feed tick: " ++ e), .ofTicks ticks)
  | none, [] => (w, f)
  | none, tick :: ticks =>
    let p := w.publish status w.names.topicNameFeedTick (.tick tick)
    match p.2 with
    | .ok | .threw => (p.1, .ofTicks ticks)
    | .error e => (p.1, ⟨ticks, some e⟩)

/-- One call of `MtSrvHistoryTickApply`: a step, and another one when there is an error to log. -/
def TickFeed.apply (f : TickFeed) (w : World) (status : NatsStatus) : World × TickFeed :=
  let s := f.step w status
  match s.2.error with
  | none => s
  | some _ => s.2.step s.1 status

/-- **The steps of a call are those of `handle(const FeedTick*)`.** -/
theorem TickFeed.apply_eq (w : World) (status : NatsStatus) (tick : FeedTick)
    (ticks : List FeedTick) :
    (TickFeed.ofTicks (tick :: ticks)).apply w status =
      ((w.handleTick status (some tick)).1, .ofTicks ticks) := by
  unfold TickFeed.apply World.handleTick TickFeed.step TickFeed.ofTicks
  simp only
  cases (w.publish status w.names.topicNameFeedTick (.tick tick)).2 <;> rfl

/-- A thread: a task of the pool, or one of the server's. -/
inductive Party where
  | task (t : Task)
  | feed (f : TickFeed)

/-- The ticks a thread still applies. -/
def Party.ticks : Party → List FeedTick
  | .task _ => []
  | .feed f => f.ticks

/-- What happens outside leaves alone what the plugin has done, its names and the platform. -/
structure World.SameOutput (w w' : World) : Prop where
  calls : w'.calls = w.calls
  names : w'.names = w.names
  platform : w'.platform = w.platform

/-- Server threads and tasks, of which any may be detached on the way. -/
def partyThreads : Threads World Party where
  env := World.SameOutput
  spawn _ p := ∃ t : Task, t.Fresh ∧ p = .task t
  run w p w' p' :=
    (∃ t o, p = .task t ∧ w' = (t.step w o).1 ∧ p' = .task (t.step w o).2) ∨
      ∃ f status, p = .feed f ∧ w' = (f.step w status).1 ∧ p' = .feed (f.step w status).2

/-- The tick of a message. -/
def Message.tick? : Message → Option FeedTick
  | .tick t => some t
  | _ => none

/-- The ticks published so far, oldest first. -/
def World.publishedTicks (w : World) : List FeedTick :=
  w.calls.filterMap fun c => c.message.tick?

/-- Every message is published on the topic of its kind. -/
def World.Typed (w : World) : Prop := ∀ c ∈ w.calls, c.topic = c.message.topic w.names

/-! ## One step -/

/-- What a task publishes is on the topic of its kind, and no tick. -/
theorem Task.act_topic {t : Task} {names : Names} {p : Bytes × Message}
    (h : t.act names = .call p) : p.1 = p.2.topic names ∧ p.2.tick? = none := by
  cases t with
  | chart t =>
    obtain ⟨symbolName, digits, period, pc⟩ := t
    cases pc <;> cases h
    exact ⟨rfl, rfl⟩
  | group t =>
    obtain ⟨group, pc⟩ := t
    cases pc <;> cases h <;> exact ⟨rfl, rfl⟩
  | symbol t =>
    obtain ⟨symbol, pc⟩ := t
    cases pc <;> cases h
    exact ⟨rfl, rfl⟩
  | receive t =>
    obtain ⟨topicName, pc⟩ := t
    cases pc <;> cases h

/-- What one step adds to the calls: nothing, or one on the topic of its message, which is the next
tick of the thread. -/
def Adds (w : World) (p : Party) (w' : World) (p' : Party) : Prop :=
  w'.names = w.names ∧ ((w'.calls = w.calls ∧ p'.ticks = p.ticks) ∨
    ∃ c, w'.calls = w.calls ++ [c] ∧ c.topic = c.message.topic w.names ∧
      p.ticks = c.message.tick?.toList ++ p'.ticks)

theorem task_adds (t : Task) (w : World) (o : Outcome) :
    Adds w (.task t) (t.step w o).1 (.task (t.step w o).2) := by
  rw [Adds, t.step_world w o]
  cases hact : t.act w.names with
  | call p =>
    obtain ⟨htopic, hnone⟩ := Task.act_topic hact
    refine ⟨rfl, Or.inr ⟨_, rfl, htopic, ?_⟩⟩
    show [] = p.2.tick?.toList ++ []
    rw [hnone]
    rfl
  | _ => exact ⟨rfl, Or.inl ⟨rfl, rfl⟩⟩

theorem feed_adds (f : TickFeed) (w : World) (status : NatsStatus) :
    Adds w (.feed f) (f.step w status).1 (.feed (f.step w status).2) := by
  obtain ⟨ticks, error⟩ := f
  cases error with
  | some e => exact ⟨rfl, Or.inl ⟨rfl, rfl⟩⟩
  | none =>
    cases ticks with
    | nil => exact ⟨rfl, Or.inl ⟨rfl, rfl⟩⟩
    | cons tick ticks =>
      simp only [TickFeed.step]
      split <;> exact ⟨rfl, Or.inr ⟨_, rfl, rfl, rfl⟩⟩

/-- **One step of a thread** publishes at most one message, on its topic. -/
theorem party_adds {w w' : World} {p p' : Party} (h : partyThreads.run w p w' p') :
    Adds w p w' p' := by
  rcases h with ⟨t, o, rfl, rfl, rfl⟩ | ⟨f, status, rfl, rfl, rfl⟩
  · exact task_adds t w o
  · exact feed_adds f w status

theorem publishedTicks_append {w w' : World} {c : PublishCall} (h : w'.calls = w.calls ++ [c]) :
    w'.publishedTicks = w.publishedTicks ++ c.message.tick?.toList := by
  unfold World.publishedTicks
  rw [h, List.filterMap_append]
  cases hc : c.message.tick? <;> simp [hc]

/-! ## Runs -/

/-- The tick topic gets what the server threads apply. -/
theorem ticks_emits : Threads.Emits partyThreads.noSpawn (fun _ => True) World.publishedTicks
    Party.ticks where
  env _ he := ⟨trivial, by unfold World.publishedTicks; rw [he.calls]⟩
  spawn _ := id
  run_inv _ _ := trivial
  run_out := by
    intro w p w' p' _ h
    obtain ⟨-, ⟨hcalls, hticks⟩ | ⟨c, hcalls, -, hticks⟩⟩ := party_adds h
    · refine Or.inl ⟨?_, hticks⟩
      unfold World.publishedTicks
      rw [hcalls]
    · rw [publishedTicks_append hcalls, hticks]
      cases c.message.tick? with
      | none => exact Or.inl ⟨List.append_nil _, rfl⟩
      | some tick => exact Or.inr ⟨tick, rfl, rfl⟩

theorem typed_reach {a b : World × List Party} (hr : partyThreads.noSpawn.Reach a b)
    (h : a.1.Typed) : b.1.Typed ∧ b.1.names = a.1.names := by
  induction hr with
  | refl => exact ⟨h, rfl⟩
  | tail _ hs ih =>
    obtain ⟨htyped, hnames⟩ := ih
    cases hs with
    | env he =>
      refine ⟨fun c hc => ?_, he.names.trans hnames⟩
      rw [he.calls] at hc
      rw [he.names]
      exact htyped c hc
    | spawn hsp => exact absurd hsp id
    | run hrun =>
      obtain ⟨hsame, ⟨hcalls, -⟩ | ⟨c, hcalls, htopic, -⟩⟩ := party_adds hrun
      · refine ⟨fun d hd => ?_, hsame.trans hnames⟩
        rw [hcalls] at hd
        rw [hsame]
        exact htyped d hd
      · refine ⟨fun d hd => ?_, hsame.trans hnames⟩
        rw [hcalls] at hd
        rw [hsame]
        rcases List.mem_append.mp hd with hd | hd
        · exact htyped d hd
        · rw [List.mem_singleton.mp hd]
          exact htopic

/-- **On the topics of a server, the tick topic carries ticks only.** -/
theorem Message.topic_eq_iff (pluginName serverName : Bytes) (m : Message) :
    m.topic (.ofServer pluginName serverName) =
      (Names.ofServer pluginName serverName).topicNameFeedTick ↔ m.tick?.isSome := by
  have hcancel (a : Bytes) : serverName ++ a = serverName ++ bytes ".mt4_tick" ↔
      a = bytes ".mt4_tick" := List.append_right_inj serverName
  cases m with
  | tick t => exact ⟨fun _ => rfl, fun _ => rfl⟩
  | symbol m =>
    refine ⟨fun h => ?_, fun h => by cases h⟩
    exact absurd ((hcancel _).mp h) (by decide)
  | candle c =>
    refine ⟨fun h => ?_, fun h => by cases h⟩
    exact absurd ((hcancel _).mp h) (by decide)

/-- What is on the tick topic are the ticks published. -/
theorem onTickTopic {w : World} {pluginName serverName : Bytes} (htyped : w.Typed)
    (hnames : w.names = .ofServer pluginName serverName) :
    (w.calls.filter fun c => c.topic == w.names.topicNameFeedTick).map PublishCall.message =
      w.publishedTicks.map .tick := by
  unfold World.publishedTicks
  have hcalls : ∀ c ∈ w.calls, c.topic = c.message.topic w.names := htyped
  generalize w.calls = calls at hcalls
  induction calls with
  | nil => rfl
  | cons c cs ih =>
    have ih := ih fun d hd => hcalls d (List.mem_cons_of_mem _ hd)
    have htopic : (c.topic == w.names.topicNameFeedTick) = c.message.tick?.isSome := by
      rw [Bool.eq_iff_iff, beq_iff_eq, hcalls c List.mem_cons_self, hnames]
      exact Message.topic_eq_iff pluginName serverName c.message
    rw [List.filter_cons, List.filterMap_cons, htopic]
    cases hm : c.message with
    | tick t => simp [Message.tick?, hm, ih]
    | _ => simp [Message.tick?, ih]

/-- **The tick topic carries the applied ticks, each once and in the order of its thread.** -/
theorem ticks_in_order {w w' : World} {ticks : List (List FeedTick)} {parties : List Party}
    {pluginName serverName : Bytes} (hnames : w.names = .ofServer pluginName serverName)
    (hcalls : w.calls = [])
    (hr : partyThreads.Reach (w, ticks.map fun l => .feed (.ofTicks l)) (w', parties)) :
    ∃ published : List FeedTick,
      (w'.calls.filter fun c => c.topic == w'.names.topicNameFeedTick).map PublishCall.message =
          published.map .tick ∧
        ∀ rest, Interleaving (parties.map Party.ticks) rest →
          Interleaving ticks (published ++ rest) := by
  obtain ⟨new, hnew, hr⟩ := hr.spawn_early
  have htyped : w.Typed := fun c hc => absurd (hcalls ▸ hc) List.not_mem_nil
  obtain ⟨htyped', hnames'⟩ := typed_reach hr htyped
  obtain ⟨-, published, hout, hi⟩ := ticks_emits.reach hr trivial
  have hnone : w.publishedTicks = [] := by
    unfold World.publishedTicks
    rw [hcalls]
    rfl
  rw [hnone, List.nil_append] at hout
  refine ⟨published, ?_, fun rest hrest => ?_⟩
  · rw [onTickTopic htyped' (hnames'.trans hnames), hout]
  · -- the tasks that start publish no tick
    have htasks : ∀ l ∈ new.map Party.ticks, l = [] := by
      intro l hl
      obtain ⟨p, hp, rfl⟩ := List.mem_map.mp hl
      obtain ⟨-, t, -, rfl⟩ := hnew p hp
      rfl
    have hall := hi rest hrest
    rw [List.map_append, List.map_map] at hall
    have hfeeds : ticks.map (Party.ticks ∘ fun l => .feed (.ofTicks l)) = ticks := List.map_id _
    rw [hfeeds] at hall
    exact hall.of_append_nil htasks

/-- Two ticks on one server thread. -/
def twoTicks : List FeedTick :=
  let tick : FeedTick := ⟨⟨bytes "XAUUSD", by decide, by decide⟩, 1700000000, 2000, 2001⟩
  [tick, { tick with bid := 2001, ask := 2002 }]

/-- Its first publish fails and is logged before the second. -/
theorem ticks_in_order_two : ∃ (w' : World) (parties : List Party) (published : List FeedTick),
    (w'.calls.filter fun c => c.topic == w'.names.topicNameFeedTick).map PublishCall.message =
        published.map .tick ∧
      ∀ rest, Interleaving (parties.map Party.ticks) rest →
        Interleaving [twoTicks] (published ++ rest) := by
  have hstep : ∀ (w : World) (f : TickFeed) (status : NatsStatus),
      partyThreads.Step (w, [.feed f]) ((f.step w status).1, [.feed (f.step w status).2]) :=
    fun w f status => Threads.Step.run (l := []) (r := []) (Or.inr ⟨f, status, rfl, rfl, rfl⟩)
  have hr := ((Relation.ReflTransGen.single (hstep (World.start .win32
    (.ofServer (bytes "mt4api") (bytes "srv")) [] [] fun _ _ => none) (.ofTicks twoTicks)
    .timeout)).tail (hstep _ _ .ok)).tail (hstep _ _ .ok)
  exact ⟨_, _, @ticks_in_order _ _ [twoTicks] _ _ _ rfl rfl hr⟩

end TradeBridge
