import TradeBridge.EntryPoints
import TradeBridge.TickStream
import TradeBridge.TableRuns
import TradeBridge.Drains

/-!
# A plugin in service

Between `MtSrvStartup` and `MtSrvCleanup` the server calls the hooks (`dllmain.cpp:85-123`) on its
own threads while the workers run what the hooks have detached. A hook for a group or a symbol only
detaches a task, and `MtSrvPluginCfgSet` only logs, so each is one step. A tick is published on the
thread of its call and an error logged after that (`TickFeed.step`). The server's tables stay as
they are meanwhile, and nobody pauses the pool.

Results:
* `Service.Runs.follows`: a run of the whole is one of its server threads and tasks.
* **`hooks_reach_nats`**: when nothing is left to do, the publish calls are an interleaving of the
  ticks of each server thread and of the messages of each hook call, and there is no other.
-/

namespace TradeBridge

open TradeBridge.Lib

/-! ## The system -/

/-- The call is of a hook that detaches tasks or logs. -/
def HookCall.configures : HookCall → Bool
  | .mtSrvPluginCfgSet _ | .mtSrvGroupsAdd _ | .mtSrvSymbolsAdd _ => true
  | _ => false

/-- The tasks a call detaches. -/
def HookCall.tasks : HookCall → List Task
  | .mtSrvGroupsAdd group => handleGroup group
  | .mtSrvSymbolsAdd symbol => handleSymbol symbol
  | _ => []

/-- The library, and the server's threads that apply ticks. -/
structure Service where
  dll : LoadedDll
  feeds : List TickFeed

/-- The plugin goes on with another pool. -/
def Service.setPool (s : Service) (p : Plugin) (q : Pool World Task) : Service :=
  { s with dll := { s.dll with mt4plugin := some { p with pool := q } } }

/-- The runs from `s₀`, with the calls of the hooks that configure on the way. -/
inductive Service.Runs (s₀ : Service) : List HookCall → Service → Prop
  | start : Service.Runs s₀ [] s₀
  | hook {calls : List HookCall} {s : Service} {c : HookCall} {d : LoadedDll} {r : Returned}
      (h : Service.Runs s₀ calls s) (hc : c.configures = true)
      (hcall : s.dll.call c = some (d, r)) : Service.Runs s₀ (calls ++ [c]) { s with dll := d }
  | tick {calls : List HookCall} {s : Service} {p : Plugin} {l r : List TickFeed} {f : TickFeed}
      (h : Service.Runs s₀ calls s) (hp : s.dll.mt4plugin = some p) (hf : s.feeds = l ++ f :: r)
      (status : NatsStatus) :
      Service.Runs s₀ calls
        { s.setPool p { p.pool with shared := (f.step p.pool.shared status).1 } with
          feeds := l ++ (f.step p.pool.shared status).2 :: r }
  | work {calls : List HookCall} {s : Service} {p : Plugin} {q : Pool World Task}
      (h : Service.Runs s₀ calls s) (hp : s.dll.mt4plugin = some p)
      (hs : Pool.Step workerJobs p.pool q) : Service.Runs s₀ calls (s.setPool p q)

/-- Where the plugin has just been made, and each server thread has its ticks before it. -/
def Service.fresh (p : Plugin) (logs : List LogEntry) (ticks : List (List FeedTick)) : Service :=
  ⟨⟨⟨some p, logs⟩, true⟩, ticks.map .ofTicks⟩

/-! ## What is still to be published -/

/-- The task walks the tables and its messages can be encoded, or it is the receive task. -/
def Task.Hooked (groups : List ConGroup) (symbols : List ConSymbol) (t : Task) : Prop :=
  (t.OfTable ∨ t.publishes = false) ∧ t.Sendable groups symbols

/-- The publish calls a thread has before it. -/
def Party.attempts (w : World) : Party → List (Bytes × Message)
  | .task t => (t.todo w.groups w.symbols).map w.attemptOf
  | .feed f => f.ticks.map fun tick => (w.names.topicNameFeedTick, .tick tick)

/-- The server threads and the tasks of hooks. -/
def serviceThreads : Threads World Party where
  env _ _ := False
  spawn _ _ := False
  run w p w' p' := partyThreads.run w p w' p' ∧ ∀ t, p = .task t → t.Hooked w.groups w.symbols

/-- The tables and the names are those of `w₀`, and the pool is not paused. -/
structure World.SameTables (w₀ w : World) : Prop extends OverTables w₀.groups w₀.symbols w where
  names : w.names = w₀.names

variable {w₀ w w' : World}

theorem World.SameTables.attempts (h : w₀.SameTables w) (p : Party) :
    p.attempts w = p.attempts w₀ := by
  have hattempt : w.attemptOf = w₀.attemptOf := by
    unfold World.attemptOf
    rw [h.names]
  cases p with
  | task t => simp only [Party.attempts, hattempt, h.groups, h.symbols]
  | feed f => simp only [Party.attempts, h.names]

theorem feed_same (f : TickFeed) (w : World) (status : NatsStatus) :
    World.SameServer w (f.step w status).1 := by
  obtain ⟨ticks, error⟩ := f
  cases error with
  | some e => exact ⟨rfl, rfl, rfl, rfl, rfl, rfl⟩
  | none =>
    cases ticks with
    | nil => exact .refl w
    | cons tick ticks =>
      simp only [TickFeed.step]
      split <;> exact ⟨rfl, rfl, rfl, rfl, rfl, rfl⟩

theorem party_same {p p' : Party} (h : partyThreads.run w p w' p') : World.SameServer w w' := by
  rcases h with ⟨t, o, rfl, rfl, rfl⟩ | ⟨f, status, rfl, rfl, rfl⟩
  · exact t.step_same w o
  · exact feed_same f w status

theorem World.SameTables.same (h : w₀.SameTables w) (hs : World.SameServer w w') :
    w₀.SameTables w' :=
  ⟨h.toOverTables.step hs, hs.names.trans h.names⟩

/-- A task makes the first of its calls, or none. -/
theorem task_attempts {t : Task} (ht : t.Hooked w.groups w.symbols) (hw : w.paused = false)
    (o : Outcome) :
    (t.step w o).1.calls.map PublishCall.attempt =
        w.calls.map PublishCall.attempt ++ (t.atPublish w.names).toList ∧
      (Party.task t).attempts w =
        (t.atPublish w.names).toList ++ (Party.task (t.step w o).2).attempts w := by
  constructor
  · have hcalls : (t.step w o).1.calls = w.calls ++ t.stepCalls w o := t.step_calls w o
    rw [hcalls, List.map_append, t.attempts_stepCalls]
  · obtain ⟨htable | hrec, hsend⟩ := ht
    · exact htable.step_rest hw hsend.threw
    · cases t with
      | receive t => rfl
      | _ => cases hrec

/-- A server thread makes the first of its calls, or none. -/
theorem feed_attempts (f : TickFeed) (w : World) (status : NatsStatus) :
    ∃ e : Option (Bytes × Message),
      (f.step w status).1.calls.map PublishCall.attempt =
          w.calls.map PublishCall.attempt ++ e.toList ∧
        (Party.feed f).attempts w = e.toList ++ (Party.feed (f.step w status).2).attempts w := by
  obtain ⟨ticks, error⟩ := f
  cases error with
  | some e => exact ⟨none, (List.append_nil _).symm, rfl⟩
  | none =>
    cases ticks with
    | nil => exact ⟨none, (List.append_nil _).symm, rfl⟩
    | cons tick ticks =>
      refine ⟨some (w.names.topicNameFeedTick, .tick tick), ?_, ?_⟩
      · simp only [TickFeed.step]
        split <;> exact List.map_append
      · simp only [TickFeed.step]
        split <;> rfl

/-- **The threads make the calls they have before them.** -/
theorem service_emits (w₀ : World) : Threads.Emits serviceThreads w₀.SameTables
    (fun w => w.calls.map PublishCall.attempt) (Party.attempts w₀) where
  env _ he := absurd he id
  spawn _ := id
  run_inv hw hrun := hw.same (party_same hrun.1)
  run_out := by
    rintro w p w' p' hw ⟨hrun, hhooked⟩
    have hone : ∃ e : Option (Bytes × Message),
        w'.calls.map PublishCall.attempt = w.calls.map PublishCall.attempt ++ e.toList ∧
          p.attempts w₀ = e.toList ++ p'.attempts w₀ := by
      rcases hrun with ⟨t, o, rfl, rfl, rfl⟩ | ⟨f, status, rfl, rfl, rfl⟩
      · obtain ⟨hcalls, hrest⟩ := task_attempts (hhooked t rfl) hw.paused o
        rw [hw.attempts, hw.attempts] at hrest
        exact ⟨_, hcalls, hrest⟩
      · obtain ⟨e, hcalls, hrest⟩ := feed_attempts f w status
        rw [hw.attempts, hw.attempts] at hrest
        exact ⟨e, hcalls, hrest⟩
    obtain ⟨e, hcalls, hrest⟩ := hone
    cases e with
    | none => exact Or.inl ⟨hcalls.trans (List.append_nil _), hrest.symm⟩
    | some e => exact Or.inr ⟨e, hcalls, hrest⟩

/-! ## One step of the service -/

theorem Task.Hooked.step {t : Task} (hw : w₀.SameTables w) (ht : t.Hooked w₀.groups w₀.symbols)
    (o : Outcome) : (t.step w o).2.Hooked w₀.groups w₀.symbols :=
  ⟨ht.1.imp (fun h => h.step w o) fun h => (t.publishes_step w o).trans h,
    ht.2.step hw.toOverTables o⟩

/-- The threads of a service: those of the server, and the tasks. -/
def parties (feeds : List TickFeed) (tasks : List Task) : List Party :=
  feeds.map .feed ++ tasks.map .task

theorem parties_append (feeds : List TickFeed) (tasks new : List Task) :
    parties feeds (tasks ++ new) = parties feeds tasks ++ new.map .task := by
  unfold parties
  rw [List.map_append, List.append_assoc]

/-- **A step of a worker** is one of a task, or of none. -/
theorem work_parties (feeds : List TickFeed) {q q' : Pool World Task}
    (hs : Pool.Step workerJobs q q') (hw : w₀.SameTables q.shared)
    (hhooked : ∀ t ∈ q.jobs, t.Hooked w₀.groups w₀.symbols) :
    w₀.SameTables q'.shared ∧ (∀ t ∈ q'.jobs, t.Hooked w₀.groups w₀.symbols) ∧
      serviceThreads.Reach (q.shared, parties feeds q.jobs)
        (q'.shared, parties feeds q'.jobs) := by
  cases hs with
  | env h => exact absurd h id
  | detach h => exact absurd h id
  | take _ _ _ _ => exact ⟨hw, hhooked, Relation.ReflTransGen.refl⟩
  | release _ _ _ => exact ⟨hw, hhooked, Relation.ReflTransGen.refl⟩
  | @run i w' t t' _ ht _ h =>
    obtain ⟨hi, hget⟩ := List.getElem?_eq_some_iff.mp ht
    obtain ⟨o, ho, -⟩ := h
    obtain ⟨l, r, hjobs, -, hset⟩ := @List.exists_of_set _ i t' q.jobs hi
    rw [hget] at hjobs
    have ht : t.Hooked w₀.groups w₀.symbols := hhooked t (hget ▸ List.getElem_mem hi)
    have ht' : t'.Hooked w₀.groups w₀.symbols := by
      have := ht.step hw o
      rwa [ho] at this
    have hrun : partyThreads.run q.shared (.task t) w' (.task t') :=
      Or.inl ⟨t, o, rfl, (congrArg Prod.fst ho).symm,
        congrArg Party.task (congrArg Prod.snd ho).symm⟩
    refine ⟨hw.same (party_same hrun), fun u hu => ?_, ?_⟩
    · rcases List.mem_or_eq_of_mem_set hu with hu | rfl
      · exact hhooked u hu
      · exact ht'
    · have hstep : serviceThreads.Step
          (q.shared, (feeds.map .feed ++ l.map .task) ++ .task t :: r.map .task)
          (w', (feeds.map .feed ++ l.map .task) ++ .task t' :: r.map .task) := by
        refine Threads.Step.run ⟨hrun, ?_⟩
        rintro _ ⟨⟩
        rw [hw.groups, hw.symbols]
        exact ht
      unfold parties
      rw [hset, hjobs, List.map_append, List.map_append, ← List.append_assoc, ← List.append_assoc]
      exact Relation.ReflTransGen.single hstep

/-- A step of the workers is one of the plugin's pool. -/
theorem worker_step {env : World → World → Prop} {q q' : Pool World Task}
    (hs : Pool.Step workerJobs q q') : Pool.Step (pluginJobs env) q q' := by
  cases hs with
  | env h => exact absurd h id
  | detach h => exact absurd h id
  | take hp hw hid hmax => exact .take hp hw hid hmax
  | run hw ht he h => exact .run hw ht he h
  | release hw ht he => exact .release hw ht he

/-- The call of a hook that configures detaches its tasks. -/
theorem call_configures {d d' : LoadedDll} {c : HookCall} {r : Returned}
    (hc : c.configures = true) (h : d.call c = some (d', r)) :
    d'.mt4plugin = d.mt4plugin.map fun p => p.detach c.tasks := by
  cases c with
  | mtSrvPluginCfgSet values =>
    have hsame : d'.mt4plugin = d.mt4plugin := by
      obtain ⟨d₁, hset, hd⟩ := Option.map_eq_some_iff.mp h
      obtain ⟨rfl, -⟩ := Prod.mk.inj hd
      unfold LoadedDll.mtSrvPluginCfgSet at hset
      split at hset
      · exact (LoadedDll.foldlM_logInfo values hset).2
      · obtain rfl := Option.some.inj hset
        rfl
    rw [hsame]
    exact Option.map_id'.symm
  | mtSrvGroupsAdd group =>
    obtain ⟨rfl, -⟩ := Prod.mk.inj (Option.some.inj h)
    rfl
  | mtSrvSymbolsAdd symbol =>
    obtain ⟨rfl, -⟩ := Prod.mk.inj (Option.some.inj h)
    rfl
  | _ => cases hc

theorem HookCall.tasks_fresh {c : HookCall} {t : Task} (h : t ∈ c.tasks) : t.Fresh ∧ t.OfTable := by
  cases c with
  | mtSrvGroupsAdd group =>
    cases group with
    | none => cases h
    | some group =>
      rw [List.mem_singleton.mp h]
      exact ⟨.group group, trivial⟩
  | mtSrvSymbolsAdd symbol =>
    obtain ⟨s, rfl⟩ := mem_handleSymbol h
    exact ⟨.symbol s, trivial⟩
  | _ => cases h

/-- What detaching a list of tasks does. -/
theorem detach_tasks {env : World → World → Prop} : ∀ (tasks : List Task) (q : Pool World Task),
    (∀ t ∈ tasks, t.Fresh) → Pool.Reach (pluginJobs env) q (tasks.foldl Pool.detachTask q) ∧
      (tasks.foldl Pool.detachTask q).shared = q.shared ∧
      (tasks.foldl Pool.detachTask q).jobs = q.jobs ++ tasks
  | [], q, _ => ⟨Relation.ReflTransGen.refl, rfl, (List.append_nil _).symm⟩
  | t :: tasks, q, h => by
    obtain ⟨hr, hshared, hjobs⟩ := detach_tasks tasks (q.detachTask t)
      fun u hu => h u (List.mem_cons_of_mem _ hu)
    have hdetach : Pool.Step (pluginJobs env) q (q.detachTask t) :=
      .detach (h t List.mem_cons_self)
    refine ⟨Relation.ReflTransGen.head hdetach hr, hshared, hjobs.trans ?_⟩
    exact List.append_assoc _ _ _

/-! ## Runs -/

/-- The plugin of a service that has been called: its pool has run from `q₀` on, and its threads
from those that the calls and the ticks make. -/
structure Service.Follows (q₀ : Pool World Task) (ticks : List (List FeedTick))
    (calls : List HookCall) (s : Service) (p : Plugin) : Prop where
  plugin : s.dll.mt4plugin = some p
  reach : Pool.Reach (pluginJobs fun _ _ => True) q₀ p.pool
  tables : q₀.shared.SameTables p.pool.shared
  hooked : ∀ t ∈ p.pool.jobs, t.Hooked q₀.shared.groups q₀.shared.symbols
  threads : serviceThreads.Reach
    (q₀.shared, parties (ticks.map .ofTicks) (q₀.jobs ++ calls.flatMap HookCall.tasks))
    (p.pool.shared, parties s.feeds p.pool.jobs)

variable {q₀ : Pool World Task} {ticks : List (List FeedTick)} {calls : List HookCall}
  {s : Service} {p : Plugin}

theorem Service.Follows.hook (h : s.Follows q₀ ticks calls p) {c : HookCall} {d : LoadedDll}
    {r : Returned} (hc : c.configures = true) (hcall : s.dll.call c = some (d, r))
    (hsend : ∀ t ∈ c.tasks, t.Sendable q₀.shared.groups q₀.shared.symbols) :
    Service.Follows q₀ ticks (calls ++ [c]) { s with dll := d } (p.detach c.tasks) := by
  obtain ⟨hreach, hshared, hjobs⟩ := @detach_tasks (fun _ _ => True) c.tasks p.pool
    fun t ht => (HookCall.tasks_fresh ht).1
  refine ⟨?_, h.reach.trans hreach, hshared.symm ▸ h.tables, fun t ht => ?_, ?_⟩
  · rw [call_configures hc hcall, h.plugin]
    rfl
  · rcases List.mem_append.mp (hjobs ▸ ht) with ht | ht
    · exact h.hooked t ht
    · exact ⟨Or.inl (HookCall.tasks_fresh ht).2, hsend t ht⟩
  · -- the new tasks stand by from the beginning
    have hshared' : (p.detach c.tasks).pool.shared = p.pool.shared := hshared
    have hjobs' : (p.detach c.tasks).pool.jobs = p.pool.jobs ++ c.tasks := hjobs
    have hearly := @Threads.Reach.append _ _ serviceThreads _ _ h.threads (c.tasks.map .task)
    rw [List.flatMap_append, List.flatMap_singleton, ← List.append_assoc, hshared', hjobs',
      parties_append _ (q₀.jobs ++ _), parties_append _ p.pool.jobs]
    exact hearly

theorem Service.Follows.tick (h : s.Follows q₀ ticks calls p) {l r : List TickFeed} {f : TickFeed}
    (hf : s.feeds = l ++ f :: r) (status : NatsStatus) :
    Service.Follows q₀ ticks calls
      { s.setPool p { p.pool with shared := (f.step p.pool.shared status).1 } with
        feeds := l ++ (f.step p.pool.shared status).2 :: r }
      { p with pool := { p.pool with shared := (f.step p.pool.shared status).1 } } := by
  have hrun : partyThreads.run p.pool.shared (.feed f) (f.step p.pool.shared status).1
      (.feed (f.step p.pool.shared status).2) := Or.inr ⟨f, status, rfl, rfl, rfl⟩
  refine ⟨rfl, h.reach.tail (.env trivial), h.tables.same (party_same hrun), h.hooked, ?_⟩
  have hbefore := h.threads
  have hstep : serviceThreads.Step
      (p.pool.shared, l.map .feed ++ .feed f :: (r.map .feed ++ p.pool.jobs.map .task))
      ((f.step p.pool.shared status).1, l.map .feed ++ .feed (f.step p.pool.shared status).2 ::
        (r.map .feed ++ p.pool.jobs.map .task)) :=
    Threads.Step.run ⟨hrun, fun t ht => (by cases ht)⟩
  unfold parties at hbefore ⊢
  simp only [hf, List.map_append, List.map_cons, List.append_assoc, List.cons_append] at hbefore ⊢
  exact hbefore.tail hstep

theorem Service.Follows.work (h : s.Follows q₀ ticks calls p) {q : Pool World Task}
    (hs : Pool.Step workerJobs p.pool q) :
    Service.Follows q₀ ticks calls (s.setPool p q) { p with pool := q } := by
  obtain ⟨htables, hhooked, hthreads⟩ := work_parties s.feeds hs h.tables h.hooked
  exact ⟨rfl, h.reach.tail (worker_step hs), htables, hhooked, h.threads.trans hthreads⟩

/-- **A run of the service is one of its threads.** -/
theorem Service.Runs.follows {p₀ : Plugin} {logs : List LogEntry}
    (hpaused : p₀.pool.shared.paused = false)
    (hhooked : ∀ t ∈ p₀.pool.jobs, t.Hooked p₀.pool.shared.groups p₀.pool.shared.symbols)
    (h : Service.Runs (.fresh p₀ logs ticks) calls s)
    (hsend : ∀ t ∈ calls.flatMap HookCall.tasks,
      t.Sendable p₀.pool.shared.groups p₀.pool.shared.symbols) :
    ∃ p, s.Follows p₀.pool ticks calls p := by
  induction h with
  | start =>
    refine ⟨p₀, rfl, Relation.ReflTransGen.refl, ⟨⟨rfl, rfl, hpaused⟩, rfl⟩, hhooked, ?_⟩
    rw [List.flatMap_nil, List.append_nil]
    exact Relation.ReflTransGen.refl
  | @hook calls s c d r _ hc hcall ih =>
    rw [List.flatMap_append, List.flatMap_singleton, List.forall_mem_append] at hsend
    obtain ⟨p, hp⟩ := ih hsend.1
    exact ⟨_, hp.hook hc hcall hsend.2⟩
  | tick _ hp hf status ih =>
    obtain ⟨p, hfollows⟩ := ih hsend
    obtain rfl := Option.some.inj (hp.symm.trans hfollows.plugin)
    exact ⟨_, hfollows.tick hf status⟩
  | work _ hp hs ih =>
    obtain ⟨p, hfollows⟩ := ih hsend
    obtain rfl := Option.some.inj (hp.symm.trans hfollows.plugin)
    exact ⟨_, hfollows.work hs⟩

/-! ## What NATS gets -/

/-- The publish calls of the server's threads, and those of the tasks of the calls. -/
def serviceAttempts (w : World) (ticks : List (List FeedTick)) (calls : List HookCall) :
    List (List (Bytes × Message)) :=
  ticks.map (List.map fun tick => (w.names.topicNameFeedTick, .tick tick)) ++
    (calls.flatMap HookCall.tasks).map fun t => (t.todo w.groups w.symbols).map w.attemptOf

theorem parties_attempts (w : World) (serverName : Bytes) (ticks : List (List FeedTick))
    (calls : List HookCall) {out : List (Bytes × Message)}
    (h : Interleaving ((parties (ticks.map .ofTicks)
      ([.ofReceive serverName] ++ calls.flatMap HookCall.tasks)).map (Party.attempts w)) out) :
    Interleaving (serviceAttempts w ticks calls) out := by
  unfold parties at h
  rw [List.map_append, List.map_map, List.map_map, List.map_map] at h
  exact Interleaving.of_nil_middle h

/-- **A plugin in service publishes what it has been called for.** Behind a subscription, with two
workers, and where the messages of the hooks can be encoded: when every tick has been applied and no
worker has a step of progress to make, nothing waits, every publish task has ended, and the publish
calls are an interleaving of the ticks of each server thread and of the messages of each hook call,
each in its order. -/
theorem hooks_reach_nats {o : Outside} {pluginName serverName natsUrl u : Bytes} {poolSize : Nat}
    {logs : List LogEntry} (hconn : o.connect natsUrl = .ok u)
    (hsub : o.subscribe (tradeRequestTopic serverName) = .ok ()) (htwo : 2 ≤ poolSize)
    (h : Service.Runs (.fresh (.new o pluginName serverName natsUrl poolSize) logs ticks) calls s)
    (hsend : ∀ t ∈ calls.flatMap HookCall.tasks, t.Sendable o.groups o.symbols)
    (hp : s.dll.mt4plugin = some p) (hticks : ∀ f ∈ s.feeds, f.ticks = [])
    (hstuck : ∀ q, ¬ Pool.Progress workerJobs Publishes p.pool q) :
    p.pool.queue = [] ∧ (∀ t ∈ p.pool.jobs, t.publishes = true → t.ended = true) ∧
      Interleaving (serviceAttempts (o.world (.ofServer pluginName serverName)) ticks calls)
        (p.pool.shared.calls.map PublishCall.attempt) := by
  have hnew := @Plugin.new_pool o pluginName serverName natsUrl u poolSize hconn hsub
  generalize Plugin.new o pluginName serverName natsUrl poolSize = p₀ at h hnew
  have hfollows : ∃ p, s.Follows p₀.pool ticks calls p := by
    refine h.follows (by rw [hnew]; rfl) (fun t ht => ?_) (by rw [hnew]; exact hsend)
    rw [hnew] at ht
    rw [List.mem_singleton.mp ht]
    exact ⟨Or.inr rfl, trivial⟩
  rw [hnew] at hfollows
  obtain ⟨p', hfollows⟩ := hfollows
  obtain rfl := Option.some.inj (hp.symm.trans hfollows.plugin)
  obtain ⟨hroomy, hplaced⟩ := subscribedPool_roomy htwo hfollows.reach
  obtain ⟨hqueue, hended⟩ := @Pool.drained_of_stuck _ _ workerJobs _ _ _ hroomy hplaced
    (fun w t _ _ => @pluginJobs_live (fun _ _ => False) w t) hfollows.tables.paused hstuck
  have hdone : ∀ t ∈ p.pool.jobs, t.publishes = true → t.ended = true := by
    intro t ht hpub
    obtain ⟨i, hi⟩ := List.mem_iff_getElem?.mp ht
    exact hended i t hi hpub
  have hnothing : ∀ x ∈ parties s.feeds p.pool.jobs,
      x.attempts (o.world (.ofServer pluginName serverName)) = [] := by
    intro x hx
    rcases List.mem_append.mp hx with hx | hx
    · obtain ⟨f, hf, rfl⟩ := List.mem_map.mp hx
      exact List.map_eq_nil_iff.mpr (hticks f hf)
    · obtain ⟨t, ht, rfl⟩ := List.mem_map.mp hx
      refine List.map_eq_nil_iff.mpr ?_
      cases t with
      | receive t => rfl
      | _ => exact todo_of_ended (hdone _ ht rfl)
  refine ⟨hqueue, hdone, ?_⟩
  obtain ⟨e, hcalls, hi⟩ := (service_emits _).reach_done hfollows.threads ⟨⟨rfl, rfl, rfl⟩, rfl⟩
    hnothing
  rw [hcalls]
  exact parties_attempts _ serverName ticks calls hi

theorem Service.Runs.works {s₀ : Service} (h : Service.Runs s₀ calls s)
    (hp : s.dll.mt4plugin = some p) {q : Pool World Task}
    (hr : Pool.Reach workerJobs p.pool q) : Service.Runs s₀ calls (s.setPool p q) := by
  induction hr with
  | refl =>
    obtain ⟨⟨⟨_, _⟩, _⟩, _⟩ := s
    cases hp
    exact h
  | @tail q q' _ hs ih => exact ih.work (p := { p with pool := q }) rfl hs

/-- Where nothing waits and no worker holds a publish task, there is no step of progress. -/
theorem at_rest {q : Pool World Task} (hqueue : q.queue = [])
    (hheld : ∀ i, some i ∈ q.workers → ∀ t, q.jobs[i]? = some t → t.publishes = false) :
    ∀ q', ¬ Pool.Progress workerJobs Publishes q q' := by
  intro q' hq
  cases hq with
  | take _ _ hid _ => exact List.not_mem_nil (hqueue ▸ hid)
  | run hw ht hm _ _ => exact Bool.false_ne_true ((hheld _ hw _ ht).symm.trans hm)
  | release hw ht he =>
    have hrec := hheld _ (hw ▸ List.mem_append.mpr (Or.inr List.mem_cons_self)) _ ht
    exact Bool.false_ne_true ((Task.receives.not_ended hrec).symm.trans he)

/-- Two idle workers take the receive task and a publish task, and run that to its end. -/
theorem Service.Runs.one_task {s₀ : Service} (h : Service.Runs s₀ calls s)
    (hp : s.dll.mt4plugin = some p) {w w' : World} {t u u' : Task}
    (hpool : p.pool = ⟨w, [t, u], [0, 1], [none, none]⟩) (hw : w.paused = false)
    (ht : u.priority ≤ t.priority) (hruns : workerJobs.Runs (w, u) (w', u'))
    (hended : u'.ended = true) :
    Service.Runs s₀ calls (s.setPool p ⟨w', [t, u'], [], [some 0, none]⟩) := by
  refine h.works hp ?_
  rw [hpool]
  have hfirst : Pool.Step workerJobs ⟨w, [t, u], [0, 1], [none, none]⟩
      ⟨w, [t, u], [1], [some 0, none]⟩ := by
    refine Pool.Step.take (p := ⟨w, [t, u], [0, 1], [none, none]⟩) (l := []) (r := [none]) hw rfl
      List.mem_cons_self fun i hi => ?_
    rcases List.mem_cons.mp hi with rfl | hi
    · exact Int.le_refl _
    · rw [List.mem_singleton.mp hi]
      exact ht
  have hsecond : Pool.Step workerJobs ⟨w, [t, u], [1], [some 0, none]⟩
      ⟨w, [t, u], [], [some 0, some 1]⟩ := by
    refine Pool.Step.take (p := ⟨w, [t, u], [1], [some 0, none]⟩) (l := [some 0]) (r := []) hw rfl
      List.mem_cons_self fun i hi => ?_
    rw [List.mem_singleton.mp hi]
  have hturns : Pool.Reach workerJobs ⟨w, [t, u], [], [some 0, some 1]⟩
      ⟨w', [t, u'], [], [some 0, some 1]⟩ :=
    Pool.Reach.runs (p := ⟨w, [t, u], [], [some 0, some 1]⟩) (i := 1) (b := (w', u'))
      (List.mem_cons_of_mem _ List.mem_cons_self) rfl hruns
  have hlast : Pool.Step workerJobs ⟨w', [t, u'], [], [some 0, some 1]⟩
      ⟨w', [t, u'], [], [some 0, none]⟩ :=
    Pool.Step.release (p := ⟨w', [t, u'], [], [some 0, some 1]⟩) (l := [some 0]) (r := []) rfl rfl
      hended
  exact ((Relation.ReflTransGen.single hfirst).tail hsecond).trans (hturns.tail hlast)

/-- A server with one group and one symbol. -/
def oneGroupServer : Outside :=
  { Outside.healthy ⟨bytes "test1", [], 2⟩ with groups := [demoGroup []], symbols := [eurusd] }

/-- The group is added and two ticks are applied. -/
theorem a_group_and_ticks_reach_nats : ∃ p : Plugin, p.pool.queue = [] ∧
    Interleaving
      (serviceAttempts (oneGroupServer.world (.ofServer pluginInfoName (bytes "test1"))) [twoTicks]
        [.mtSrvGroupsAdd (some (demoGroup []))])
      (p.pool.shared.calls.map PublishCall.attempt) := by
  have hadded := Service.Runs.hook (r := .int true) (@Service.Runs.start (.fresh
    (.new oneGroupServer pluginInfoName (bytes "test1") [] 2) [] [twoTicks]))
    (c := .mtSrvGroupsAdd (some (demoGroup []))) rfl rfl
  have hfirst := hadded.tick (l := []) (r := []) rfl rfl .ok
  have hsecond := hfirst.tick (l := []) (r := []) rfl rfl .ok
  have hended := hsecond.one_task rfl rfl rfl (by decide)
    (Task.turns_runs (allOk 5) rfl (fun x hx => (mem_allOk hx).1) fun _ _ => trivial) rfl
  have hsend : (Task.ofGroup (demoGroup [])).Sendable oneGroupServer.groups
      oneGroupServer.symbols :=
    show CanPublish _ by unfold CanPublish; decide
  obtain ⟨hqueue, -, hcalls⟩ := hooks_reach_nats (u := []) rfl rfl (Nat.le_refl 2) hended
    (fun t ht => List.mem_singleton.mp ht ▸ hsend) rfl
    (fun f hf => by rw [List.mem_singleton.mp hf]; rfl) (at_rest rfl fun i hi t ht => by
      obtain rfl := Option.some.inj ((List.mem_cons.mp hi).resolve_right (by simp))
      obtain rfl := Option.some.inj ht
      rfl)
  exact ⟨_, hqueue, hcalls⟩

end TradeBridge
