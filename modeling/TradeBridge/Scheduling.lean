import TradeBridge.Agreement
import TradeBridge.Startup

/-!
# Which publish tasks get a worker

`nats_subscribe_to_trade_request` detaches the receive task into the pool of the publish tasks, at
the higher priority, and it never returns. It holds one worker for good; the publish tasks share
the others.

Results:
* `publishes_of_reach`: in every state the pool of a new plugin can reach, only its first job is not
  a publish task.
* **`publishTasksEnd_iff`**: every queued publish task can always be executed to its end if and only
  if the pool has two workers at least.
* `a_single_worker_publishes_nothing`: `pool_size = 1`.
-/

namespace TradeBridge

open TradeBridge.Lib

/-- A publish task as it is detached. -/
inductive Task.Fresh : Task → Prop
  | chart (symbol : ConSymbol) (period : Int) : Fresh (.ofChart symbol period)
  | group (group : ConGroup) : Fresh (.ofGroup group)
  | symbol (symbol : ConSymbol) : Fresh (.ofSymbol symbol)

theorem Task.Fresh.publishes {t : Task} (h : t.Fresh) : t.publishes = true := by
  cases h <;> rfl

/-- The pool of a plugin: publish tasks are detached at any time and their calls end with anything.
`env` is what happens outside: the server's tables and the pause flag may change. -/
def pluginJobs (env : World → World → Prop) : Jobs World Task :=
  poolJobs (fun _ => True) env Task.Fresh

/-- From every state that `p₀` reaches and in which the pool is not paused, there is a continuation
in which every publish task of the queue ends. A task that an exception has left has ended too: it
had a worker, and has given it back. -/
def PublishTasksEnd (env env' : World → World → Prop) (p₀ : Pool World Task) : Prop :=
  ∀ p, Pool.Reach (pluginJobs env) p₀ p → p.shared.paused = false →
    ∃ p', Pool.Reach (pluginJobs env') p p' ∧
      ∀ i ∈ p.queue, ∀ t, p.jobs[i]? = some t → t.publishes = true →
        ∃ t', p'.jobs[i]? = some t' ∧ t'.ended = true

/-- The pool after the subscription: the receive task waits for a worker. -/
def subscribedPool (w : World) (serverName : Bytes) (poolSize : Nat) : Pool World Task :=
  (newPool w poolSize).detachTask (.ofReceive serverName)

variable {env env' : World → World → Prop}

/-! ## Two workers -/

/-- **A publish task has a run to its end** on every pool that is not paused. -/
theorem publish_finishes :
    Pool.Finishes (pluginJobs env) (fun w => w.paused = false) (fun t => t.publishes = true) where
  unpaused h := h
  finish := by
    intro w t hw ht
    have hturns : ∀ x ∈ allOk (t.size w), x.paused = false := fun x hx => (mem_allOk hx).1
    have hruns : (pluginJobs env).Runs (w, t) (Task.turns w t (allOk (t.size w))) :=
      Task.turns_runs _ hw hturns fun _ _ => trivial
    have hended : (Task.turns w t (allOk (t.size w))).2.ended = true :=
      Task.turns_ended _ ht (List.length_replicate.symm.le)
    exact ⟨_, _, hruns, hended, (Task.turns_same _ hw hturns).paused.trans hw,
      (Task.turns_publishes _ w t).trans ht⟩

/-- **Only the first job is not a publish task.** -/
theorem publishes_of_reach {w : World} {serverName : Bytes} {poolSize : Nat}
    {p : Pool World Task}
    (hr : Pool.Reach (pluginJobs env) (subscribedPool w serverName poolSize) p) {i : Nat}
    {t : Task} (ht : p.jobs[i]? = some t) (hnot : ¬ t.publishes = true) : i = 0 := by
  obtain ⟨new, hnew, hrun⟩ := hr.threads.spawn_early
  have hmap := hrun.map_eq (f := Task.publishes) (by
    rintro s t s' t' ⟨o, ho, -⟩
    have := t.publishes_step s o
    rwa [ho] at this)
  have hpub : (p.jobs.map Task.publishes)[i]? = some t.publishes := by
    rw [List.getElem?_map, ht]
    rfl
  rw [hmap] at hpub
  cases i with
  | zero => rfl
  | succ i =>
    have hmem : t.publishes ∈ new.map Task.publishes := List.mem_of_getElem? (i := i) hpub
    obtain ⟨u, hu, hut⟩ := List.mem_map.mp hmem
    obtain ⟨_, hfresh⟩ := hnew u hu
    have hfresh' : u.Fresh := hfresh
    exact absurd (hut.symm.trans hfresh'.publishes) hnot

theorem publishTasksEnd_of_two_workers {w : World} {serverName : Bytes} {poolSize : Nat}
    (h : 2 ≤ poolSize) : PublishTasksEnd env env' (subscribedPool w serverName poolSize) := by
  intro p hr hpaused
  have hwf : p.WellFormed := by
    have hspawn : (poolJobs (fun _ => True) (fun _ _ => True) fun _ => True).spawn w
        (.ofReceive serverName) := trivial
    exact hr.wellFormed ((Pool.Step.detach (p := newPool w poolSize) hspawn).wellFormed
      (newPool_wellFormed w poolSize))
  have hlen : p.workers.length = poolSize := by
    rw [hr.workers_length]
    exact List.length_replicate
  have hroomy : Pool.Roomy (fun w => w.paused = false) (fun t : Task => t.publishes = true) p :=
    ⟨hwf, hpaused, [0], by rw [hlen]; exact h, fun i t ht hnot =>
      List.mem_singleton.mpr (publishes_of_reach hr ht hnot)⟩
  obtain ⟨p', hr', -, hend⟩ := Pool.exists_drained publish_finishes _ rfl hroomy
  exact ⟨p', hr', hend⟩

/-! ## One worker -/

/-- The receive task. -/
def Task.receives (t : Task) : Prop := t.publishes = false

theorem Task.receives.not_ended {t : Task} (h : t.receives) : t.ended = false := by
  cases t with
  | receive t => rfl
  | _ => cases h

/-- The receive task holds the only worker, and a publish task waits. -/
def starved (w : World) (serverName : Bytes) (t : Task) : Pool World Task where
  shared := w
  jobs := [.ofReceive serverName, t]
  queue := [1]
  workers := [some 0]

theorem starved_reach (w : World) (serverName : Bytes) {t : Task} (ht : t.Fresh)
    (hw : w.paused = false) :
    Pool.Reach (pluginJobs env) (subscribedPool w serverName 1) (starved w serverName t) := by
  have htake : Pool.Step (pluginJobs env) (subscribedPool w serverName 1)
      { shared := w, jobs := [.ofReceive serverName], queue := [], workers := [some 0] } :=
    Pool.Step.take (p := subscribedPool w serverName 1) (l := []) (r := []) hw rfl
      List.mem_cons_self fun i hi => (congrArg _ (List.mem_singleton.mp hi)).le
  exact (Relation.ReflTransGen.single htake).tail (Pool.Step.detach ht)

/-- **With the only worker held by the receive task no publish task ever moves.** -/
theorem starved_stays {w : World} {serverName : Bytes} {t : Task} {p : Pool World Task}
    (hr : Pool.Reach (pluginJobs env) (starved w serverName t) p) : p.jobs[1]? = some t := by
  have hblocked : (starved w serverName t).Blocked Task.receives := by
    intro worker hworker
    rw [List.mem_singleton.mp hworker]
    exact ⟨0, _, rfl, rfl, rfl⟩
  refine (Pool.Blocked.reach (fun t => Task.receives.not_ended) ?_ hblocked hr).2.2 1 t rfl ?_
  · rintro s u s' u' hu ⟨o, ho, -⟩
    have := u.publishes_step s o
    rw [ho] at this
    exact this.trans hu
  · exact fun h => by cases List.mem_singleton.mp h

theorem not_publishTasksEnd_of_one_worker {w : World} (hw : w.paused = false)
    (serverName : Bytes) : ¬ PublishTasksEnd env env' (subscribedPool w serverName 1) := by
  intro h
  have hfresh := Task.Fresh.group (demoGroup [])
  obtain ⟨p', hr', hend⟩ := h _ (starved_reach w serverName hfresh hw) hw
  obtain ⟨t', ht', hended⟩ := hend 1 List.mem_cons_self _ rfl hfresh.publishes
  rw [starved_stays hr'] at ht'
  rw [← Option.some.inj ht'] at hended
  cases hended

/-! ## The pool sizes of `initialize` -/

/-- The size is one where it is configured so, or falls back on a machine with one processor. -/
theorem resolvePoolSize_eq_one_iff {hardwareConcurrency poolSize : Nat} :
    resolvePoolSize hardwareConcurrency poolSize = 1 ↔
      poolSize = 1 ∨ (poolSize = 0 ∧ hardwareConcurrency = 1) := by
  unfold resolvePoolSize
  split
  · split <;> omega
  · omega

/-- **Publish tasks are never blocked out of the pool** if and only if its size is not one: not
configured as one, and not left to a machine with one processor. -/
theorem publishTasksEnd_iff (env env' : World → World → Prop) (o : Outside)
    (pluginName serverName natsUrl u : Bytes) (poolSize : Nat)
    (hconn : o.connect natsUrl = .ok u)
    (hsub : o.subscribe (tradeRequestTopic serverName) = .ok ()) :
    PublishTasksEnd env env' (Plugin.new o pluginName serverName natsUrl
        (resolvePoolSize o.hardwareConcurrency poolSize)).pool ↔
      poolSize ≠ 1 ∧ ¬ (poolSize = 0 ∧ o.hardwareConcurrency = 1) := by
  rw [Plugin.new_pool _ hconn hsub, ← not_or, ← resolvePoolSize_eq_one_iff]
  have hpos := resolvePoolSize_pos o.hardwareConcurrency poolSize
  constructor
  · intro h hone
    rw [hone] at h
    exact not_publishTasksEnd_of_one_worker rfl serverName h
  · intro hne
    exact publishTasksEnd_of_two_workers (by omega)

/-- **A pool of one worker publishes nothing**, even where anything may happen outside. -/
theorem a_single_worker_publishes_nothing :
    ¬ PublishTasksEnd (fun _ _ => False) (fun _ _ => True)
      (Plugin.new (.healthy ⟨bytes "test1", [], 1⟩) pluginInfoName (bytes "test1") [] 1).pool := by
  rw [Plugin.new_pool 1 (u := []) rfl rfl]
  exact not_publishTasksEnd_of_one_worker rfl _

/-- With two workers every publish task ends, whatever happened outside before and although nothing
does afterwards. -/
theorem two_workers_publish :
    PublishTasksEnd (fun _ _ => True) (fun _ _ => False)
      (Plugin.new (.healthy ⟨bytes "test1", [], 2⟩) pluginInfoName (bytes "test1") [] 2).pool :=
  (publishTasksEnd_iff _ _ (.healthy ⟨bytes "test1", [], 2⟩) pluginInfoName (bytes "test1") [] []
    2 rfl rfl).mpr (by decide)

end TradeBridge
