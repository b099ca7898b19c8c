import TradeBridge.Lib.PoolProgress
import TradeBridge.Isolation

/-!
# Every schedule publishes what was queued

`publishTasksEnd_iff` says that the queued publish tasks can be brought to their end. Here the
scheduler is any, NATS answers anything, tasks are detached at any time and the pool may be paused
in between: a task that was detached is good for a bounded number of steps (`Task.size`), and a pool
with two workers that is not paused has a step to make as long as one of its publish tasks has not
ended. The server's tables stay as they are meanwhile.

Results:
* **`every_schedule_drains`**: the steps of progress of any run from the start of the plugin are
  bounded, and where no more is possible the queue is empty and all publish tasks have ended.
-/

namespace TradeBridge

open TradeBridge.Lib

/-- The pool's steps of progress are those of its publish tasks; the receive task has no end. -/
def Publishes (t : Task) : Prop := t.publishes = true

theorem tasks_ranked {env : World → World → Prop} {Detached : Task → Prop}
    (henv : ∀ {w w'}, env w w' → ∀ u : Task, u.size w' = u.size w) :
    Pool.Ranked (poolJobs (fun _ => True) env Detached) Publishes fun w t => t.size w where
  env := henv
  shared := by
    rintro w t _ _ ⟨o, ho, -⟩ u
    have := t.step_same w o
    rw [ho] at this
    exact Task.size_same this u
  mortal := by
    rintro w t _ _ ⟨o, ho, -⟩ hm he
    have := Task.step_size w o hm he
    rwa [ho] at this
  immortal := by
    rintro w t _ t' ⟨o, ho, -⟩ hm
    have hp := t.publishes_step w o
    rw [ho] at hp
    cases t' with
    | receive t' => exact Nat.zero_le _
    | _ => exact absurd hp.symm hm

theorem pluginJobs_ranked :
    Pool.Ranked (pluginJobs pauses) Publishes fun w t => t.size w := by
  refine tasks_ranked ?_
  rintro w _ ⟨b, rfl⟩ u
  exact Task.size_same ⟨rfl, rfl, rfl, rfl, rfl, rfl⟩ u

/-- A task that has not ended has a step, whatever NATS would answer. -/
theorem pluginJobs_live {env : World → World → Prop} (w : World) (t : Task) :
    ∃ w' t', (pluginJobs env).run w t w' t' :=
  ⟨_, _, .ofStatus .ok, rfl, fun _ _ => trivial⟩

theorem subscribedPool_roomy {w : World} {serverName : Bytes} {poolSize : Nat}
    {p : Pool World Task} {env : World → World → Prop} (h : 2 ≤ poolSize)
    (hr : Pool.Reach (pluginJobs env) (subscribedPool w serverName poolSize) p) :
    Pool.Roomy (fun _ => True) Publishes p ∧ Pool.Placed (pluginJobs env) p := by
  have hspawn : (poolJobs (fun _ => True) env fun _ => True).spawn w (.ofReceive serverName) :=
    trivial
  have hfirst := Pool.Step.detach (p := newPool w poolSize) hspawn
  have hnew : Pool.Placed (poolJobs (fun _ => True) env fun _ => True) (newPool w poolSize) :=
    fun i t ht _ => nomatch ht
  have hlen : p.workers.length = poolSize := by
    rw [hr.workers_length]
    exact List.length_replicate
  have hwf : p.WellFormed := hr.wellFormed (hfirst.wellFormed (newPool_wellFormed w poolSize))
  refine ⟨⟨hwf, trivial, [0], ?_, fun i t ht hnot => ?_⟩, hr.placed (hfirst.placed hnew)⟩
  · rw [hlen]
    exact h
  · exact List.mem_singleton.mpr (publishes_of_reach hr ht hnot)

/-- **Every schedule ends, with everything published.** In any run from the subscription on there
are at most `2 + size` steps of progress for each publish task that is detached on the way (`g` is
their sum), and two for the receive task. Where no further one is possible on two workers or more
and the pool is not paused, the queue is empty and every publish task has ended. -/
theorem every_schedule_drains {w : World} {serverName : Bytes} {poolSize n g : Nat}
    {p : Pool World Task}
    (hr : Pool.Works (pluginJobs pauses) Publishes (fun w t => t.size w)
      (subscribedPool w serverName poolSize) n g p) :
    n ≤ 2 + g ∧
      (2 ≤ poolSize → p.shared.paused = false →
        (∀ p', ¬ Pool.Progress (pluginJobs pauses) Publishes p p') →
        p.queue = [] ∧ ∀ t ∈ p.jobs, t.publishes = true → t.ended = true) := by
  constructor
  · have hload : Pool.load (fun w (t : Task) => t.size w)
        (subscribedPool w serverName poolSize) = 2 := by
      have hheld : (subscribedPool w serverName poolSize).held = [] :=
        List.eq_nil_iff_forall_not_mem.mpr fun i hi =>
          absurd (List.eq_of_mem_replicate (Pool.mem_held.mp hi)) (by simp)
      unfold Pool.load
      rw [hheld]
      rfl
    have hbound := hr.bound pluginJobs_ranked
    rw [hload] at hbound
    exact (Nat.le_add_right _ _).trans hbound
  · intro htwo hpaused hstuck
    obtain ⟨hroomy, hplaced⟩ := subscribedPool_roomy htwo hr.reach
    obtain ⟨hqueue, hended⟩ := Pool.drained_of_stuck hroomy hplaced
      (fun w t _ _ => pluginJobs_live w t) hpaused hstuck
    refine ⟨hqueue, fun t ht hpub => ?_⟩
    obtain ⟨i, hi⟩ := List.mem_iff_getElem?.mp ht
    exact hended i t hi hpub

/-- A series is detached, and the receive task gets a worker. -/
theorem one_series_drains : ∃ p,
    Pool.Works (pluginJobs pauses) Publishes (fun w t => t.size w)
      (subscribedPool (oneGroup []) (bytes "srv") 2) 1
      (2 + (Task.ofChart eurusd periodM1).size (oneGroup [])) p ∧
    1 ≤ 2 + (2 + (Task.ofChart eurusd periodM1).size (oneGroup [])) ∧
    (2 ≤ 2 → p.shared.paused = false →
      (∀ p', ¬ Pool.Progress (pluginJobs pauses) Publishes p p') →
      p.queue = [] ∧ ∀ t ∈ p.jobs, t.publishes = true → t.ended = true) := by
  have hdetach : Pool.Detaches (pluginJobs pauses) (fun w (t : Task) => t.size w)
      (subscribedPool (oneGroup []) (bytes "srv") 2)
      (2 + (Task.ofChart eurusd periodM1).size (oneGroup []))
      ((subscribedPool (oneGroup []) (bytes "srv") 2).detachTask (.ofChart eurusd periodM1)) :=
    ⟨_, Task.Fresh.chart eurusd periodM1, rfl, rfl⟩
  have hwait : Pool.Works (pluginJobs pauses) Publishes (fun w (t : Task) => t.size w)
      (subscribedPool (oneGroup []) (bytes "srv") 2) 0
      (2 + (Task.ofChart eurusd periodM1).size (oneGroup []))
      ((subscribedPool (oneGroup []) (bytes "srv") 2).detachTask (.ofChart eurusd periodM1)) := by
    rw [← Nat.zero_add (2 + _)]
    exact Spend.refl.gain hdetach
  have htake := hwait.work (@Pool.Progress.take _ _ _ _ _ [] [none] 0 rfl rfl List.mem_cons_self
    (by decide))
  exact ⟨_, htake, every_schedule_drains htake⟩

end TradeBridge
