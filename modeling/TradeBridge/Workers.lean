import TradeBridge.Lib.Pool
import TradeBridge.Progress

/-!
# `m_pool`: the tasks on the workers

`pool_t` is a `BS::thread_pool` with priorities and a pause flag. `poolJobs` are its jobs: the tasks
of `Task.step`, of which the publish tasks are detached with `BS::pr::low` and the receive task with
`BS::pr::high`.

Results:
* `Task.turns_runs`: the turns of a task on its own are a run of its job.
-/

namespace TradeBridge

open TradeBridge.Lib

/-- The priority a task is detached with: `BS::pr::high` or `BS::pr::low`. -/
def Task.priority : Task → Int
  | .receive _ => 64
  | _ => -64

/-- The tasks on the pool, with the publish results, the outside steps and the detached tasks a
run may have. -/
def poolJobs (Allowed : PublishResult → Prop) (env : World → World → Prop)
    (Detached : Task → Prop) : Jobs World Task where
  env := env
  spawn _ := Detached
  run := (taskThreads Allowed).run
  ended := Task.ended
  priority := Task.priority
  paused := World.paused

/-- The workers alone: nothing is detached, and nothing happens outside. -/
def workerJobs : Jobs World Task := poolJobs (fun _ => True) (fun _ _ => False) fun _ => False

/-- `pool_t{ pool_size }`: idle workers, nothing detached. -/
def newPool (w : World) (poolSize : Nat) : Pool World Task where
  shared := w
  jobs := []
  queue := []
  workers := List.replicate poolSize none

theorem newPool_wellFormed (w : World) (poolSize : Nat) : (newPool w poolSize).WellFormed := by
  have hheld : (newPool w poolSize).held = [] := by
    refine List.eq_nil_iff_forall_not_mem.mpr fun i hi => ?_
    exact absurd (List.eq_of_mem_replicate (Pool.mem_held.mp hi)) (by simp)
  refine ⟨fun i hi => absurd hi List.not_mem_nil, fun i hi => ?_, ?_⟩
  · rw [hheld] at hi
    exact absurd hi List.not_mem_nil
  · rw [hheld]
    exact List.nodup_nil

variable {Allowed : PublishResult → Prop} {env : World → World → Prop} {Detached : Task → Prop}

/-- **The turns of a task are a run of its job**, when they are not paused. -/
theorem Task.turns_runs : ∀ (xs : List Turn) {w : World} {t : Task}, w.paused = false →
    (∀ x ∈ xs, x.paused = false) → (∀ c ∈ (Task.turns w t xs).1.calls, Allowed c.result) →
    (poolJobs Allowed env Detached).Runs (w, t) (Task.turns w t xs)
  | [], _, _, _, _, _ => Relation.ReflTransGen.refl
  | x :: xs, w, t, hw, hxs, h => by
    rw [Task.turns, hxs x List.mem_cons_self, World.setPaused_self hw] at h ⊢
    have hxs' : ∀ y ∈ xs, y.paused = false := fun y hy => hxs y (List.mem_cons_of_mem _ hy)
    have hw' : (t.step w x.outcome).1.paused = false := (t.step_same w x.outcome).paused.trans hw
    have hrest := turns_runs xs hw' hxs' h
    cases he : t.ended with
    | true =>
      rw [Task.step_of_ended he] at hrest ⊢
      exact hrest
    | false =>
      have hcalls : ∀ c ∈ (t.step w x.outcome).1.calls, Allowed c.result :=
        fun c hc => h c ((Task.turns_calls xs _ _).subset hc)
      exact Relation.ReflTransGen.head ⟨he, _, rfl, hcalls⟩ hrest

end TradeBridge
