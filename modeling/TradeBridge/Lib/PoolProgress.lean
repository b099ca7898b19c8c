import Mathlib.Algebra.BigOperators.Group.List.Basic
import Mathlib.Algebra.GroupWithZero.Nat
import TradeBridge.Lib.Pool
import TradeBridge.Lib.Potential

/-!
# Every schedule of a pool ends

`Pool.exists_drained` gives one run. Here the schedule is any: a step of progress hands a job to a
worker, moves a mortal job or gives a worker back (`Pool.Progress`), and with a `size` that each
step of a mortal job lowers and no step raises (`Pool.Ranked`) a run has only so many of them.

Results:
* **`Pool.Works.bound`**: each detached job pays for at most `2 + size` steps of progress.
* **`Pool.drained_of_stuck`**: with more workers than jobs that need not end, a pool in which no
  step of progress is possible has an empty queue, and all its mortal jobs have ended.
-/

namespace TradeBridge.Lib

variable {σ τ : Type}

namespace Pool

/-- A step that brings a job on. -/
inductive Progress (J : Jobs σ τ) (Mortal : τ → Prop) : Pool σ τ → Pool σ τ → Prop
  | take {p : Pool σ τ} {l r : List (Option Nat)} {id : Nat} (hp : J.paused p.shared = false)
      (hw : p.workers = l ++ none :: r) (hid : id ∈ p.queue)
      (hmax : ∀ i ∈ p.queue, p.priorityOf J i ≤ p.priorityOf J id) :
      Progress J Mortal p { p with queue := p.queue.erase id, workers := l ++ some id :: r }
  | run {p : Pool σ τ} {id : Nat} {s' : σ} {t t' : τ} (hw : some id ∈ p.workers)
      (ht : p.jobs[id]? = some t) (hm : Mortal t) (he : J.ended t = false)
      (h : J.run p.shared t s' t') :
      Progress J Mortal p { p with shared := s', jobs := p.jobs.set id t' }
  | release {p : Pool σ τ} {l r : List (Option Nat)} {id : Nat} {t : τ}
      (hw : p.workers = l ++ some id :: r) (ht : p.jobs[id]? = some t) (he : J.ended t = true) :
      Progress J Mortal p { p with workers := l ++ none :: r }

/-- A step that brings no job on: outside the pool, or of a job that need not end. -/
inductive Idle (J : Jobs σ τ) (Mortal : τ → Prop) : Pool σ τ → Pool σ τ → Prop
  | env {p : Pool σ τ} {s' : σ} (h : J.env p.shared s') : Idle J Mortal p { p with shared := s' }
  | run {p : Pool σ τ} {id : Nat} {s' : σ} {t t' : τ} (hw : some id ∈ p.workers)
      (ht : p.jobs[id]? = some t) (hm : ¬ Mortal t) (he : J.ended t = false)
      (h : J.run p.shared t s' t') :
      Idle J Mortal p { p with shared := s', jobs := p.jobs.set id t' }

/-- A job is detached, for `2 + size` steps of progress. -/
def Detaches (J : Jobs σ τ) (size : σ → τ → Nat) (p : Pool σ τ) (k : Nat) (p' : Pool σ τ) : Prop :=
  ∃ t, J.spawn p.shared t ∧ p' = p.detachTask t ∧ k = 2 + size p.shared t

/-- A run of the pool, by its steps of progress and by what its detached jobs pay for. -/
abbrev Works (J : Jobs σ τ) (Mortal : τ → Prop) (size : σ → τ → Nat) (p : Pool σ τ) (n g : Nat)
    (p' : Pool σ τ) : Prop :=
  Spend (Progress J Mortal) (Idle J Mortal) (Detaches J size) p n g p'

variable {J : Jobs σ τ} {Mortal : τ → Prop}

theorem Progress.step {p p' : Pool σ τ} (h : Progress J Mortal p p') : Step J p p' := by
  cases h with
  | take hp hw hid hmax => exact Step.take hp hw hid hmax
  | run hw ht _ he h => exact Step.run hw ht he h
  | release hw ht he => exact Step.release hw ht he

/-- **Every run of the pool can be counted so.** -/
theorem Reach.exists_works (size : σ → τ → Nat) {p p' : Pool σ τ} (h : Reach J p p') :
    ∃ n g, Works J Mortal size p n g p' := by
  refine exists_spend (fun hs => ?_) h
  cases hs with
  | env h => exact Or.inr (Or.inl (Idle.env h))
  | detach h => exact Or.inr (Or.inr ⟨_, _, h, rfl, rfl⟩)
  | take hp hw hid hmax => exact Or.inl (Progress.take hp hw hid hmax)
  | @run id s' t t' hw ht he h =>
    by_cases hm : Mortal t
    · exact Or.inl (Progress.run hw ht hm he h)
    · exact Or.inr (Or.inl (Idle.run hw ht hm he h))
  | release hw ht he => exact Or.inl (Progress.release hw ht he)

theorem Works.reach {size : σ → τ → Nat} {p p' : Pool σ τ} {n g : Nat}
    (h : Works J Mortal size p n g p') : Reach J p p' := by
  induction h with
  | refl => exact Relation.ReflTransGen.refl
  | work _ h ih => exact ih.tail h.step
  | rest _ h ih =>
    cases h with
    | env h => exact ih.tail (Step.env h)
    | run hw ht _ he h => exact ih.tail (Step.run hw ht he h)
  | gain _ h ih =>
    obtain ⟨t, h, rfl, -⟩ := h
    exact ih.tail (Step.detach h)

/-! ## How many steps -/

/-- A mortal job has only so much before it. -/
structure Ranked (J : Jobs σ τ) (Mortal : τ → Prop) (size : σ → τ → Nat) : Prop where
  env : ∀ {s s'}, J.env s s' → ∀ u, size s' u = size s u
  shared : ∀ {s t s' t'}, J.run s t s' t' → ∀ u, size s' u = size s u
  mortal : ∀ {s t s' t'}, J.run s t s' t' → Mortal t → J.ended t = false → size s' t' < size s t
  immortal : ∀ {s t s' t'}, J.run s t s' t' → ¬ Mortal t → size s' t' ≤ size s t

variable {size : σ → τ → Nat}

/-- The steps of progress a pool has before it, if nothing more is detached. -/
def load (size : σ → τ → Nat) (p : Pool σ τ) : Nat :=
  2 * p.queue.length + p.held.length + (p.jobs.map (size p.shared)).sum

theorem sum_map_set (f : τ → Nat) : ∀ {ts : List τ} {i : Nat} {t : τ}, ts[i]? = some t → ∀ t',
    ((ts.set i t').map f).sum + f t = (ts.map f).sum + f t'
  | [], _, _, h, _ => nomatch h
  | u :: ts, 0, t, h, t' => by
    obtain rfl : u = t := Option.some.inj h
    simp only [List.set_cons_zero, List.map_cons, List.sum_cons]
    omega
  | u :: ts, i + 1, t, h, t' => by
    have hi : ts[i]? = some t := h
    have := sum_map_set f hi t'
    simp only [List.set_cons_succ, List.map_cons, List.sum_cons]
    omega

theorem Ranked.load_env (hk : Ranked J Mortal size) {p : Pool σ τ} {s' : σ}
    (h : J.env p.shared s') : load size { p with shared := s' } = load size p := by
  have hsize : size s' = size p.shared := by
    funext u
    exact hk.env h u
  simp only [load, hsize]
  rfl

theorem Ranked.load_run (hk : Ranked J Mortal size) {p : Pool σ τ} {i : Nat} {s' : σ} {t t' : τ}
    (ht : p.jobs[i]? = some t) (h : J.run p.shared t s' t') :
    load size { p with shared := s', jobs := p.jobs.set i t' } + size p.shared t =
      load size p + size s' t' := by
  have hsize : size s' = size p.shared := by
    funext u
    exact hk.shared h u
  have hsum := sum_map_set (size p.shared) ht t'
  simp only [load, Pool.held, hsize]
  omega

theorem held_take {l r : List (Option Nat)} {i : Nat} :
    ((l ++ some i :: r).filterMap id).length = ((l ++ none :: r).filterMap id).length + 1 := by
  rw [held_some, held_none]
  simp only [List.length_append, List.length_cons]
  omega

/-- **A step of progress takes from the load.** -/
theorem Ranked.load_progress (hk : Ranked J Mortal size) {p p' : Pool σ τ}
    (h : Progress J Mortal p p') : load size p' < load size p := by
  cases h with
  | @take l r i _ hw hid _ =>
    have hlen : (p.queue.erase i).length + 1 = p.queue.length := by
      rw [List.length_erase_of_mem hid]
      have := List.length_pos_of_mem hid
      omega
    have hheld := held_take (l := l) (r := r) (i := i)
    simp only [load, Pool.held, hw]
    omega
  | @run i s' t t' _ ht hm he h =>
    have hrun := hk.load_run ht h
    have := hk.mortal h hm he
    omega
  | @release l r i t hw _ _ =>
    have hheld := held_take (l := l) (r := r) (i := i)
    simp only [load, Pool.held, hw]
    omega

theorem load_detach (p : Pool σ τ) (t : τ) :
    load size (p.detachTask t) = load size p + (2 + size p.shared t) := by
  simp only [load, Pool.held, detachTask, List.length_append, List.length_singleton,
    List.map_append, List.map_singleton, List.sum_append, List.sum_singleton]
  omega

theorem Ranked.potential (hk : Ranked J Mortal size) :
    Potential (Progress J Mortal) (Idle J Mortal) (Detaches J size) (fun _ => True)
      (load size) where
  work _ h := ⟨trivial, hk.load_progress h⟩
  rest _ h := by
    refine ⟨trivial, ?_⟩
    cases h with
    | env h => exact Nat.le_of_eq (hk.load_env h)
    | run _ ht hm _ h =>
      have hrun := hk.load_run ht h
      have := hk.immortal h hm
      omega
  gain _ h := by
    obtain ⟨t, -, rfl, rfl⟩ := h
    exact ⟨trivial, Nat.le_of_eq (load_detach _ t)⟩

/-- **Whatever the schedule, each detached job pays for `2 + size` steps of progress at most.** -/
theorem Works.bound (hk : Ranked J Mortal size) {p p' : Pool σ τ} {n g : Nat}
    (h : Works J Mortal size p n g p') : n + load size p' ≤ load size p + g :=
  Spend.bound hk.potential h trivial

/-! ## Where no step is possible -/

/-- Every job that has not ended waits or has a worker. -/
def Placed (J : Jobs σ τ) (p : Pool σ τ) : Prop :=
  ∀ (i : Nat) (t : τ), p.jobs[i]? = some t → J.ended t = false →
    i ∈ p.queue ∨ some i ∈ p.workers

theorem Step.placed {p p' : Pool σ τ} (hs : Step J p p') (h : Placed J p) : Placed J p' := by
  intro i t ht he
  cases hs with
  | env _ => exact h i t ht he
  | @detach u _ =>
    by_cases hi : i < p.jobs.length
    · have hold : p.jobs[i]? = some t := (List.getElem?_append_left hi).symm.trans ht
      exact (h i t hold he).imp_left fun hq => List.mem_append.mpr (Or.inl hq)
    · have hlt : i < (p.jobs ++ [u]).length := (List.getElem?_eq_some_iff.mp ht).1
      rw [List.length_append, List.length_singleton] at hlt
      have hlast : i = p.jobs.length := by omega
      exact Or.inl (List.mem_append.mpr (Or.inr (List.mem_singleton.mpr hlast)))
  | @take l r j _ hw _ _ =>
    by_cases hij : i = j
    · subst hij
      exact Or.inr (List.mem_append.mpr (Or.inr List.mem_cons_self))
    · refine (h i t ht he).imp (fun hq => (List.mem_erase_of_ne hij).mpr hq) fun hmem => ?_
      rw [hw] at hmem
      rcases List.mem_append.mp hmem with hl | hr
      · exact List.mem_append.mpr (Or.inl hl)
      · rcases List.mem_cons.mp hr with hnone | hr
        · cases hnone
        · exact List.mem_append.mpr (Or.inr (List.mem_cons_of_mem _ hr))
  | @run j s' u u' hw hu _ _ =>
    by_cases hij : j = i
    · subst hij
      exact Or.inr hw
    · exact h i t ((List.getElem?_set_ne hij).symm.trans ht) he
  | @release l r j u hw hu hue =>
    refine (h i t ht he).imp_right fun hmem => ?_
    rw [hw] at hmem
    rcases List.mem_append.mp hmem with hl | hr
    · exact List.mem_append.mpr (Or.inl hl)
    · rcases List.mem_cons.mp hr with hj | hr
      · obtain rfl := Option.some.inj hj
        rw [Option.some.inj (ht.symm.trans hu), hue] at he
        cases he
      · exact List.mem_append.mpr (Or.inr (List.mem_cons_of_mem _ hr))

theorem Reach.placed {p p' : Pool σ τ} (hr : Reach J p p') (h : Placed J p) : Placed J p' := by
  induction hr with
  | refl => exact h
  | tail _ hs ih => exact hs.placed ih

/-- **Where no step of progress is possible nothing waits, and every mortal job has ended.** -/
theorem drained_of_stuck {Inv : σ → Prop} {p : Pool σ τ} (hp : Roomy Inv Mortal p)
    (hplaced : Placed J p)
    (hlive : ∀ s t, Mortal t → J.ended t = false → ∃ s' t', J.run s t s' t')
    (hpaused : J.paused p.shared = false) (hstuck : ∀ p', ¬ Progress J Mortal p p') :
    p.queue = [] ∧ ∀ (i : Nat) (t : τ), p.jobs[i]? = some t → Mortal t → J.ended t = true := by
  -- a worker with a mortal job could run it, or could give it back
  have hnone : ∀ (i : Nat) (t : τ), some i ∈ p.workers → p.jobs[i]? = some t → ¬ Mortal t := by
    intro i t hw ht hm
    cases he : J.ended t with
    | true =>
      obtain ⟨l, r, hsplit⟩ := List.append_of_mem hw
      exact hstuck _ (Progress.release hsplit ht he)
    | false =>
      obtain ⟨s', t', hrun⟩ := hlive p.shared t hm he
      exact hstuck _ (Progress.run hw ht hm he hrun)
  have hqueue : p.queue = [] := by
    obtain ⟨w, hw, hmortal⟩ := hp.exists_worker
    cases w with
    | some i =>
      obtain ⟨t, ht, hm⟩ := hmortal i rfl
      exact absurd hm (hnone i t hw ht)
    | none =>
      obtain ⟨l, r, hsplit⟩ := List.append_of_mem hw
      by_contra hne
      obtain ⟨i, hi, hmax⟩ := p.queue.toFinset.exists_max_image (p.priorityOf J)
        (List.toFinset_nonempty_iff _ |>.mpr hne)
      exact hstuck _ (Progress.take hpaused hsplit (List.mem_toFinset.mp hi) fun j hj =>
        hmax j (List.mem_toFinset.mpr hj))
  refine ⟨hqueue, fun i t ht hm => ?_⟩
  cases he : J.ended t with
  | true => rfl
  | false =>
    rcases hplaced i t ht he with hq | hw
    · rw [hqueue] at hq
      cases hq
    · exact absurd hm (hnone i t hw ht)

end Pool

end TradeBridge.Lib
