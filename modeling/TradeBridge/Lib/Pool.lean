import Mathlib.Data.Finset.Max
import Mathlib.Data.List.Nodup
import TradeBridge.Lib.Threads

/-!
# A pool of workers over a priority queue

Jobs are the threads of a system `Jobs`, named by the order in which they were detached. A detached
job waits in the queue until an idle worker takes it; a worker takes a job of the highest priority,
keeps it while it runs, and is idle again when it has ended. A paused pool takes no job.

Results:
* `Pool.Step.wellFormed`: a job is in the queue or with one worker, never twice.
* **`Pool.exists_drained`**: with more workers than jobs that need not end, from every state there
  is a run in which every queued job that can end does end, whatever the priorities.
* **`Pool.Blocked.reach`**: when every worker holds a job that never ends, no other job ever moves.
* `Pool.Reach.threads`: a run of the pool is a run of the system of threads.
-/

namespace TradeBridge.Lib

variable {σ τ : Type}

/-- The code that runs on a pool. -/
structure Jobs (σ τ : Type) extends Threads σ τ where
  ended : τ → Bool
  priority : τ → Int
  paused : σ → Bool

/-- The steps of one job alone. -/
def Jobs.Runs (J : Jobs σ τ) : σ × τ → σ × τ → Prop :=
  Relation.ReflTransGen fun a b => J.ended a.2 = false ∧ J.run a.1 a.2 b.1 b.2

/-- A pool: the shared state, all jobs in the order they were detached, the waiting ones, and what
each worker holds. -/
structure Pool (σ τ : Type) where
  shared : σ
  jobs : List τ
  queue : List Nat
  workers : List (Option Nat)

namespace Pool

/-- The priority a job waits with. -/
def priorityOf (J : Jobs σ τ) (p : Pool σ τ) (id : Nat) : Int := (p.jobs[id]?).elim 0 J.priority

/-- A new job waits in the queue. -/
def detachTask (p : Pool σ τ) (t : τ) : Pool σ τ :=
  { p with jobs := p.jobs ++ [t], queue := p.queue ++ [p.jobs.length] }

/-- One step of the pool. -/
inductive Step (J : Jobs σ τ) : Pool σ τ → Pool σ τ → Prop
  | env {p : Pool σ τ} {s' : σ} (h : J.env p.shared s') : Step J p { p with shared := s' }
  | detach {p : Pool σ τ} {t : τ} (h : J.spawn p.shared t) :
      Step J p (p.detachTask t)
  | take {p : Pool σ τ} {l r : List (Option Nat)} {id : Nat} (hp : J.paused p.shared = false)
      (hw : p.workers = l ++ none :: r) (hid : id ∈ p.queue)
      (hmax : ∀ i ∈ p.queue, p.priorityOf J i ≤ p.priorityOf J id) :
      Step J p { p with queue := p.queue.erase id, workers := l ++ some id :: r }
  | run {p : Pool σ τ} {id : Nat} {s' : σ} {t t' : τ} (hw : some id ∈ p.workers)
      (ht : p.jobs[id]? = some t) (he : J.ended t = false) (h : J.run p.shared t s' t') :
      Step J p { p with shared := s', jobs := p.jobs.set id t' }
  | release {p : Pool σ τ} {l r : List (Option Nat)} {id : Nat} {t : τ}
      (hw : p.workers = l ++ some id :: r) (ht : p.jobs[id]? = some t) (he : J.ended t = true) :
      Step J p { p with workers := l ++ none :: r }

/-- The states a run of the pool passes through. -/
def Reach (J : Jobs σ τ) : Pool σ τ → Pool σ τ → Prop := Relation.ReflTransGen (Step J)

variable {J : Jobs σ τ}

/-! ## Each job is in one place -/

/-- The jobs the workers hold. -/
def held (p : Pool σ τ) : List Nat := p.workers.filterMap id

structure WellFormed (p : Pool σ τ) : Prop where
  queued : ∀ i ∈ p.queue, i < p.jobs.length
  held : ∀ i ∈ p.held, i < p.jobs.length
  nodup : (p.queue ++ p.held).Nodup

theorem mem_held {p : Pool σ τ} {i : Nat} : i ∈ p.held ↔ some i ∈ p.workers := by
  unfold Pool.held
  rw [List.mem_filterMap]
  constructor
  · rintro ⟨w, hw, rfl⟩
    exact hw
  · intro h
    exact ⟨some i, h, rfl⟩

theorem held_none {l r : List (Option Nat)} :
    (l ++ none :: r).filterMap id = l.filterMap id ++ r.filterMap id := by
  rw [List.filterMap_append]
  rfl

theorem held_some {l r : List (Option Nat)} {i : Nat} :
    (l ++ some i :: r).filterMap id = l.filterMap id ++ i :: r.filterMap id := by
  rw [List.filterMap_append]
  rfl

theorem Step.wellFormed {p p' : Pool σ τ} (hs : Step J p p') (h : WellFormed p) :
    WellFormed p' := by
  obtain ⟨hq, hh, hn⟩ := h
  cases hs with
  | env _ => exact ⟨hq, hh, hn⟩
  | @detach t _ =>
    have hlen : (p.jobs ++ [t]).length = p.jobs.length + 1 := by
      rw [List.length_append, List.length_singleton]
    have hnew : p.jobs.length ∉ p.queue ++ p.held := fun hmem =>
      (List.mem_append.mp hmem).elim (fun hm => absurd (hq _ hm) (Nat.lt_irrefl _))
        fun hm => absurd (hh _ hm) (Nat.lt_irrefl _)
    refine ⟨fun i hi => hlen ▸ ?_, fun i hi => hlen ▸ Nat.lt_succ_of_lt (hh i hi), ?_⟩
    · rcases List.mem_append.mp hi with hi | hi
      · exact Nat.lt_succ_of_lt (hq i hi)
      · rw [List.mem_singleton.mp hi]
        exact Nat.lt_succ_self _
    · have hperm : (p.queue ++ [p.jobs.length] ++ p.held).Perm
          (p.jobs.length :: (p.queue ++ p.held)) := by
        rw [List.append_assoc, List.singleton_append]
        exact List.perm_middle
      exact hperm.nodup_iff.mpr (List.nodup_cons.mpr ⟨hnew, hn⟩)
  | @take l r i _ hw hid _ =>
    have hperm : (p.queue.erase i ++ (l ++ some i :: r).filterMap id).Perm
        (p.queue ++ p.held) := by
      unfold Pool.held
      rw [hw, held_some, held_none]
      have h1 : (p.queue.erase i ++ (l.filterMap id ++ i :: r.filterMap id)).Perm
          (i :: (p.queue.erase i ++ (l.filterMap id ++ r.filterMap id))) := by
        rw [← List.append_assoc, ← List.append_assoc]
        exact List.perm_middle
      have h2 : (i :: p.queue.erase i).Perm p.queue := (List.perm_cons_erase hid).symm
      exact h1.trans (h2.append_right _)
    refine ⟨fun j hj => hq j (List.mem_of_mem_erase hj), fun j hj => ?_, ?_⟩
    · have : j ∈ p.queue ++ p.held :=
        hperm.subset (List.mem_append.mpr (Or.inr hj))
      exact (List.mem_append.mp this).elim (hq j) (hh j)
    · exact hperm.nodup_iff.mpr hn
  | run _ _ _ _ =>
    refine ⟨fun i hi => ?_, fun i hi => ?_, hn⟩
    · rw [List.length_set]
      exact hq i hi
    · rw [List.length_set]
      exact hh i hi
  | @release l r i t hw _ _ =>
    have hsub : List.Sublist ((l ++ none :: r).filterMap id) p.held := by
      unfold Pool.held
      rw [hw, held_some, held_none]
      exact (List.Sublist.refl _).append (List.sublist_cons_self _ _)
    exact ⟨hq, fun j hj => hh j (hsub.subset hj), hn.sublist ((List.Sublist.refl _).append hsub)⟩

theorem Reach.wellFormed {p p' : Pool σ τ} (hr : Reach J p p') (h : WellFormed p) :
    WellFormed p' := by
  induction hr with
  | refl => exact h
  | tail _ hs ih => exact hs.wellFormed ih

theorem Step.workers_length {p p' : Pool σ τ} (hs : Step J p p') :
    p'.workers.length = p.workers.length := by
  cases hs with
  | env _ => rfl
  | detach _ => rfl
  | take _ hw _ _ => simp only [hw, List.length_append, List.length_cons]
  | run _ _ _ _ => rfl
  | release hw _ _ => simp only [hw, List.length_append, List.length_cons]

/-- A run neither adds nor removes a worker. -/
theorem Reach.workers_length {p p' : Pool σ τ} (hr : Reach J p p') :
    p'.workers.length = p.workers.length := by
  induction hr with
  | refl => rfl
  | tail _ hs ih => exact hs.workers_length.trans ih

/-! ## What the jobs become -/

theorem Step.ended_stays {p p' : Pool σ τ} (hs : Step J p p') {i : Nat} {t : τ}
    (ht : p.jobs[i]? = some t) (he : J.ended t = true) : p'.jobs[i]? = some t := by
  cases hs with
  | env _ => exact ht
  | detach _ =>
    exact (List.getElem?_append_left (List.getElem?_eq_some_iff.mp ht).1).trans ht
  | take _ _ _ _ => exact ht
  | @run j s' u u' _ hu hne _ =>
    have hij : j ≠ i := by
      rintro rfl
      rw [Option.some.inj (ht.symm.trans hu), hne] at he
      cases he
    exact (List.getElem?_set_ne hij).trans ht
  | release _ _ _ => exact ht

theorem Reach.ended_stays {p p' : Pool σ τ} (hr : Reach J p p') {i : Nat} {t : τ}
    (ht : p.jobs[i]? = some t) (he : J.ended t = true) : p'.jobs[i]? = some t := by
  induction hr with
  | refl => exact ht
  | tail _ hs ih => exact hs.ended_stays ih he

/-- **A run of the pool is a run of its jobs as threads.** -/
theorem Reach.threads {p p' : Pool σ τ} (hr : Reach J p p') :
    J.toThreads.Reach (p.shared, p.jobs) (p'.shared, p'.jobs) := by
  induction hr with
  | refl => exact Relation.ReflTransGen.refl
  | @tail q q' _ hs ih =>
    cases hs with
    | env h => exact ih.tail (Threads.Step.env h)
    | detach h => exact ih.tail (Threads.Step.spawn h)
    | take _ _ _ _ => exact ih
    | @run i s' t t' _ ht _ h =>
      obtain ⟨hi, hget⟩ := List.getElem?_eq_some_iff.mp ht
      have hsplit : q.jobs.take i ++ t :: q.jobs.drop (i + 1) = q.jobs := by
        rw [← hget, List.getElem_cons_drop, List.take_append_drop]
      have hset : q.jobs.take i ++ t' :: q.jobs.drop (i + 1) = q.jobs.set i t' :=
        (List.set_eq_take_append_cons_drop.trans (if_pos hi)).symm
      have hstep : J.toThreads.Step (q.shared, q.jobs.take i ++ t :: q.jobs.drop (i + 1))
          (s', q.jobs.take i ++ t' :: q.jobs.drop (i + 1)) := Threads.Step.run h
      rw [hsplit, hset] at hstep
      exact ih.tail hstep
    | release _ _ _ => exact ih

/-! ## One job to its end -/

variable {Inv : σ → Prop} {Mortal : τ → Prop}

/-- A worker runs the job it holds, alone. -/
theorem Reach.runs {p : Pool σ τ} {i : Nat} {t : τ} (hw : some i ∈ p.workers)
    (ht : p.jobs[i]? = some t) {b : σ × τ} (h : J.Runs (p.shared, t) b) :
    Reach J p { p with shared := b.1, jobs := p.jobs.set i b.2 } := by
  obtain ⟨hi, hget⟩ := List.getElem?_eq_some_iff.mp ht
  induction h with
  | refl =>
    have hself : p.jobs.set i t = p.jobs := by rw [← hget, List.set_getElem_self]
    rw [hself]
    exact Relation.ReflTransGen.refl
  | @tail b c _ hs ih =>
    have hstep : Step J { p with shared := b.1, jobs := p.jobs.set i b.2 }
        { p with shared := c.1, jobs := (p.jobs.set i b.2).set i c.2 } :=
      Step.run (p := { p with shared := b.1, jobs := p.jobs.set i b.2 }) hw
        (List.getElem?_set_self hi) hs.1 hs.2
    rw [List.set_set] at hstep
    exact ih.tail hstep

/-- While `Inv` holds the pool is not paused, and every mortal job has a run to its end. -/
structure Finishes (J : Jobs σ τ) (Inv : σ → Prop) (Mortal : τ → Prop) : Prop where
  unpaused : ∀ {s}, Inv s → J.paused s = false
  finish : ∀ {s t}, Inv s → Mortal t →
    ∃ s' t', J.Runs (s, t) (s', t') ∧ J.ended t' = true ∧ Inv s' ∧ Mortal t'

/-- The pool has more workers than jobs that need not end. -/
structure Roomy (Inv : σ → Prop) (Mortal : τ → Prop) (p : Pool σ τ) : Prop where
  wellFormed : WellFormed p
  inv : Inv p.shared
  room : ∃ immortal : List Nat, immortal.length < p.workers.length ∧
    ∀ (i : Nat) (t : τ), p.jobs[i]? = some t → ¬ Mortal t → i ∈ immortal

/-- Mortal jobs are still there and mortal. -/
def Keeps (Mortal : τ → Prop) (p p' : Pool σ τ) : Prop :=
  ∀ (i : Nat) (t : τ), p.jobs[i]? = some t → Mortal t → ∃ t', p'.jobs[i]? = some t' ∧ Mortal t'

theorem Keeps.refl (p : Pool σ τ) : Keeps Mortal p p := fun _ t ht hm => ⟨t, ht, hm⟩

theorem Keeps.trans {a b c : Pool σ τ} (h : Keeps Mortal a b) (h' : Keeps Mortal b c) :
    Keeps Mortal a c := by
  intro i t ht hm
  obtain ⟨u, hu, hmu⟩ := h i t ht hm
  exact h' i u hu hmu

/-- **A worker can finish the mortal job it holds** and is idle then. -/
theorem Roomy.finish_job (hf : Finishes J Inv Mortal) {p : Pool σ τ} (hp : Roomy Inv Mortal p)
    {l r : List (Option Nat)} {i : Nat} {t : τ} (hw : p.workers = l ++ some i :: r)
    (ht : p.jobs[i]? = some t) (hm : Mortal t) :
    ∃ p', Reach J p p' ∧ Roomy Inv Mortal p' ∧ p'.queue = p.queue ∧
      p'.workers = l ++ none :: r ∧ (∃ t', p'.jobs[i]? = some t' ∧ J.ended t' = true) ∧
      Keeps Mortal p p' := by
  obtain ⟨s', t', hruns, hend, hinv, hm'⟩ := hf.finish hp.inv hm
  have hi : i < p.jobs.length := (List.getElem?_eq_some_iff.mp ht).1
  have hself : (p.jobs.set i t')[i]? = some t' := List.getElem?_set_self hi
  have hmem : some i ∈ p.workers := by
    rw [hw]
    exact List.mem_append.mpr (Or.inr List.mem_cons_self)
  have hrel : Step J { p with shared := s', jobs := p.jobs.set i t' }
      { p with shared := s', jobs := p.jobs.set i t', workers := l ++ none :: r } :=
    Step.release (p := { p with shared := s', jobs := p.jobs.set i t' }) hw hself hend
  have hreach := (Reach.runs hmem ht hruns).tail hrel
  refine ⟨_, hreach, ⟨Reach.wellFormed hreach hp.wellFormed, hinv, ?_⟩, rfl, rfl,
    ⟨t', hself, hend⟩, ?_⟩
  · obtain ⟨immortal, hlt, himm⟩ := hp.room
    refine ⟨immortal, ?_, fun j u hu hnot => ?_⟩
    · rw [hw] at hlt
      simpa only [List.length_append, List.length_cons] using hlt
    · by_cases hij : i = j
      · subst hij
        rw [Option.some.inj (hself.symm.trans hu)] at hm'
        exact absurd hm' hnot
      · exact himm j u ((List.getElem?_set_ne hij).symm.trans hu) hnot
  · intro j u hu hmu
    by_cases hij : i = j
    · subst hij
      exact ⟨t', hself, hm'⟩
    · exact ⟨u, (List.getElem?_set_ne hij).trans hu, hmu⟩

/-- **Some worker is idle or holds a mortal job**: the others are at most as many as the immortal
jobs. -/
theorem Roomy.exists_worker {p : Pool σ τ} (hp : Roomy Inv Mortal p) :
    ∃ w ∈ p.workers, ∀ i, w = some i → ∃ t, p.jobs[i]? = some t ∧ Mortal t := by
  obtain ⟨immortal, hlt, himm⟩ := hp.room
  by_contra hall
  have hsome : ∀ w ∈ p.workers, ∃ i ∈ immortal, w = some i := by
    intro w hw
    cases w with
    | none => exact absurd ⟨none, hw, fun i hi => by cases hi⟩ hall
    | some i =>
      have hi : i < p.jobs.length := hp.wellFormed.held i (mem_held.mpr hw)
      refine ⟨i, himm i p.jobs[i] (List.getElem?_eq_getElem hi) fun hm => hall ⟨some i, hw, ?_⟩,
        rfl⟩
      intro j hj
      obtain rfl := Option.some.inj hj
      exact ⟨_, List.getElem?_eq_getElem hi, hm⟩
  have hlen : ∀ ws : List (Option Nat), (∀ w ∈ ws, ∃ i ∈ immortal, w = some i) →
      (ws.filterMap id).length = ws.length := by
    intro ws h
    induction ws with
    | nil => rfl
    | cons w ws ih =>
      obtain ⟨i, -, rfl⟩ := h w List.mem_cons_self
      exact congrArg Nat.succ (ih fun w hw => h w (List.mem_cons_of_mem _ hw))
  have hsub : p.held ⊆ immortal := by
    intro i hi
    obtain ⟨j, hj, hji⟩ := hsome (some i) (mem_held.mp hi)
    rw [Option.some.inj hji]
    exact hj
  have hle : p.held.length ≤ immortal.length :=
    (List.subperm_of_subset (List.nodup_append.mp hp.wellFormed.nodup).2.1 hsub).length_le
  have : p.held.length = p.workers.length := hlen p.workers hsome
  omega

/-- A worker can be made idle. -/
theorem Roomy.exists_idle (hf : Finishes J Inv Mortal) {p : Pool σ τ} (hp : Roomy Inv Mortal p) :
    ∃ p' l r, Reach J p p' ∧ Roomy Inv Mortal p' ∧ p'.queue = p.queue ∧
      p'.workers = l ++ none :: r ∧ Keeps Mortal p p' := by
  obtain ⟨w, hw, hmortal⟩ := hp.exists_worker
  obtain ⟨l, r, hsplit⟩ := List.append_of_mem hw
  cases w with
  | none => exact ⟨p, l, r, Relation.ReflTransGen.refl, hp, rfl, hsplit, Keeps.refl p⟩
  | some i =>
    obtain ⟨t, ht, hm⟩ := hmortal i rfl
    obtain ⟨p', hreach, hp', hq, hw', -, hkeeps⟩ := hp.finish_job hf hsplit ht hm
    exact ⟨p', l, r, hreach, hp', hq, hw', hkeeps⟩

/-- **The queue can be drained**, and every mortal job in it ends. -/
theorem exists_drained (hf : Finishes J Inv Mortal) : ∀ (n : Nat) {p : Pool σ τ},
    p.queue.length = n → Roomy Inv Mortal p →
    ∃ p', Reach J p p' ∧ p'.queue = [] ∧ ∀ i ∈ p.queue, ∀ t, p.jobs[i]? = some t → Mortal t →
      ∃ t', p'.jobs[i]? = some t' ∧ J.ended t' = true
  | 0, p, hn, hp => by
    have hnil : p.queue = [] := List.length_eq_zero_iff.mp hn
    refine ⟨p, Relation.ReflTransGen.refl, hnil, fun i hi => ?_⟩
    rw [hnil] at hi
    cases hi
  | n + 1, p, hn, hp => by
    obtain ⟨p₁, l, r, hreach₁, hp₁, hq₁, hw₁, hkeeps₁⟩ := hp.exists_idle hf
    have hne : p₁.queue.toFinset.Nonempty := by
      rw [List.toFinset_nonempty_iff, hq₁]
      rintro hnil
      rw [hnil] at hn
      cases hn
    -- the job the idle worker takes
    obtain ⟨i, hi, hmax⟩ := p₁.queue.toFinset.exists_max_image (p₁.priorityOf J) hne
    rw [List.mem_toFinset] at hi
    have htake : Step J p₁ { p₁ with queue := p₁.queue.erase i, workers := l ++ some i :: r } :=
      Step.take (hf.unpaused hp₁.inv) hw₁ hi fun j hj => hmax j (List.mem_toFinset.mpr hj)
    have hwf₂ := htake.wellFormed hp₁.wellFormed
    have hp₂ : Roomy Inv Mortal
        { p₁ with queue := p₁.queue.erase i, workers := l ++ some i :: r } := by
      obtain ⟨immortal, hlt, himm⟩ := hp₁.room
      refine ⟨hwf₂, hp₁.inv, immortal, ?_, himm⟩
      rw [hw₁] at hlt
      simpa only [List.length_append, List.length_cons] using hlt
    -- afterwards it is still held, or has ended
    obtain ⟨p₃, hreach₃, hp₃, hq₃, hkeeps₃, hdone⟩ : ∃ p₃, Reach J p₁ p₃ ∧
        Roomy Inv Mortal p₃ ∧ p₃.queue = p₁.queue.erase i ∧ Keeps Mortal p₁ p₃ ∧
        ∀ t, p₁.jobs[i]? = some t → Mortal t →
          ∃ t', p₃.jobs[i]? = some t' ∧ J.ended t' = true := by
      have hi₁ : i < p₁.jobs.length := hp₁.wellFormed.queued i hi
      have hget : p₁.jobs[i]? = some p₁.jobs[i] := List.getElem?_eq_getElem hi₁
      by_cases hm : Mortal p₁.jobs[i]
      · obtain ⟨p₃, hreach, hp₃, hq₃, -, hended, hkeeps⟩ := hp₂.finish_job hf rfl hget hm
        exact ⟨p₃, Relation.ReflTransGen.head htake hreach, hp₃, hq₃, hkeeps,
          fun _ _ _ => hended⟩
      · refine ⟨_, Relation.ReflTransGen.single htake, hp₂, rfl, Keeps.refl _,
          fun t ht hmt => ?_⟩
        rw [Option.some.inj (ht.symm.trans hget)] at hmt
        exact absurd hmt hm
    have hlen : p₃.queue.length = n := by
      rw [hq₃, List.length_erase_of_mem hi, hq₁, hn, Nat.add_sub_cancel]
    obtain ⟨p', hreach', hnil, hall⟩ := exists_drained hf n hlen hp₃
    refine ⟨p', hreach₁.trans (hreach₃.trans hreach'), hnil, fun j hj t ht hmt => ?_⟩
    obtain ⟨t₁, ht₁, hm₁⟩ := hkeeps₁ j t ht hmt
    by_cases hij : j = i
    · subst hij
      obtain ⟨t₃, ht₃, he₃⟩ := hdone t₁ ht₁ hm₁
      exact ⟨t₃, hreach'.ended_stays ht₃ he₃, he₃⟩
    · obtain ⟨t₃, ht₃, hm₃⟩ := hkeeps₃ j t₁ ht₁ hm₁
      refine hall j ?_ t₃ ht₃ hm₃
      rw [hq₃, hq₁]
      exact (List.mem_erase_of_ne hij).mpr hj

/-! ## No worker left -/

/-- Every worker holds a job that never ends. -/
def Blocked (Immortal : τ → Prop) (p : Pool σ τ) : Prop :=
  ∀ w ∈ p.workers, ∃ i t, w = some i ∧ p.jobs[i]? = some t ∧ Immortal t

/-- **In a blocked pool no other job ever moves.** -/
theorem Blocked.reach {Immortal : τ → Prop} (hend : ∀ t, Immortal t → J.ended t = false)
    (hrun : ∀ s t s' t', Immortal t → J.run s t s' t' → Immortal t') {p p' : Pool σ τ}
    (hb : Blocked Immortal p) (hr : Reach J p p') :
    Blocked Immortal p' ∧ p'.workers = p.workers ∧
      ∀ i t, p.jobs[i]? = some t → some i ∉ p.workers → p'.jobs[i]? = some t := by
  induction hr with
  | refl => exact ⟨hb, rfl, fun _ _ ht _ => ht⟩
  | @tail q q' _ hs ih =>
    obtain ⟨hbq, hwq, hkeep⟩ := ih
    cases hs with
    | env _ => exact ⟨hbq, hwq, hkeep⟩
    | detach _ =>
      have hmore : ∀ {i u t}, q.jobs[i]? = some u → (q.jobs ++ [t])[i]? = some u :=
        fun hu => (List.getElem?_append_left (List.getElem?_eq_some_iff.mp hu).1).trans hu
      refine ⟨fun w hw => ?_, hwq, fun i t ht hi => hmore (hkeep i t ht hi)⟩
      obtain ⟨i, t, hwi, ht, hm⟩ := hbq w hw
      exact ⟨i, t, hwi, hmore ht, hm⟩
    | @take l r i _ hw _ _ =>
      have hnone : none ∈ q.workers := by
        rw [hw]
        exact List.mem_append.mpr (Or.inr List.mem_cons_self)
      obtain ⟨i, t, hi, -⟩ := hbq none hnone
      cases hi
    | @run i s' t t' hw ht _ h =>
      have hi : i < q.jobs.length := (List.getElem?_eq_some_iff.mp ht).1
      refine ⟨fun w hw' => ?_, hwq, fun j u hu hj => ?_⟩
      · obtain ⟨j, u, hwj, hu, hm⟩ := hbq w hw'
        by_cases hij : i = j
        · subst hij
          rw [Option.some.inj (hu.symm.trans ht)] at hm
          exact ⟨i, t', hwj, List.getElem?_set_self hi, hrun _ _ _ _ hm h⟩
        · exact ⟨j, u, hwj, (List.getElem?_set_ne hij).trans hu, hm⟩
      · have hij : i ≠ j := by
          rintro rfl
          exact hj (hwq ▸ hw)
        exact (List.getElem?_set_ne hij).trans (hkeep j u hu hj)
    | @release l r i t hw ht he =>
      have hmem : some i ∈ q.workers := by
        rw [hw]
        exact List.mem_append.mpr (Or.inr List.mem_cons_self)
      obtain ⟨j, u, hj, hu, hm⟩ := hbq (some i) hmem
      obtain rfl := Option.some.inj hj
      rw [Option.some.inj (ht.symm.trans hu), hend u hm] at he
      cases he

end Pool

end TradeBridge.Lib
