import TradeBridge.Lib.PoolClosing
import TradeBridge.Drains
import TradeBridge.Teardown

/-!
# Whether `MtSrvCleanup` returns

`Teardown` starts from the tasks that are running. Here the whole pool is there when
`mt4plugin.reset()` destroys the members: until the deleter pauses it the workers take what waits,
and `delete` waits until no worker has a task (`plugin.h:25-36`). The calls of `MtSrvCleanup` before
it are one log entry. What a task reads of a member that is destroyed already is the matter of
`Teardown`; nothing is said of it here.

Results:
* **`unload_returns_iff`**: behind a subscription `MtSrvCleanup` can return if and only if every
  task detached so far still waits in the queue: once a worker has taken one, it never does.
* **`unload_ends`**: where no worker holds the receive task, nor will take it, every schedule ends,
  and no task has been left half-way.
-/

namespace TradeBridge

open TradeBridge.Lib

/-- A plugin that is unloaded: its pool, the actions of the teardown still to come and the members
gone, the last one first. -/
structure Unload where
  pool : Pool World Task
  actions : List Action
  destroyed : List Member

namespace Unload

def start (p : Pool World Task) : Unload := ⟨p, teardownActions, []⟩

/-- One action of the teardown, or one step of the pool while it is there. -/
inductive Step (J : Jobs World Task) : Unload → Unload → Prop
  | pausePool {s : Unload} {rest : List Action} (h : s.actions = .pausePool :: rest) :
      Step J s { s with
        actions := rest
        pool := { s.pool with shared := { s.pool.shared with paused := true } } }
  | waitPool {s : Unload} {rest : List Action} (h : s.actions = .waitPool :: rest) :
      Step J s { s with actions := rest }
  | destroy {s : Unload} {m : Member} {rest : List Action} (h : s.actions = .destroy m :: rest)
      (hwait : m = .pool → s.pool.Rested J) :
      Step J s { s with actions := rest, destroyed := m :: s.destroyed }
  | pool {s : Unload} {p' : Pool World Task} (hthere : .pool ∉ s.destroyed)
      (h : Pool.Step J s.pool p') : Step J s { s with pool := p' }

/-- The states of an unload. -/
def Reach (J : Jobs World Task) : Unload → Unload → Prop := Relation.ReflTransGen (Step J)

/-- `MtSrvCleanup` can come to its end. -/
def Returns (J : Jobs World Task) (p : Pool World Task) : Prop :=
  ∃ s, Reach J (start p) s ∧ s.actions = []

variable {J : Jobs World Task} {s s' : Unload} {p : Pool World Task}

/-! ## What holds in every unload -/

/-- The actions still to come end the teardown, and the members still there are the ones they
destroy. The pool is gone only with no task on a worker. -/
structure Ordered (s : Unload) : Prop where
  suffix : s.actions <:+ teardownActions
  order : s.destroyed.reverse ++ s.actions.filterMap Action.destroys = members.reverse
  rested : .pool ∈ s.destroyed → ∀ x ∈ s.pool.workers, x = none

theorem ordered_start (p : Pool World Task) : (start p).Ordered :=
  ⟨List.suffix_rfl, rfl, fun h => absurd h List.not_mem_nil⟩

theorem Ordered.suffix_tail {a : Action} {rest : List Action} (h : s.Ordered)
    (ha : s.actions = a :: rest) : rest <:+ teardownActions :=
  (List.suffix_cons a rest).trans (ha ▸ h.suffix)

theorem Ordered.step (h : s.Ordered) (hs : Step J s s') : s'.Ordered := by
  have horder := h.order
  cases hs with
  | pausePool ha =>
    rw [ha] at horder
    exact ⟨h.suffix_tail ha, horder, h.rested⟩
  | waitPool ha =>
    rw [ha] at horder
    exact ⟨h.suffix_tail ha, horder, h.rested⟩
  | @destroy m rest ha hwait =>
    rw [ha] at horder
    refine ⟨h.suffix_tail ha, ?_, fun hmem => ?_⟩
    · rw [List.reverse_cons, List.append_assoc]
      exact horder
    · rcases List.mem_cons.mp hmem with hm | hmem
      · exact (hwait hm.symm).1
      · exact h.rested hmem
  | pool hthere _ => exact ⟨h.suffix, horder, fun hmem => absurd hmem hthere⟩

theorem Ordered.reach (hr : Reach J (start p) s) : s.Ordered := by
  induction hr with
  | refl => exact ordered_start p
  | tail _ hs ih => exact ih.step hs

/-- At the end all members are destroyed, in the reverse of their declaration. -/
theorem Ordered.all_destroyed (h : s.Ordered) (hend : s.actions = []) : s.destroyed = members := by
  have horder := h.order
  rw [hend, List.filterMap_nil, List.append_nil] at horder
  exact List.reverse_injective horder

/-- Before the pool is destroyed it has been paused, and is there. -/
theorem Ordered.before_destroy {rest : List Action} (h : s.Ordered)
    (ha : s.actions = .destroy .pool :: rest) : .pausePool ∉ s.actions ∧ .pool ∉ s.destroyed := by
  constructor
  · have hall : ∀ as ∈ teardownActions.tails, as.head? = some (.destroy .pool) →
        .pausePool ∉ as := by decide
    exact hall s.actions ((List.mem_tails _ _).mpr h.suffix) (by rw [ha]; rfl)
  · have hnodup : (s.destroyed.reverse ++ s.actions.filterMap Action.destroys).Nodup := by
      rw [h.order]
      decide
    rw [ha] at hnodup
    exact fun hmem => (List.nodup_append.mp hnodup).2.2 _ (List.mem_reverse.mpr hmem) _
      List.mem_cons_self rfl

/-- The pool is paused, unless that is still to come. -/
def Pauses (s : Unload) : Prop := .pausePool ∈ s.actions ∨ s.pool.shared.paused = true

theorem pauses_start (p : Pool World Task) : (start p).Pauses :=
  Or.inl (by decide : .pausePool ∈ teardownActions)

/-- An action keeps that. -/
theorem Pauses.tail {a : Action} {rest : List Action} (h : s.Pauses) (ha : s.actions = a :: rest)
    (hne : a ≠ .pausePool) : .pausePool ∈ rest ∨ s.pool.shared.paused = true := by
  refine h.imp_left fun hmem => ?_
  rw [ha] at hmem
  rcases List.mem_cons.mp hmem with heq | hmem
  · exact absurd heq.symm hne
  · exact hmem

/-! ## A task without an end -/

/-- A worker holds the receive task. -/
def Holds (s : Unload) : Prop :=
  ∃ i t, some i ∈ s.pool.workers ∧ s.pool.jobs[i]? = some t ∧ t.publishes = false

variable {env env' : World → World → Prop} {Detached : Task → Prop}

theorem tasks_keep_publishes {b : Bool} {p p' : Pool World Task}
    (hs : Pool.Step (poolJobs (fun _ => True) env Detached) p p') :
    Pool.Keeps (fun t : Task => t.publishes = b) p p' := by
  refine hs.keeps ?_
  rintro w t _ _ hp ⟨o, ho, -⟩
  have := t.publishes_step w o
  rw [ho] at this
  exact this.trans hp

theorem Holds.step (h : s.Holds) (hs : Step (poolJobs (fun _ => True) env Detached) s s') :
    s'.Holds := by
  cases hs with
  | pausePool _ => exact h
  | waitPool _ => exact h
  | destroy _ _ => exact h
  | pool _ hs =>
    obtain ⟨i, t, hw, ht, hrec⟩ := h
    have hend : ∀ u, s.pool.jobs[i]? = some u → u.ended = false := by
      intro u hu
      obtain rfl := Option.some.inj (ht.symm.trans hu)
      exact Task.receives.not_ended hrec
    obtain ⟨t', ht', hrec'⟩ := tasks_keep_publishes hs i t ht hrec
    exact ⟨i, t', hs.held_stays hw hend, ht', hrec'⟩

theorem Holds.reach (h : s.Holds) (hr : Reach (poolJobs (fun _ => True) env Detached) s s') :
    s'.Holds := by
  induction hr with
  | refl => exact h
  | tail _ hs ih => exact ih.step hs

/-- **With the receive task on a worker the unload never comes to its end.** -/
theorem not_returns_of_holds (h : (start p).Holds) :
    ¬ Returns (poolJobs (fun _ => True) env Detached) p := by
  rintro ⟨s, hr, hend⟩
  have hordered := Ordered.reach hr
  obtain ⟨i, t, hw, -, -⟩ := h.reach hr
  have hgone : .pool ∈ s.destroyed := by
    rw [hordered.all_destroyed hend]
    decide
  cases hordered.rested hgone _ hw

/-- With no task on a worker nothing holds the actions up. -/
theorem exists_end : ∀ (as : List Action) {s : Unload}, s.actions = as → s.Ordered → s.Pauses →
    (∀ x ∈ s.pool.workers, x = none) →
    ∃ s', Reach (poolJobs (fun _ => True) env Detached) s s' ∧ s'.actions = []
  | [], s, ha, _, _, _ => ⟨s, Relation.ReflTransGen.refl, ha⟩
  | a :: as, s, ha, h, hpauses, hnone => by
    obtain ⟨s₁, hs, has, hpauses', hnone'⟩ : ∃ s₁,
        Step (poolJobs (fun _ => True) env Detached) s s₁ ∧ s₁.actions = as ∧ s₁.Pauses ∧
          ∀ x ∈ s₁.pool.workers, x = none := by
      cases a with
      | pausePool => exact ⟨_, Step.pausePool ha, rfl, Or.inr rfl, hnone⟩
      | waitPool =>
        exact ⟨_, Step.waitPool ha, rfl, hpauses.tail ha (by decide), hnone⟩
      | destroy m =>
        refine ⟨_, Step.destroy ha fun hm => ⟨hnone, ?_⟩, rfl, hpauses.tail ha (by simp), hnone⟩
        subst hm
        exact Or.inl (hpauses.resolve_left (h.before_destroy ha).1)
    obtain ⟨s', hr, hend⟩ := exists_end as has (h.step hs) hpauses' hnone'
    exact ⟨s', Relation.ReflTransGen.head hs hr, hend⟩

/-! ## Behind a subscription -/

theorem priority_lt {t u : Task} (ht : t.publishes = true) (hu : u.publishes = false) :
    t.priority < u.priority := by
  cases u with
  | receive u =>
    cases t with
    | receive t => cases ht
    | _ => exact (by decide : (-64 : Int) < 64)
  | _ => cases hu

/-- **The receive task is the first that a worker takes**, and it is never given back. -/
theorem receive_leads {w : World} {serverName : Bytes} {poolSize : Nat}
    (hr : Pool.Reach (pluginJobs env) (subscribedPool w serverName poolSize) p) :
    p.WellFormed ∧ p.Leads 0 ∧ ∃ t, p.jobs[0]? = some t ∧ t.publishes = false := by
  have hspawn : (poolJobs (fun _ => True) (fun _ _ => True) fun _ => True).spawn w
      (.ofReceive serverName) := trivial
  have hwf : (subscribedPool w serverName poolSize).WellFormed :=
    (Pool.Step.detach (p := newPool w poolSize) hspawn).wellFormed (newPool_wellFormed w poolSize)
  induction hr with
  | refl =>
    refine ⟨hwf, Or.inl ⟨List.mem_cons_self, fun x hx => List.eq_of_mem_replicate hx,
      fun i hi => ?_⟩, _, rfl, rfl⟩
    exact List.mem_singleton.mpr (Nat.lt_one_iff.mp hi)
  | @tail q q' hr hs ih =>
    obtain ⟨hq, hleads, t, ht, hrec⟩ := ih
    refine ⟨hs.wellFormed hq, hleads.step hs (fun j hj hle => ?_) fun u hu => ?_, ?_⟩
    · obtain ⟨u, hu⟩ : ∃ u, q.jobs[j]? = some u :=
        ⟨_, List.getElem?_eq_getElem (hq.queued j hj)⟩
      refine publishes_of_reach hr hu fun hpub => ?_
      unfold Pool.priorityOf at hle
      rw [ht, hu] at hle
      exact absurd (Int.lt_of_lt_of_le (priority_lt hpub hrec) hle) (Int.lt_irrefl _)
    · obtain rfl := Option.some.inj (ht.symm.trans hu)
      exact Task.receives.not_ended hrec
    · exact tasks_keep_publishes hs 0 t ht hrec

/-- **Behind a subscription `MtSrvCleanup` can return if and only if every task that has been
detached still waits in the queue**, whatever happens outside before and meanwhile. -/
theorem unload_returns_iff (o : Outside) (pluginName serverName natsUrl u : Bytes) (poolSize : Nat)
    (hconn : o.connect natsUrl = .ok u) (hsub : o.subscribe (tradeRequestTopic serverName) = .ok ())
    (hr : Pool.Reach (pluginJobs env)
      (Plugin.new o pluginName serverName natsUrl poolSize).pool p) :
    Returns (poolJobs (fun _ => True) env' Detached) p ↔ ∀ i < p.jobs.length, i ∈ p.queue := by
  rw [Plugin.new_pool poolSize hconn hsub] at hr
  obtain ⟨hwf, hleads, t, ht, hrec⟩ := receive_leads hr
  constructor
  · intro hret
    rcases hleads with ⟨-, huntouched⟩ | hheld
    · exact huntouched.jobs
    · exact absurd hret (not_returns_of_holds ⟨0, t, hheld, ht, hrec⟩)
  · intro hall
    rcases hleads with ⟨-, huntouched⟩ | hheld
    · exact exists_end _ rfl (ordered_start p) (pauses_start p) huntouched.workers
    · have hqueue : 0 ∈ p.queue := hall 0 (List.getElem?_eq_some_iff.mp ht).1
      exact absurd rfl
        ((List.nodup_append.mp hwf.nodup).2.2 _ hqueue _ (Pool.mem_held.mpr hheld))

/-- A plugin that is connected and has two workers. -/
def connected : Plugin :=
  .new (.healthy ⟨bytes "test1", [], 2⟩) pluginInfoName (bytes "test1") [] 2

/-- A worker has taken the receive task, and the plugin is never unloaded. -/
theorem unload_hangs : ∃ p, Pool.Reach (pluginJobs pauses) connected.pool p ∧
    ¬ Returns (pluginJobs pauses) p := by
  have htake : Pool.Reach (pluginJobs pauses) connected.pool
      { connected.pool with queue := [], workers := [some 0, none] } :=
    Relation.ReflTransGen.single (Pool.Step.take (p := connected.pool) (l := []) (r := [none]) rfl
      rfl List.mem_cons_self fun i hi => (congrArg _ (List.mem_singleton.mp hi)).le)
  refine ⟨_, htake, fun hret => ?_⟩
  have hwaits := (unload_returns_iff (.healthy ⟨bytes "test1", [], 2⟩) pluginInfoName
    (bytes "test1") [] [] 2 rfl rfl htake).mp hret
  exact List.not_mem_nil (hwaits 0 Nat.one_pos)

/-! ## Every schedule ends -/

/-- No worker holds the receive task, nor will take it. -/
def Free (s : Unload) : Prop :=
  ∀ i t, s.pool.jobs[i]? = some t → t.publishes = false →
    i ∈ s.pool.queue ∧ s.pool.shared.paused = true

/-- The steps that are still to come. -/
def load (s : Unload) : Nat := Pool.load (fun w t => t.size w) s.pool + s.actions.length

/-- A run of `n` steps. -/
abbrev Runs (s : Unload) (n : Nat) (s' : Unload) : Prop :=
  Spend (Step workerJobs) (fun _ _ => False) (fun _ _ _ => False) s n 0 s'

theorem workerJobs_ranked : Pool.Ranked workerJobs Publishes fun w t => t.size w :=
  tasks_ranked fun h => absurd h id

/-- What every step of an unload keeps. -/
structure Sound (s : Unload) : Prop where
  wellFormed : s.pool.WellFormed
  placed : Pool.Placed workerJobs s.pool
  ordered : s.Ordered
  pauses : s.Pauses

theorem Sound.not_held (h : s.Sound) {i : Nat} (hi : i ∈ s.pool.queue) : some i ∉ s.pool.workers :=
  fun hw => (List.nodup_append.mp h.wellFormed.nodup).2.2 _ hi _ (Pool.mem_held.mpr hw) rfl

theorem worker_paused {p p' : Pool World Task} (hs : Pool.Step workerJobs p p') :
    p'.shared.paused = p.shared.paused := by
  cases hs with
  | env h => exact absurd h id
  | @run _ w' t t' _ _ _ hrun =>
    obtain ⟨o, ho, -⟩ := hrun
    have hsame := t.step_same p.shared o
    rw [ho] at hsame
    exact hsame.paused
  | _ => rfl

theorem Sound.step (h : s.Sound) (hs : Step workerJobs s s') : s'.Sound := by
  have hordered := h.ordered.step hs
  cases hs with
  | pausePool _ =>
    exact ⟨⟨h.wellFormed.queued, h.wellFormed.held, h.wellFormed.nodup⟩, h.placed, hordered,
      Or.inr rfl⟩
  | waitPool ha => exact ⟨h.wellFormed, h.placed, hordered, h.pauses.tail ha (by decide)⟩
  | destroy ha _ => exact ⟨h.wellFormed, h.placed, hordered, h.pauses.tail ha (by simp)⟩
  | pool _ hs =>
    exact ⟨hs.wellFormed h.wellFormed, hs.placed h.placed, hordered,
      h.pauses.imp_right (worker_paused hs).trans⟩

theorem Sound.reach (h : s.Sound) (hr : Reach workerJobs s s') : s'.Sound := by
  induction hr with
  | refl => exact h
  | tail _ hs ih => exact ih.step hs

/-- Where no worker holds the receive task every step of the pool is one of progress. -/
theorem Free.progress {p' : Pool World Task} (h : s.Free) (hsound : s.Sound)
    (hs : Pool.Step workerJobs s.pool p') : Pool.Progress workerJobs Publishes s.pool p' := by
  cases hs with
  | env h => exact absurd h id
  | detach h => exact absurd h id
  | take hp hw hid hmax => exact Pool.Progress.take hp hw hid hmax
  | run hw ht he hrun =>
    refine Pool.Progress.run hw ht ?_ he hrun
    by_contra hnot
    exact hsound.not_held (h _ _ ht (Bool.eq_false_of_not_eq_true hnot)).1 hw
  | release hw ht he => exact Pool.Progress.release hw ht he

/-- **No step hands the receive task to a worker.** -/
theorem Free.step (h : s.Free) (hsound : s.Sound) (hs : Step workerJobs s s') : s'.Free := by
  cases hs with
  | pausePool _ => exact fun i t ht hrec => ⟨(h i t ht hrec).1, rfl⟩
  | waitPool _ => exact h
  | destroy _ _ => exact h
  | pool _ hs =>
    have hpaused := worker_paused hs
    cases hs with
    | env h => exact absurd h id
    | detach h => exact absurd h id
    | take hp _ _ _ =>
      intro i t ht hrec
      exact absurd (hp.symm.trans (h i t ht hrec).2) Bool.false_ne_true
    | @run j w' t t' hw ht he hrun =>
      obtain ⟨o, ho, -⟩ := hrun
      have hpub := t.publishes_step s.pool.shared o
      rw [ho] at hpub
      intro i u hu hrec
      by_cases hij : j = i
      · subst hij
        obtain rfl := Option.some.inj
          ((List.getElem?_set_self (List.getElem?_eq_some_iff.mp ht).1).symm.trans hu)
        exact absurd hw (hsound.not_held (h j t ht (hpub.symm.trans hrec)).1)
      · obtain ⟨hqueue, hbefore⟩ := h i u ((List.getElem?_set_ne hij).symm.trans hu) hrec
        exact ⟨hqueue, hpaused.trans hbefore⟩
    | release _ _ _ => exact h

/-- **A step of the unload takes from what is still to come.** -/
theorem Free.load_step (h : s.Free) (hsound : s.Sound) (hs : Step workerJobs s s') :
    s'.load < s.load := by
  cases hs with
  | @pausePool rest ha =>
    have hpause : Pool.load (fun w t => t.size w)
        { s.pool with shared := { s.pool.shared with paused := true } } =
          Pool.load (fun w t => t.size w) s.pool :=
      pluginJobs_ranked.load_env ⟨true, rfl⟩
    show Pool.load _ _ + rest.length < Pool.load _ s.pool + s.actions.length
    rw [hpause, ha, List.length_cons]
    omega
  | @waitPool rest ha =>
    show Pool.load _ s.pool + rest.length < Pool.load _ s.pool + s.actions.length
    rw [ha, List.length_cons]
    omega
  | @destroy m rest ha _ =>
    show Pool.load _ s.pool + rest.length < Pool.load _ s.pool + s.actions.length
    rw [ha, List.length_cons]
    omega
  | pool _ hs =>
    exact Nat.add_lt_add_right (workerJobs_ranked.load_progress (h.progress hsound hs)) _

theorem Free.potential : Potential (Step workerJobs) (fun _ _ => False) (fun _ _ _ => False)
    (fun s => s.Free ∧ s.Sound) load where
  work h hs := ⟨⟨h.1.step h.2 hs, h.2.step hs⟩, h.1.load_step h.2 hs⟩
  rest _ hs := absurd hs id
  gain _ hs := absurd hs id

/-- A task waits as it was detached. -/
theorem Sound.waiting (h : s.Sound) (hr : Reach workerJobs s s') :
    ∀ i ∈ s'.pool.queue, i ∈ s.pool.queue ∧ s'.pool.jobs[i]? = s.pool.jobs[i]? := by
  induction hr with
  | refl => exact fun i hi => ⟨hi, rfl⟩
  | tail hr hs ih =>
    intro i hi
    have hsound := h.reach hr
    cases hs with
    | pausePool _ => exact ih i hi
    | waitPool _ => exact ih i hi
    | destroy _ _ => exact ih i hi
    | pool _ hs =>
      obtain ⟨hi, hsame⟩ := hs.waiting hsound.wellFormed (fun _ => id) hi
      exact ⟨(ih i hi).1, hsame.trans (ih i hi).2⟩

/-- **Where no step is possible the unload is at its end.** -/
theorem Free.ended (h : s.Free) (hsound : s.Sound) (hstuck : ∀ s', ¬ Step workerJobs s s') :
    s.actions = [] := by
  cases ha : s.actions with
  | nil => rfl
  | cons a rest =>
    exfalso
    cases a with
    | pausePool => exact hstuck _ (.pausePool ha)
    | waitPool => exact hstuck _ (.waitPool ha)
    | destroy m =>
      refine hstuck _ (.destroy ha fun hm => ?_)
      subst hm
      obtain ⟨hpaused, hthere⟩ := hsound.ordered.before_destroy ha
      have hmortal : ∀ i t, some i ∈ s.pool.workers → s.pool.jobs[i]? = some t → Publishes t := by
        intro i t hw ht
        by_contra hnot
        exact hsound.not_held (h i t ht (Bool.eq_false_of_not_eq_true hnot)).1 hw
      refine Pool.rested_of_stuck hsound.wellFormed (hsound.pauses.resolve_left hpaused) hmortal
        (fun w t _ _ => ⟨_, _, .ofStatus .ok, rfl, fun _ _ => trivial⟩) fun p' hp => ?_
      exact hstuck _ (.pool hthere hp.step)

/-- The pool of a new plugin is empty, or the receive task waits in it. -/
theorem new_pool_cases (o : Outside) (pluginName serverName natsUrl : Bytes) (poolSize : Nat) :
    ∃ w, (Plugin.new o pluginName serverName natsUrl poolSize).pool = newPool w poolSize ∨
      (Plugin.new o pluginName serverName natsUrl poolSize).pool =
        subscribedPool w serverName poolSize := by
  unfold Plugin.new Plugin.connectToNats
  cases o.connect natsUrl with
  | error e => exact ⟨_, Or.inl rfl⟩
  | ok u =>
    unfold Plugin.natsSubscribeToTradeRequest
    simp only
    cases o.subscribe (tradeRequestTopic serverName) with
    | error e => exact ⟨_, Or.inl rfl⟩
    | ok _ => exact ⟨_, Or.inr rfl⟩

theorem sound_start {o : Outside} {pluginName serverName natsUrl : Bytes} {poolSize : Nat}
    (hr : Pool.Reach (pluginJobs env)
      (Plugin.new o pluginName serverName natsUrl poolSize).pool p) :
    (start p).Sound := by
  have hnew : ∀ w, (newPool w poolSize).WellFormed ∧
      Pool.Placed (pluginJobs env) (newPool w poolSize) :=
    fun w => ⟨newPool_wellFormed w poolSize, fun i t ht _ => nomatch ht⟩
  have hfirst : (Plugin.new o pluginName serverName natsUrl poolSize).pool.WellFormed ∧
      Pool.Placed (pluginJobs env) (Plugin.new o pluginName serverName natsUrl poolSize).pool := by
    obtain ⟨w, hpool | hpool⟩ := new_pool_cases o pluginName serverName natsUrl poolSize
    · rw [hpool]
      exact hnew w
    · rw [hpool]
      have hdetach : Pool.Step (poolJobs (fun _ => True) env fun _ => True) (newPool w poolSize)
          (subscribedPool w serverName poolSize) := .detach trivial
      exact ⟨hdetach.wellFormed (hnew w).1, hdetach.placed (hnew w).2⟩
  exact ⟨hr.wellFormed hfirst.1, hr.placed hfirst.2, ordered_start p, pauses_start p⟩

/-- **Where no worker holds the receive task, nor will take it, every schedule of the unload ends**:
its steps are bounded, and where no more is possible all members are destroyed. Every task has come
to its end or has not been begun. -/
theorem unload_ends {o : Outside} {pluginName serverName natsUrl : Bytes} {poolSize : Nat}
    (hr : Pool.Reach (pluginJobs env) (Plugin.new o pluginName serverName natsUrl poolSize).pool p)
    (hs : Reach workerJobs (start p) s) (hfree : s.Free) :
    (∀ n s', Runs s n s' → n ≤ s.load) ∧
      ∀ s', Reach workerJobs s s' → (∀ s'', ¬ Step workerJobs s' s'') →
        s'.actions = [] ∧ s'.destroyed = members ∧
          ∀ i t, s'.pool.jobs[i]? = some t →
            t.ended = true ∨ i ∈ s.pool.queue ∧ s.pool.jobs[i]? = some t := by
  have hsound : s.Sound := (sound_start hr).reach hs
  constructor
  · intro n s' hruns
    have := Spend.bound Free.potential hruns ⟨hfree, hsound⟩
    omega
  · intro s' hreach hstuck
    have hsound' := hsound.reach hreach
    have hfree' : s'.Free := by
      clear hstuck hsound'
      induction hreach with
      | refl => exact hfree
      | tail hreach hs ih => exact ih.step (hsound.reach hreach) hs
    have hend := hfree'.ended hsound' hstuck
    have hdestroyed := hsound'.ordered.all_destroyed hend
    refine ⟨hend, hdestroyed, fun i t ht => ?_⟩
    cases he : t.ended with
    | true => exact Or.inl rfl
    | false =>
      have hgone : .pool ∈ s'.destroyed := by
        rw [hdestroyed]
        decide
      rcases hsound'.placed i t ht he with hi | hw
      · obtain ⟨hi, hsame⟩ := hsound.waiting hreach i hi
        exact Or.inr ⟨hi, hsame.symm.trans ht⟩
      · cases hsound'.ordered.rested hgone _ hw

/-- NATS has refused the connection, and a group waits. -/
theorem unload_ends_unconnected :
    let o : Outside := { Outside.healthy ⟨bytes "test1", [], 2⟩ with
      connectTo := fun _ => .connectionClosed }
    let p := (Plugin.new o pluginInfoName (bytes "test1") [] 2).pool.detachTask
      (.ofGroup (demoGroup []))
    (∀ n s', Runs (start p) n s' → n ≤ (start p).load) ∧
      ∀ s', Reach workerJobs (start p) s' → (∀ s'', ¬ Step workerJobs s' s'') →
        s'.actions = [] ∧ s'.destroyed = members ∧
          ∀ i t, s'.pool.jobs[i]? = some t →
            t.ended = true ∨ i ∈ (start p).pool.queue ∧ (start p).pool.jobs[i]? = some t := by
  intro o p
  have hreach : Pool.Reach (pluginJobs pauses)
      (Plugin.new o pluginInfoName (bytes "test1") [] 2).pool p :=
    Relation.ReflTransGen.single (Pool.Step.detach (Task.Fresh.group (demoGroup [])))
  have hjobs : p.jobs = [.ofGroup (demoGroup [])] := rfl
  refine unload_ends hreach Relation.ReflTransGen.refl fun i t ht hrec => ?_
  have hmem : t ∈ p.jobs := List.mem_of_getElem? ht
  rw [hjobs] at hmem
  rw [List.mem_singleton.mp hmem] at hrec
  cases hrec

end Unload

end TradeBridge
