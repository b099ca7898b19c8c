import TradeBridge.Members

/-!
# Teardown: `mt4plugin.reset()`

The members are destroyed in the reverse of their declaration. The destruction of `m_pool` is
`thread_pool_deleter` (`plugin.h:25-36`): it pauses the pool, waits a second, and deletes it, which
waits for the tasks that are running. Until then each of them may take steps between the
destructions (`Teardown.Step`).

The members declared before the pool are so protected by it. The three topics and the chart
directory are declared after it, and are gone when the pause comes.

Results:
* **`destroyed_read_afterPool`**: a member that a task reads after its destruction is one declared
  after the pool.
* **`safe_iff`**: no task reads a destroyed member, in any interleaving, iff no task running when
  teardown begins has still a publish or a time-point access ahead of it.
* **`pool_never_destroyed`**: with the receive task running, the teardown never gets past the pool.
* `completes`: without it, it can always come to its end.
-/

namespace TradeBridge

open TradeBridge.Lib

/-- One action of the teardown. -/
inductive Action
  | pausePool
  | waitPool
  | destroy (m : Member)
  deriving DecidableEq

/-- What the destruction of a member does. -/
def Member.teardown : Member → List Action
  | .pool => [.pausePool, .waitPool, .destroy .pool]
  | m => [.destroy m]

/-- The teardown of the plugin. -/
def teardownActions : List Action := members.reverse.flatMap Member.teardown

/-- The member an action destroys. -/
def Action.destroys : Action → Option Member
  | .destroy m => some m
  | _ => none

/-- A plugin that is torn down: what its running tasks share, these tasks, the actions still to come
and the members gone, the last one first. -/
structure Teardown where
  world : World
  tasks : List Task
  actions : List Action
  destroyed : List Member

namespace Teardown

/-- The beginning, with the tasks that are running then. Only the deleter pauses the pool. -/
def start (w : World) (tasks : List Task) : Teardown :=
  ⟨{ w with paused := false }, tasks, teardownActions, []⟩

/-- One action of the teardown, or one step of a running task. `wait_for` returns after a second at
the latest; `delete` waits for all of them. -/
inductive Step : Teardown → Teardown → Prop
  | pausePool {s : Teardown} {rest : List Action} (h : s.actions = .pausePool :: rest) :
      Step s { s with actions := rest, world := { s.world with paused := true } }
  | waitPool {s : Teardown} {rest : List Action} (h : s.actions = .waitPool :: rest) :
      Step s { s with actions := rest }
  | destroy {s : Teardown} {m : Member} {rest : List Action} (h : s.actions = .destroy m :: rest)
      (hwait : m = .pool → ∀ t ∈ s.tasks, t.ended = true) :
      Step s { s with actions := rest, destroyed := m :: s.destroyed }
  | run {s : Teardown} {l r : List Task} {t : Task} (o : Outcome) (h : s.tasks = l ++ t :: r)
      (he : t.ended = false) :
      Step s { s with world := (t.step s.world o).1, tasks := l ++ (t.step s.world o).2 :: r }

/-- The states of a teardown. -/
def Reach : Teardown → Teardown → Prop := Relation.ReflTransGen Step

/-- No step of a running task reads a member after its destruction, in any interleaving. -/
def Safe (w : World) (tasks : List Task) : Prop :=
  ∀ s, Reach (start w tasks) s → ∀ t ∈ s.tasks, t.ended = false →
    ∀ m ∈ t.reads, m ∉ s.destroyed

/-! ## What holds in every teardown -/

/-- The members gone and the ones still to go are the members in reverse order; the pool is gone
only when all tasks have ended; the server's tables stay. -/
structure Inv (w : World) (s : Teardown) : Prop where
  order : s.destroyed.reverse ++ s.actions.filterMap Action.destroys = members.reverse
  waited : .pool ∈ s.destroyed → ∀ t ∈ s.tasks, t.ended = true
  groups : s.world.groups = w.groups
  symbols : s.world.symbols = w.symbols
  historyQuotes : s.world.historyQuotes = w.historyQuotes

variable {w : World} {tasks : List Task} {s s' : Teardown}

theorem inv_start (w : World) (tasks : List Task) : Inv w (start w tasks) :=
  ⟨rfl, fun h => absurd h List.not_mem_nil, rfl, rfl, rfl⟩

theorem Inv.step (h : Inv w s) (hs : Step s s') : Inv w s' := by
  obtain ⟨horder, hwaited, hg, hsy, hq⟩ := h
  cases hs with
  | pausePool ha =>
    rw [ha] at horder
    exact ⟨horder, hwaited, hg, hsy, hq⟩
  | waitPool ha =>
    rw [ha] at horder
    exact ⟨horder, hwaited, hg, hsy, hq⟩
  | @destroy m rest ha hwait =>
    rw [ha] at horder
    refine ⟨?_, fun hmem => ?_, hg, hsy, hq⟩
    · rw [List.reverse_cons, List.append_assoc]
      exact horder
    · rcases List.mem_cons.mp hmem with hm | hmem
      · exact hwait hm.symm
      · exact hwaited hmem
  | @run l r t o ht he =>
    have hsame := t.step_same s.world o
    refine ⟨horder, fun hmem => ?_, hsame.groups.trans hg, hsame.symbols.trans hsy,
      hsame.historyQuotes.trans hq⟩
    have hmt : t ∈ s.tasks := ht ▸ Threads.mem_middle
    rw [hwaited hmem t hmt] at he
    cases he

theorem Inv.reach (hr : Reach (start w tasks) s) : Inv w s := by
  induction hr with
  | refl => exact inv_start w tasks
  | tail _ hs ih => exact ih.step hs

/-- While the pool is there, only members declared after it are gone. -/
theorem Inv.mem_afterPool (h : Inv w s) (hpool : .pool ∉ s.destroyed) {m : Member}
    (hm : m ∈ s.destroyed) : m ∈ afterPool := by
  have hnot : ∀ x ∈ s.destroyed.reverse, (x ≠ .pool) := by
    rintro x hx rfl
    exact hpool (List.mem_reverse.mp hx)
  unfold afterPool
  rw [← h.order, List.takeWhile_append_of_pos fun x hx => decide_eq_true (hnot x hx)]
  exact List.mem_append.mpr (Or.inl (List.mem_reverse.mpr hm))

/-- **The pool protects the members declared before it**: a destroyed member that a running task
reads is one declared after the pool. -/
theorem destroyed_read_afterPool (hr : Reach (start w tasks) s) {t : Task} (ht : t ∈ s.tasks)
    (he : t.ended = false) {m : Member} (hm : m ∈ s.destroyed) : m ∈ afterPool := by
  have hinv := Inv.reach hr
  refine hinv.mem_afterPool (fun hpool => ?_) hm
  rw [hinv.waited hpool t ht] at he
  cases he

/-! ## No access ahead -/

/-- No running task has an access ahead. -/
def Quiet (w : World) (s : Teardown) : Prop := ∀ t ∈ s.tasks, ¬ t.accessAhead w

theorem Quiet.step (h : Quiet w s) (hi : Inv w s) (hs : Step s s') : Quiet w s' := by
  cases hs with
  | pausePool _ => exact h
  | waitPool _ => exact h
  | destroy _ _ => exact h
  | @run l r t o ht he =>
    have hiff := Task.accessAhead_congr hi.groups hi.symbols hi.historyQuotes
    have hmt : t ∈ s.tasks := ht ▸ Threads.mem_middle
    intro u hu
    rcases Threads.mem_replaced (t := t) hu with rfl | hu
    · rw [← hiff]
      exact Task.quiet_step ((hiff t).not.mpr (h t hmt)) o
    · exact h u (ht ▸ hu)

theorem Quiet.reach (h : ∀ t ∈ tasks, ¬ t.accessAhead w) (hr : Reach (start w tasks) s) :
    Quiet w s := by
  induction hr with
  | refl => exact h
  | tail hr hs ih => exact ih.step (Inv.reach hr) hs

/-! ## An access ahead -/

/-- Members other than the pool are destroyed without waiting for any task. -/
theorem reach_destroyed : ∀ (ms : List Member) {s : Teardown} {rest : List Action},
    .pool ∉ ms → s.actions = ms.map .destroy ++ rest →
    Reach s { s with actions := rest, destroyed := ms.reverse ++ s.destroyed }
  | [], s, rest, _, ha => by
    have hself : { s with actions := rest, destroyed := [].reverse ++ s.destroyed } = s := by
      rw [show rest = s.actions from ha.symm]
      rfl
    rw [hself]
    exact Relation.ReflTransGen.refl
  | m :: ms, s, rest, hpool, ha => by
    have hm : .pool ≠ m := fun h => hpool (h ▸ List.mem_cons_self)
    have hms : .pool ∉ ms := fun h => hpool (List.mem_cons_of_mem _ h)
    have hstep : Step s { s with actions := ms.map .destroy ++ rest,
                                 destroyed := m :: s.destroyed } :=
      Step.destroy ha fun h => absurd h.symm hm
    rw [List.reverse_cons, List.append_assoc]
    exact Relation.ReflTransGen.head hstep (reach_destroyed ms hms rfl)

/-- The topics and the directory are gone, and no task has taken a step. -/
def exposed (w : World) (tasks : List Task) : Teardown where
  world := { w with paused := false }
  tasks := tasks
  actions := [.pausePool, .waitPool, .destroy .pool, .destroy .natsConn, .destroy .logger,
    .destroy .mt4server, .destroy .pluginName]
  destroyed := afterPool.reverse

theorem reach_exposed (w : World) (tasks : List Task) :
    Reach (start w tasks) (exposed w tasks) :=
  reach_destroyed afterPool (by decide) rfl

/-- The turns of one task are steps of the teardown. -/
theorem turns_reach {l r : List Task} {b : Bool} : ∀ (xs : List Turn) {s : Teardown} {t : Task},
    s.tasks = l ++ t :: r → s.world.paused = b → (∀ x ∈ xs, x.paused = b) →
    Reach s { s with world := (Task.turns s.world t xs).1,
                     tasks := l ++ (Task.turns s.world t xs).2 :: r }
  | [], s, t, ht, _, _ => by
    rw [Task.turns, ← ht]
    exact Relation.ReflTransGen.refl
  | x :: xs, s, t, ht, hw, hxs => by
    rw [Task.turns, hxs x List.mem_cons_self, World.setPaused_self hw]
    have hxs' : ∀ y ∈ xs, y.paused = b := fun y hy => hxs y (List.mem_cons_of_mem _ hy)
    have hw' : (t.step s.world x.outcome).1.paused = b :=
      (t.step_same s.world x.outcome).paused.trans hw
    have hrest := turns_reach xs (s := { s with world := (t.step s.world x.outcome).1,
                                                tasks := l ++ (t.step s.world x.outcome).2 :: r })
      rfl hw' hxs'
    cases he : t.ended with
    | false => exact Relation.ReflTransGen.head (Step.run x.outcome ht he) hrest
    | true =>
      rw [Task.step_of_ended he] at hrest ⊢
      have hself : { s with world := s.world, tasks := l ++ t :: r } = s := by rw [← ht]
      rw [hself] at hrest
      exact hrest

end Teardown

/-- Only a publish task that has not ended has an access ahead. -/
theorem Task.accessAhead_alive {t : Task} {w : World} (h : t.accessAhead w) :
    t.publishes = true ∧ t.ended = false := by
  constructor
  · cases t <;> first | rfl | exact h.elim
  · cases he : t.ended with
    | false => rfl
    | true => exact absurd h (Task.not_accessAhead_of_ended w he)

/-- **A task with an access ahead comes to one** in turns that are not paused. -/
theorem Task.turns_access (n : Nat) : ∀ {w : World} {t : Task}, t.size w ≤ n →
    w.paused = false → t.accessAhead w →
    ∃ xs : List Turn, (∀ x ∈ xs, x.paused = false) ∧
      ∃ m ∈ (Task.turns w t xs).2.reads, m ∈ afterPool := by
  induction n with
  | zero =>
    intro w t hn _ ha
    obtain ⟨hpub, he⟩ := Task.accessAhead_alive ha
    have := Task.step_size w (.ofStatus .ok) hpub he
    omega
  | succ n ih =>
    intro w t hn hw ha
    by_cases haccess : ∃ m ∈ t.reads, m ∈ afterPool
    · exact ⟨[], fun x hx => absurd hx List.not_mem_nil, haccess⟩
    · have hnot : ∀ m ∈ t.reads, m ∉ afterPool := fun m hm hafter => haccess ⟨m, hm, hafter⟩
      obtain ⟨hpub, he⟩ := Task.accessAhead_alive ha
      have hlt := Task.step_size w (.ofStatus .ok) hpub he
      have hsame := t.step_same w (.ofStatus .ok)
      have hnear := Task.accessAhead_step hw ha hnot (.ofStatus .ok)
      rw [← Task.accessAhead_congr hsame.groups hsame.symbols hsame.historyQuotes] at hnear
      obtain ⟨xs, hxs, hreads⟩ := ih (by omega) (hsame.paused.trans hw) hnear
      refine ⟨⟨false, .ofStatus .ok⟩ :: xs, fun x hx => ?_, ?_⟩
      · rcases List.mem_cons.mp hx with rfl | hx
        · rfl
        · exact hxs x hx
      · simp only [Task.turns, World.setPaused_self hw]
        exact hreads

namespace Teardown

variable {w : World} {tasks : List Task} {s s' : Teardown}

theorem not_safe_of_accessAhead {t : Task} (ht : t ∈ tasks) (ha : t.accessAhead w) :
    ¬ Safe w tasks := by
  intro h
  obtain ⟨l, r, hsplit⟩ := List.append_of_mem ht
  obtain ⟨xs, hxs, m, hm, hafter⟩ := Task.turns_access _ (w := { w with paused := false }) le_rfl
    rfl ((Task.accessAhead_congr (w := w) rfl rfl rfl t).mpr ha)
  have hr := (reach_exposed w tasks).trans (turns_reach xs hsplit rfl hxs)
  have halive := Task.accessAhead_alive (Task.accessAhead_of_reads w hm hafter)
  exact h _ hr _ Threads.mem_middle halive.2 m hm (List.mem_reverse.mpr hafter)

/-- **No task reads a member after its destruction**, in any interleaving, if and only if no task
that is running when the teardown begins has a publish or a time-point access ahead of it. -/
theorem safe_iff (w : World) (tasks : List Task) :
    Safe w tasks ↔ ∀ t ∈ tasks, ¬ t.accessAhead w := by
  constructor
  · exact fun h t ht ha => not_safe_of_accessAhead ht ha h
  · intro h s hr t ht he m hm hgone
    have hafter := destroyed_read_afterPool hr ht he hgone
    exact Quiet.reach h hr t ht (Task.accessAhead_of_reads w hm hafter)

/-- **A topic is read after its destruction** when `publish_group_symbols` is running. -/
theorem a_topic_is_read_after_its_destruction :
    ¬ Safe (oneGroup []) [.ofGroup (demoGroup [])] :=
  have ha : groupMessages [eurusd] (demoGroup []) ≠ [] := by decide
  not_safe_of_accessAhead List.mem_cons_self ha

/-! ## Whether the teardown ends -/

theorem receives_step (h : ∃ t ∈ s.tasks, t.publishes = false) (hs : Step s s') :
    ∃ t ∈ s'.tasks, t.publishes = false := by
  cases hs with
  | pausePool _ => exact h
  | waitPool _ => exact h
  | destroy _ _ => exact h
  | @run l r t o ht he =>
    obtain ⟨u, hu, hrec⟩ := h
    rcases Threads.mem_replaced (ht ▸ hu) with rfl | hu
    · exact ⟨_, Threads.mem_middle, (u.publishes_step _ _).trans hrec⟩
    · exact ⟨u, hu, hrec⟩

/-- **With the receive task running, the destruction of the pool never returns**: unloading the
plugin hangs. -/
theorem pool_never_destroyed {t : ReceiveTask} (ht : .receive t ∈ tasks)
    (hr : Reach (start w tasks) s) : .pool ∉ s.destroyed := by
  have hrec : ∃ t ∈ s.tasks, t.publishes = false := by
    induction hr with
    | refl => exact ⟨_, ht, rfl⟩
    | tail _ hs ih => exact receives_step ih hs
  intro hpool
  obtain ⟨u, hu, hrec⟩ := hrec
  have hended := (Inv.reach hr).waited hpool u hu
  cases u with
  | receive u => cases hended
  | _ => cases hrec

/-- Running publish tasks come to their end, paused or not. -/
theorem exists_all_ended : ∀ (r : List Task) {l : List Task} {s : Teardown}, s.tasks = l ++ r →
    (∀ t ∈ r, t.publishes = true) →
    ∃ w' r', Reach s { s with world := w', tasks := l ++ r' } ∧ ∀ t ∈ r', t.ended = true
  | [], l, s, ht, _ => by
    refine ⟨s.world, [], ?_, fun t h => absurd h List.not_mem_nil⟩
    rw [← ht]
    exact Relation.ReflTransGen.refl
  | t :: r, l, s, ht, hpub => by
    have hturns : ∀ x ∈ List.replicate (t.size s.world)
        (⟨s.world.paused, .ofStatus .ok⟩ : Turn), x.paused = s.world.paused :=
      fun x hx => congrArg Turn.paused (List.eq_of_mem_replicate hx)
    have hreach := turns_reach _ ht rfl hturns
    have hended : (Task.turns s.world t (List.replicate (t.size s.world)
        ⟨s.world.paused, .ofStatus .ok⟩)).2.ended = true :=
      Task.turns_ended _ (hpub t List.mem_cons_self) List.length_replicate.ge
    obtain ⟨w', r', hreach', hall⟩ := exists_all_ended r
      (s := { s with world := _, tasks := _ }) (List.append_cons l _ r)
      fun u hu => hpub u (List.mem_cons_of_mem _ hu)
    rw [List.append_assoc, List.singleton_append] at hreach'
    refine ⟨w', _, hreach.trans hreach', fun u hu => ?_⟩
    rcases List.mem_cons.mp hu with rfl | hu
    · exact hended
    · exact hall u hu

/-- Once the tasks have ended nothing holds the teardown up. -/
theorem exists_finished : ∀ (as : List Action) {s : Teardown}, s.actions = as →
    (∀ t ∈ s.tasks, t.ended = true) → ∃ s', Reach s s' ∧ s'.actions = []
  | [], s, ha, _ => ⟨s, Relation.ReflTransGen.refl, ha⟩
  | a :: as, s, ha, hall => by
    obtain ⟨s₁, hs, has, htasks⟩ : ∃ s₁, Step s s₁ ∧ s₁.actions = as ∧ s₁.tasks = s.tasks := by
      cases a with
      | pausePool => exact ⟨_, Step.pausePool ha, rfl, rfl⟩
      | waitPool => exact ⟨_, Step.waitPool ha, rfl, rfl⟩
      | destroy m => exact ⟨_, Step.destroy ha fun _ => hall, rfl, rfl⟩
    obtain ⟨s', hr, hnil⟩ := exists_finished as has (htasks ▸ hall)
    exact ⟨s', Relation.ReflTransGen.head hs hr, hnil⟩

/-- **With publish tasks only, the teardown can always come to its end.** -/
theorem completes (h : ∀ t ∈ s.tasks, t.publishes = true) :
    ∃ s', Reach s s' ∧ s'.actions = [] := by
  obtain ⟨w', r', hreach, hall⟩ := exists_all_ended s.tasks (l := []) rfl h
  obtain ⟨s', hr, hnil⟩ := exists_finished s.actions
    (s := { s with world := w', tasks := [] ++ r' }) rfl hall
  exact ⟨s', hreach.trans hr, hnil⟩

end Teardown

end TradeBridge
