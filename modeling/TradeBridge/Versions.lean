import TradeBridge.Agreement
import TradeBridge.Workers

/-!
# Successive versions of one symbol

`handle(const ConSymbol*)` detaches a task with its own copy of the symbol. Nothing in the source
orders the tasks of two versions: with two workers they interleave, and the last message for a group
is the one of the task that came to it last.

`versionJobs` are such tasks on a pool of any number of workers, over a fixed group table, never
paused, with every publish a success; `HandledInOrder` says which versions were handled, in the
order of the calls.

Results:
* `an_older_version_comes_last`: two workers, two versions, and the older one is the last published.
* **`last_is_a_version`**: in every run the last message for a group that shows the last version is
  one `make_group_symbol` builds from one of the versions, for the last group of that name that
  shows it, and from the last version if its task began after the others had returned.
-/

namespace TradeBridge

open TradeBridge.Lib

/-- The tasks of `handle(const ConSymbol*)` on the pool. -/
def versionJobs : Jobs World Task :=
  poolJobs (· = .ok) (fun _ _ => False) fun t => ∃ symbol, t ∈ handleSymbol symbol

/-- The version a task captured. -/
def Task.version : Task → Option ConSymbol
  | .symbol t => some t.symbol
  | _ => none

/-- The versions handled so far, in the order of the calls. -/
def HandledInOrder (versions : List ConSymbol) (p : Pool World Task) : Prop :=
  p.jobs.map Task.version = versions.map some

/-- Every task has returned. -/
def AllReturned (p : Pool World Task) : Prop := ∀ t ∈ p.jobs, t.finished = true

instance (p : Pool World Task) : Decidable (AllReturned p) :=
  inferInstanceAs (Decidable (∀ t ∈ p.jobs, t.finished = true))

/-- A stale version never overwrites a newer one, whatever the number of workers. -/
def NeverStale (w : World) : Prop :=
  ∀ (workers : Nat) (older : List ConSymbol) (latest : ConSymbol),
    (∀ v ∈ older, v.symbol = latest.symbol) →
    ∀ p, Pool.Reach versionJobs (newPool w workers) p → HandledInOrder (older ++ [latest]) p →
      AllReturned p → ∀ group ∈ w.groups, Shown group latest →
      p.shared.lastFor group.group.text latest.symbol.text = symbolEntry latest group

/-- The older versions' tasks have returned, and the last version's has not begun. -/
def BeforeLatest (older : List ConSymbol) (latest : ConSymbol) (p : Pool World Task) : Prop :=
  ∃ returned, (p.jobs = returned ∨ p.jobs = returned ++ [.ofSymbol latest]) ∧
    returned.map Task.version = older.map some ∧ ∀ t ∈ returned, t.finished = true

/-! ## Runs of the pool as completed passes -/

theorem Task.version_step (t : Task) (w : World) (o : Outcome) :
    (t.step w o).2.version = t.version := by
  cases t with
  | symbol t =>
    obtain ⟨symbol, pc⟩ := t
    cases pc with
    | groupsNext i =>
      simp only [Task.step, SymbolTask.step]
      split <;> rfl
    | publish i group m =>
      simp only [Task.step, SymbolTask.step]
      split <;> rfl
    | _ => rfl
  | _ => rfl

/-- A task of the pool is one of its version, at the start. -/
theorem eq_map_ofSymbol : ∀ {ts : List Task} {versions : List ConSymbol},
    (∀ t ∈ ts, ∃ symbol, t = .ofSymbol symbol) → ts.map Task.version = versions.map some →
    ts = versions.map Task.ofSymbol
  | [], [], _, _ => rfl
  | [], _ :: _, _, h => by cases h
  | _ :: _, [], _, h => by cases h
  | t :: ts, v :: versions, hts, h => by
    obtain ⟨hv, hvs⟩ := List.cons.inj h
    obtain ⟨symbol, rfl⟩ := hts t List.mem_cons_self
    rw [List.map_cons, ← eq_map_ofSymbol (fun u hu => hts u (List.mem_cons_of_mem _ hu)) hvs]
    obtain rfl := Option.some.inj hv
    rfl

/-- **From any state on, a run is one of the tasks there and of new ones standing by.** -/
theorem Pool.Reach.pass {q p : Pool World Task} (h : Pool.Reach versionJobs q p) :
    ∃ new, (∀ t ∈ new, ∃ symbol, t = .ofSymbol symbol) ∧
      (taskThreads (· = .ok)).Reach (q.shared, q.jobs ++ new) (p.shared, p.jobs) ∧
      p.jobs.map Task.version = (q.jobs ++ new).map Task.version := by
  obtain ⟨new, hnew, hr⟩ := h.threads.spawn_early
  refine ⟨new, fun t ht => ?_, hr, ?_⟩
  · obtain ⟨-, _, hs⟩ := hnew t ht
    exact mem_handleSymbol hs
  · refine Threads.Reach.map_eq (M := versionJobs.toThreads) (f := Task.version) ?_ hr
    rintro w t w' t' ⟨o, hstep, -⟩
    have ht' : t' = (t.step w o).2 := congrArg Prod.snd hstep.symm
    rw [ht', Task.version_step]

variable {groups : List ConGroup} {symbols : List ConSymbol}

/-- The list of a returned task has no last message. -/
theorem lastWith_todo_of_finished {t : Task} (h : t.finished = true) (p : GroupSymbol → Bool) :
    lastWith p (t.todo groups symbols) = none := by
  rw [todo_of_ended (Task.ended_of_finished h)]
  rfl

/-- The last version's message for a group that shows it. -/
theorem exists_last_of_shown {latest : ConSymbol} {group : ConGroup} (hg : group ∈ groups)
    (hshown : Shown group latest) : ∃ g m, lastShowing groups group.group.text latest = some g ∧
      symbolEntry latest g = some m := by
  cases hl : lastShowing groups group.group.text latest with
  | none => exact absurd hshown (lastShowing_eq_none hl hg rfl)
  | some g =>
    obtain ⟨-, hs, -⟩ := lastShowing_eq_some hl
    obtain ⟨m, hm⟩ := makeGroupSymbol_isSome (symbolMarginSec g latest) hs
    exact ⟨g, m, rfl, hm⟩

/-! ## The last message is one of a version -/

/-- In a pass over the versions' tasks the last message is one of a version. -/
theorem Completes.last_comes_from_version {w w' : World} (hw : OverTables groups symbols w)
    (hp : w.calls = []) {older : List ConSymbol} {latest : ConSymbol}
    (hname : ∀ v ∈ older, v.symbol = latest.symbol)
    (h : Completes w ((older ++ [latest]).map Task.ofSymbol) w') {group : ConGroup}
    (hg : group ∈ groups) (hshown : Shown group latest) :
    ∃ v ∈ older ++ [latest], ∃ g, lastShowing groups group.group.text v = some g ∧
      w'.lastFor group.group.text latest.symbol.text = symbolEntry v g := by
  obtain ⟨e, he, hi, -⟩ := h.sent hw (AllPublished.of_nil hp)
  rw [sentSymbols_of_nil hp, List.nil_append] at he
  have hlast : w'.lastFor group.group.text latest.symbol.text =
      lastWith (forPair group.group.text latest.symbol.text) e := congrArg _ he
  have hnameAll : ∀ v ∈ older ++ [latest], v.symbol.text = latest.symbol.text := by
    intro v hv
    rcases List.mem_append.mp hv with hv | hv
    · rw [hname v hv]
    · rw [List.mem_singleton.mp hv]
  rw [hlast]
  cases hl : lastWith (forPair group.group.text latest.symbol.text) e with
  | none =>
    -- the last version's own task has a message for the group
    obtain ⟨g, m, hlastShowing, hm⟩ := exists_last_of_shown hg hshown
    have hmem : symbolMessages groups latest ∈
        ((older ++ [latest]).map Task.ofSymbol).map (Task.todo groups symbols) :=
      List.mem_map.mpr ⟨_, List.mem_map.mpr ⟨latest, by simp, rfl⟩, rfl⟩
    have hnone := hi.lastWith_eq_none_iff.mp hl _ hmem
    rw [symbolMessages_last, hlastShowing, Option.bind_some, hm] at hnone
    cases hnone
  | some x =>
    obtain ⟨l, hmem, hlx⟩ := hi.lastWith_mem hl
    obtain ⟨t, ht, rfl⟩ := List.mem_map.mp hmem
    obtain ⟨v, hv, rfl⟩ := List.mem_map.mp ht
    rw [todo_ofSymbol, ← hnameAll v hv, symbolMessages_last] at hlx
    obtain ⟨g, hgs, hentry⟩ := Option.bind_eq_some_iff.mp hlx
    exact ⟨v, hv, g, hgs, hentry.symm⟩

/-- In a pass in which only the last version's task has not returned yet, the last message is its
own. -/
theorem Completes.last_is_latest {w w' : World} (hw : OverTables groups symbols w)
    (hp : AllPublished w) {returned : List Task} {latest : ConSymbol}
    (hret : ∀ t ∈ returned, t.finished = true)
    (h : Completes w (returned ++ [.ofSymbol latest]) w') {group : ConGroup}
    (hg : group ∈ groups) (hshown : Shown group latest) :
    ∃ g, lastShowing groups group.group.text latest = some g ∧
      w'.lastFor group.group.text latest.symbol.text = symbolEntry latest g := by
  obtain ⟨e, he, hi, -⟩ := h.sent hw hp
  obtain ⟨g, m, hlastShowing, hm⟩ := exists_last_of_shown hg hshown
  have hown : lastWith (forPair group.group.text latest.symbol.text)
      ((Task.ofSymbol latest).todo groups symbols) = some m := by
    rw [todo_ofSymbol, symbolMessages_last, hlastShowing, Option.bind_some, hm]
  have hlast : lastWith (forPair group.group.text latest.symbol.text) e = some m := by
    refine hi.lastWith_eq (Or.inr ⟨_, List.mem_map.mpr ⟨_, by simp, rfl⟩, hown⟩) fun l hl => ?_
    obtain ⟨t, ht, rfl⟩ := List.mem_map.mp hl
    rcases List.mem_append.mp ht with ht | ht
    · exact Or.inl (lastWith_todo_of_finished (hret t ht) _)
    · rw [List.mem_singleton.mp ht]
      exact Or.inr hown
  refine ⟨g, hlastShowing, ?_⟩
  unfold World.lastFor
  rw [he, hm]
  exact lastWith_append_of_some hlast

/-- **The last message for a group is one of a version, and the last version's when its task began
after the others had returned.** -/
theorem last_is_a_version (platform : Platform) (names : Names) (groups : List ConGroup)
    (symbols : List ConSymbol) (quotes : Bytes → Int → Option (List RateInfo)) (workers : Nat)
    {older : List ConSymbol} {latest : ConSymbol} (hname : ∀ v ∈ older, v.symbol = latest.symbol)
    {p : Pool World Task}
    (hreach : Pool.Reach versionJobs
      (newPool (World.start platform names groups symbols quotes) workers) p)
    (hjobs : HandledInOrder (older ++ [latest]) p) (hret : AllReturned p) {group : ConGroup}
    (hg : group ∈ groups) (hshown : Shown group latest) :
    (∃ v ∈ older ++ [latest], ∃ g, lastShowing groups group.group.text v = some g ∧
      p.shared.lastFor group.group.text latest.symbol.text = symbolEntry v g) ∧
    ∀ q, Pool.Reach versionJobs
        (newPool (World.start platform names groups symbols quotes) workers) q →
      Pool.Reach versionJobs q p → BeforeLatest older latest q →
      ∃ g, lastShowing groups group.group.text latest = some g ∧
        p.shared.lastFor group.group.text latest.symbol.text = symbolEntry latest g := by
  have hw := OverTables.start platform names groups symbols quotes
  unfold HandledInOrder at hjobs
  constructor
  · obtain ⟨new, hnew, hr, hver⟩ := Pool.Reach.pass hreach
    have hnewEq : new = (older ++ [latest]).map Task.ofSymbol :=
      eq_map_ofSymbol hnew (hver.symm.trans hjobs)
    have hpass : Completes (World.start platform names groups symbols quotes)
        ((older ++ [latest]).map Task.ofSymbol) p.shared := ⟨p.jobs, hnewEq ▸ hr, hret⟩
    exact hpass.last_comes_from_version hw rfl hname hg hshown
  · rintro q hq hqp ⟨returned, hshape, hver, hfin⟩
    obtain ⟨new₀, -, hr₀, -⟩ := Pool.Reach.pass hq
    have hwq : OverTables groups symbols q.shared :=
      ((attempted_emits groups symbols (by decide)).reach hr₀ hw).1
    have hpq : AllPublished q.shared :=
      (allPublished_invariant.reach hr₀ ⟨AllPublished.of_nil rfl, fun _ _ => trivial⟩).1
    obtain ⟨new, hnew, hr, hmap⟩ := Pool.Reach.pass hqp
    have hall : q.jobs ++ new = returned ++ [.ofSymbol latest] := by
      rw [hjobs, List.map_append, List.map_append, ← hver] at hmap
      rcases hshape with hq | hq
      · rw [hq] at hmap ⊢
        rw [eq_map_ofSymbol hnew (List.append_cancel_left hmap).symm]
        rfl
      · rw [hq, List.map_append, List.append_assoc] at hmap
        have hnil := List.append_cancel_left hmap
        have : new.map Task.version = [] := (List.append_right_eq_self.mp hnil.symm)
        rw [hq, List.map_eq_nil_iff.mp this, List.append_nil]
    exact Completes.last_is_latest hwq hpq hfin ⟨p.jobs, hall ▸ hr, hret⟩ hg hshown

/-! ## Two workers -/

/-- A newer version of the symbol. -/
def newEurusd : ConSymbol := { eurusd with swapLong := -3 }

/-- Both tasks are with a worker and neither has begun. -/
def bothTaken : Pool World Task where
  shared := oneGroup []
  jobs := [.ofSymbol eurusd, .ofSymbol newEurusd]
  queue := []
  workers := [some 0, some 1]

theorem bothTaken_reach : Pool.Reach versionJobs (newPool (oneGroup []) 2) bothTaken := by
  have h₁ : Pool.Step versionJobs (newPool (oneGroup []) 2)
      ⟨oneGroup [], [.ofSymbol eurusd], [0], [none, none]⟩ :=
    Pool.Step.detach ⟨some eurusd, List.mem_singleton_self _⟩
  have h₂ : Pool.Step versionJobs ⟨oneGroup [], [.ofSymbol eurusd], [0], [none, none]⟩
      ⟨oneGroup [], [.ofSymbol eurusd, .ofSymbol newEurusd], [0, 1], [none, none]⟩ :=
    Pool.Step.detach ⟨some newEurusd, List.mem_singleton_self _⟩
  have h₃ : Pool.Step versionJobs
      ⟨oneGroup [], [.ofSymbol eurusd, .ofSymbol newEurusd], [0, 1], [none, none]⟩
      ⟨oneGroup [], [.ofSymbol eurusd, .ofSymbol newEurusd], [1], [some 0, none]⟩ :=
    @Pool.Step.take _ _ versionJobs
      ⟨oneGroup [], [.ofSymbol eurusd, .ofSymbol newEurusd], [0, 1], [none, none]⟩ [] [none] 0
      rfl rfl (by decide) (by decide)
  have h₄ : Pool.Step versionJobs
      ⟨oneGroup [], [.ofSymbol eurusd, .ofSymbol newEurusd], [1], [some 0, none]⟩ bothTaken :=
    @Pool.Step.take _ _ versionJobs
      ⟨oneGroup [], [.ofSymbol eurusd, .ofSymbol newEurusd], [1], [some 0, none]⟩ [some 0] [] 1
      rfl rfl (by decide) (by decide)
  exact (((Relation.ReflTransGen.single h₁).tail h₂).tail h₃).tail h₄

/-- The newer version's task has run to its end. -/
def newerDone : World × Task := Task.turns (oneGroup []) (.ofSymbol newEurusd) (allOk 7)

/-- Then the older one's has. -/
def olderDone : World × Task := Task.turns newerDone.1 (.ofSymbol eurusd) (allOk 7)

/-- **The older version is published last**: its worker was preempted before its publish. -/
theorem an_older_version_comes_last : ¬ NeverStale (oneGroup []) := by
  intro h
  have hruns₁ : versionJobs.Runs (oneGroup [], .ofSymbol newEurusd) newerDone :=
    Task.turns_runs _ rfl (fun _ hx => (mem_allOk hx).1) (by decide)
  have hruns₂ : versionJobs.Runs (newerDone.1, .ofSymbol eurusd) olderDone :=
    Task.turns_runs _ rfl (fun _ hx => (mem_allOk hx).1) (by decide)
  have hfirst : Pool.Reach versionJobs bothTaken
      ⟨newerDone.1, [.ofSymbol eurusd, newerDone.2], [], [some 0, some 1]⟩ :=
    Pool.Reach.runs (i := 1) (by decide) rfl hruns₁
  have hsecond : Pool.Reach versionJobs
      ⟨newerDone.1, [.ofSymbol eurusd, newerDone.2], [], [some 0, some 1]⟩
      ⟨olderDone.1, [olderDone.2, newerDone.2], [], [some 0, some 1]⟩ :=
    Pool.Reach.runs (i := 0) List.mem_cons_self rfl hruns₂
  have hlast := h 2 [eurusd] newEurusd (by decide) _
    (bothTaken_reach.trans (hfirst.trans hsecond)) rfl (by decide)
    (demoGroup []) (List.mem_singleton_self _) (by decide)
  exact absurd hlast (by decide)

/-! ## One worker, one version after the other -/

/-- The older version's task has run to its end on the only worker. -/
def firstDone : World × Task := Task.turns (oneGroup []) (.ofSymbol eurusd) (allOk 7)

/-- Then the newer one's has. -/
def secondDone : World × Task := Task.turns firstDone.1 (.ofSymbol newEurusd) (allOk 7)

/-- An idle worker that handles one more version runs its task to the end. -/
theorem handled_alone {w : World} (hw : w.paused = false) (jobs : List Task) (symbol : ConSymbol)
    {xs : List Turn} (hxs : ∀ x ∈ xs, x.paused = false)
    (hcalls : ∀ c ∈ (Task.turns w (.ofSymbol symbol) xs).1.calls, c.result = .ok) :
    Pool.Reach versionJobs ⟨w, jobs, [], [none]⟩
      ⟨(Task.turns w (.ofSymbol symbol) xs).1, jobs ++ [(Task.turns w (.ofSymbol symbol) xs).2],
        [], [some jobs.length]⟩ := by
  have hdetach : Pool.Step versionJobs ⟨w, jobs, [], [none]⟩
      ⟨w, jobs ++ [.ofSymbol symbol], [jobs.length], [none]⟩ :=
    Pool.Step.detach ⟨some symbol, List.mem_singleton_self _⟩
  have htake := @Pool.Step.take _ _ versionJobs
    ⟨w, jobs ++ [.ofSymbol symbol], [jobs.length], [none]⟩ [] [] jobs.length hw rfl
    List.mem_cons_self fun i hi => (congrArg _ (List.mem_singleton.mp hi)).le
  have hget : (jobs ++ [Task.ofSymbol symbol])[jobs.length]? = some (.ofSymbol symbol) := by simp
  have hruns : versionJobs.Runs (w, .ofSymbol symbol) (Task.turns w (.ofSymbol symbol) xs) :=
    Task.turns_runs xs hw hxs hcalls
  have hrun := Pool.Reach.runs (p := ⟨w, jobs ++ [.ofSymbol symbol], [], [some jobs.length]⟩)
    List.mem_cons_self hget hruns
  rw [List.erase_cons_head] at htake
  rw [List.set_append_right _ _ (Nat.le_refl _), Nat.sub_self, List.set_cons_zero] at hrun
  exact ((Relation.ReflTransGen.single hdetach).tail htake).trans hrun

theorem firstDone_reach : Pool.Reach versionJobs (newPool (oneGroup []) 1)
    ⟨firstDone.1, [firstDone.2], [], [some 0]⟩ :=
  handled_alone rfl [] eurusd (fun _ hx => (mem_allOk hx).1) (by decide)

theorem secondDone_reach : Pool.Reach versionJobs
    ⟨firstDone.1, [firstDone.2], [], [some 0]⟩
    ⟨secondDone.1, [firstDone.2, secondDone.2], [], [some 1]⟩ := by
  have hrelease : Pool.Step versionJobs ⟨firstDone.1, [firstDone.2], [], [some 0]⟩
      ⟨firstDone.1, [firstDone.2], [], [none]⟩ :=
    @Pool.Step.release _ _ versionJobs ⟨firstDone.1, [firstDone.2], [], [some 0]⟩ [] [] 0
      firstDone.2 rfl rfl rfl
  exact Relation.ReflTransGen.head hrelease
    (handled_alone rfl [firstDone.2] newEurusd (fun _ hx => (mem_allOk hx).1) (by decide))

/-- One after the other, the newer version is published last. -/
theorem newer_version_comes_last :
    ∃ g, lastShowing [demoGroup []] (demoGroup []).group.text newEurusd = some g ∧
      secondDone.1.lastFor (demoGroup []).group.text newEurusd.symbol.text =
        symbolEntry newEurusd g :=
  (last_is_a_version .win32 (.ofServer (bytes "mt4api") (bytes "srv")) [demoGroup []] [eurusd]
    (fun _ _ => none) 1 (show ∀ v ∈ [eurusd], v.symbol = newEurusd.symbol by decide)
    (firstDone_reach.trans secondDone_reach) rfl (by decide) (List.mem_singleton_self _)
    (by decide)).2 _ firstDone_reach secondDone_reach ⟨[firstDone.2], Or.inl rfl, rfl, by decide⟩

end TradeBridge
