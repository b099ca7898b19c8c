import TradeBridge.Lib.Solo
import TradeBridge.Scheduling
import TradeBridge.TimePoints

/-!
# Each task of the pool runs as if it were alone

While the server's tables stay, a task reads them, the pause flag, NATS' answers and, as a chart
task, one time-point file. It appends to the publish calls, the log and the trade requests, and a
chart task writes the file it has read. So tasks whose files differ do not notice each other,
whichever order the workers run them in. Opening a time-point file succeeds, as everywhere (`World`).

* `Act` is what one step writes; it depends on the task alone (`Task.step_world`).
* `turnThreads` is the system whose steps find the pool paused or not each on its own.

Results:
* `Task.step_view`: where a step goes depends on what the task can see.
* **`each_alone`**: every run of the plugin's pool over fixed tables is made of runs of its tasks
  alone, when no two of its chart tasks share a file: the calls, the log and the requests are
  interleavings of theirs, every file is that of the task it belongs to, and every task is where it
  would be alone.
* `two_series_alone`: two series of one symbol.
-/

namespace TradeBridge

open TradeBridge.Lib

/-! ## What one step writes -/

/-- What one step of a task writes. -/
inductive Act
  | none
  | call (p : Bytes × Message)
  | log (e : LogEntry)
  | store (symbol : Bytes) (time period : Int)
  | request (r : TradeRequest)

/-- The write, where NATS answers `status` to a publish. -/
def World.perform (w : World) (status : NatsStatus) : Act → World
  | .none => w
  | .call p => (w.publish status p.1 p.2).1
  | .log e => { w with logs := w.logs ++ [e] }
  | .store symbol time period => w.saveChartPoint symbol time period
  | .request r => w.onTradeRequest r

/-- What the next step of a task writes. -/
def Task.act (names : Names) : Task → Act
  | .chart t =>
    match t.pc with
    | .publish _ _ rate _ => .call (names.topicNameMt4Candle, .candle (t.candle rate))
    | .failed _ _ _ e => .log (.error (t.failedText e))
    | .save newest => .store t.symbolName newest.time t.period
    | _ => .none
  | .group t =>
    match t.pc with
    | .start => .log (.info (bytes "Publishing symbols for group: " ++ t.group.group.text))
    | .marginPublish _ m | .symbolPublish _ m => .call (names.topicNameConSymbol, .symbol m)
    | .marginFailed _ e | .symbolFailed _ e => .log (.error (failedSymbolText t.group e))
    | _ => .none
  | .symbol t =>
    match t.pc with
    | .start => .log (.info (bytes "Publishing symbol for groups: " ++ t.symbol.symbol.text))
    | .publish _ _ m => .call (names.topicNameConSymbol, .symbol m)
    | .failed _ g e => .log (.error (failedSymbolText g e))
    | _ => .none
  | .receive t =>
    match t.pc with
    | .read => .none
    | .request r => .request r
    | .failed e => .log (.error (bytes "Failed to receive trade request: " ++ e))

/-- **A step writes its act** and nothing else. -/
theorem Task.step_world (t : Task) (w : World) (o : Outcome) :
    (t.step w o).1 = w.perform o.status (t.act w.names) := by
  cases t with
  | chart t =>
    obtain ⟨symbolName, digits, period, pc⟩ := t
    cases pc with
    | quotes =>
      simp only [Task.step, ChartTask.step]
      split <;> rfl
    | publish newest fromTime rate older =>
      simp only [Task.step, ChartTask.step]
      split <;> rfl
    | _ => rfl
  | group t =>
    obtain ⟨group, pc⟩ := t
    cases pc with
    | marginGet i margin =>
      simp only [Task.step, GroupTask.step]
      split <;> rfl
    | marginPublish i m =>
      simp only [Task.step, GroupTask.step]
      split <;> rfl
    | symbolsNext i =>
      simp only [Task.step, GroupTask.step]
      split <;> rfl
    | symbolPublish i m =>
      simp only [Task.step, GroupTask.step]
      split <;> rfl
    | _ => rfl
  | symbol t =>
    obtain ⟨symbol, pc⟩ := t
    cases pc with
    | groupsNext i =>
      simp only [Task.step, SymbolTask.step]
      split <;> rfl
    | publish i group m =>
      simp only [Task.step, SymbolTask.step]
      split <;> rfl
    | _ => rfl
  | receive t =>
    obtain ⟨topicName, pc⟩ := t
    cases pc <;> rfl

/-! ## What a task can see -/

/-- The time-point file of a chart task. -/
def Task.file (w : World) : Task → Option Bytes
  | .chart t => some (w.pointFile t.symbolName t.period)
  | _ => none

/-- The two worlds are the same to the task, up to the pause flag. -/
structure World.AlikeFor (t : Task) (v w : World) : Prop where
  platform : v.platform = w.platform
  names : v.names = w.names
  groups : v.groups = w.groups
  symbols : v.symbols = w.symbols
  historyQuotes : v.historyQuotes = w.historyQuotes
  file : ∀ path, t.file w = some path → v.files path = w.files path

theorem World.AlikeFor.refl (t : Task) (w : World) : World.AlikeFor t w w :=
  ⟨rfl, rfl, rfl, rfl, rfl, fun _ _ => rfl⟩

/-- The file of a task depends on the constant parts only. -/
theorem Task.file_congr {v w : World} (hp : v.platform = w.platform) (hn : v.names = w.names)
    (t : Task) : t.file v = t.file w := by
  cases t with
  | chart t => simp only [Task.file, World.pointFile, hp, hn]
  | _ => rfl

@[simp] theorem Task.file_step (t : Task) (v w : World) (o : Outcome) :
    (t.step v o).2.file w = t.file w := by
  cases t with
  | chart t =>
    obtain ⟨hname, -, hperiod⟩ := t.step_captures v o
    simp only [Task.step, Task.file, hname, hperiod]
  | _ => rfl

theorem World.AlikeFor.loadChartPoint {t : ChartTask} {v w : World}
    (h : World.AlikeFor (.chart t) v w) :
    v.loadChartPoint t.symbolName t.period = w.loadChartPoint t.symbolName t.period := by
  have hpath : v.pointFile t.symbolName t.period = w.pointFile t.symbolName t.period := by
    unfold World.pointFile
    rw [h.platform, h.names]
  unfold World.loadChartPoint
  rw [hpath, h.file _ rfl, h.platform]

/-- **Where a step goes depends on what the task can see.** -/
theorem Task.step_view {t : Task} {v w : World} (h : World.AlikeFor t v w)
    (hpaused : v.paused = w.paused) (o : Outcome) : (t.step v o).2 = (t.step w o).2 := by
  cases t with
  | chart t =>
    have hload := h.loadChartPoint
    obtain ⟨symbolName, digits, period, pc⟩ := t
    cases pc with
    | quotes =>
      simp only [Task.step, ChartTask.step, h.historyQuotes]
      split <;> rfl
    | load newest rates =>
      have hl : v.loadChartPoint symbolName period = w.loadChartPoint symbolName period := hload
      simp only [Task.step, ChartTask.step, hl]
    | stop newest fromTime rate older => simp only [Task.step, ChartTask.step, hpaused]
    | publish newest fromTime rate older =>
      simp only [Task.step, ChartTask.step, World.publish_snd, h.platform]
      split <;> rfl
    | _ => rfl
  | group t =>
    obtain ⟨group, pc⟩ := t
    cases pc with
    | marginStop i margin => simp only [Task.step, GroupTask.step, hpaused]
    | marginGet i margin =>
      simp only [Task.step, GroupTask.step, World.symbolsGet, h.symbols]
      split <;> rfl
    | marginPublish i m =>
      simp only [Task.step, GroupTask.step, World.publish_snd, h.platform]
      split <;> rfl
    | symbolsNext i =>
      simp only [Task.step, GroupTask.step, h.symbols]
      split <;> rfl
    | symbolStop i symbol => simp only [Task.step, GroupTask.step, hpaused]
    | symbolPublish i m =>
      simp only [Task.step, GroupTask.step, World.publish_snd, h.platform]
      split <;> rfl
    | _ => rfl
  | symbol t =>
    obtain ⟨symbol, pc⟩ := t
    cases pc with
    | groupsNext i =>
      simp only [Task.step, SymbolTask.step, h.groups]
      split <;> rfl
    | stop i group => simp only [Task.step, SymbolTask.step, hpaused]
    | publish i group m =>
      simp only [Task.step, SymbolTask.step, World.publish_snd, h.platform]
      split <;> rfl
    | _ => rfl
  | receive t =>
    obtain ⟨topicName, pc⟩ := t
    cases pc with
    | read => simp only [Task.step, ReceiveTask.step, h.platform]
    | _ => rfl

/-! ## What the others write -/

/-- The records that all tasks append to. -/
inductive Record
  | calls
  | logs
  | requests

/-- The entries of a record. -/
def Record.Entry : Record → Type
  | .calls => PublishCall
  | .logs => LogEntry
  | .requests => TradeRequest

/-- A record of the world. -/
def World.record (w : World) : (r : Record) → List r.Entry
  | .calls => w.calls
  | .logs => w.logs
  | .requests => w.requests

/-- What an act appends to a record. -/
def Act.entries (platform : Platform) (status : NatsStatus) : Act → (r : Record) → List r.Entry
  | .call p, .calls => [⟨p.1, p.2, publish platform.getText status p.2.toJson⟩]
  | .log e, .logs => [e]
  | .request r, .requests => [r]
  | .request r, .logs =>
    [.info (bytes "Received trade request with ID: " ++ decimal r.requestId.toInt)]
  | _, _ => []

theorem World.record_perform (w : World) (status : NatsStatus) (a : Act) (r : Record) :
    (w.perform status a).record r = w.record r ++ a.entries w.platform status r := by
  cases a <;> cases r <;> first | rfl | exact (List.append_nil _).symm

/-- A chart task stores into its own file. -/
theorem Task.file_of_store {t : Task} {names : Names} {symbol : Bytes} {time period : Int}
    (h : t.act names = .store symbol time period) (w : World) :
    t.file w = some (w.pointFile symbol period) := by
  cases t with
  | chart t =>
    obtain ⟨symbolName, digits, per, pc⟩ := t
    cases pc with
    | save newest =>
      obtain ⟨rfl, -, rfl⟩ := Act.store.inj h
      rfl
    | _ => cases h
  | group t =>
    obtain ⟨group, pc⟩ := t
    cases pc <;> cases h
  | symbol t =>
    obtain ⟨symbol', pc⟩ := t
    cases pc <;> cases h
  | receive t =>
    obtain ⟨topicName, pc⟩ := t
    cases pc <;> cases h

/-- A step leaves every file but the task's own. -/
theorem Task.step_files {t : Task} {w : World} {path : Bytes} (h : t.file w ≠ some path)
    (o : Outcome) : (t.step w o).1.files path = w.files path := by
  rw [t.step_world]
  cases ha : t.act w.names with
  | store symbol time period =>
    have hne : path ≠ w.pointFile symbol period := by
      rintro rfl
      exact h (t.file_of_store ha w)
    exact Function.update_of_ne hne _ _
  | _ => rfl

/-- Two worlds that are the same to the task still are after its step. -/
theorem World.AlikeFor.step {t : Task} {v w : World} (h : World.AlikeFor t v w) (o : Outcome) :
    World.AlikeFor (t.step w o).2 (t.step v o).1 (t.step w o).1 := by
  have hv := t.step_same v o
  have hw := t.step_same w o
  refine ⟨hv.platform.trans (h.platform.trans hw.platform.symm),
    hv.names.trans (h.names.trans hw.names.symm), hv.groups.trans (h.groups.trans hw.groups.symm),
    hv.symbols.trans (h.symbols.trans hw.symbols.symm),
    hv.historyQuotes.trans (h.historyQuotes.trans hw.historyQuotes.symm), fun path hpath => ?_⟩
  rw [Task.file_step, Task.file_congr hw.platform hw.names] at hpath
  rw [t.step_world, t.step_world, h.names]
  cases ha : t.act w.names with
  | store symbol time period =>
    have hpoint : v.pointFile symbol period = w.pointFile symbol period := by
      unfold World.pointFile
      rw [h.platform, h.names]
    simp only [World.perform, World.saveChartPoint, hpoint, h.platform]
    by_cases hp : path = w.pointFile symbol period
    · rw [hp, Function.update_self, Function.update_self]
    · rw [Function.update_of_ne hp, Function.update_of_ne hp, h.file path hpath]
  | _ => exact h.file path hpath

/-- They gain the same entries. -/
theorem World.AlikeFor.step_record {t : Task} {v w : World} (h : World.AlikeFor t v w)
    (o : Outcome) (r : Record) :
    ∃ e, (t.step w o).1.record r = w.record r ++ e ∧ (t.step v o).1.record r = v.record r ++ e := by
  refine ⟨(t.act w.names).entries w.platform o.status r, ?_, ?_⟩
  · rw [t.step_world, World.record_perform]
  · rw [t.step_world, World.record_perform, h.names, h.platform]

/-! ## The tasks do not notice each other -/

/-- The two tasks have no file in common. -/
def Task.Apart (w : World) (t u : Task) : Prop :=
  ∀ path, t.file w = some path → u.file w ≠ some path

/-- Tasks each step of which is an `Allowed` turn: it finds the pool paused or not on its own. -/
def turnThreads (Allowed : Turn → Prop) : Threads World Task where
  env _ _ := False
  spawn _ _ := False
  run w t w' t' :=
    ∃ x, Allowed x ∧ t.step { w with paused := x.paused } x.outcome = (w', t')

/-- The constant parts are those of `w`. -/
structure World.SamePlace (w v : World) : Prop where
  platform : v.platform = w.platform
  names : v.names = w.names

theorem World.SamePlace.step {w v : World} (h : World.SamePlace w v) (t : Task) (o : Outcome) :
    World.SamePlace w (t.step v o).1 :=
  ⟨(t.step_same v o).platform.trans h.platform, (t.step_same v o).names.trans h.names⟩

/-- **Tasks without a common file do not notice each other.** -/
theorem tasks_local (Allowed : Turn → Prop) (w : World) :
    Threads.Local (turnThreads Allowed) (World.SamePlace w) World.AlikeFor (Task.Apart w)
      fun r v => v.record r where
  env := id
  spawn := id
  inv := by
    rintro s s' t t' hs ⟨x, -, hx⟩
    have hs' : World.SamePlace w { s with paused := x.paused } := ⟨hs.platform, hs.names⟩
    have := hs'.step t x.outcome
    rwa [hx] at this
  alike := World.AlikeFor.refl _ _
  own := by
    rintro v s s' t t' - h ⟨x, hallowed, hx⟩
    have h' : World.AlikeFor t { v with paused := x.paused } { s with paused := x.paused } :=
      ⟨h.platform, h.names, h.groups, h.symbols, h.historyQuotes, h.file⟩
    have hview := Task.step_view h' rfl x.outcome
    have hstep := h'.step x.outcome
    have hrecords := h'.step_record x.outcome
    rw [hx] at hview hstep hrecords
    exact ⟨_, ⟨x, hallowed, Prod.ext rfl hview⟩, hstep, hrecords⟩
  other := by
    rintro v s s' t u u' hs hap h ⟨x, -, hx⟩
    have hsame := u.step_same { s with paused := x.paused } x.outcome
    have hs' : s' = (u.step { s with paused := x.paused } x.outcome).1 := by rw [hx]
    subst hs'
    refine ⟨h.platform.trans hsame.platform.symm, h.names.trans hsame.names.symm,
      h.groups.trans hsame.groups.symm, h.symbols.trans hsame.symbols.symm,
      h.historyQuotes.trans hsame.historyQuotes.symm, fun path hpath => ?_⟩
    rw [Task.file_congr hsame.platform hsame.names] at hpath
    have hfile : u.file { s with paused := x.paused } ≠ some path := by
      intro hu
      have hcongr : ∀ t' : Task, t'.file { s with paused := x.paused } = t'.file w :=
        fun t' => t'.file_congr hs.platform hs.names
      rw [hcongr] at hu hpath
      exact hap path hu hpath
    rw [Task.step_files hfile]
    exact h.file path hpath
  symm := fun h path hu ht => h path ht hu
  apart := by
    rintro s s' t t' u hap ⟨x, -, hx⟩ path hpath
    have hfile := t.file_step { s with paused := x.paused } w x.outcome
    rw [hx] at hfile
    exact hap path (hfile.symm.trans hpath)

/-! ## Runs of the pool -/

/-- A run from `w` to `w'` is made of runs of `tasks` alone, each from `w` and of `Allowed` turns:
each task is at the end of its own run, the records have gained an interleaving of what the runs
alone append to them, and a file is what the run of its task makes of it. -/
def EachAlone (Allowed : Turn → Prop) (w : World) (tasks : List Task) (w' : World)
    (tasks' : List Task) : Prop :=
  ∃ runs : List (Task × List Turn), runs.map Prod.fst = tasks ∧
    (∀ x ∈ runs, ∀ turn ∈ x.2, Allowed turn) ∧
    runs.map (fun x => (Task.turns w x.1 x.2).2) = tasks' ∧
    (∀ r, ∃ e, w'.record r = w.record r ++ e ∧ Interleaving
      (runs.map fun x => ((Task.turns w x.1 x.2).1.record r).drop (w.record r).length) e) ∧
    (∀ x ∈ runs, ∀ path, x.1.file w = some path →
      w'.files path = (Task.turns w x.1 x.2).1.files path) ∧
    ∀ path, (∀ t ∈ tasks, t.file w ≠ some path) → w'.files path = w.files path

/-- Outside nothing happens but that the pool is paused or goes on. -/
def pauses (w w' : World) : Prop := ∃ b, w' = { w with paused := b }

/-- A run of one task alone is a list of turns. -/
theorem exists_turns {Allowed : Turn → Prop} {a b : World × Task}
    (h : (turnThreads Allowed).RunsAlone a b) :
    ∃ xs, (∀ x ∈ xs, Allowed x) ∧ Task.turns a.1 a.2 xs = b := by
  induction h using Relation.ReflTransGen.head_induction_on with
  | refl => exact ⟨[], fun _ hx => absurd hx List.not_mem_nil, rfl⟩
  | head hs _ ih =>
    obtain ⟨x, hallowed, hx⟩ := hs
    obtain ⟨xs, hxs, hturns⟩ := ih
    refine ⟨x :: xs, List.forall_mem_cons.mpr ⟨hallowed, hxs⟩, ?_⟩
    rw [Task.turns, hx]
    exact hturns

/-- A step of the pool's threads is one that finds the pool as it is. -/
theorem reach_turnThreads {Detached : Task → Prop} {a b : World × List Task}
    (h : (poolJobs (fun _ => True) pauses Detached).toThreads.noSpawn.Reach a b) :
    ∃ v, (turnThreads fun _ => True).Reach a (v, b.2) ∧ b.1 = { v with paused := b.1.paused } := by
  induction h with
  | refl => exact ⟨a.1, Relation.ReflTransGen.refl, rfl⟩
  | tail _ hs ih =>
    obtain ⟨v, hv, hb⟩ := ih
    cases hs with
    | env he =>
      obtain ⟨c, rfl⟩ := he
      refine ⟨v, hv, ?_⟩
      simp only at hb ⊢
      rw [hb]
    | spawn hsp => exact absurd hsp id
    | @run s s' l r t t' hrun =>
      obtain ⟨o, ho, -⟩ := hrun
      have hturn : t.step { v with paused := s.paused } o = (s', t') := by
        rw [← show s = { v with paused := s.paused } from hb]
        exact ho
      exact ⟨s', hv.tail (Threads.Step.run ⟨⟨s.paused, o⟩, trivial, hturn⟩), rfl⟩

/-- Only the tasks' own files change. -/
theorem files_invariant (Allowed : Turn → Prop) (w : World) (path : Bytes) :
    Threads.Invariant (turnThreads Allowed)
      (fun v => World.SamePlace w v ∧ v.files path = w.files path)
      fun _ t => t.file w ≠ some path where
  env_inv _ he := absurd he id
  env_local _ he _ := absurd he id
  spawn_local _ hs := absurd hs id
  run_inv := by
    rintro s t s' t' ⟨hs, hfiles⟩ ht ⟨x, -, hx⟩
    have hs₀ : World.SamePlace w { s with paused := x.paused } := ⟨hs.platform, hs.names⟩
    have hs' := hs₀.step t x.outcome
    have hfile : t.file { s with paused := x.paused } ≠ some path := by
      rw [t.file_congr hs₀.platform hs₀.names]
      exact ht
    have hstep := Task.step_files hfile x.outcome
    rw [hx] at hs' hstep
    exact ⟨hs', hstep.trans hfiles⟩
  run_own := by
    rintro s t s' t' - ht ⟨x, -, hx⟩
    have := t.file_step { s with paused := x.paused } w x.outcome
    rw [hx] at this
    rwa [this]
  run_other _ _ _ hu := hu

/-- A run leaves a task its file. -/
theorem Task.file_turns : ∀ (xs : List Turn) (v w : World) (t : Task),
    (Task.turns v t xs).2.file w = t.file w
  | [], _, _, _ => rfl
  | x :: xs, v, w, t =>
    (file_turns xs _ w _).trans (t.file_step { v with paused := x.paused } w x.outcome)

/-- **Runs of tasks without a common file are made of runs of each alone.** -/
theorem turnThreads_eachAlone {Allowed : Turn → Prop} {w v : World} {tasks tasks' : List Task}
    (hr : (turnThreads Allowed).Reach (w, tasks) (v, tasks'))
    (hap : tasks.Pairwise (Task.Apart w)) : EachAlone Allowed w tasks v tasks' := by
  obtain ⟨hv, solos, hstart, hthread, hm⟩ := (tasks_local Allowed w).reach hr ⟨rfl, rfl⟩ hap
  have hturns : ∀ x ∈ solos, ∃ xs, (∀ turn ∈ xs, Allowed turn) ∧
      Task.turns w x.start xs = (x.state, x.thread) := fun x hx => exists_turns (hm.alone x hx)
  choose! turns hallowed hturns using hturns
  -- each solo run, as the task and its turns
  have hmap : ∀ {β : Type} (f : World × Task → β),
      (solos.map fun x => (x.start, turns x)).map (fun x => f (Task.turns w x.1 x.2)) =
        solos.map fun x => f (x.state, x.thread) := by
    intro β f
    rw [List.map_map]
    exact List.map_congr_left fun x hx => congrArg f (hturns x hx)
  refine ⟨solos.map fun x => (x.start, turns x), ?_, fun y hy => ?_, ?_, fun r => ?_, ?_,
    fun path hpath => ?_⟩
  · rw [List.map_map]
    exact hstart
  · obtain ⟨x, hx, rfl⟩ := List.mem_map.mp hy
    exact hallowed x hx
  · rw [hmap Prod.snd]
    exact hthread
  · obtain ⟨e, he, hi⟩ := hm.records r
    refine ⟨e, he, ?_⟩
    rw [hmap fun b => (b.1.record r).drop (w.record r).length]
    exact hi
  · intro y hy path hpath
    obtain ⟨x, hx, rfl⟩ := List.mem_map.mp hy
    have halike := hm.alike x hx
    simp only [hturns x hx]
    refine (halike.file path ?_).symm
    have hfile := Task.file_turns (turns x) w w x.start
    rw [hturns x hx] at hfile
    rw [Task.file_congr hv.platform hv.names, hfile]
    exact hpath
  · exact ((files_invariant Allowed w path).reach hr ⟨⟨⟨rfl, rfl⟩, rfl⟩, hpath⟩).1.2

/-- **Each task of the plugin's pool runs as if it were alone**, when no two chart tasks share a
file: `new` are the tasks detached during the run. -/
theorem each_alone {w : World} {serverName : Bytes} {poolSize : Nat} {p : Pool World Task}
    (hr : Pool.Reach (pluginJobs pauses) (subscribedPool w serverName poolSize) p)
    (hap : p.jobs.Pairwise (Task.Apart w)) :
    ∃ new, (∀ t ∈ new, t.Fresh) ∧
      EachAlone (fun _ => True) w (.ofReceive serverName :: new) p.shared p.jobs := by
  obtain ⟨new, hnew, hrun⟩ := hr.threads.spawn_early
  have hfiles : p.jobs.map (Task.file w) = (Task.ofReceive serverName :: new).map (Task.file w) :=
    hrun.map_eq (f := Task.file w) fun {s t s' t'} hstep => by
      obtain ⟨o, ho, -⟩ := hstep
      have := t.file_step s w o
      rwa [ho] at this
  obtain ⟨v, hv, hshared⟩ := reach_turnThreads hrun
  have hap' : (Task.ofReceive serverName :: new).Pairwise (Task.Apart w) := by
    let R := fun f g : Option Bytes => ∀ path, f = some path → g ≠ some path
    have hpw : ∀ {ts : List Task}, (ts.map (Task.file w)).Pairwise R ↔ ts.Pairwise (Task.Apart w) :=
      List.pairwise_map
    exact hpw.mp (hfiles ▸ hpw.mpr hap)
  refine ⟨new, fun t ht => (hnew t ht).elim fun _ h => h, ?_⟩
  have hturns : (turnThreads fun _ => True).Reach (w, .ofReceive serverName :: new) (v, p.jobs) :=
    hv
  obtain ⟨runs, hfst, hallowed, hsnd, hrecords, hfile, hother⟩ := turnThreads_eachAlone hturns hap'
  have hpaused : p.shared = { v with paused := p.shared.paused } := hshared
  have hfilesEq : p.shared.files = v.files := by rw [hpaused]
  have hrecord : ∀ r, p.shared.record r = v.record r := fun r => by
    rw [hpaused]
    cases r <;> rfl
  refine ⟨runs, hfst, hallowed, hsnd, fun r => ?_, fun x hx path hpath => ?_, fun path hpath => ?_⟩
  · obtain ⟨e, he, hi⟩ := hrecords r
    exact ⟨e, (hrecord r).trans he, hi⟩
  · rw [hfilesEq]
    exact hfile x hx path hpath
  · rw [hfilesEq]
    exact hother path hpath

/-! ## Passes -/

/-- Two lists with the same images pair up. -/
theorem exists_zip {α β γ : Type} {f : α → γ} {g : β → γ} : ∀ {l : List α} {l' : List β},
    l.map f = l'.map g → ∃ ps : List (α × β), ps.map Prod.fst = l ∧ ps.map Prod.snd = l' ∧
      ∀ p ∈ ps, f p.1 = g p.2
  | [], [], _ => ⟨[], rfl, rfl, fun _ hp => absurd hp List.not_mem_nil⟩
  | a :: l, b :: l', h => by
    obtain ⟨hab, hl⟩ := List.cons.inj h
    obtain ⟨ps, hfst, hsnd, hps⟩ := exists_zip hl
    refine ⟨(a, b) :: ps, ?_, ?_, List.forall_mem_cons.mpr ⟨hab, hps⟩⟩
    · rw [List.map_cons, hfst]
    · rw [List.map_cons, hsnd]
  | [], _ :: _, h => by cases h
  | _ :: _, [], h => by cases h

/-- A run that is never paused is one of turns that are not. -/
theorem reach_unpaused {Allowed : PublishResult → Prop} {w w' : World} {tasks ts : List Task}
    (hw : w.paused = false) (hr : (taskThreads Allowed).Reach (w, tasks) (w', ts)) :
    (turnThreads fun x => x.paused = false).Reach (w, tasks) (w', ts) := by
  suffices hgoal : ∀ b, (taskThreads Allowed).Reach (w, tasks) b →
      b.1.paused = false ∧ (turnThreads fun x => x.paused = false).Reach (w, tasks) b from
    (hgoal _ hr).2
  intro b hb
  induction hb with
  | refl => exact ⟨hw, Relation.ReflTransGen.refl⟩
  | tail _ hs ih =>
    obtain ⟨hpaused, hreach⟩ := ih
    cases hs with
    | env he => exact absurd he id
    | spawn hsp => exact absurd hsp id
    | @run v v' l r t t' hrun =>
      obtain ⟨o, ho, -⟩ := hrun
      have hsame := t.step_same v o
      rw [ho] at hsame
      have hturn : t.step { v with paused := false } o = (v', t') := by
        rw [World.setPaused_self hpaused]
        exact ho
      exact ⟨hsame.paused.trans hpaused,
        hreach.tail (Threads.Step.run ⟨⟨false, o⟩, rfl, hturn⟩)⟩

/-- **Publish tasks have a run to their end**, one after the other. -/
theorem exists_pass : ∀ (r l : List Task) {w : World}, w.paused = false →
    (∀ t ∈ l, t.ended = true) → (∀ t ∈ r, t.publishes = true) →
    ∃ w' ts, (taskThreads fun _ => True).Reach (w, l ++ r) (w', ts) ∧ ∀ t ∈ ts, t.ended = true
  | [], l, w, _, hl, _ => ⟨w, l, by rw [List.append_nil]; exact Relation.ReflTransGen.refl, hl⟩
  | t :: r, l, w, hw, hl, hr => by
    have hturns : ∀ x ∈ allOk (t.size w), x.paused = false := fun x hx => (mem_allOk hx).1
    have hended := Task.turns_ended (allOk (t.size w)) (hr t List.mem_cons_self)
      List.length_replicate.symm.le
    have hreach : (taskThreads fun _ => True).Reach (w, l ++ t :: r)
        ((Task.turns w t (allOk (t.size w))).1,
          l ++ (Task.turns w t (allOk (t.size w))).2 :: r) :=
      Task.turns_reach l r _ hw hturns fun _ _ => trivial
    have hpaused := (Task.turns_same (t := t) _ hw hturns).paused.trans hw
    obtain ⟨w', ts, hrest, hts⟩ := exists_pass r (l ++ [(Task.turns w t (allOk (t.size w))).2])
      hpaused (fun u hu => (List.mem_append.mp hu).elim (hl u) fun hu =>
        List.mem_singleton.mp hu ▸ hended) fun u hu => hr u (List.mem_cons_of_mem _ hu)
    rw [List.append_assoc, List.singleton_append] at hrest
    exact ⟨w', ts, hreach.trans hrest, hts⟩

/-- The pool of a new plugin after two series of one symbol have been detached. -/
def twoSeries : Pool World Task :=
  ((subscribedPool (oneGroup []) (bytes "srv") 2).detachTask (.ofChart eurusd periodM1)).detachTask
    (.ofChart eurusd periodM5)

/-- Two series of one symbol run as if they were alone. -/
theorem two_series_alone : ∃ new, (∀ t ∈ new, t.Fresh) ∧
    EachAlone (fun _ => True) (oneGroup []) (.ofReceive (bytes "srv") :: new) twoSeries.shared
      twoSeries.jobs := by
  have hfirst : Pool.Step (pluginJobs pauses) (subscribedPool (oneGroup []) (bytes "srv") 2)
      ((subscribedPool (oneGroup []) (bytes "srv") 2).detachTask (.ofChart eurusd periodM1)) :=
    Pool.Step.detach (Task.Fresh.chart _ _)
  have hsecond : Pool.Step (pluginJobs pauses)
      ((subscribedPool (oneGroup []) (bytes "srv") 2).detachTask (.ofChart eurusd periodM1))
      twoSeries := Pool.Step.detach (Task.Fresh.chart _ _)
  refine each_alone ((Relation.ReflTransGen.single hfirst).tail hsecond) ?_
  have hfiles : (oneGroup []).pointFile eurusd.symbol.text periodM1 ≠
      (oneGroup []).pointFile eurusd.symbol.text periodM5 := by
    decide +kernel
  refine List.pairwise_cons.mpr ⟨fun u _ path h => (by cases h), List.pairwise_pair.mpr ?_⟩
  rintro path h h'
  exact hfiles ((Option.some.inj h).trans (Option.some.inj h').symm)

end TradeBridge
