import TradeBridge.Progress

/-!
# How a publish task reacts to a pause

`should_stop_task` (`plugin.cpp:365-379`) looks at the pool only when the loop index is a multiple of
`sleep_iteration_count`. A task that runs into a pause goes on to its next look: `callsLeft` counts
the publish calls it can still make up to there, by its place alone, and `stepsLeft` its steps. The
loop of `publish_chart_by_symbol` counts down to the next multiple, the loops of the other two tasks
count up to it, and the second loop of `publish_group_symbols` looks at its first index, so the rest
of the first is not added to that of the second.

The other threads may change the world between two steps in any way, so a run of one task is given
by what each step finds (`Visit`).

Results:
* `Task.step_callsLeft`, `Task.step_stepsLeft`: both counts fall while the pool is paused.
* `Task.callsLeft_le`: the first is at most `sleep_iteration_count`, at every place.
* **`publish_tasks_react`**: after the pool has been paused for good a task makes at most
  `sleep_iteration_count` further calls, and it ends.
-/

namespace TradeBridge

open TradeBridge.Lib

/-! ## Runs of one task -/

/-- What a step of a task finds: the world as the other threads left it, and what NATS answers. -/
structure Visit where
  world : World
  outcome : Outcome

/-- The task after these steps. -/
def Task.visits (t : Task) : List Visit → Task
  | [] => t
  | v :: vs => ((t.step v.world v.outcome).2).visits vs

/-- The publish calls of these steps. -/
def Task.visitCalls (t : Task) : List Visit → List PublishCall
  | [] => []
  | v :: vs => (t.step v.world v.outcome).1.calls.drop v.world.calls.length ++
      ((t.step v.world v.outcome).2).visitCalls vs

/-- More steps than any task needs for its way to the next look at the pool. -/
def reactionSteps : Nat := 3 * sleepIterationCount + 2

/-- Wherever the task stands when the pool becomes paused, and stays so, it makes at most
`sleep_iteration_count` further publish calls, and within `reactionSteps` steps it ends. -/
def Task.ReactsToPause (t : Task) : Prop :=
  ∀ before after : List Visit, (∀ v ∈ after, v.world.paused = true) →
    ((t.visits before).visitCalls after).length ≤ sleepIterationCount ∧
      (reactionSteps ≤ after.length → ((t.visits before).visits after).ended = true)

/-! ## The way to the next look at the pool -/

/-- The iterations from `i` up to the next multiple of `sleep_iteration_count`. -/
def upToCheck (i : Nat) : Nat := (sleepIterationCount - i % sleepIterationCount) % sleepIterationCount

/-- The iterations from `n - 1` down to the next multiple of `sleep_iteration_count`. -/
def downToCheck (n : Nat) : Nat := (n - 1) % sleepIterationCount

theorem checksPause_iff {i : Nat} : checksPause i = true ↔ i % 64 = 0 := beq_iff_eq

theorem upToCheck_succ {i : Nat} (h : checksPause i = false) :
    upToCheck i = upToCheck (i + 1) + 1 := by
  have : i % 64 ≠ 0 := fun h0 => by
    rw [checksPause_iff.mpr h0] at h
    cases h
  unfold upToCheck sleepIterationCount
  omega

theorem upToCheck_lt (i : Nat) : upToCheck i < 64 := Nat.mod_lt _ (by decide)

theorem downToCheck_succ {n : Nat} (h : checksPause n = false) :
    downToCheck (n + 1) = downToCheck n + 1 := by
  have : n % 64 ≠ 0 := fun h0 => by
    rw [checksPause_iff.mpr h0] at h
    cases h
  unfold downToCheck sleepIterationCount
  omega

theorem downToCheck_lt (n : Nat) : downToCheck n < 64 := Nat.mod_lt _ (by decide)

/-- The publish calls of the way. -/
def ChartPc.callsLeft : ChartPc → Nat
  | .quotes => sleepIterationCount - 1
  | .load _ rates => downToCheck rates.length
  | .publish _ _ _ older => downToCheck older.length + 1
  | .failed _ _ older _ => downToCheck older.length
  | _ => 0

def GroupPc.callsLeft : GroupPc → Nat
  | .marginGet i _ | .marginPublish i _ => upToCheck (i + 1) + 1
  | .marginFailed i _ => upToCheck (i + 1)
  | .symbolsNext i => upToCheck i
  | .symbolPublish i _ => upToCheck (i + 1) + 1
  | .symbolFailed i _ => upToCheck (i + 1)
  | _ => 0

def SymbolPc.callsLeft : SymbolPc → Nat
  | .groupsNext i => upToCheck i
  | .publish i _ _ => upToCheck (i + 1) + 1
  | .failed i _ _ => upToCheck (i + 1)
  | _ => 0

def Task.callsLeft : Task → Nat
  | .chart t => t.pc.callsLeft
  | .group t => t.pc.callsLeft
  | .symbol t => t.pc.callsLeft
  | .receive _ => 0

/-- The steps of the way, the last one included. -/
def ChartPc.stepsLeft : ChartPc → Nat
  | .quotes => 2 * (sleepIterationCount - 1) + 3
  | .load _ rates => 2 * downToCheck rates.length + 2
  | .publish _ _ _ older => 2 * downToCheck older.length + 3
  | .failed _ _ older _ => 2 * downToCheck older.length + 2
  | .stop _ _ _ _ | .save _ => 1
  | .done | .threw => 0

def GroupPc.stepsLeft : GroupPc → Nat
  | .start => 3
  | .marginGet i _ => 3 * upToCheck (i + 1) + 5
  | .marginPublish i _ => 3 * upToCheck (i + 1) + 4
  | .marginFailed i _ => 3 * upToCheck (i + 1) + 3
  | .symbolsNext i => 3 * upToCheck i + 2
  | .symbolPublish i _ => 3 * upToCheck (i + 1) + 4
  | .symbolFailed i _ => 3 * upToCheck (i + 1) + 3
  | .marginStop _ _ | .symbolStop _ _ => 1
  | .done | .threw => 0

def SymbolPc.stepsLeft : SymbolPc → Nat
  | .start => 3
  | .groupsNext i => 3 * upToCheck i + 2
  | .publish i _ _ => 3 * upToCheck (i + 1) + 4
  | .failed i _ _ => 3 * upToCheck (i + 1) + 3
  | .stop _ _ => 1
  | .done | .threw => 0

def Task.stepsLeft : Task → Nat
  | .chart t => t.pc.stepsLeft
  | .group t => t.pc.stepsLeft
  | .symbol t => t.pc.stepsLeft
  | .receive _ => 0

/-- **At every place at most `sleep_iteration_count` calls are left.** -/
theorem Task.callsLeft_le (t : Task) : t.callsLeft ≤ sleepIterationCount := by
  cases t with
  | chart t =>
    obtain ⟨symbolName, digits, period, pc⟩ := t
    cases pc with
    | publish newest fromTime rate older => exact downToCheck_lt older.length
    | load newest rates => exact Nat.le_of_lt (downToCheck_lt rates.length)
    | failed newest fromTime older e => exact Nat.le_of_lt (downToCheck_lt older.length)
    | quotes => exact Nat.le_succ 63
    | _ => exact Nat.zero_le _
  | group t =>
    obtain ⟨group, pc⟩ := t
    cases pc with
    | marginGet i margin => exact upToCheck_lt (i + 1)
    | marginPublish i m => exact upToCheck_lt (i + 1)
    | marginFailed i e => exact Nat.le_of_lt (upToCheck_lt (i + 1))
    | symbolsNext i => exact Nat.le_of_lt (upToCheck_lt i)
    | symbolPublish i m => exact upToCheck_lt (i + 1)
    | symbolFailed i e => exact Nat.le_of_lt (upToCheck_lt (i + 1))
    | _ => exact Nat.zero_le _
  | symbol t =>
    obtain ⟨symbol, pc⟩ := t
    cases pc with
    | groupsNext i => exact Nat.le_of_lt (upToCheck_lt i)
    | publish i group m => exact upToCheck_lt (i + 1)
    | failed i group e => exact Nat.le_of_lt (upToCheck_lt (i + 1))
    | _ => exact Nat.zero_le _
  | receive t => exact Nat.zero_le _

theorem Task.stepsLeft_le (t : Task) : t.stepsLeft ≤ reactionSteps := by
  cases t with
  | chart t =>
    obtain ⟨symbolName, digits, period, pc⟩ := t
    have hdown := downToCheck_lt
    cases pc with
    | load newest rates =>
      have := hdown rates.length
      simp only [Task.stepsLeft, ChartPc.stepsLeft, reactionSteps, sleepIterationCount]
      omega
    | publish newest fromTime rate older =>
      have := hdown older.length
      simp only [Task.stepsLeft, ChartPc.stepsLeft, reactionSteps, sleepIterationCount]
      omega
    | failed newest fromTime older e =>
      have := hdown older.length
      simp only [Task.stepsLeft, ChartPc.stepsLeft, reactionSteps, sleepIterationCount]
      omega
    | _ => exact Nat.le_of_ble_eq_true rfl
  | group t =>
    obtain ⟨group, pc⟩ := t
    have hup := upToCheck_lt
    cases pc with
    | symbolsNext i =>
      have := hup i
      simp only [Task.stepsLeft, GroupPc.stepsLeft, reactionSteps, sleepIterationCount]
      omega
    | marginGet i _ | marginPublish i _ | marginFailed i _ | symbolPublish i _ | symbolFailed i _ =>
      have := hup (i + 1)
      simp only [Task.stepsLeft, GroupPc.stepsLeft, reactionSteps, sleepIterationCount]
      omega
    | _ => exact Nat.le_of_ble_eq_true rfl
  | symbol t =>
    obtain ⟨symbol, pc⟩ := t
    have hup := upToCheck_lt
    cases pc with
    | groupsNext i =>
      have := hup i
      simp only [Task.stepsLeft, SymbolPc.stepsLeft, reactionSteps, sleepIterationCount]
      omega
    | publish i _ _ | failed i _ _ =>
      have := hup (i + 1)
      simp only [Task.stepsLeft, SymbolPc.stepsLeft, reactionSteps, sleepIterationCount]
      omega
    | _ => exact Nat.le_of_ble_eq_true rfl
  | receive t => exact Nat.zero_le _

/-! ## Both counts fall -/

/-- The number of publish calls the task makes with its next step. -/
def Task.callsNow (names : Names) (t : Task) : Nat := (t.atPublish names).toList.length

theorem chartLoop_left (newest : RateInfo) (fromTime : Int) (rest : List RateInfo) :
    (ChartPc.loop newest fromTime rest).callsLeft ≤ downToCheck rest.length ∧
      (ChartPc.loop newest fromTime rest).stepsLeft ≤ 2 * downToCheck rest.length + 1 := by
  cases rest with
  | nil => exact ⟨Nat.zero_le _, Nat.le_refl 1⟩
  | cons rate older =>
    simp only [ChartPc.loop]
    by_cases hlt : rate.time < fromTime
    · rw [if_pos hlt]
      exact ⟨Nat.zero_le _, Nat.zero_le _⟩
    · rw [if_neg hlt]
      cases hc : checksPause older.length with
      | true => exact ⟨Nat.zero_le _, Nat.le_add_left 1 _⟩
      | false =>
        have := downToCheck_succ hc
        simp only [ChartPc.callsLeft, ChartPc.stepsLeft, List.length_cons, Bool.false_eq_true,
          if_false]
        omega

theorem ChartTask.step_left {w : World} (hp : w.paused = true) (t : ChartTask) (o : Outcome) :
    (Task.chart (t.step w o).2).callsLeft + (Task.chart t).callsNow w.names
        ≤ (Task.chart t).callsLeft ∧
      ((Task.chart t).ended = false →
        (Task.chart (t.step w o).2).stepsLeft < (Task.chart t).stepsLeft) := by
  obtain ⟨symbolName, digits, period, pc⟩ := t
  have hdown := downToCheck_lt
  have hloop := chartLoop_left
  cases pc with
  | quotes =>
    simp only [ChartTask.step]
    split
    · rename_i newest older hq
      have := hdown (newest :: older).length
      simp only [Task.callsLeft, Task.stepsLeft, ChartPc.callsLeft, ChartPc.stepsLeft,
        sleepIterationCount]
      exact ⟨Nat.le_of_lt_succ this, fun _ => by omega⟩
    · exact ⟨Nat.zero_le _, fun _ => Nat.succ_pos _⟩
  | load newest rates =>
    obtain ⟨hcalls, hsteps⟩ := hloop newest (w.loadChartPoint symbolName period) rates
    exact ⟨hcalls, fun _ => Nat.lt_succ_of_le hsteps⟩
  | stop newest fromTime rate older =>
    simp only [ChartTask.step, hp]
    exact ⟨Nat.le_refl 0, fun _ => Nat.zero_lt_one⟩
  | publish newest fromTime rate older =>
    obtain ⟨hcalls, hsteps⟩ := hloop newest fromTime older
    simp only [ChartTask.step]
    split
    · exact ⟨Nat.succ_le_succ hcalls, fun _ => Nat.lt_succ_of_lt (Nat.lt_succ_of_le hsteps)⟩
    · exact ⟨Nat.le_refl _, fun _ => Nat.lt_succ_self _⟩
    · exact ⟨Nat.le_add_left 1 _, fun _ => Nat.succ_pos _⟩
  | failed newest fromTime older e =>
    obtain ⟨hcalls, hsteps⟩ := hloop newest fromTime older
    exact ⟨hcalls, fun _ => Nat.lt_succ_of_le hsteps⟩
  | save newest => exact ⟨Nat.le_refl 0, fun _ => Nat.zero_lt_one⟩
  | done => exact ⟨Nat.le_refl 0, fun h => Bool.noConfusion h⟩
  | threw => exact ⟨Nat.le_refl 0, fun h => Bool.noConfusion h⟩

theorem marginLoop_left (group : ConGroup) (i : Nat) :
    (GroupPc.marginLoop group i).callsLeft ≤ upToCheck i ∧
      (GroupPc.marginLoop group i).stepsLeft ≤ 3 * upToCheck i + 2 := by
  unfold GroupPc.marginLoop
  cases group.secmargins[i]? with
  | none =>
    -- the second loop starts with a look at the pool
    have hzero : upToCheck 0 = 0 := rfl
    simp only [GroupPc.callsLeft, GroupPc.stepsLeft, hzero]
    omega
  | some margin =>
    cases hc : checksPause i with
    | true => exact ⟨Nat.zero_le _, Nat.le_add_left 1 _⟩
    | false =>
      have := upToCheck_succ hc
      simp only [GroupPc.callsLeft, GroupPc.stepsLeft, Bool.false_eq_true, if_false]
      omega

theorem symbolBody_left (group : ConGroup) (i : Nat) (symbol : ConSymbol) :
    (GroupPc.symbolBody group i symbol).callsLeft ≤ upToCheck (i + 1) + 1 ∧
      (GroupPc.symbolBody group i symbol).stepsLeft ≤ 3 * upToCheck (i + 1) + 4 := by
  unfold GroupPc.symbolBody
  cases makeGroupSymbol group symbol none with
  | none => exact ⟨Nat.le_succ _, Nat.le_add_right _ 2⟩
  | some m => exact ⟨Nat.le_refl _, Nat.le_refl _⟩

theorem GroupTask.step_left {w : World} (hp : w.paused = true) (t : GroupTask) (o : Outcome) :
    (Task.group (t.step w o).2).callsLeft + (Task.group t).callsNow w.names
        ≤ (Task.group t).callsLeft ∧
      ((Task.group t).ended = false →
        (Task.group (t.step w o).2).stepsLeft < (Task.group t).stepsLeft) := by
  obtain ⟨group, pc⟩ := t
  have hmargin := marginLoop_left group
  cases pc with
  | start =>
    obtain ⟨hcalls, hsteps⟩ := hmargin 0
    exact ⟨hcalls, fun _ => Nat.lt_succ_of_le hsteps⟩
  | marginStop i margin =>
    simp only [GroupTask.step, hp]
    exact ⟨Nat.le_refl 0, fun _ => Nat.zero_lt_one⟩
  | marginGet i margin =>
    obtain ⟨hcalls, hsteps⟩ := hmargin (i + 1)
    simp only [GroupTask.step]
    split
    · exact ⟨Nat.le_refl _, fun _ => Nat.lt_succ_self _⟩
    · exact ⟨Nat.le_succ_of_le hcalls,
        fun _ => Nat.lt_of_le_of_lt hsteps (Nat.add_lt_add_left (by decide) _)⟩
  | marginPublish i m =>
    obtain ⟨hcalls, hsteps⟩ := hmargin (i + 1)
    simp only [GroupTask.step]
    split
    · exact ⟨Nat.succ_le_succ hcalls,
        fun _ => Nat.lt_of_le_of_lt hsteps (Nat.add_lt_add_left (by decide) _)⟩
    · exact ⟨Nat.le_refl _, fun _ => Nat.lt_succ_self _⟩
    · exact ⟨Nat.le_add_left 1 _, fun _ => Nat.succ_pos _⟩
  | marginFailed i e =>
    obtain ⟨hcalls, hsteps⟩ := hmargin (i + 1)
    exact ⟨hcalls, fun _ => Nat.lt_succ_of_le hsteps⟩
  | symbolsNext i =>
    simp only [GroupTask.step]
    split
    · exact ⟨Nat.zero_le _, fun _ => Nat.succ_pos _⟩
    · rename_i symbol hs
      obtain ⟨hcalls, hsteps⟩ := symbolBody_left group i symbol
      cases hc : checksPause i with
      | true => exact ⟨Nat.zero_le _, fun _ => Nat.succ_lt_succ (Nat.succ_pos _)⟩
      | false =>
        have hup := upToCheck_succ hc
        have hnear : (GroupPc.symbolBody group i symbol).stepsLeft < 3 * upToCheck i + 2 := by
          omega
        exact ⟨hcalls.trans (Nat.le_of_eq hup.symm), fun _ => hnear⟩
  | symbolStop i symbol =>
    simp only [GroupTask.step, hp]
    exact ⟨Nat.le_refl 0, fun _ => Nat.zero_lt_one⟩
  | symbolPublish i m =>
    simp only [GroupTask.step]
    split
    · exact ⟨Nat.le_refl _, fun _ => Nat.add_lt_add_left (by decide) _⟩
    · exact ⟨Nat.le_refl _, fun _ => Nat.lt_succ_self _⟩
    · exact ⟨Nat.le_add_left 1 _, fun _ => Nat.succ_pos _⟩
  | symbolFailed i e => exact ⟨Nat.le_refl _, fun _ => Nat.lt_succ_self _⟩
  | done => exact ⟨Nat.le_refl 0, fun h => Bool.noConfusion h⟩
  | threw => exact ⟨Nat.le_refl 0, fun h => Bool.noConfusion h⟩

theorem symbolTask_body_left (symbol : ConSymbol) (i : Nat) (group : ConGroup) :
    (SymbolPc.body symbol i group).callsLeft ≤ upToCheck (i + 1) + 1 ∧
      (SymbolPc.body symbol i group).stepsLeft ≤ 3 * upToCheck (i + 1) + 4 := by
  unfold SymbolPc.body
  cases makeGroupSymbol group symbol (symbolMarginSec group symbol) with
  | none => exact ⟨Nat.le_succ _, Nat.le_add_right _ 2⟩
  | some m => exact ⟨Nat.le_refl _, Nat.le_refl _⟩

theorem SymbolTask.step_left {w : World} (hp : w.paused = true) (t : SymbolTask) (o : Outcome) :
    (Task.symbol (t.step w o).2).callsLeft + (Task.symbol t).callsNow w.names
        ≤ (Task.symbol t).callsLeft ∧
      ((Task.symbol t).ended = false →
        (Task.symbol (t.step w o).2).stepsLeft < (Task.symbol t).stepsLeft) := by
  obtain ⟨symbol, pc⟩ := t
  cases pc with
  | start => exact ⟨Nat.le_refl 0, fun _ => Nat.lt_succ_self 2⟩
  | groupsNext i =>
    simp only [SymbolTask.step]
    split
    · exact ⟨Nat.zero_le _, fun _ => Nat.succ_pos _⟩
    · rename_i group hg
      obtain ⟨hcalls, hsteps⟩ := symbolTask_body_left symbol i group
      cases hc : checksPause i with
      | true => exact ⟨Nat.zero_le _, fun _ => Nat.succ_lt_succ (Nat.succ_pos _)⟩
      | false =>
        have hup := upToCheck_succ hc
        have hnear : (SymbolPc.body symbol i group).stepsLeft < 3 * upToCheck i + 2 := by
          omega
        exact ⟨hcalls.trans (Nat.le_of_eq hup.symm), fun _ => hnear⟩
  | stop i group =>
    simp only [SymbolTask.step, hp]
    exact ⟨Nat.le_refl 0, fun _ => Nat.zero_lt_one⟩
  | publish i group m =>
    simp only [SymbolTask.step]
    split
    · exact ⟨Nat.le_refl _, fun _ => Nat.add_lt_add_left (by decide) _⟩
    · exact ⟨Nat.le_refl _, fun _ => Nat.lt_succ_self _⟩
    · exact ⟨Nat.le_add_left 1 _, fun _ => Nat.succ_pos _⟩
  | failed i group e => exact ⟨Nat.le_refl _, fun _ => Nat.lt_succ_self _⟩
  | done => exact ⟨Nat.le_refl 0, fun h => Bool.noConfusion h⟩
  | threw => exact ⟨Nat.le_refl 0, fun h => Bool.noConfusion h⟩

/-- **A step in a paused pool pays for its publish call** out of the calls left, and brings the end
nearer. -/
theorem Task.step_left {w : World} (hp : w.paused = true) {t : Task} (hpub : t.publishes = true)
    (o : Outcome) :
    (t.step w o).2.callsLeft + t.callsNow w.names ≤ t.callsLeft ∧
      (t.ended = false → (t.step w o).2.stepsLeft < t.stepsLeft) := by
  cases t with
  | chart t => exact t.step_left hp o
  | group t => exact t.step_left hp o
  | symbol t => exact t.step_left hp o
  | receive t => cases hpub

/-! ## Runs -/

/-- The calls of one step. -/
theorem Task.visitCalls_cons_length (t : Task) (v : Visit) (vs : List Visit) :
    (t.visitCalls (v :: vs)).length =
      t.callsNow v.world.names + ((t.step v.world v.outcome).2.visitCalls vs).length := by
  simp only [Task.visitCalls, Task.callsNow, List.length_append, t.step_calls v.world v.outcome,
    List.drop_left, Option.toList_map, List.length_map]

theorem Task.visits_publishes : ∀ (vs : List Visit) (t : Task),
    (t.visits vs).publishes = t.publishes
  | [], _ => rfl
  | _ :: vs, t => (visits_publishes vs _).trans (t.publishes_step _ _)

/-- **While the pool is paused** a run makes no more calls than the task had left. -/
theorem Task.visitCalls_le : ∀ (vs : List Visit) {t : Task}, t.publishes = true →
    (∀ v ∈ vs, v.world.paused = true) → (t.visitCalls vs).length ≤ t.callsLeft
  | [], _, _, _ => Nat.zero_le _
  | v :: vs, t, hpub, hvs => by
    have hstep := (Task.step_left (hvs v List.mem_cons_self) hpub v.outcome).1
    have hrest := visitCalls_le vs ((t.publishes_step v.world v.outcome).trans hpub)
      fun u hu => hvs u (List.mem_cons_of_mem _ hu)
    rw [t.visitCalls_cons_length]
    omega

theorem Task.visits_of_ended {t : Task} (h : t.ended = true) : ∀ vs : List Visit, t.visits vs = t
  | [] => rfl
  | v :: vs => by
    rw [Task.visits, Task.step_of_ended h]
    exact visits_of_ended h vs

/-- **While the pool is paused** as many steps as the task has left end it. -/
theorem Task.visits_ended : ∀ (vs : List Visit) {t : Task}, t.publishes = true →
    (∀ v ∈ vs, v.world.paused = true) → t.stepsLeft ≤ vs.length → (t.visits vs).ended = true
  | vs, t, hpub, hvs, hn => by
    cases he : t.ended with
    | true => rw [Task.visits_of_ended he, he]
    | false =>
      cases vs with
      | nil =>
        -- a step would bring the end nearer than `0`
        have hw : (Visit.mk { World.start .win32 (.ofServer [] []) [] [] (fun _ _ => none) with
            paused := true } (.ofStatus .ok)).world.paused = true := rfl
        have := (Task.step_left hw hpub (.ofStatus .ok)).2 he
        rw [List.length_nil] at hn
        omega
      | cons v vs =>
        have hlt := (Task.step_left (hvs v List.mem_cons_self) hpub v.outcome).2 he
        rw [List.length_cons] at hn
        exact visits_ended vs ((t.publishes_step _ _).trans hpub)
          (fun u hu => hvs u (List.mem_cons_of_mem _ hu))
          (Nat.le_of_lt_succ (Nat.lt_of_lt_of_le hlt hn))

theorem Task.reactsToPause {t : Task} (hpub : t.publishes = true) : t.ReactsToPause := by
  intro before after hpaused
  have hpub' : (t.visits before).publishes = true := (t.visits_publishes before).trans hpub
  refine ⟨(Task.visitCalls_le after hpub' hpaused).trans (t.visits before).callsLeft_le,
    fun hn => ?_⟩
  exact Task.visits_ended after hpub' hpaused ((t.visits before).stepsLeft_le.trans hn)

/-- **The three publish tasks react to a pause within one check interval.** -/
theorem publish_tasks_react :
    (∀ group, (Task.ofGroup group).ReactsToPause) ∧
    (∀ symbol, (Task.ofSymbol symbol).ReactsToPause) ∧
    ∀ symbol period, (Task.ofChart symbol period).ReactsToPause :=
  ⟨fun _ => Task.reactsToPause rfl, fun _ => Task.reactsToPause rfl,
    fun _ _ => Task.reactsToPause rfl⟩

end TradeBridge
