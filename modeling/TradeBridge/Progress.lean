import TradeBridge.Messages

/-!
# A publish task reaches its end

The three publish tasks walk tables of a fixed length, so a measure of the places (`Task.size`)
falls at each step (`Task.step_size`), whatever NATS answers and whether or not the pool is paused.
The receive task is the one that has no such measure.

`Task.turns` are the steps of one task on its own.

Results:
* **`Task.turns_ended`**: `size` turns end the task.
* `Task.turns_reach`: turns are a run of `taskThreads`, also beside other tasks.
* `Task.turns_sendable`: over messages that can be encoded each publish succeeds, and no exception
  leaves the task.
-/

namespace TradeBridge

open TradeBridge.Lib

/-! ## The measure -/

/-- What a loop over `n` entries has before it from entry `i` on. -/
def loopSize (n i : Nat) : Nat := 4 * (n - i) + 1

theorem loopSize_succ {n i : Nat} (h : i < n) : loopSize n i = loopSize n (i + 1) + 4 := by
  unfold loopSize
  omega

def ChartPc.size (quotes : Nat) : ChartPc → Nat
  | .quotes => 4 * quotes + 4
  | .load _ rates => 4 * rates.length + 3
  | .stop _ _ _ older => 4 * older.length + 5
  | .publish _ _ _ older => 4 * older.length + 4
  | .failed _ _ older _ => 4 * older.length + 3
  | .save _ => 1
  | .done => 0
  | .threw => 0

def GroupPc.size (margins symbols : Nat) : GroupPc → Nat
  | .start => loopSize margins 0 + loopSize symbols 0 + 1
  | .marginStop i _ => loopSize margins (i + 1) + loopSize symbols 0 + 4
  | .marginGet i _ => loopSize margins (i + 1) + loopSize symbols 0 + 3
  | .marginPublish i _ => loopSize margins (i + 1) + loopSize symbols 0 + 2
  | .marginFailed i _ => loopSize margins (i + 1) + loopSize symbols 0 + 1
  | .symbolsNext i => loopSize symbols i
  | .symbolStop i _ => loopSize symbols (i + 1) + 3
  | .symbolPublish i _ => loopSize symbols (i + 1) + 2
  | .symbolFailed i _ => loopSize symbols (i + 1) + 1
  | .done => 0
  | .threw => 0

def SymbolPc.size (groups : Nat) : SymbolPc → Nat
  | .start => loopSize groups 0 + 1
  | .groupsNext i => loopSize groups i
  | .stop i _ => loopSize groups (i + 1) + 3
  | .publish i _ _ => loopSize groups (i + 1) + 2
  | .failed i _ _ => loopSize groups (i + 1) + 1
  | .done => 0
  | .threw => 0

/-- The measure of a task over the tables of `w`. -/
def Task.size (w : World) : Task → Nat
  | .chart t => t.pc.size ((w.historyQuotes t.symbolName t.period).getD []).length
  | .group t => t.pc.size t.group.secmargins.length w.symbols.length
  | .symbol t => t.pc.size w.groups.length
  | .receive _ => 0

/-- The task publishes: it is not the receive task. -/
def Task.publishes : Task → Bool
  | .receive _ => false
  | _ => true

theorem Task.size_same {w w' : World} (h : World.SameServer w w') (t : Task) :
    t.size w' = t.size w := by
  cases t with
  | chart t => simp only [Task.size, h.historyQuotes]
  | group t => simp only [Task.size, h.symbols]
  | symbol t => simp only [Task.size, h.groups]
  | receive t => rfl

@[simp] theorem Task.publishes_step (t : Task) (w : World) (o : Outcome) :
    (t.step w o).2.publishes = t.publishes := by
  cases t <;> rfl

/-! ## The measure falls -/

theorem chartLoop_size (quotes : Nat) (newest : RateInfo) (fromTime : Int)
    (rest : List RateInfo) :
    (ChartPc.loop newest fromTime rest).size quotes ≤ 4 * rest.length + 2 := by
  cases rest with
  | nil => exact Nat.le_succ 1
  | cons rate older =>
    simp only [ChartPc.loop, List.length_cons]
    split
    · exact Nat.zero_le _
    · split <;> simp only [ChartPc.size] <;> omega

theorem ChartTask.step_size (t : ChartTask) (w : World) (o : Outcome)
    (h : (Task.chart t).ended = false) :
    (Task.chart (t.step w o).2).size w < (Task.chart t).size w := by
  obtain ⟨symbolName, digits, period, pc⟩ := t
  have hloop := fun newest fromTime rest => chartLoop_size
    ((w.historyQuotes symbolName period).getD []).length newest fromTime rest
  cases pc with
  | quotes =>
    simp only [ChartTask.step]
    split
    · rename_i newest older hq
      obtain ⟨rates, hrates, hrev⟩ := Option.map_eq_some_iff.mp hq
      have hlen : rates.length = (newest :: older).length := by
        rw [← hrev, List.length_reverse]
      simp only [Task.size, ChartPc.size, hrates, Option.getD_some, hlen]
      omega
    · exact Nat.succ_pos _
  | load newest rates =>
    have := hloop newest (w.loadChartPoint symbolName period) rates
    exact Nat.lt_succ_of_le this
  | stop newest fromTime rate older =>
    simp only [ChartTask.step, Task.size]
    split <;> simp only [ChartPc.size] <;> omega
  | publish newest fromTime rate older =>
    have hnext : 4 * older.length + 2 < 4 * older.length + 4 := by omega
    simp only [ChartTask.step]
    split
    · exact Nat.lt_of_le_of_lt (hloop newest fromTime older) hnext
    · exact Nat.lt_succ_self _
    · exact Nat.succ_pos _
  | failed newest fromTime older e =>
    have := hloop newest fromTime older
    exact Nat.lt_succ_of_le this
  | save newest => exact Nat.zero_lt_one
  | done => exact Bool.noConfusion h
  | threw => exact Bool.noConfusion h

theorem marginLoop_size (group : ConGroup) (symbols i : Nat) :
    (GroupPc.marginLoop group i).size group.secmargins.length symbols
      ≤ loopSize group.secmargins.length i + loopSize symbols 0 := by
  unfold GroupPc.marginLoop
  cases h : group.secmargins[i]? with
  | none => exact Nat.le_add_left _ _
  | some margin =>
    have hi : i < group.secmargins.length := (List.getElem?_eq_some_iff.mp h).1
    have := loopSize_succ hi
    simp only
    split <;> simp only [GroupPc.size] <;> omega

theorem symbolBody_size (group : ConGroup) (margins symbols i : Nat) (symbol : ConSymbol) :
    (GroupPc.symbolBody group i symbol).size margins symbols ≤ loopSize symbols (i + 1) + 2 := by
  unfold GroupPc.symbolBody
  cases makeGroupSymbol group symbol none with
  | none => exact Nat.le_add_right _ 2
  | some m => exact Nat.le_refl _

theorem GroupTask.step_size (t : GroupTask) (w : World) (o : Outcome)
    (h : (Task.group t).ended = false) :
    (Task.group (t.step w o).2).size w < (Task.group t).size w := by
  obtain ⟨group, pc⟩ := t
  have hmargin := marginLoop_size group w.symbols.length
  have hbody := symbolBody_size group group.secmargins.length w.symbols.length
  cases pc with
  | start => exact Nat.lt_succ_of_le (hmargin 0)
  | marginStop i margin =>
    simp only [GroupTask.step, Task.size]
    split <;> simp only [GroupPc.size] <;> omega
  | marginGet i margin =>
    simp only [GroupTask.step]
    split
    · exact Nat.lt_succ_self _
    · exact Nat.lt_of_le_of_lt (hmargin (i + 1)) (Nat.lt_add_of_pos_right (by decide))
  | marginPublish i m =>
    simp only [GroupTask.step]
    split
    · exact Nat.lt_of_le_of_lt (hmargin (i + 1)) (Nat.lt_add_of_pos_right (by decide))
    · exact Nat.lt_succ_self _
    · exact Nat.succ_pos _
  | marginFailed i e => exact Nat.lt_succ_of_le (hmargin (i + 1))
  | symbolsNext i =>
    simp only [GroupTask.step]
    split
    · exact Nat.succ_pos _
    · rename_i symbol hs
      have hi : i < w.symbols.length := (List.getElem?_eq_some_iff.mp hs).1
      have hloop : loopSize w.symbols.length (i + 1) + 3 < loopSize w.symbols.length i := by
        rw [loopSize_succ hi]
        omega
      simp only [Task.size]
      split
      · exact hloop
      · exact Nat.lt_of_le_of_lt (hbody i symbol) (Nat.lt_of_succ_lt hloop)
  | symbolStop i symbol =>
    have := hbody i symbol
    simp only [GroupTask.step, Task.size]
    split
    · exact Nat.succ_pos _
    · exact Nat.lt_succ_of_le this
  | symbolPublish i m =>
    simp only [GroupTask.step]
    split <;> simp only [Task.size, GroupPc.size] <;> omega
  | symbolFailed i e => exact Nat.lt_succ_self _
  | done => exact Bool.noConfusion h
  | threw => exact Bool.noConfusion h

theorem symbolTask_body_size (symbol : ConSymbol) (groups i : Nat) (group : ConGroup) :
    (SymbolPc.body symbol i group).size groups ≤ loopSize groups (i + 1) + 2 := by
  unfold SymbolPc.body
  cases makeGroupSymbol group symbol (symbolMarginSec group symbol) with
  | none => exact Nat.le_add_right _ 2
  | some m => exact Nat.le_refl _

theorem SymbolTask.step_size (t : SymbolTask) (w : World) (o : Outcome)
    (h : (Task.symbol t).ended = false) :
    (Task.symbol (t.step w o).2).size w < (Task.symbol t).size w := by
  obtain ⟨symbol, pc⟩ := t
  have hbody := symbolTask_body_size symbol w.groups.length
  cases pc with
  | start => exact Nat.lt_succ_self _
  | groupsNext i =>
    simp only [SymbolTask.step]
    split
    · exact Nat.succ_pos _
    · rename_i group hg
      have hi : i < w.groups.length := (List.getElem?_eq_some_iff.mp hg).1
      have hloop : loopSize w.groups.length (i + 1) + 3 < loopSize w.groups.length i := by
        rw [loopSize_succ hi]
        omega
      simp only [Task.size]
      split
      · exact hloop
      · exact Nat.lt_of_le_of_lt (hbody i group) (Nat.lt_of_succ_lt hloop)
  | stop i group =>
    have := hbody i group
    simp only [SymbolTask.step, Task.size]
    split
    · exact Nat.succ_pos _
    · exact Nat.lt_succ_of_le this
  | publish i group m =>
    simp only [SymbolTask.step]
    split <;> simp only [Task.size, SymbolPc.size] <;> omega
  | failed i group e => exact Nat.lt_succ_self _
  | done => exact Bool.noConfusion h
  | threw => exact Bool.noConfusion h

/-- **Each step of a publish task that has not ended lowers its measure.** -/
theorem Task.step_size {t : Task} (w : World) (o : Outcome) (hp : t.publishes = true)
    (h : t.ended = false) : (t.step w o).2.size (t.step w o).1 < t.size w := by
  rw [Task.size_same (t.step_same w o)]
  cases t with
  | chart t => exact t.step_size w o h
  | group t => exact t.step_size w o h
  | symbol t => exact t.step_size w o h
  | receive t => exact absurd hp (by simp [Task.publishes])

/-! ## A task on its own -/

/-- One step of a task on its own: whether the pool is paused then, and what NATS answers. -/
structure Turn where
  paused : Bool
  outcome : Outcome

/-- The steps of one task. -/
def Task.turns : World → Task → List Turn → World × Task
  | w, t, [] => (w, t)
  | w, t, x :: xs =>
    turns (t.step { w with paused := x.paused } x.outcome).1
      (t.step { w with paused := x.paused } x.outcome).2 xs

/-- `n` turns, never paused, in which NATS answers `NATS_OK`. -/
def allOk (n : Nat) : List Turn := List.replicate n ⟨false, .ofStatus .ok⟩

theorem mem_allOk {n : Nat} {x : Turn} (h : x ∈ allOk n) :
    x.paused = false ∧ x.outcome.status = .ok := by
  rw [List.eq_of_mem_replicate h]
  exact ⟨rfl, rfl⟩

theorem World.setPaused_self {w : World} {b : Bool} (h : w.paused = b) :
    { w with paused := b } = w := by
  rw [← h]

theorem Task.step_of_ended {t : Task} (h : t.ended = true) (w : World) (o : Outcome) :
    t.step w o = (w, t) := by
  cases t with
  | chart t =>
    obtain ⟨symbolName, digits, period, pc⟩ := t
    cases pc <;> first | rfl | exact Bool.noConfusion h
  | group t =>
    obtain ⟨group, pc⟩ := t
    cases pc <;> first | rfl | exact Bool.noConfusion h
  | symbol t =>
    obtain ⟨symbol, pc⟩ := t
    cases pc <;> first | rfl | exact Bool.noConfusion h
  | receive t => exact Bool.noConfusion h

theorem Task.turns_of_ended {t : Task} (h : t.ended = true) : ∀ (xs : List Turn) (w : World),
    (Task.turns w t xs).2 = t
  | [], _ => rfl
  | x :: xs, w => by
    rw [Task.turns, Task.step_of_ended h]
    exact turns_of_ended h xs _

/-- **As many turns as the measure says end the task**, paused or not. -/
theorem Task.turns_ended : ∀ (xs : List Turn) {w : World} {t : Task}, t.publishes = true →
    t.size w ≤ xs.length → (Task.turns w t xs).2.ended = true
  | xs, w, t, hp, hn => by
    cases he : t.ended with
    | true => rw [Task.turns_of_ended he, he]
    | false =>
      cases xs with
      | nil => exact absurd (Task.step_size w (.ofStatus .ok) hp he) (by simp at hn; omega)
      | cons x xs =>
        have hlt := Task.step_size { w with paused := x.paused } x.outcome hp he
        have hsize : t.size { w with paused := x.paused } = t.size w := by cases t <;> rfl
        rw [hsize] at hlt
        exact turns_ended xs ((t.publishes_step _ _).trans hp)
          (Nat.le_of_lt_succ (Nat.lt_of_lt_of_le hlt hn))

theorem Task.turns_calls : ∀ (xs : List Turn) (w : World) (t : Task),
    w.calls <+: (Task.turns w t xs).1.calls
  | [], _, _ => List.prefix_refl _
  | x :: xs, w, t =>
    (t.step_calls_grow { w with paused := x.paused } x.outcome).trans (turns_calls xs _ _)

/-- The calls of a run are the one of its first turn, if any, and those of the rest. -/
theorem Task.turns_calls_cons {P : PublishCall → Prop} {w : World} {t : Task} {x : Turn}
    {xs : List Turn} {cs : List PublishCall}
    (hcs : (Task.turns w t (x :: xs)).1.calls =
      (t.step { w with paused := x.paused } x.outcome).1.calls ++ cs)
    (hfirst : ∀ p, t.atPublish w.names = some p → P (w.callOf x.outcome.status p))
    (hrest : ∀ c ∈ cs, P c) :
    ∃ cs, (Task.turns w t (x :: xs)).1.calls = w.calls ++ cs ∧ ∀ c ∈ cs, P c := by
  rw [t.step_calls, List.append_assoc] at hcs
  refine ⟨_, hcs, fun c hc => ?_⟩
  rcases List.mem_append.mp hc with hc | hc
  · obtain ⟨p, hp, rfl⟩ := Option.map_eq_some_iff.mp (Option.mem_toList.mp hc)
    exact hfirst p hp
  · exact hrest c hc

theorem Task.turns_publishes : ∀ (xs : List Turn) (w : World) (t : Task),
    (Task.turns w t xs).2.publishes = t.publishes
  | [], _, _ => rfl
  | _ :: xs, _, t => (turns_publishes xs _ _).trans (t.publishes_step _ _)

/-- Turns that find the pool as it is leave it and the server so. -/
theorem Task.turns_same {b : Bool} : ∀ (xs : List Turn) {w : World} {t : Task}, w.paused = b →
    (∀ x ∈ xs, x.paused = b) → World.SameServer w (Task.turns w t xs).1
  | [], w, _, _, _ => World.SameServer.refl w
  | x :: xs, w, t, hw, hxs => by
    rw [Task.turns, hxs x List.mem_cons_self, World.setPaused_self hw]
    have hsame := t.step_same w x.outcome
    have hxs' : ∀ y ∈ xs, y.paused = b := fun y hy => hxs y (List.mem_cons_of_mem _ hy)
    exact hsame.trans (turns_same xs (hsame.paused.trans hw) hxs')

/-- Turns that are not paused are a run of the system, beside any other tasks. -/
theorem Task.turns_reach {Allowed : PublishResult → Prop} (l r : List Task) :
    ∀ (xs : List Turn) {w : World} {t : Task}, w.paused = false → (∀ x ∈ xs, x.paused = false) →
      (∀ c ∈ (Task.turns w t xs).1.calls, Allowed c.result) →
      (taskThreads Allowed).Reach (w, l ++ t :: r)
        ((Task.turns w t xs).1, l ++ (Task.turns w t xs).2 :: r)
  | [], _, _, _, _, _ => Relation.ReflTransGen.refl
  | x :: xs, w, t, hw, hxs, h => by
    rw [Task.turns, hxs x List.mem_cons_self, World.setPaused_self hw] at h ⊢
    have hcalls : ∀ c ∈ (t.step w x.outcome).1.calls, Allowed c.result :=
      fun c hc => h c ((Task.turns_calls xs _ _).subset hc)
    have hstep : (taskThreads Allowed).Step (w, l ++ t :: r)
        ((t.step w x.outcome).1, l ++ (t.step w x.outcome).2 :: r) :=
      Threads.Step.run ⟨_, rfl, hcalls⟩
    have hw' : (t.step w x.outcome).1.paused = false := (t.step_same w x.outcome).paused.trans hw
    exact Relation.ReflTransGen.head hstep
      (turns_reach l r xs hw' (fun y hy => hxs y (List.mem_cons_of_mem _ hy)) h)

/-! ## A task whose messages can be encoded -/

/-- Every message the task may still publish can be encoded. -/
def Task.Sendable (groups : List ConGroup) (symbols : List ConSymbol) : Task → Prop
  | .chart t => utf8Valid t.symbolName = true
  | .group t => ∀ m ∈ t.todo symbols, m.toJson.encodable = true
  | .symbol t => ∀ m ∈ t.todo groups, m.toJson.encodable = true
  | .receive _ => True

variable {groups : List ConGroup} {symbols : List ConSymbol}

theorem Task.Sendable.atPublish {t : Task} (h : t.Sendable groups symbols) {names : Names}
    {p : Bytes × Message} (hp : t.atPublish names = some p) : p.2.toJson.encodable = true := by
  cases t with
  | chart t =>
    obtain ⟨symbolName, digits, period, pc⟩ := t
    cases pc with
    | publish newest fromTime rate older =>
      obtain rfl := Option.some.inj hp
      exact (candle_encodable _).trans h
    | _ => cases hp
  | group t =>
    obtain ⟨group, pc⟩ := t
    cases pc with
    | marginPublish i m =>
      obtain rfl := Option.some.inj hp
      exact h m List.mem_cons_self
    | symbolPublish i m =>
      obtain rfl := Option.some.inj hp
      exact h m List.mem_cons_self
    | _ => cases hp
  | symbol t =>
    obtain ⟨symbol, pc⟩ := t
    cases pc with
    | publish i group m =>
      obtain rfl := Option.some.inj hp
      exact h m List.mem_cons_self
    | _ => cases hp
  | receive t => cases hp

/-- No exception leaves a task whose messages can be encoded. -/
theorem Task.Sendable.threw {t : Task} (h : t.Sendable groups symbols) {w : World} {o : Outcome}
    (ht : (t.step w o).2.threw = true) : t.threw = true := by
  rcases (t.step_threw w o).mp ht with hthrew | ⟨p, hp, he⟩
  · exact hthrew
  · rw [h.atPublish hp] at he
    exact Bool.noConfusion he

theorem Task.Sendable.step {t : Task} (h : t.Sendable groups symbols) {w : World}
    (hw : OverTables groups symbols w) (o : Outcome) : (t.step w o).2.Sendable groups symbols := by
  have htodo : ∀ m ∈ (t.step w o).2.todo groups symbols, m ∈ t.todo groups symbols := by
    intro m hm
    rcases Task.step_todo hw t o h.threw with ⟨-, ht⟩ | ⟨m', -, ht⟩
    · exact ht ▸ hm
    · rw [ht]
      exact List.mem_cons_of_mem _ hm
  cases t with
  | chart t => exact (congrArg utf8Valid (t.step_captures w o).1).trans h
  | group t => exact fun m hm => h m (htodo m hm)
  | symbol t => exact fun m hm => h m (htodo m hm)
  | receive t => trivial

/-- **A task whose messages can be encoded publishes each of them with success**, when NATS answers
`NATS_OK`, and no exception leaves it. -/
theorem Task.turns_sendable : ∀ (xs : List Turn) {w : World} {t : Task},
    OverTables groups symbols w → t.Sendable groups symbols → t.threw = false →
    (∀ c ∈ w.calls, c.result = .ok) →
    (∀ x ∈ xs, x.paused = false ∧ x.outcome.status = .ok) →
    (Task.turns w t xs).2.threw = false ∧ ∀ c ∈ (Task.turns w t xs).1.calls, c.result = .ok
  | [], _, _, _, _, ht, hok, _ => ⟨ht, hok⟩
  | x :: xs, w, t, hw, hs, ht, hok, hxs => by
    obtain ⟨hpaused, hstatus⟩ := hxs x List.mem_cons_self
    rw [Task.turns, hpaused, World.setPaused_self hw.paused]
    refine turns_sendable xs (hw.step (t.step_same w _)) (hs.step hw _) ?_ (fun c hc => ?_)
      fun y hy => hxs y (List.mem_cons_of_mem _ hy)
    · cases hthrew : (t.step w x.outcome).2.threw with
      | false => rfl
      | true => rw [← ht, hs.threw hthrew]
    · rcases Task.mem_step_calls hc with hc | ⟨p, hp, rfl⟩
      · exact hok c hc
      · exact publish_ok_iff.mpr ⟨hs.atPublish hp, hstatus⟩

end TradeBridge
