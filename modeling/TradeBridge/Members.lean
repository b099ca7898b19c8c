import TradeBridge.Exceptions

/-!
# The members of `mt4::plugin` that a task reads

The lambdas capture `this`, and each of their steps reads some members of the plugin
(`Task.reads`). Members are destroyed in the reverse of their declaration (`plugin.h:72-83`), so the
ones declared after `m_pool` go before it: the three topics and `m_chart_timepoint_dir`.

Results:
* `mem_afterPool_iff`: which members these are.
* **`Task.accessAhead_of_reads`**, **`Task.accessAhead_step`**: a task with a publish or a
  time-point access ahead of it comes to one, when it is not paused.
* **`Task.quiet_step`**: a task without one never comes to one, paused or not.
-/

namespace TradeBridge

open TradeBridge.Lib

/-- The members of `mt4::plugin`. -/
inductive Member
  | pluginName
  | mt4server
  | logger
  | natsConn
  | pool
  | topicNameFeedTick
  | topicNameConSymbol
  | topicNameMt4Candle
  | chartTimepointDir
  deriving DecidableEq

/-- The members in the order of their declaration. -/
def members : List Member :=
  [.pluginName, .mt4server, .logger, .natsConn, .pool, .topicNameFeedTick, .topicNameConSymbol,
    .topicNameMt4Candle, .chartTimepointDir]

/-- The members declared after the pool, in the order of their destruction. -/
def afterPool : List Member := members.reverse.takeWhile (· ≠ .pool)

theorem mem_afterPool_iff {m : Member} :
    m ∈ afterPool ↔ m = .topicNameFeedTick ∨ m = .topicNameConSymbol ∨ m = .topicNameMt4Candle ∨
      m = .chartTimepointDir := by
  cases m <;> decide

/-! ## What a step reads -/

def ChartPc.reads : ChartPc → List Member
  | .quotes => [.mt4server]
  | .load .. => [.chartTimepointDir]
  | .stop .. => [.pool]
  | .publish .. => [.natsConn, .topicNameMt4Candle]
  | .failed .. => [.logger]
  | .save .. => [.chartTimepointDir]
  | .done | .threw => []

def GroupPc.reads : GroupPc → List Member
  | .start => [.logger]
  | .marginStop .. | .symbolStop .. => [.pool]
  | .marginGet .. | .symbolsNext .. => [.mt4server]
  | .marginPublish .. | .symbolPublish .. => [.natsConn, .topicNameConSymbol]
  | .marginFailed .. | .symbolFailed .. => [.logger]
  | .done | .threw => []

def SymbolPc.reads : SymbolPc → List Member
  | .start => [.logger]
  | .groupsNext .. => [.mt4server]
  | .stop .. => [.pool]
  | .publish .. => [.natsConn, .topicNameConSymbol]
  | .failed .. => [.logger]
  | .done | .threw => []

/-- The reader owns its subscription, so only the log is the plugin's. -/
def ReceivePc.reads : ReceivePc → List Member
  | .read => []
  | .request .. | .failed .. => [.logger]

/-- The members the next step of a task reads. -/
def Task.reads : Task → List Member
  | .chart t => t.pc.reads
  | .group t => t.pc.reads
  | .symbol t => t.pc.reads
  | .receive t => t.pc.reads

/-! ## What is still ahead -/

/-- A publish or a time-point access is ahead, where `quotes` is what `HistoryQuotes` returns. -/
def ChartPc.accessAhead (quotes : Option (List RateInfo)) : ChartPc → Prop
  | .quotes => quotes.getD [] ≠ []
  | .failed newest fromTime older _ => ChartPc.loop newest fromTime older ≠ .done
  | .done | .threw => False
  | _ => True

/-- The task has still a message to publish or a time point to read or write, unless it is
stopped. -/
def Task.accessAhead (w : World) : Task → Prop
  | .chart t => t.pc.accessAhead (w.historyQuotes t.symbolName t.period)
  | .group t => t.todo w.symbols ≠ []
  | .symbol t => t.todo w.groups ≠ []
  | .receive _ => False

/-- Only the server's tables decide that. -/
theorem Task.accessAhead_congr {w w' : World} (hg : w'.groups = w.groups)
    (hs : w'.symbols = w.symbols) (hq : w'.historyQuotes = w.historyQuotes) (t : Task) :
    t.accessAhead w' ↔ t.accessAhead w := by
  cases t with
  | chart t => simp only [Task.accessAhead, hq]
  | group t => simp only [Task.accessAhead, hs]
  | symbol t => simp only [Task.accessAhead, hg]
  | receive t => exact Iff.rfl

theorem Task.not_accessAhead_of_ended {t : Task} (w : World) (h : t.ended = true) :
    ¬ t.accessAhead w := by
  cases t with
  | chart t =>
    obtain ⟨symbolName, digits, period, pc⟩ := t
    cases pc <;> first | exact id | exact Bool.noConfusion h
  | group t => exact fun hne => hne (@todo_of_ended w.groups w.symbols (.group t) h)
  | symbol t => exact fun hne => hne (@todo_of_ended w.groups w.symbols (.symbol t) h)
  | receive t => exact id

/-- **A task that reads a member declared after the pool had an access ahead.** -/
theorem Task.accessAhead_of_reads {t : Task} {m : Member} (w : World) (hm : m ∈ t.reads)
    (hafter : m ∈ afterPool) : t.accessAhead w := by
  have hone : ∀ {x : Member}, m ∈ [x] → x ∉ afterPool → False :=
    fun hmx hx => hx (List.mem_singleton.mp hmx ▸ hafter)
  have hnil : m ∉ ([] : List Member) := List.not_mem_nil
  cases t with
  | chart t =>
    obtain ⟨symbolName, digits, period, pc⟩ := t
    cases pc with
    | quotes => exact (hone hm (by decide)).elim
    | failed => exact (hone hm (by decide)).elim
    | done => exact absurd hm hnil
    | threw => exact absurd hm hnil
    | _ => trivial
  | group t =>
    obtain ⟨group, pc⟩ := t
    cases pc with
    | marginPublish i g => exact List.cons_ne_nil _ _
    | symbolPublish i g => exact List.cons_ne_nil _ _
    | done => exact absurd hm hnil
    | threw => exact absurd hm hnil
    | _ => exact (hone hm (by decide)).elim
  | symbol t =>
    obtain ⟨symbol, pc⟩ := t
    cases pc with
    | publish i group g => exact List.cons_ne_nil _ _
    | done => exact absurd hm hnil
    | threw => exact absurd hm hnil
    | _ => exact (hone hm (by decide)).elim
  | receive t =>
    obtain ⟨topicName, pc⟩ := t
    cases pc with
    | read => exact absurd hm hnil
    | _ => exact (hone hm (by decide)).elim

/-! ## A task that comes to an access -/

theorem ChartPc.accessAhead_of_loop {newest : RateInfo} {fromTime : Int} {older : List RateInfo}
    (h : ChartPc.loop newest fromTime older ≠ .done) (quotes : Option (List RateInfo)) :
    (ChartPc.loop newest fromTime older).accessAhead quotes := by
  cases older with
  | nil => trivial
  | cons rate older =>
    simp only [ChartPc.loop] at h ⊢
    split
    · rename_i hlt
      rw [if_pos hlt] at h
      exact absurd rfl h
    · split <;> trivial

/-- Where a task publishes it reads a topic. -/
theorem Task.reads_of_atPublish {t : Task} {names : Names} {p : Bytes × Message}
    (h : t.atPublish names = some p) : ∃ m ∈ t.reads, m ∈ afterPool := by
  have hcandle : .topicNameMt4Candle ∈ afterPool := by decide
  have hsymbol : .topicNameConSymbol ∈ afterPool := by decide
  cases t with
  | chart t =>
    obtain ⟨symbolName, digits, period, pc⟩ := t
    cases pc with
    | publish => exact ⟨_, List.mem_cons_of_mem _ List.mem_cons_self, hcandle⟩
    | _ => cases h
  | group t =>
    obtain ⟨group, pc⟩ := t
    cases pc with
    | marginPublish => exact ⟨_, List.mem_cons_of_mem _ List.mem_cons_self, hsymbol⟩
    | symbolPublish => exact ⟨_, List.mem_cons_of_mem _ List.mem_cons_self, hsymbol⟩
    | _ => cases h
  | symbol t =>
    obtain ⟨symbol, pc⟩ := t
    cases pc with
    | publish => exact ⟨_, List.mem_cons_of_mem _ List.mem_cons_self, hsymbol⟩
    | _ => cases h
  | receive t => cases h

/-- Before its next publish a task keeps its messages. -/
theorem Task.todo_step {t : Task} {w : World} (hw : w.paused = false)
    (h : ∀ m ∈ t.reads, m ∉ afterPool) (o : Outcome) :
    (t.step w o).2.todo w.groups w.symbols = t.todo w.groups w.symbols := by
  have hnone : t.atPublish w.names = none := by
    cases hp : t.atPublish w.names with
    | none => rfl
    | some p =>
      obtain ⟨m, hm, hafter⟩ := Task.reads_of_atPublish hp
      exact absurd hafter (h m hm)
  have hthrew : (t.step w o).2.threw = true → t.threw = true := by
    intro ht
    rcases (t.step_threw w o).mp ht with ht | ⟨p, hp, -⟩
    · exact ht
    · rw [hnone] at hp
      cases hp
  have hcalls : (t.step w o).1.calls = w.calls := by
    rw [t.step_calls, hnone]
    exact List.append_nil _
  rcases Task.step_todo ⟨rfl, rfl, hw⟩ t o hthrew with ⟨-, htodo⟩ | ⟨m, hatt, -⟩
  · exact htodo
  · rw [World.attempted_congr hcalls] at hatt
    exact absurd hatt (by simp)

/-- **A task with an access ahead comes nearer to it**, until its next step is one. -/
theorem Task.accessAhead_step {t : Task} {w : World} (hw : w.paused = false)
    (ha : t.accessAhead w) (h : ∀ m ∈ t.reads, m ∉ afterPool) (o : Outcome) :
    (t.step w o).2.accessAhead w := by
  cases t with
  | chart t =>
    obtain ⟨symbolName, digits, period, pc⟩ := t
    cases pc with
    | quotes =>
      cases hq : w.historyQuotes symbolName period with
      | none => exact absurd (by rw [hq]; rfl) ha
      | some rates =>
        cases hrev : rates.reverse with
        | nil => exact absurd (by rw [hq]; exact List.reverse_eq_nil_iff.mp hrev) ha
        | cons newest older =>
          simp only [Task.step, ChartTask.step, hq, Option.map_some, hrev]
          trivial
    | stop newest fromTime rate older =>
      simp only [Task.step, ChartTask.step, hw, Bool.false_eq_true, if_false]
      trivial
    | failed newest fromTime older e => exact ChartPc.accessAhead_of_loop ha _
    | load => exact absurd (by decide) (h .chartTimepointDir List.mem_cons_self)
    | save => exact absurd (by decide) (h .chartTimepointDir List.mem_cons_self)
    | publish =>
      exact absurd (by decide)
        (h .topicNameMt4Candle (List.mem_cons_of_mem _ List.mem_cons_self))
    | done => exact absurd ha id
    | threw => exact absurd ha id
  | group t => exact fun hnil => ha ((@Task.todo_step (.group t) w hw h o).symm.trans hnil)
  | symbol t => exact fun hnil => ha ((@Task.todo_step (.symbol t) w hw h o).symm.trans hnil)
  | receive t => exact ha.elim

/-! ## A task that comes to none -/

/-- A table task with no message left has none after a step. -/
theorem Task.OfTable.todo_nil_step {t : Task} (ht : t.OfTable) {w : World}
    (h : t.todo w.groups w.symbols = []) (o : Outcome) :
    (t.step w o).2.todo w.groups w.symbols = [] := by
  have hsend : t.Sendable w.groups w.symbols := by
    rw [ht.sendable_iff, h]
    intro m hm
    cases hm
  rcases t.step_paused w w.paused o with heq | hfin
  · have heq' : (t.step w o).2 = (t.step { w with paused := false } o).2 := heq
    have hover : OverTables w.groups w.symbols { w with paused := false } := ⟨rfl, rfl, rfl⟩
    rw [heq']
    rcases Task.step_todo hover t o hsend.threw with ⟨-, hsame⟩ | ⟨m, -, hcons⟩
    · exact hsame.trans h
    · rw [h] at hcons
      cases hcons
  · exact todo_of_ended (Bool.or_eq_true _ _ ▸ Or.inl hfin)

/-- **A task with no access ahead has none ahead after a step**, paused or not. -/
theorem Task.quiet_step {t : Task} {w : World} (h : ¬ t.accessAhead w) (o : Outcome) :
    ¬ (t.step w o).2.accessAhead w := by
  cases t with
  | chart t =>
    obtain ⟨symbolName, digits, period, pc⟩ := t
    cases pc with
    | quotes =>
      have hnil : (w.historyQuotes symbolName period).getD [] = [] := not_not.mp h
      cases hq : w.historyQuotes symbolName period with
      | none =>
        simp only [Task.step, ChartTask.step, hq]
        exact id
      | some rates =>
        rw [hq] at hnil
        have hrates : rates = [] := hnil
        simp only [Task.step, ChartTask.step, hq, hrates]
        exact id
    | failed newest fromTime older e =>
      have hdone : ChartPc.loop newest fromTime older = .done := not_not.mp h
      simp only [Task.step, ChartTask.step, hdone]
      exact id
    | done => exact h
    | threw => exact h
    | _ => exact absurd trivial h
  | group t =>
    exact not_not.mpr (Task.OfTable.todo_nil_step (t := .group t) trivial (not_not.mp h) o)
  | symbol t =>
    exact not_not.mpr (Task.OfTable.todo_nil_step (t := .symbol t) trivial (not_not.mp h) o)
  | receive t => exact h

end TradeBridge
