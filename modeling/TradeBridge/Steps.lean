import TradeBridge.Task

/-!
# What one step of a task can do to the world

One lemma a fact, for the four task bodies and for `Task.step`. The invariants of the later modules
cite these and seldom unfold a step to look at the world.

Results:
* `Task.step_same`: the tables of the server, the pause flag and the constant parts stay.
* `Task.step_calls`: a step makes the publish call the task stands before (`Task.atPublish`), so the
  calls only grow.
* `Task.step_threw`: an exception leaves a task exactly at a message that cannot be encoded.
-/

namespace TradeBridge

open TradeBridge.Lib

/-- The parts of the world that no task changes. -/
structure World.SameServer (w w' : World) : Prop where
  platform : w'.platform = w.platform
  names : w'.names = w.names
  groups : w'.groups = w.groups
  symbols : w'.symbols = w.symbols
  historyQuotes : w'.historyQuotes = w.historyQuotes
  paused : w'.paused = w.paused

theorem World.SameServer.refl (w : World) : World.SameServer w w :=
  ⟨rfl, rfl, rfl, rfl, rfl, rfl⟩

theorem World.SameServer.trans {a b c : World} (h : World.SameServer a b)
    (h' : World.SameServer b c) : World.SameServer a c :=
  ⟨h'.platform.trans h.platform, h'.names.trans h.names, h'.groups.trans h.groups,
    h'.symbols.trans h.symbols, h'.historyQuotes.trans h.historyQuotes,
    h'.paused.trans h.paused⟩

/-! ## The server's tables stay -/

theorem ChartTask.step_same (t : ChartTask) (w : World) (o : Outcome) :
    World.SameServer w (t.step w o).1 := by
  unfold ChartTask.step
  cases t.pc with
  | quotes =>
    simp only
    split <;> exact World.SameServer.refl w
  | publish newest fromTime rate older =>
    simp only
    split <;> exact ⟨rfl, rfl, rfl, rfl, rfl, rfl⟩
  | _ => exact ⟨rfl, rfl, rfl, rfl, rfl, rfl⟩

theorem GroupTask.step_same (t : GroupTask) (w : World) (o : Outcome) :
    World.SameServer w (t.step w o).1 := by
  unfold GroupTask.step
  cases t.pc with
  | marginGet i margin =>
    simp only
    split <;> exact World.SameServer.refl w
  | marginPublish i m =>
    simp only
    split <;> exact ⟨rfl, rfl, rfl, rfl, rfl, rfl⟩
  | symbolsNext i =>
    simp only
    split <;> exact World.SameServer.refl w
  | symbolPublish i m =>
    simp only
    split <;> exact ⟨rfl, rfl, rfl, rfl, rfl, rfl⟩
  | _ => exact ⟨rfl, rfl, rfl, rfl, rfl, rfl⟩

theorem SymbolTask.step_same (t : SymbolTask) (w : World) (o : Outcome) :
    World.SameServer w (t.step w o).1 := by
  unfold SymbolTask.step
  cases t.pc with
  | groupsNext i =>
    simp only
    split <;> exact World.SameServer.refl w
  | publish i group m =>
    simp only
    split <;> exact ⟨rfl, rfl, rfl, rfl, rfl, rfl⟩
  | _ => exact ⟨rfl, rfl, rfl, rfl, rfl, rfl⟩

theorem ReceiveTask.step_same (t : ReceiveTask) (w : World) (o : Outcome) :
    World.SameServer w (t.step w o).1 := by
  unfold ReceiveTask.step
  cases t.pc <;> exact ⟨rfl, rfl, rfl, rfl, rfl, rfl⟩

/-- **No task changes the server's tables, the pause flag or the constant parts.** -/
theorem Task.step_same (t : Task) (w : World) (o : Outcome) :
    World.SameServer w (t.step w o).1 := by
  cases t with
  | chart t => exact t.step_same w o
  | group t => exact t.step_same w o
  | symbol t => exact t.step_same w o
  | receive t => exact t.step_same w o

/-! ## The captures stay -/

theorem ChartTask.step_captures (t : ChartTask) (w : World) (o : Outcome) :
    (t.step w o).2.symbolName = t.symbolName ∧ (t.step w o).2.digits = t.digits ∧
      (t.step w o).2.period = t.period := by
  unfold ChartTask.step
  cases t.pc with
  | quotes =>
    simp only
    split <;> exact ⟨rfl, rfl, rfl⟩
  | publish newest fromTime rate older =>
    simp only
    split <;> exact ⟨rfl, rfl, rfl⟩
  | _ => exact ⟨rfl, rfl, rfl⟩

/-! ## The publish calls -/

/-- The topic and the message of the `publish` call a task stands before. -/
def Task.atPublish (names : Names) : Task → Option (Bytes × Message)
  | .chart t =>
    match t.pc with
    | .publish _ _ rate _ => some (names.topicNameMt4Candle, .candle (t.candle rate))
    | _ => none
  | .group t =>
    match t.pc with
    | .marginPublish _ m | .symbolPublish _ m => some (names.topicNameConSymbol, .symbol m)
    | _ => none
  | .symbol t =>
    match t.pc with
    | .publish _ _ m => some (names.topicNameConSymbol, .symbol m)
    | _ => none
  | .receive _ => none

/-- The call a task makes there. -/
def World.callOf (w : World) (status : NatsStatus) (p : Bytes × Message) : PublishCall :=
  ⟨p.1, p.2, TradeBridge.publish w.platform.getText status p.2.toJson⟩

/-- **The publish calls of one step**: the one the task stands before, if any. -/
theorem Task.step_calls (t : Task) (w : World) (o : Outcome) : (t.step w o).1.calls =
    w.calls ++ ((t.atPublish w.names).map (w.callOf o.status)).toList := by
  have hnone : w.calls = w.calls ++ [] := (List.append_nil _).symm
  cases t with
  | chart t =>
    obtain ⟨symbolName, digits, period, pc⟩ := t
    cases pc with
    | quotes =>
      simp only [Task.step, ChartTask.step]
      split <;> exact hnone
    | publish newest fromTime rate older =>
      simp only [Task.step, ChartTask.step]
      split <;> rfl
    | _ => exact hnone
  | group t =>
    obtain ⟨group, pc⟩ := t
    cases pc with
    | marginGet i margin =>
      simp only [Task.step, GroupTask.step]
      split <;> exact hnone
    | marginPublish i m =>
      simp only [Task.step, GroupTask.step]
      split <;> rfl
    | symbolsNext i =>
      simp only [Task.step, GroupTask.step]
      split <;> exact hnone
    | symbolPublish i m =>
      simp only [Task.step, GroupTask.step]
      split <;> rfl
    | _ => exact hnone
  | symbol t =>
    obtain ⟨symbol, pc⟩ := t
    cases pc with
    | groupsNext i =>
      simp only [Task.step, SymbolTask.step]
      split <;> exact hnone
    | publish i group m =>
      simp only [Task.step, SymbolTask.step]
      split <;> rfl
    | _ => exact hnone
  | receive t =>
    obtain ⟨topicName, pc⟩ := t
    cases pc <;> exact hnone

/-! ## Exceptions -/

theorem loop_threw (symbolName : Bytes) (digits : Int32) (period : Int) (newest : RateInfo)
    (fromTime : Int) (rest : List RateInfo) :
    (Task.chart ⟨symbolName, digits, period, .loop newest fromTime rest⟩).threw = false := by
  cases rest with
  | nil => rfl
  | cons rate older =>
    simp only [ChartPc.loop]
    split
    · rfl
    · split <;> rfl

theorem marginLoop_threw (group : ConGroup) (i : Nat) :
    (Task.group ⟨group, .marginLoop group i⟩).threw = false := by
  unfold GroupPc.marginLoop
  cases group.secmargins[i]? with
  | none => rfl
  | some margin =>
    simp only
    split <;> rfl

theorem symbolBody_threw (group : ConGroup) (i : Nat) (symbol : ConSymbol) :
    (Task.group ⟨group, .symbolBody group i symbol⟩).threw = false := by
  unfold GroupPc.symbolBody
  cases makeGroupSymbol group symbol none <;> rfl

theorem symbolTask_body_threw (symbol : ConSymbol) (i : Nat) (group : ConGroup) :
    (Task.symbol ⟨symbol, .body symbol i group⟩).threw = false := by
  unfold SymbolPc.body
  cases makeGroupSymbol group symbol (symbolMarginSec group symbol) <;> rfl

/-- The three ends of a publish step: `ok` and `error` go on at a place that has not thrown. -/
theorem publish_step_threw (w : World) (status : NatsStatus) {p : Bytes × Message} {t' : Task}
    (hthrew : (w.publish status p.1 p.2).2 = .threw → t'.threw = true)
    (helse : (w.publish status p.1 p.2).2 ≠ .threw → t'.threw = false) :
    t'.threw = true ↔ p.2.toJson.encodable = false := by
  rw [World.publish_snd, publish_threw_iff] at hthrew
  rw [World.publish_snd, ne_eq, publish_threw_iff] at helse
  refine ⟨fun h => ?_, hthrew⟩
  by_contra he
  rw [helse he] at h
  exact absurd h (by decide)

theorem threw_iff_of_atPublish {names : Names} {t t' : Task} {p : Bytes × Message}
    (ht : t.threw = false) (hp : t.atPublish names = some p)
    (h : t'.threw = true ↔ p.2.toJson.encodable = false) :
    t'.threw = true ↔
      t.threw = true ∨ ∃ p, t.atPublish names = some p ∧ p.2.toJson.encodable = false := by
  rw [h, ht, hp]
  simp

theorem threw_iff_of_no_publish {names : Names} {t t' : Task} (hp : t.atPublish names = none)
    (h : t'.threw = t.threw) :
    t'.threw = true ↔
      t.threw = true ∨ ∃ p, t.atPublish names = some p ∧ p.2.toJson.encodable = false := by
  rw [h, hp]
  simp

theorem ChartTask.step_threw (t : ChartTask) (w : World) (o : Outcome) :
    (Task.chart (t.step w o).2).threw = true ↔ (Task.chart t).threw = true ∨
      ∃ p, (Task.chart t).atPublish w.names = some p ∧ p.2.toJson.encodable = false := by
  obtain ⟨symbolName, digits, period, pc⟩ := t
  cases pc with
  | quotes =>
    refine threw_iff_of_no_publish rfl ?_
    simp only [ChartTask.step]
    split <;> rfl
  | load newest rates => exact threw_iff_of_no_publish rfl (loop_threw _ _ _ _ _ _)
  | stop newest fromTime rate older =>
    refine threw_iff_of_no_publish rfl ?_
    simp only [ChartTask.step]
    split <;> rfl
  | publish newest fromTime rate older =>
    refine threw_iff_of_atPublish rfl rfl (publish_step_threw w o.status (fun h => ?_) fun h => ?_)
    · simp only [ChartTask.step, h]
      rfl
    · simp only [ChartTask.step]
      split
      · exact loop_threw _ _ _ _ _ _
      · rfl
      · rename_i h'
        exact absurd h' h
  | failed newest fromTime older e => exact threw_iff_of_no_publish rfl (loop_threw _ _ _ _ _ _)
  | save newest => exact threw_iff_of_no_publish rfl rfl
  | done => exact threw_iff_of_no_publish rfl rfl
  | threw => exact threw_iff_of_no_publish rfl rfl

theorem GroupTask.step_threw (t : GroupTask) (w : World) (o : Outcome) :
    (Task.group (t.step w o).2).threw = true ↔ (Task.group t).threw = true ∨
      ∃ p, (Task.group t).atPublish w.names = some p ∧ p.2.toJson.encodable = false := by
  obtain ⟨group, pc⟩ := t
  cases pc with
  | start => exact threw_iff_of_no_publish rfl (marginLoop_threw _ _)
  | marginStop i margin =>
    refine threw_iff_of_no_publish rfl ?_
    simp only [GroupTask.step]
    split <;> rfl
  | marginGet i margin =>
    refine threw_iff_of_no_publish rfl ?_
    simp only [GroupTask.step]
    split
    · rfl
    · exact marginLoop_threw _ _
  | marginPublish i m =>
    refine threw_iff_of_atPublish rfl rfl (publish_step_threw w o.status (fun h => ?_) fun h => ?_)
    · simp only [GroupTask.step, h]
      rfl
    · simp only [GroupTask.step]
      split
      · exact marginLoop_threw _ _
      · rfl
      · rename_i h'
        exact absurd h' h
  | marginFailed i e => exact threw_iff_of_no_publish rfl (marginLoop_threw _ _)
  | symbolsNext i =>
    refine threw_iff_of_no_publish rfl ?_
    simp only [GroupTask.step]
    split
    · rfl
    · split
      · rfl
      · exact symbolBody_threw _ _ _
  | symbolStop i symbol =>
    refine threw_iff_of_no_publish rfl ?_
    simp only [GroupTask.step]
    split
    · rfl
    · exact symbolBody_threw _ _ _
  | symbolPublish i m =>
    refine threw_iff_of_atPublish rfl rfl (publish_step_threw w o.status (fun h => ?_) fun h => ?_)
    · simp only [GroupTask.step, h]
      rfl
    · simp only [GroupTask.step]
      split
      · rfl
      · rfl
      · rename_i h'
        exact absurd h' h
  | symbolFailed i e => exact threw_iff_of_no_publish rfl rfl
  | done => exact threw_iff_of_no_publish rfl rfl
  | threw => exact threw_iff_of_no_publish rfl rfl

theorem SymbolTask.step_threw (t : SymbolTask) (w : World) (o : Outcome) :
    (Task.symbol (t.step w o).2).threw = true ↔ (Task.symbol t).threw = true ∨
      ∃ p, (Task.symbol t).atPublish w.names = some p ∧ p.2.toJson.encodable = false := by
  obtain ⟨symbol, pc⟩ := t
  cases pc with
  | start => exact threw_iff_of_no_publish rfl rfl
  | groupsNext i =>
    refine threw_iff_of_no_publish rfl ?_
    simp only [SymbolTask.step]
    split
    · rfl
    · split
      · rfl
      · exact symbolTask_body_threw _ _ _
  | stop i group =>
    refine threw_iff_of_no_publish rfl ?_
    simp only [SymbolTask.step]
    split
    · rfl
    · exact symbolTask_body_threw _ _ _
  | publish i group m =>
    refine threw_iff_of_atPublish rfl rfl (publish_step_threw w o.status (fun h => ?_) fun h => ?_)
    · simp only [SymbolTask.step, h]
      rfl
    · simp only [SymbolTask.step]
      split
      · rfl
      · rfl
      · rename_i h'
        exact absurd h' h
  | failed i group e => exact threw_iff_of_no_publish rfl rfl
  | done => exact threw_iff_of_no_publish rfl rfl
  | threw => exact threw_iff_of_no_publish rfl rfl

/-- **A task throws at a publish of a message that cannot be encoded**, and nowhere else. -/
theorem Task.step_threw (t : Task) (w : World) (o : Outcome) :
    (t.step w o).2.threw = true ↔
      t.threw = true ∨ ∃ p, t.atPublish w.names = some p ∧ p.2.toJson.encodable = false := by
  cases t with
  | chart t => exact t.step_threw w o
  | group t => exact t.step_threw w o
  | symbol t => exact t.step_threw w o
  | receive t => exact threw_iff_of_no_publish rfl rfl

/-! ## The calls and the messages sent only grow -/

/-- A call behind a step was there before it, or is the one the task stood before. -/
theorem Task.mem_step_calls {t : Task} {w : World} {o : Outcome} {c : PublishCall}
    (h : c ∈ (t.step w o).1.calls) :
    c ∈ w.calls ∨ ∃ p, t.atPublish w.names = some p ∧ w.callOf o.status p = c := by
  rw [t.step_calls w o] at h
  exact (List.mem_append.mp h).imp_right fun hc => Option.map_eq_some_iff.mp (Option.mem_toList.mp hc)

theorem Task.step_calls_grow (t : Task) (w : World) (o : Outcome) :
    w.calls <+: (t.step w o).1.calls := by
  rw [t.step_calls w o]
  exact List.prefix_append _ _

theorem World.sent_mono {w w' : World} (h : w.calls <+: w'.calls) {m : Message}
    (hm : m ∈ w.sent) : m ∈ w'.sent := by
  obtain ⟨cs, hcs⟩ := h
  unfold World.sent at hm ⊢
  rw [← hcs, List.filter_append, List.map_append]
  exact List.mem_append.mpr (Or.inl hm)

end TradeBridge
