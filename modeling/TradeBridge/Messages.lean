import TradeBridge.Lib.Threads
import TradeBridge.Steps

/-!
# The group/symbol messages a task has still to publish

Over fixed tables each of the two table tasks has, at every place, a list of `group_symbol`
messages still to come (`Task.todo`). A step either takes the head of it in a publish call or leaves
it, unless the task meets a pause or an exception (`step_todo`). So a system of such tasks
publishes an interleaving of what its tasks had to publish.

* `taskThreads` is that system: the tables are fixed, the pool is not paused, and every publish call
  ends with a result of `Allowed`.
* `attempted` are the messages of the publish calls, `sentSymbols` those of the successful ones.

Results:
* **`Task.step_todo`**: one step of a task takes the head of its messages or leaves them.
* **`attempted_emits`**: `Threads.Emits` for `attempted`, when no exception is allowed.
* `todo_ofGroup`, `todo_ofSymbol`: what a task has to publish when it starts.
-/

namespace TradeBridge

open TradeBridge.Lib

/-! ## The messages of a pass -/

/-- The message of the first loop of `publish_group_symbols` for one entry. -/
def marginEntry (symbols : List ConSymbol) (group : ConGroup) (margin : ConGroupMargin) :
    Option GroupSymbol :=
  (symbols.find? fun s => s.symbol == margin.symbol).bind fun s =>
    makeGroupSymbol group s (some margin)

/-- The message of the second loop of `publish_group_symbols` for one symbol. -/
def plainEntry (group : ConGroup) (symbol : ConSymbol) : Option GroupSymbol :=
  makeGroupSymbol group symbol none

/-- The message of `publish_symbol_for_groups` for one group. -/
def symbolEntry (symbol : ConSymbol) (group : ConGroup) : Option GroupSymbol :=
  makeGroupSymbol group symbol (symbolMarginSec group symbol)

/-- All messages of the task of `publish_group_symbols`. -/
def groupMessages (symbols : List ConSymbol) (group : ConGroup) : List GroupSymbol :=
  group.secmargins.filterMap (marginEntry symbols group) ++ symbols.filterMap (plainEntry group)

/-- All messages of the task of `publish_symbol_for_groups`. -/
def symbolMessages (groups : List ConGroup) (symbol : ConSymbol) : List GroupSymbol :=
  groups.filterMap (symbolEntry symbol)

/-- The messages of the first loop from entry `i`. -/
def marginRest (symbols : List ConSymbol) (group : ConGroup) (i : Nat) : List GroupSymbol :=
  (group.secmargins.drop i).filterMap (marginEntry symbols group)

/-- The messages of the second loop from symbol `i`. -/
def plainRest (symbols : List ConSymbol) (group : ConGroup) (i : Nat) : List GroupSymbol :=
  (symbols.drop i).filterMap (plainEntry group)

/-- The messages of the loop over the groups from group `i`. -/
def symbolRest (groups : List ConGroup) (symbol : ConSymbol) (i : Nat) : List GroupSymbol :=
  (groups.drop i).filterMap (symbolEntry symbol)

theorem filterMap_drop {α β : Type} {l : List α} {i : Nat} {a : α} (h : l[i]? = some a)
    (f : α → Option β) :
    (l.drop i).filterMap f = (f a).toList ++ (l.drop (i + 1)).filterMap f := by
  obtain ⟨hi, rfl⟩ := List.getElem?_eq_some_iff.mp h
  rw [List.drop_eq_getElem_cons hi, List.filterMap_cons]
  cases f l[i] <;> rfl

theorem filterMap_drop_none {α β : Type} {l : List α} {i : Nat} (h : l[i]? = none)
    (f : α → Option β) : (l.drop i).filterMap f = [] := by
  rw [List.drop_eq_nil_of_le (List.getElem?_eq_none_iff.mp h)]
  rfl

/-! ## What is still to come -/

/-- The messages the task of `publish_group_symbols` has still to publish. -/
def GroupTask.todo (symbols : List ConSymbol) (t : GroupTask) : List GroupSymbol :=
  match t.pc with
  | .start => groupMessages symbols t.group
  | .marginStop i margin | .marginGet i margin =>
    (marginEntry symbols t.group margin).toList ++ marginRest symbols t.group (i + 1) ++
      plainRest symbols t.group 0
  | .marginPublish i m => m :: marginRest symbols t.group (i + 1) ++ plainRest symbols t.group 0
  | .marginFailed i _ => marginRest symbols t.group (i + 1) ++ plainRest symbols t.group 0
  | .symbolsNext i => plainRest symbols t.group i
  | .symbolStop i s => (plainEntry t.group s).toList ++ plainRest symbols t.group (i + 1)
  | .symbolPublish i m => m :: plainRest symbols t.group (i + 1)
  | .symbolFailed i _ => plainRest symbols t.group (i + 1)
  | .done | .threw => []

/-- The messages the task of `publish_symbol_for_groups` has still to publish. -/
def SymbolTask.todo (groups : List ConGroup) (t : SymbolTask) : List GroupSymbol :=
  match t.pc with
  | .start => symbolMessages groups t.symbol
  | .groupsNext i => symbolRest groups t.symbol i
  | .stop i group => (symbolEntry t.symbol group).toList ++ symbolRest groups t.symbol (i + 1)
  | .publish i _ m => m :: symbolRest groups t.symbol (i + 1)
  | .failed i _ _ => symbolRest groups t.symbol (i + 1)
  | .done | .threw => []

/-- The `group_symbol` messages a task has still to publish. -/
def Task.todo (groups : List ConGroup) (symbols : List ConSymbol) : Task → List GroupSymbol
  | .group t => t.todo symbols
  | .symbol t => t.todo groups
  | .chart _ => []
  | .receive _ => []

theorem todo_ofGroup (groups : List ConGroup) (symbols : List ConSymbol) (group : ConGroup) :
    (Task.ofGroup group).todo groups symbols = groupMessages symbols group := rfl

theorem todo_ofSymbol (groups : List ConGroup) (symbols : List ConSymbol) (symbol : ConSymbol) :
    (Task.ofSymbol symbol).todo groups symbols = symbolMessages groups symbol := rfl

theorem todo_of_ended {groups : List ConGroup} {symbols : List ConSymbol} {t : Task}
    (h : t.ended = true) : t.todo groups symbols = [] := by
  cases t with
  | chart t => rfl
  | receive t => rfl
  | group t =>
    obtain ⟨group, pc⟩ := t
    cases pc <;> first | rfl | exact absurd h (by simp [Task.ended, Task.finished, Task.threw])
  | symbol t =>
    obtain ⟨symbol, pc⟩ := t
    cases pc <;> first | rfl | exact absurd h (by simp [Task.ended, Task.finished, Task.threw])

/-! ## One step -/

/-- What a step does to the publish calls and to the messages still to come: nothing, or one call
with the first of them. -/
def Emitted (w w' : World) (todo todo' : List GroupSymbol) (status : NatsStatus) : Prop :=
  (w'.calls = w.calls ∧ todo' = todo) ∨
    ∃ m, w'.calls = w.calls ++ [⟨w.names.topicNameConSymbol, .symbol m,
      publish w.platform.getText status m.toJson⟩] ∧ todo = m :: todo'

theorem marginLoop_todo (symbols : List ConSymbol) (group : ConGroup) (i : Nat) :
    GroupTask.todo symbols ⟨group, .marginLoop group i⟩ =
      marginRest symbols group i ++ plainRest symbols group 0 := by
  unfold GroupPc.marginLoop
  cases h : group.secmargins[i]? with
  | none =>
    unfold marginRest
    rw [filterMap_drop_none h]
    rfl
  | some margin =>
    unfold marginRest
    rw [filterMap_drop h]
    simp only
    split <;> rfl

theorem symbolBody_todo (symbols : List ConSymbol) (group : ConGroup) (i : Nat)
    (symbol : ConSymbol) : GroupTask.todo symbols ⟨group, .symbolBody group i symbol⟩ =
      (plainEntry group symbol).toList ++ plainRest symbols group (i + 1) := by
  unfold GroupPc.symbolBody plainEntry
  cases makeGroupSymbol group symbol none <;> rfl

/-- **One step of the task of `publish_group_symbols`**, not paused and not thrown out of. -/
theorem GroupTask.step_todo {t : GroupTask} {w : World} (o : Outcome) (hp : w.paused = false)
    (hthrew : (Task.group (t.step w o).2).threw = true → (Task.group t).threw = true) :
    Emitted w (t.step w o).1 (t.todo w.symbols) ((t.step w o).2.todo w.symbols) o.status := by
  obtain ⟨group, pc⟩ := t
  cases pc with
  | start =>
    refine Or.inl ⟨rfl, ?_⟩
    rw [show (GroupTask.step ⟨group, .start⟩ w o).2 = ⟨group, .marginLoop group 0⟩ from rfl,
      marginLoop_todo]
    rfl
  | marginStop i margin =>
    refine Or.inl ⟨rfl, ?_⟩
    simp only [GroupTask.step, hp]
    rfl
  | marginGet i margin =>
    left
    simp only [GroupTask.step]
    cases h : (w.symbolsGet margin.symbol).bind fun s => makeGroupSymbol group s (some margin) with
    | some m =>
      refine ⟨rfl, ?_⟩
      have he : marginEntry w.symbols group margin = some m := h
      simp only [GroupTask.todo, he]
      rfl
    | none =>
      refine ⟨rfl, ?_⟩
      have he : marginEntry w.symbols group margin = none := h
      rw [marginLoop_todo]
      simp only [GroupTask.todo, he]
      rfl
  | marginPublish i m =>
    right
    refine ⟨m, ?_, ?_⟩
    · simp only [GroupTask.step, World.publish_snd, World.publish_fst]
      split <;> rfl
    · simp only [GroupTask.step] at hthrew ⊢
      split
      · simp only [marginLoop_todo]
        rfl
      · rfl
      · rename_i h
        simp only [h] at hthrew
        exact Bool.noConfusion (hthrew rfl)
  | marginFailed i e =>
    refine Or.inl ⟨rfl, ?_⟩
    simp only [GroupTask.step, marginLoop_todo]
    rfl
  | symbolsNext i =>
    left
    simp only [GroupTask.step]
    cases h : w.symbols[i]? with
    | none =>
      refine ⟨rfl, ?_⟩
      simp only [GroupTask.todo, plainRest, filterMap_drop_none h]
    | some symbol =>
      refine ⟨rfl, ?_⟩
      have hrest : plainRest w.symbols group i
          = (plainEntry group symbol).toList ++ plainRest w.symbols group (i + 1) :=
        filterMap_drop h _
      by_cases hc : checksPause i = true
      · simp only [hc, if_true, GroupTask.todo, hrest]
      · simp only [if_neg hc, symbolBody_todo]
        exact hrest.symm
  | symbolStop i symbol =>
    refine Or.inl ⟨rfl, ?_⟩
    simp only [GroupTask.step, hp, Bool.false_eq_true, if_false, symbolBody_todo]
    rfl
  | symbolPublish i m =>
    right
    refine ⟨m, ?_, ?_⟩
    · simp only [GroupTask.step, World.publish_snd, World.publish_fst]
      split <;> rfl
    · simp only [GroupTask.step] at hthrew ⊢
      split
      · rfl
      · rfl
      · rename_i h
        simp only [h] at hthrew
        exact Bool.noConfusion (hthrew rfl)
  | symbolFailed i e => exact Or.inl ⟨rfl, rfl⟩
  | done => exact Or.inl ⟨rfl, rfl⟩
  | threw => exact Or.inl ⟨rfl, rfl⟩

theorem symbolTask_body_todo (groups : List ConGroup) (symbol : ConSymbol) (i : Nat)
    (group : ConGroup) : SymbolTask.todo groups ⟨symbol, .body symbol i group⟩ =
      (symbolEntry symbol group).toList ++ symbolRest groups symbol (i + 1) := by
  unfold SymbolPc.body symbolEntry
  cases makeGroupSymbol group symbol (symbolMarginSec group symbol) <;> rfl

/-- **One step of the task of `publish_symbol_for_groups`**, not paused and not thrown out of. -/
theorem SymbolTask.step_todo {t : SymbolTask} {w : World} (o : Outcome) (hp : w.paused = false)
    (hthrew : (Task.symbol (t.step w o).2).threw = true → (Task.symbol t).threw = true) :
    Emitted w (t.step w o).1 (t.todo w.groups) ((t.step w o).2.todo w.groups) o.status := by
  obtain ⟨symbol, pc⟩ := t
  cases pc with
  | start => exact Or.inl ⟨rfl, rfl⟩
  | groupsNext i =>
    left
    simp only [SymbolTask.step]
    cases h : w.groups[i]? with
    | none =>
      refine ⟨rfl, ?_⟩
      simp only [SymbolTask.todo, symbolRest, filterMap_drop_none h]
    | some group =>
      refine ⟨rfl, ?_⟩
      have hrest : symbolRest w.groups symbol i
          = (symbolEntry symbol group).toList ++ symbolRest w.groups symbol (i + 1) :=
        filterMap_drop h _
      by_cases hc : checksPause i = true
      · simp only [hc, if_true, SymbolTask.todo, hrest]
      · simp only [if_neg hc, symbolTask_body_todo]
        exact hrest.symm
  | stop i group =>
    refine Or.inl ⟨rfl, ?_⟩
    simp only [SymbolTask.step, hp, Bool.false_eq_true, if_false, symbolTask_body_todo]
    rfl
  | publish i group m =>
    right
    refine ⟨m, ?_, ?_⟩
    · simp only [SymbolTask.step, World.publish_snd, World.publish_fst]
      split <;> rfl
    · simp only [SymbolTask.step] at hthrew ⊢
      split
      · rfl
      · rfl
      · rename_i h
        simp only [h] at hthrew
        exact Bool.noConfusion (hthrew rfl)
  | failed i group e => exact Or.inl ⟨rfl, rfl⟩
  | done => exact Or.inl ⟨rfl, rfl⟩
  | threw => exact Or.inl ⟨rfl, rfl⟩

/-! ## The system -/

/-- The symbol messages among `ms`. -/
def symbolsOf (ms : List Message) : List GroupSymbol :=
  ms.filterMap fun
    | .symbol m => some m
    | _ => none

/-- The symbol messages of all publish calls, oldest first. -/
def World.attempted (w : World) : List GroupSymbol := symbolsOf (w.calls.map PublishCall.message)

/-- The symbol messages published successfully, oldest first. -/
def World.sentSymbols (w : World) : List GroupSymbol := symbolsOf w.sent

theorem World.attempted_congr {w w' : World} (h : w'.calls = w.calls) :
    w'.attempted = w.attempted := by
  unfold World.attempted
  rw [h]

theorem World.attempted_append {w w' : World} {c : PublishCall} (h : w'.calls = w.calls ++ [c]) :
    w'.attempted = w.attempted ++ symbolsOf [c.message] := by
  unfold World.attempted symbolsOf
  rw [h, List.map_append, List.filterMap_append, List.map_singleton]

/-- When every publish succeeded, the messages sent are those of the calls. -/
theorem World.sentSymbols_eq_attempted {w : World} (h : ∀ c ∈ w.calls, c.result = .ok) :
    w.sentSymbols = w.attempted := by
  have hall : w.calls.filter (fun c => c.result == .ok) = w.calls :=
    List.filter_eq_self.mpr fun c hc => beq_iff_eq.mpr (h c hc)
  unfold World.sentSymbols World.attempted World.sent
  rw [hall]

/-- Tasks over tables that do not change, never paused, whose publish calls all end with an
`Allowed` result. -/
def taskThreads (Allowed : PublishResult → Prop) : Threads World Task where
  env _ _ := False
  spawn _ _ := False
  run w t w' t' := ∃ o, t.step w o = (w', t') ∧ ∀ c ∈ w'.calls, Allowed c.result

/-- The tables, in a pool that is not paused. -/
structure OverTables (groups : List ConGroup) (symbols : List ConSymbol) (w : World) : Prop where
  groups : w.groups = groups
  symbols : w.symbols = symbols
  paused : w.paused = false

theorem OverTables.step {groups : List ConGroup} {symbols : List ConSymbol} {w w' : World}
    (h : OverTables groups symbols w) (hs : World.SameServer w w') :
    OverTables groups symbols w' :=
  ⟨hs.groups.trans h.groups, hs.symbols.trans h.symbols, hs.paused.trans h.paused⟩

/-- A chart task publishes no symbol message. -/
theorem ChartTask.step_attempted (t : ChartTask) (w : World) (o : Outcome) :
    (t.step w o).1.attempted = w.attempted := by
  unfold ChartTask.step
  cases t.pc with
  | quotes =>
    simp only
    split <;> rfl
  | publish newest fromTime rate older =>
    have hcall : (w.publish o.status w.names.topicNameMt4Candle
        (.candle (t.candle rate))).1.attempted = w.attempted :=
      (World.attempted_append rfl).trans (List.append_nil _)
    simp only
    split <;> exact hcall
  | _ => rfl

theorem Emitted.attempted {w w' : World} {todo todo' : List GroupSymbol} {status : NatsStatus}
    (h : Emitted w w' todo todo' status) :
    (w'.attempted = w.attempted ∧ todo' = todo) ∨
      ∃ m, w'.attempted = w.attempted ++ [m] ∧ todo = m :: todo' := by
  rcases h with ⟨hc, ht⟩ | ⟨m, hc, ht⟩
  · exact Or.inl ⟨World.attempted_congr hc, ht⟩
  · exact Or.inr ⟨m, World.attempted_append hc, ht⟩

/-- **One step of a task** takes the head of its messages, or leaves them. -/
theorem Task.step_todo {groups : List ConGroup} {symbols : List ConSymbol} {w : World}
    (hw : OverTables groups symbols w) (t : Task) (o : Outcome)
    (hthrew : (t.step w o).2.threw = true → t.threw = true) :
    ((t.step w o).1.attempted = w.attempted ∧
        (t.step w o).2.todo groups symbols = t.todo groups symbols) ∨
      ∃ m, (t.step w o).1.attempted = w.attempted ++ [m] ∧
        t.todo groups symbols = m :: (t.step w o).2.todo groups symbols := by
  obtain ⟨rfl, rfl, hp⟩ := hw
  cases t with
  | chart t => exact Or.inl ⟨t.step_attempted w o, rfl⟩
  | group t => exact (GroupTask.step_todo o hp hthrew).attempted
  | symbol t => exact (SymbolTask.step_todo o hp hthrew).attempted
  | receive t =>
    refine Or.inl ⟨World.attempted_congr ?_, rfl⟩
    obtain ⟨topicName, pc⟩ := t
    cases pc <;> rfl

/-- **The tasks emit what they have to publish**, as long as no exception is allowed. -/
theorem attempted_emits (groups : List ConGroup) (symbols : List ConSymbol)
    {Allowed : PublishResult → Prop} (hne : ¬ Allowed .threw) :
    Threads.Emits (taskThreads Allowed) (OverTables groups symbols) World.attempted
      (Task.todo groups symbols) where
  env _ he := absurd he id
  spawn _ := id
  run_inv := by
    rintro w t w' t' hw ⟨o, hstep, -⟩
    have hw' : w' = (t.step w o).1 := congrArg Prod.fst hstep.symm
    exact hw' ▸ hw.step (t.step_same w o)
  run_out := by
    rintro w t w' t' hw ⟨o, hstep, hall⟩
    have hw' : w' = (t.step w o).1 := congrArg Prod.fst hstep.symm
    have ht' : t' = (t.step w o).2 := congrArg Prod.snd hstep.symm
    subst hw' ht'
    refine Task.step_todo hw t o fun h => ?_
    rcases (t.step_threw w o).mp h with hthrew | ⟨p, hp, he⟩
    · exact hthrew
    · -- the call of this step threw, which is not allowed
      have hmem : w.callOf o.status p ∈ (t.step w o).1.calls := by
        rw [t.step_calls w o, hp]
        exact List.mem_append.mpr (Or.inr (List.mem_singleton_self _))
      have hres : (w.callOf o.status p).result = .threw := publish_threw_iff.mpr he
      exact absurd (hres ▸ hall _ hmem) hne

end TradeBridge
