import Mathlib.Data.List.Pairwise
import TradeBridge.Agreement

/-!
# Groups and symbols that are added while tasks run

The server appends a group or a symbol to its table and then calls the hook, which detaches a task
with a copy of the entry; the tasks that run already walk the other table position by position while
it grows. A pair of a group and a symbol is published by the task of the one whose hook was called
later, as it starts when the other is in its table: its messages (`Task.todo`) hold one for the
pair from its start, growth of the tables adds to them only, and a step takes one of them by
publishing it.

Results:
* `GroupTask.todo_grows`, `SymbolTask.todo_grows`: the messages of a task stay when an entry is
  appended, and those it adds are for the pair of the two.
* `covered_invariant`: of two tasks whose pair is not published yet, one has a message for it.
* **`no_pair_lost`**: when all tasks have returned, every hooked pair that is shown has been
  published, and none that is not shown ever is.
-/

namespace TradeBridge

open TradeBridge.Lib

/-! ## The system -/

/-- The server appends an entry with a new name to one of its tables. -/
def Appends (w w' : World) : Prop :=
  (∃ group : ConGroup, (∀ g ∈ w.groups, g.group ≠ group.group) ∧
    w' = { w with groups := w.groups ++ [group] }) ∨
  ∃ symbol : ConSymbol, (∀ s ∈ w.symbols, s.symbol ≠ symbol.symbol) ∧
    w' = { w with symbols := w.symbols ++ [symbol] }

/-- Tables that grow, hooks called for their entries, and tasks whose publishes succeed. -/
def growingThreads : Threads World Task where
  env := Appends
  spawn w t := (∃ group ∈ w.groups, t ∈ handleGroup (some group)) ∨
    ∃ symbol ∈ w.symbols, t ∈ handleSymbol (some symbol)
  run := (taskThreads (· = .ok)).run

/-- The group a task was detached for. -/
def Task.group? : Task → Option ConGroup
  | .group t => some t.group
  | _ => none

/-- The symbol a task was detached for. -/
def Task.symbol? : Task → Option ConSymbol
  | .symbol t => some t.symbol
  | _ => none

/-- The hook was called for the group, and it was for the symbol. -/
def BothHooked (tasks : List Task) (group : ConGroup) (symbol : ConSymbol) : Prop :=
  (∃ t ∈ tasks, t.group? = some group) ∧ ∃ t ∈ tasks, t.symbol? = some symbol

/-- The message is for the pair. -/
def ForPairOf (group : ConGroup) (symbol : ConSymbol) (m : GroupSymbol) : Prop :=
  ∃ margin, makeGroupSymbol group symbol margin = some m

/-- A message for the pair is among `ms`. -/
def HasPair (ms : List GroupSymbol) (group : ConGroup) (symbol : ConSymbol) : Prop :=
  ∃ m ∈ ms, ForPairOf group symbol m

/-- The message is for a pair of the tables. -/
def OfTables (w : World) (m : GroupSymbol) : Prop :=
  ∃ group ∈ w.groups, ∃ symbol ∈ w.symbols, ForPairOf group symbol m

/-- The names of each table are distinct. -/
structure DistinctNames (w : World) : Prop where
  groups : (w.groups.map ConGroup.group).Nodup
  symbols : (w.symbols.map ConSymbol.symbol).Nodup

/-! ## What an appended entry adds -/

variable {groups : List ConGroup} {symbols : List ConSymbol}

/-- Every message stays, and one that is new is for the pair. -/
structure GrowsBy (group : ConGroup) (symbol : ConSymbol) (ms ms' : List GroupSymbol) : Prop where
  mono : ∀ m ∈ ms, m ∈ ms'
  new : ∀ m ∈ ms', m ∈ ms ∨ ForPairOf group symbol m

namespace GrowsBy

variable {group : ConGroup} {symbol : ConSymbol}

theorem refl (ms : List GroupSymbol) : GrowsBy group symbol ms ms :=
  ⟨fun _ hm => hm, fun _ hm => Or.inl hm⟩

theorem append {ms₁ ms₁' ms₂ ms₂' : List GroupSymbol} (h₁ : GrowsBy group symbol ms₁ ms₁')
    (h₂ : GrowsBy group symbol ms₂ ms₂') : GrowsBy group symbol (ms₁ ++ ms₂) (ms₁' ++ ms₂') := by
  constructor
  · intro m hm
    exact List.mem_append.mpr ((List.mem_append.mp hm).imp (h₁.mono m) (h₂.mono m))
  · intro m hm
    rcases List.mem_append.mp hm with hm | hm
    · exact (h₁.new m hm).imp_left fun h => List.mem_append.mpr (Or.inl h)
    · exact (h₂.new m hm).imp_left fun h => List.mem_append.mpr (Or.inr h)

theorem cons {ms ms' : List GroupSymbol} (m : GroupSymbol) (h : GrowsBy group symbol ms ms') :
    GrowsBy group symbol (m :: ms) (m :: ms') :=
  (refl [m]).append h

/-- A loop over the rest of a table comes to the entry that is appended. -/
theorem filterMap_drop {α : Type} (l : List α) {a : α} (i : Nat) {f : α → Option GroupSymbol}
    (h : ∀ m, f a = some m → ForPairOf group symbol m) :
    GrowsBy group symbol ((l.drop i).filterMap f) (((l ++ [a]).drop i).filterMap f) := by
  rw [List.drop_append, List.filterMap_append]
  constructor
  · exact fun m hm => List.mem_append.mpr (Or.inl hm)
  · intro m hm
    refine (List.mem_append.mp hm).imp_right fun hm => ?_
    obtain ⟨x, hx, hfx⟩ := List.mem_filterMap.mp hm
    rw [List.mem_singleton.mp (List.mem_of_mem_drop hx)] at hfx
    exact h m hfx

/-- A loop over a list that stays makes more of an entry when the body does. -/
theorem filterMap {α : Type} (l : List α) {f f' : α → Option GroupSymbol}
    (h : ∀ a ∈ l, GrowsBy group symbol (f a).toList (f' a).toList) :
    GrowsBy group symbol (l.filterMap f) (l.filterMap f') := by
  constructor
  · intro m hm
    obtain ⟨a, ha, hfa⟩ := List.mem_filterMap.mp hm
    have hnew := (h a ha).mono m (Option.mem_toList.mpr hfa)
    exact List.mem_filterMap.mpr ⟨a, ha, Option.mem_toList.mp hnew⟩
  · intro m hm
    obtain ⟨a, ha, hfa⟩ := List.mem_filterMap.mp hm
    refine ((h a ha).new m (Option.mem_toList.mpr hfa)).imp_left fun hold => ?_
    exact List.mem_filterMap.mpr ⟨a, ha, Option.mem_toList.mp hold⟩

end GrowsBy

/-- An entry whose symbol is found goes on finding it; another may find the new one. -/
theorem marginEntry_append (symbols : List ConSymbol) (group : ConGroup) (margin : ConGroupMargin)
    (symbol : ConSymbol) :
    marginEntry (symbols ++ [symbol]) group margin = marginEntry symbols group margin ∨
      (marginEntry symbols group margin = none ∧
        marginEntry (symbols ++ [symbol]) group margin =
          makeGroupSymbol group symbol (some margin)) := by
  unfold marginEntry
  rw [List.find?_append]
  cases symbols.find? fun s => s.symbol == margin.symbol with
  | some found => exact Or.inl rfl
  | none =>
    rw [Option.none_or, List.find?_singleton]
    split
    · exact Or.inr ⟨rfl, rfl⟩
    · exact Or.inl rfl

theorem marginEntry_grows (symbols : List ConSymbol) (group : ConGroup) (margin : ConGroupMargin)
    (symbol : ConSymbol) : GrowsBy group symbol (marginEntry symbols group margin).toList
      (marginEntry (symbols ++ [symbol]) group margin).toList := by
  rcases marginEntry_append symbols group margin symbol with he | ⟨hnone, he⟩
  · rw [he]
    exact .refl _
  · rw [hnone, he]
    exact ⟨fun m hm => absurd hm List.not_mem_nil,
      fun m hm => Or.inr ⟨some margin, Option.mem_toList.mp hm⟩⟩

theorem marginRest_grows (symbols : List ConSymbol) (group : ConGroup) (symbol : ConSymbol)
    (i : Nat) : GrowsBy group symbol (marginRest symbols group i)
      (marginRest (symbols ++ [symbol]) group i) :=
  .filterMap _ fun margin _ => marginEntry_grows symbols group margin symbol

theorem plainRest_grows (symbols : List ConSymbol) (group : ConGroup) (symbol : ConSymbol)
    (i : Nat) : GrowsBy group symbol (plainRest symbols group i)
      (plainRest (symbols ++ [symbol]) group i) :=
  .filterMap_drop symbols i fun _ hm => ⟨none, hm⟩

theorem symbolRest_grows (groups : List ConGroup) (group : ConGroup) (symbol : ConSymbol)
    (i : Nat) : GrowsBy group symbol (symbolRest groups symbol i)
      (symbolRest (groups ++ [group]) symbol i) :=
  .filterMap_drop groups i fun _ hm => ⟨symbolMarginSec group symbol, hm⟩

/-- What an appended symbol adds to the messages of a group's task. -/
theorem GroupTask.todo_grows (t : GroupTask) (symbols : List ConSymbol) (symbol : ConSymbol) :
    GrowsBy t.group symbol (t.todo symbols) (t.todo (symbols ++ [symbol])) := by
  obtain ⟨group, pc⟩ := t
  have hmargins := marginRest_grows symbols group symbol
  have hplain := plainRest_grows symbols group symbol
  cases pc with
  | start => exact (hmargins 0).append (hplain 0)
  | marginStop i margin | marginGet i margin =>
    exact ((marginEntry_grows symbols group margin symbol).append (hmargins (i + 1))).append
      (hplain 0)
  | marginPublish i m => exact ((hmargins (i + 1)).cons m).append (hplain 0)
  | marginFailed i e => exact (hmargins (i + 1)).append (hplain 0)
  | symbolsNext i => exact hplain i
  | symbolStop i s => exact (GrowsBy.refl _).append (hplain (i + 1))
  | symbolPublish i m => exact (hplain (i + 1)).cons m
  | symbolFailed i e => exact hplain (i + 1)
  | done | threw => exact .refl _

/-- What an appended group adds to the messages of a symbol's task. -/
theorem SymbolTask.todo_grows (t : SymbolTask) (groups : List ConGroup) (group : ConGroup) :
    GrowsBy group t.symbol (t.todo groups) (t.todo (groups ++ [group])) := by
  obtain ⟨symbol, pc⟩ := t
  have hrest := symbolRest_grows groups group symbol
  cases pc with
  | start => exact hrest 0
  | groupsNext i => exact hrest i
  | stop i g => exact (GrowsBy.refl _).append (hrest (i + 1))
  | publish i g m => exact (hrest (i + 1)).cons m
  | failed i g e => exact hrest (i + 1)
  | done | threw => exact .refl _

/-- **An appended symbol** adds to a group's task only messages for the pair of the two. -/
theorem Task.mem_todo_symbol {t : Task} {symbol : ConSymbol} {m : GroupSymbol}
    (h : m ∈ t.todo groups (symbols ++ [symbol])) : m ∈ t.todo groups symbols ∨
      ∃ group, t.group? = some group ∧ ForPairOf group symbol m := by
  cases t with
  | chart t | symbol t | receive t => exact Or.inl h
  | group t =>
    exact ((t.todo_grows symbols symbol).new m h).imp_right fun hp => ⟨t.group, rfl, hp⟩

/-- **An appended group** adds to a symbol's task only messages for the pair of the two. -/
theorem Task.mem_todo_group {t : Task} {group : ConGroup} {m : GroupSymbol}
    (h : m ∈ t.todo (groups ++ [group]) symbols) : m ∈ t.todo groups symbols ∨
      ∃ symbol, t.symbol? = some symbol ∧ ForPairOf group symbol m := by
  cases t with
  | chart t | group t | receive t => exact Or.inl h
  | symbol t =>
    exact ((t.todo_grows groups group).new m h).imp_right fun hp => ⟨t.symbol, rfl, hp⟩

/-! ## One step of a task -/

theorem Task.step_group? (t : Task) (w : World) (o : Outcome) :
    (t.step w o).2.group? = t.group? := by
  cases t with
  | chart t | symbol t | receive t => rfl
  | group t =>
    obtain ⟨group, pc⟩ := t
    cases pc with
    | marginGet i margin | marginPublish i m | symbolsNext i | symbolPublish i m =>
      simp only [Task.step, GroupTask.step]
      split <;> rfl
    | _ => rfl

theorem Task.step_symbol? (t : Task) (w : World) (o : Outcome) :
    (t.step w o).2.symbol? = t.symbol? := by
  cases t with
  | chart t | group t | receive t => rfl
  | symbol t =>
    obtain ⟨symbol, pc⟩ := t
    cases pc with
    | groupsNext i | publish i g m =>
      simp only [Task.step, SymbolTask.step]
      split <;> rfl
    | _ => rfl

/-- What a step leaves as it is, and what it does to the messages. -/
structure StepsTodo (w : World) (t : Task) (w' : World) (t' : Task) : Prop where
  groups : w'.groups = w.groups
  symbols : w'.symbols = w.symbols
  paused : w'.paused = w.paused
  calls : ∀ c ∈ w'.calls, c.result = .ok
  group? : t'.group? = t.group?
  symbol? : t'.symbol? = t.symbol?
  todo : (w'.attempted = w.attempted ∧
      t'.todo w.groups w.symbols = t.todo w.groups w.symbols) ∨
    ∃ m, w'.attempted = w.attempted ++ [m] ∧
      t.todo w.groups w.symbols = m :: t'.todo w.groups w.symbols

theorem stepsTodo_of_run {w w' : World} {t t' : Task} (hp : w.paused = false)
    (h : growingThreads.run w t w' t') : StepsTodo w t w' t' := by
  have hw : OverTables w.groups w.symbols w := ⟨rfl, rfl, hp⟩
  have hemits : Threads.Emits (taskThreads (· = .ok)) (OverTables w.groups w.symbols)
      World.attempted (Task.todo w.groups w.symbols) :=
    attempted_emits w.groups w.symbols (by decide)
  have hout := hemits.run_out hw h
  obtain ⟨o, hstep, hok⟩ := h
  have hsame : World.SameServer w w' := by
    have := t.step_same w o
    rwa [hstep] at this
  have ht' : t' = (t.step w o).2 := congrArg Prod.snd hstep.symm
  exact ⟨hsame.groups, hsame.symbols, hsame.paused, hok, ht' ▸ t.step_group? w o,
    ht' ▸ t.step_symbol? w o, hout⟩

/-! ## No message is for anything but a pair of the tables -/

/-- Distinct names, no pause, no failed call, and only messages for pairs of the tables. -/
structure Grown (w : World) : Prop where
  names : DistinctNames w
  paused : w.paused = false
  calls : ∀ c ∈ w.calls, c.result = .ok
  attempted : ∀ m ∈ w.attempted, OfTables w m

/-- The task's entry is in its table, and its messages are for pairs of the tables. -/
structure OverGrown (w : World) (t : Task) : Prop where
  group : ∀ group, t.group? = some group → group ∈ w.groups
  symbol : ∀ symbol, t.symbol? = some symbol → symbol ∈ w.symbols
  todo : ∀ m ∈ t.todo w.groups w.symbols, OfTables w m

theorem OfTables.mono {w w' : World} {m : GroupSymbol} (hg : ∀ g ∈ w.groups, g ∈ w'.groups)
    (hs : ∀ s ∈ w.symbols, s ∈ w'.symbols) (h : OfTables w m) : OfTables w' m := by
  obtain ⟨group, hgroup, symbol, hsymbol, hm⟩ := h
  exact ⟨group, hg group hgroup, symbol, hs symbol hsymbol, hm⟩

theorem OfTables.step {w w' : World} {t t' : Task} {m : GroupSymbol} (h : OfTables w m)
    (hs : StepsTodo w t w' t') : OfTables w' m :=
  h.mono (fun _ hg => hs.groups ▸ hg) fun _ hmem => hs.symbols ▸ hmem

/-- Every entry stays. -/
theorem Appends.mem {w w' : World} (h : Appends w w') :
    (∀ g ∈ w.groups, g ∈ w'.groups) ∧ ∀ s ∈ w.symbols, s ∈ w'.symbols := by
  rcases h with ⟨group, -, rfl⟩ | ⟨symbol, -, rfl⟩
  · exact ⟨fun g hg => List.mem_append.mpr (Or.inl hg), fun s hs => hs⟩
  · exact ⟨fun g hg => hg, fun s hs => List.mem_append.mpr (Or.inl hs)⟩

theorem nodup_map_append {α β : Type} {l : List α} {a : α} {f : α → β} (h : (l.map f).Nodup)
    (hnew : ∀ x ∈ l, f x ≠ f a) : ((l ++ [a]).map f).Nodup := by
  rw [List.map_append, List.map_singleton]
  refine List.nodup_append.mpr ⟨h, List.nodup_singleton _, ?_⟩
  rintro y hy z hz rfl
  obtain ⟨x, hx, rfl⟩ := List.mem_map.mp hy
  exact hnew x hx (List.mem_singleton.mp hz)

theorem Grown.append {w w' : World} (h : Grown w) (ha : Appends w w') : Grown w' := by
  have hmem := ha.mem
  rcases ha with ⟨group, hnew, rfl⟩ | ⟨symbol, hnew, rfl⟩
  · exact ⟨⟨nodup_map_append h.names.groups hnew, h.names.symbols⟩, h.paused, h.calls,
      fun m hm => (h.attempted m hm).mono hmem.1 hmem.2⟩
  · exact ⟨⟨h.names.groups, nodup_map_append h.names.symbols hnew⟩, h.paused, h.calls,
      fun m hm => (h.attempted m hm).mono hmem.1 hmem.2⟩

theorem OverGrown.append {w w' : World} {t : Task} (h : OverGrown w t) (ha : Appends w w') :
    OverGrown w' t := by
  obtain ⟨hg, hs⟩ := ha.mem
  refine ⟨fun g hgroup => hg g (h.group g hgroup), fun s hsymbol => hs s (h.symbol s hsymbol),
    fun m hm => ?_⟩
  rcases ha with ⟨group, -, rfl⟩ | ⟨symbol, -, rfl⟩
  · rcases Task.mem_todo_group hm with hm | ⟨symbol, hsymbol, hm⟩
    · exact (h.todo m hm).mono hg hs
    · exact ⟨group, List.mem_append.mpr (Or.inr (List.mem_singleton_self _)), symbol,
        h.symbol symbol hsymbol, hm⟩
  · rcases Task.mem_todo_symbol hm with hm | ⟨group, hgroup, hm⟩
    · exact (h.todo m hm).mono hg hs
    · exact ⟨group, h.group group hgroup, symbol,
        List.mem_append.mpr (Or.inr (List.mem_singleton_self _)), hm⟩

/-- The task a hook detaches. -/
theorem spawn_cases {w : World} {t : Task} (h : growingThreads.spawn w t) :
    (∃ group ∈ w.groups, t = .ofGroup group) ∨ ∃ symbol ∈ w.symbols, t = .ofSymbol symbol := by
  rcases h with ⟨group, hg, ht⟩ | ⟨symbol, hs, ht⟩
  · exact Or.inl ⟨group, hg, List.mem_singleton.mp ht⟩
  · exact Or.inr ⟨symbol, hs, List.mem_singleton.mp ht⟩

theorem OverGrown.of_spawn {w : World} {t : Task} (h : growingThreads.spawn w t) :
    OverGrown w t := by
  rcases spawn_cases h with ⟨group, hg, rfl⟩ | ⟨symbol, hs, rfl⟩
  · refine ⟨fun g he => Option.some.inj he ▸ hg, fun s he => (nomatch he), fun m hm => ?_⟩
    obtain ⟨symbol, hs, hmake⟩ := mem_groupMessages hm
    exact ⟨group, hg, symbol, hs, hmake⟩
  · refine ⟨fun g he => (nomatch he), fun s he => Option.some.inj he ▸ hs, fun m hm => ?_⟩
    obtain ⟨group, hg, hmake⟩ := mem_symbolMessages hm
    exact ⟨group, hg, symbol, hs, _, hmake⟩

/-- **The messages are for pairs of the tables**, in every reachable state. -/
theorem grown_invariant : Threads.Invariant growingThreads Grown OverGrown where
  env_inv hw ha := hw.append ha
  env_local _ ha ht := ht.append ha
  spawn_local _ hs := OverGrown.of_spawn hs
  run_inv := by
    intro w t w' t' hw ht hrun
    have hstep := stepsTodo_of_run hw.paused hrun
    refine ⟨⟨hstep.groups ▸ hw.names.groups, hstep.symbols ▸ hw.names.symbols⟩,
      hstep.paused.trans hw.paused, hstep.calls, fun m hm => ?_⟩
    rcases hstep.todo with ⟨hout, -⟩ | ⟨m', hout, htodo⟩
    · exact (hw.attempted m (hout ▸ hm)).step hstep
    · rw [hout] at hm
      rcases List.mem_append.mp hm with hm | hm
      · exact (hw.attempted m hm).step hstep
      · rw [List.mem_singleton.mp hm]
        exact (ht.todo m' (htodo ▸ List.mem_cons_self)).step hstep
  run_own := by
    intro w t w' t' hw ht hrun
    have hstep := stepsTodo_of_run hw.paused hrun
    refine ⟨fun g hg => hstep.groups ▸ ht.group g (hstep.group? ▸ hg),
      fun s hs => hstep.symbols ▸ ht.symbol s (hstep.symbol? ▸ hs), fun m hm => ?_⟩
    rw [hstep.groups, hstep.symbols] at hm
    have hold : m ∈ t.todo w.groups w.symbols := by
      rcases hstep.todo with ⟨-, htodo⟩ | ⟨m', -, htodo⟩
      · exact htodo ▸ hm
      · exact htodo ▸ List.mem_cons_of_mem m' hm
    exact (ht.todo m hold).step hstep
  run_other := by
    intro w t w' t' u hw _ hrun hu
    have hstep := stepsTodo_of_run hw.paused hrun
    refine ⟨fun g hg => hstep.groups ▸ hu.group g hg, fun s hs => hstep.symbols ▸ hu.symbol s hs,
      fun m hm => ?_⟩
    rw [hstep.groups, hstep.symbols] at hm
    exact (hu.todo m hm).step hstep

/-! ## No pair is left without a message -/

/-- One of the two tasks is for the group and the other for the symbol. -/
def TasksOf (group : ConGroup) (symbol : ConSymbol) (a b : Task) : Prop :=
  (a.group? = some group ∧ b.symbol? = some symbol) ∨
    (b.group? = some group ∧ a.symbol? = some symbol)

/-- The pair of the two tasks is published, or one of them has a message for it. -/
def Covered (w : World) (a b : Task) : Prop :=
  ∀ group symbol, TasksOf group symbol a b → Shown group symbol →
    HasPair w.attempted group symbol ∨ HasPair (a.todo w.groups w.symbols) group symbol ∨
      HasPair (b.todo w.groups w.symbols) group symbol

theorem TasksOf.symm {group : ConGroup} {symbol : ConSymbol} {a b : Task}
    (h : TasksOf group symbol a b) : TasksOf group symbol b a := Or.symm h

theorem Covered.symm {w : World} {a b : Task} (h : Covered w a b) : Covered w b a :=
  fun group symbol hof hshown => (h group symbol hof.symm hshown).imp_right Or.symm

instance (w : World) : Std.Symm (Covered w) := ⟨fun _ _ => Covered.symm⟩

theorem HasPair.mono {ms ms' : List GroupSymbol} {group : ConGroup} {symbol : ConSymbol}
    (h : HasPair ms group symbol) (hmem : ∀ m ∈ ms, m ∈ ms') : HasPair ms' group symbol := by
  obtain ⟨m, hm, hp⟩ := h
  exact ⟨m, hmem m hm, hp⟩

/-- The messages to come stay when an entry is appended. -/
theorem Appends.todo_mono {w w' : World} (h : Appends w w') (t : Task) {m : GroupSymbol}
    (hm : m ∈ t.todo w.groups w.symbols) : m ∈ t.todo w'.groups w'.symbols := by
  rcases h with ⟨group, -, rfl⟩ | ⟨symbol, -, rfl⟩
  · cases t with
    | symbol t => exact (t.todo_grows w.groups group).mono m hm
    | chart t | group t | receive t => exact hm
  · cases t with
    | group t => exact (t.todo_grows w.symbols symbol).mono m hm
    | chart t | symbol t | receive t => exact hm

theorem Appends.attempted {w w' : World} (h : Appends w w') : w'.attempted = w.attempted := by
  rcases h with ⟨group, -, rfl⟩ | ⟨symbol, -, rfl⟩ <;> rfl

/-- **A task that starts has a message for its entry and each shown entry of the other table.** -/
theorem hasPair_of_spawn {w : World} {a b : Task} {group : ConGroup} {symbol : ConSymbol}
    (ha : OverGrown w a) (hb : growingThreads.spawn w b) (hof : TasksOf group symbol a b)
    (hshown : Shown group symbol) : HasPair (b.todo w.groups w.symbols) group symbol := by
  rcases spawn_cases hb with ⟨group', -, rfl⟩ | ⟨symbol', -, rfl⟩
  · -- the group's task is the new one, and its second loop comes to the symbol
    rcases hof with ⟨-, hb⟩ | ⟨hb, hsym⟩
    · cases hb
    · obtain rfl := Option.some.inj hb
      obtain ⟨m, hm⟩ := makeGroupSymbol_isSome none hshown
      exact ⟨m, List.mem_append.mpr (Or.inr (List.mem_filterMap.mpr
        ⟨symbol, ha.symbol symbol hsym, hm⟩)), none, hm⟩
  · -- the symbol's task is the new one, and its loop comes to the group
    rcases hof with ⟨hgroup, hb⟩ | ⟨hb, -⟩
    · obtain rfl := Option.some.inj hb
      obtain ⟨m, hm⟩ := makeGroupSymbol_isSome (symbolMarginSec group symbol') hshown
      exact ⟨m, List.mem_filterMap.mpr ⟨group, ha.group group hgroup, hm⟩, _, hm⟩
    · cases hb

/-- A step of a task publishes the message it takes. -/
theorem StepsTodo.hasPair {w w' : World} {t t' : Task} (h : StepsTodo w t w' t')
    {group : ConGroup} {symbol : ConSymbol}
    (ht : HasPair (t.todo w.groups w.symbols) group symbol) :
    HasPair w'.attempted group symbol ∨ HasPair (t'.todo w'.groups w'.symbols) group symbol := by
  rw [h.groups, h.symbols]
  rcases h.todo with ⟨-, htodo⟩ | ⟨m, hout, htodo⟩
  · exact Or.inr (htodo ▸ ht)
  · obtain ⟨m', hm', hp⟩ := ht
    rw [htodo] at hm'
    rcases List.mem_cons.mp hm' with rfl | hm'
    · exact Or.inl ⟨m', hout ▸ List.mem_append.mpr (Or.inr (List.mem_singleton_self _)), hp⟩
    · exact Or.inr ⟨m', hm', hp⟩

theorem StepsTodo.attempted_mono {w w' : World} {t t' : Task} (h : StepsTodo w t w' t')
    {m : GroupSymbol} (hm : m ∈ w.attempted) : m ∈ w'.attempted := by
  rcases h.todo with ⟨hout, -⟩ | ⟨m', hout, -⟩
  · exact hout ▸ hm
  · exact hout ▸ List.mem_append.mpr (Or.inl hm)

theorem Covered.run {w w' : World} {a a' b : Task} (h : Covered w a b)
    (hstep : StepsTodo w a w' a') : Covered w' a' b := by
  intro group symbol hof hshown
  have hof' : TasksOf group symbol a b := by
    unfold TasksOf at hof ⊢
    rwa [hstep.group?, hstep.symbol?] at hof
  rcases h group symbol hof' hshown with hsent | ha | hb
  · exact Or.inl (hsent.mono fun m => hstep.attempted_mono)
  · exact (hstep.hasPair ha).imp_right Or.inl
  · rw [hstep.groups, hstep.symbols]
    exact Or.inr (Or.inr hb)

/-- **Of two tasks whose pair is not published, one has a message for it.** -/
theorem covered_invariant :
    Threads.PairInvariant growingThreads Grown OverGrown Covered where
  env := by
    intro w w' a b _ ha hcov group symbol hof hshown
    rw [ha.attempted]
    exact (hcov group symbol hof hshown).imp_right (Or.imp
      (fun hp => hp.mono fun m => ha.todo_mono a) fun hp => hp.mono fun m => ha.todo_mono b)
  spawn := fun _ ha hb group symbol hof hshown =>
    Or.inr (Or.inr (hasPair_of_spawn ha hb hof hshown))
  run_left := fun hw hrun hcov => hcov.run (stepsTodo_of_run hw.paused hrun)
  run_right := fun hw hrun hcov => (hcov.symm.run (stepsTodo_of_run hw.paused hrun)).symm
  run_other := by
    intro w w' t t' a b hw hrun hcov group symbol hof hshown
    have hstep := stepsTodo_of_run hw.paused hrun
    rw [hstep.groups, hstep.symbols]
    exact (hcov group symbol hof hshown).imp_left fun hp =>
      hp.mono fun m => hstep.attempted_mono

/-! ## Runs -/

/-- **No hooked pair is lost**: when all tasks have returned, it has been published if it is shown;
and no pair of the tables that is not shown ever is. -/
theorem no_pair_lost (platform : Platform) (names : Names) (groups : List ConGroup)
    (symbols : List ConSymbol) (quotes : Bytes → Int → Option (List RateInfo))
    (hnames : DistinctNames (World.start platform names groups symbols quotes)) {w : World}
    {tasks : List Task}
    (hr : growingThreads.Reach (World.start platform names groups symbols quotes, [])
      (w, tasks)) :
    ((∀ t ∈ tasks, t.finished = true) → ∀ group symbol, BothHooked tasks group symbol →
      Shown group symbol → HasPair w.sentSymbols group symbol) ∧
    ∀ group ∈ w.groups, ∀ symbol ∈ w.symbols, ¬ Shown group symbol →
      ∀ m ∈ w.sentSymbols, forPair group.group.text symbol.symbol.text m = false := by
  have hstart : Grown (World.start platform names groups symbols quotes) :=
    ⟨hnames, rfl, fun c hc => absurd hc List.not_mem_nil, fun m hm => absurd hm List.not_mem_nil⟩
  have hnone : ∀ t ∈ ([] : List Task),
      OverGrown (World.start platform names groups symbols quotes) t :=
    fun t ht => absurd ht List.not_mem_nil
  obtain ⟨hw, -⟩ := grown_invariant.reach hr ⟨hstart, hnone⟩
  have hsent : w.sentSymbols = w.attempted := World.sentSymbols_eq_attempted hw.calls
  rw [hsent]
  constructor
  · rintro hfin group symbol ⟨⟨a, ha, hgroup⟩, b, hb, hsymbol⟩ hshown
    have hcov := covered_invariant.reach grown_invariant hr hstart hnone List.Pairwise.nil
    have hne : a ≠ b := by
      rintro rfl
      cases a with
      | chart t | symbol t | receive t => cases hgroup
      | group t => cases hsymbol
    have hempty : ∀ t ∈ tasks, ¬ HasPair (t.todo w.groups w.symbols) group symbol := by
      rintro t ht ⟨m, hm, -⟩
      rw [todo_of_ended (Task.ended_of_finished (hfin t ht))] at hm
      cases hm
    rcases hcov.forall ha hb hne group symbol
      (Or.inl ⟨hgroup, hsymbol⟩) hshown with hpub | hleft | hleft
    · exact hpub
    · exact absurd hleft (hempty a ha)
    · exact absurd hleft (hempty b hb)
  · intro group hg symbol hs hshown m hm
    by_contra hfor
    obtain ⟨hgname, hsname⟩ := forPair_iff.mp (Bool.not_eq_false _ ▸ hfor)
    obtain ⟨group', hg', symbol', hs', margin, hmake⟩ := hw.attempted m hm
    obtain ⟨hkeyg, hkeys, -⟩ := makeGroupSymbol_key hmake
    obtain rfl : group' = group := List.inj_on_of_nodup_map hw.names.groups hg' hg
      (CStr.ext_text (hkeyg.symm.trans hgname))
    obtain rfl := eq_of_name hw.names.symbols hs' hs (hkeys.symm.trans hsname)
    exact hshown (shown_of_makeGroupSymbol hmake)

/-! ## A symbol that is added after the group's hook -/

theorem Task.turns_group? : ∀ (xs : List Turn) (w : World) (t : Task),
    (Task.turns w t xs).2.group? = t.group?
  | [], _, _ => rfl
  | _ :: xs, _, t => (turns_group? xs _ _).trans (t.step_group? _ _)

theorem Task.turns_symbol? : ∀ (xs : List Turn) (w : World) (t : Task),
    (Task.turns w t xs).2.symbol? = t.symbol?
  | [], _, _ => rfl
  | _ :: xs, _, t => (turns_symbol? xs _ _).trans (t.step_symbol? _ _)

/-- A run over tables that stay is a run over tables that may grow. -/
theorem reach_of_taskThreads {a b : World × List Task}
    (h : (taskThreads (· = .ok)).Reach a b) : growingThreads.Reach a b := by
  refine Relation.ReflTransGen.mono (fun _ _ hs => ?_) _ _ h
  cases hs with
  | env he => exact absurd he id
  | spawn hsp => exact absurd hsp id
  | run hr => exact Threads.Step.run hr

/-- A task whose messages can be encoded runs to its end, beside any other tasks. -/
theorem exists_finishes {w : World} (l r : List Task) {t : Task} (hp : w.paused = false)
    (hok : ∀ c ∈ w.calls, c.result = .ok) (hpub : t.publishes = true) (hthrew : t.threw = false)
    (hs : t.Sendable w.groups w.symbols) :
    ∃ w' t', growingThreads.Reach (w, l ++ t :: r) (w', l ++ t' :: r) ∧
      World.SameServer w w' ∧ (∀ c ∈ w'.calls, c.result = .ok) ∧ t'.finished = true ∧
      t'.group? = t.group? ∧ t'.symbol? = t.symbol? := by
  have hturns : ∀ x ∈ allOk (t.size w), x.paused = false ∧ x.outcome.status = .ok :=
    fun x hx => mem_allOk hx
  obtain ⟨hnot, hok'⟩ :=
    Task.turns_sendable (allOk (t.size w)) ⟨rfl, rfl, hp⟩ hs hthrew hok hturns
  have hended := Task.turns_ended (allOk (t.size w)) hpub (List.length_replicate.symm.le)
  exact ⟨_, _, reach_of_taskThreads
      (Task.turns_reach l r _ hp (fun x hx => (hturns x hx).1) hok'),
    Task.turns_same _ hp fun x hx => (hturns x hx).1, hok', Task.finished_of_ended hended hnot,
    Task.turns_group? _ _ _, Task.turns_symbol? _ _ _⟩

/-- **The symbol's task publishes the pair** when the group's hook was called first. -/
theorem a_late_symbol_is_published : ∃ w tasks,
    growingThreads.Reach (World.start .win32 (.ofServer (bytes "mt4api") (bytes "srv")) [] []
      (fun _ _ => none), []) (w, tasks) ∧ (∀ t ∈ tasks, t.finished = true) ∧
      HasPair w.sentSymbols (demoGroup []) eurusd := by
  let start := World.start .win32 (.ofServer (bytes "mt4api") (bytes "srv")) [] []
    (fun _ _ => none)
  let added : World := { start with groups := [demoGroup []], symbols := [eurusd] }
  have hgroup : growingThreads.Step (start, []) ({ start with groups := [demoGroup []] }, []) :=
    Threads.Step.env (Or.inl ⟨demoGroup [], fun g hg => absurd hg List.not_mem_nil, rfl⟩)
  have hgroupHook : growingThreads.Step ({ start with groups := [demoGroup []] }, [])
      ({ start with groups := [demoGroup []] }, [] ++ [Task.ofGroup (demoGroup [])]) :=
    Threads.Step.spawn
      (Or.inl ⟨demoGroup [], List.mem_singleton_self _, List.mem_singleton_self _⟩)
  have hsymbol : growingThreads.Step
      ({ start with groups := [demoGroup []] }, [Task.ofGroup (demoGroup [])])
      (added, [Task.ofGroup (demoGroup [])]) :=
    Threads.Step.env (Or.inr ⟨eurusd, fun s hs => absurd hs List.not_mem_nil, rfl⟩)
  have hsymbolHook : growingThreads.Step (added, [Task.ofGroup (demoGroup [])])
      (added, [Task.ofGroup (demoGroup [])] ++ [Task.ofSymbol eurusd]) :=
    Threads.Step.spawn
      (Or.inr ⟨eurusd, List.mem_singleton_self _, List.mem_singleton_self _⟩)
  obtain ⟨w, a, hreach, hsame, hok, hfin, ha, -⟩ := exists_finishes [] [.ofSymbol eurusd]
    (w := added) (t := .ofGroup (demoGroup [])) rfl (fun c hc => absurd hc List.not_mem_nil) rfl
    rfl (show CanPublish (groupMessages [eurusd] (demoGroup [])) by unfold CanPublish; decide)
  obtain ⟨w', b, hreach', -, -, hfin', -, hb⟩ := exists_finishes [a] [] (w := w)
    (t := .ofSymbol eurusd) hsame.paused hok rfl rfl (by
      rw [hsame.groups, hsame.symbols]
      exact show CanPublish (symbolMessages [demoGroup []] eurusd) by unfold CanPublish; decide)
  have hall : ∀ t ∈ [a, b], t.finished = true := by
    intro t ht
    rcases List.mem_cons.mp ht with rfl | ht
    · exact hfin
    · exact List.mem_singleton.mp ht ▸ hfin'
  have hr : growingThreads.Reach (start, []) (w', [a, b]) :=
    ((((Relation.ReflTransGen.single hgroup).tail hgroupHook).tail hsymbol).tail hsymbolHook).trans
      (hreach.trans hreach')
  exact ⟨w', [a, b], hr, hall, (no_pair_lost .win32 (.ofServer (bytes "mt4api") (bytes "srv")) []
    [] (fun _ _ => none) ⟨List.nodup_nil, List.nodup_nil⟩ hr).1 hall (demoGroup []) eurusd
      ⟨⟨a, List.mem_cons_self, ha⟩, b, List.mem_cons_of_mem a (List.mem_singleton_self b), hb⟩
      (by decide)⟩

end TradeBridge
