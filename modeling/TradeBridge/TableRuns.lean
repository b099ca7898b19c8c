import TradeBridge.ChartRuns
import TradeBridge.Isolation

/-!
# Runs of the table tasks, whatever NATS answers and whenever the pool is paused

`publish_group_symbols` (`plugin.cpp:281-321`) and `publish_symbol_for_groups`
(`plugin.cpp:323-356`) log one entry when they start and one for each publish that fails, and go on
behind a failure. A pause ends the task at its next look at the pool, an exception where it stands.
So at any moment a run has attempted a first part of its messages, in their order, and has logged
or owes (`Task.owes`) what its calls ended with.

Results:
* **`Task.step_attempts`**, **`Task.step_owes`**: one step.
* `Task.turns_attempts`, `Task.turns_owes`: a run of one task.
* **`table_tasks_account`**: any number of table tasks, interleaved in any order.
* `two_groups_account`: two groups.
-/

namespace TradeBridge

open TradeBridge.Lib

/-! ## What a task owes to the log -/

/-- The entry for a publish call of a table task that returned an error. -/
def PublishCall.symbolFailure (c : PublishCall) : Option LogEntry :=
  match c.message, c.result with
  | .symbol m, .error e =>
    some (.error
      (bytes "Failed to publish symbol for group '" ++ m.accountGroup ++ bytes "': " ++ e))
  | _, _ => none

/-- What a table task logs before it calls anything else: its first entry, or that of a failure. -/
def Task.owes : Task → List LogEntry
  | .group t =>
    match t.pc with
    | .start => [.info (bytes "Publishing symbols for group: " ++ t.group.group.text)]
    | .marginFailed _ e | .symbolFailed _ e => [.error (failedSymbolText t.group e)]
    | _ => []
  | .symbol t =>
    match t.pc with
    | .start => [.info (bytes "Publishing symbol for groups: " ++ t.symbol.symbol.text)]
    | .failed _ g e => [.error (failedSymbolText g e)]
    | _ => []
  | _ => []

/-- The message a task stands before is for the group it will name in the log. -/
def Task.Keyed : Task → Prop
  | .group t =>
    match t.pc with
    | .marginPublish _ m | .symbolPublish _ m => m.accountGroup = t.group.group.text
    | _ => True
  | .symbol t =>
    match t.pc with
    | .publish _ g m => m.accountGroup = g.group.text
    | _ => True
  | _ => True

/-- The calls of one step. -/
def Task.stepCalls (t : Task) (w : World) (o : Outcome) : List PublishCall :=
  ((t.atPublish w.names).map (w.callOf o.status)).toList

/-- The publish of a message of the tables. -/
def World.attemptOf (w : World) (m : GroupSymbol) : Bytes × Message :=
  (w.names.topicNameConSymbol, .symbol m)

theorem Task.attempts_stepCalls (t : Task) (w : World) (o : Outcome) :
    (t.stepCalls w o).map PublishCall.attempt = (t.atPublish w.names).toList := by
  unfold Task.stepCalls
  cases t.atPublish w.names <;> rfl

/-! ## One step -/

/-- A table task stands before the publish of its next message. -/
theorem Task.OfTable.atPublish {t : Task} (ht : t.OfTable) {w : World} {p : Bytes × Message}
    (hp : t.atPublish w.names = some p) :
    ∃ m rest, p = w.attemptOf m ∧ t.todo w.groups w.symbols = m :: rest := by
  cases t with
  | group t =>
    obtain ⟨group, pc⟩ := t
    cases pc with
    | marginPublish i m => exact ⟨m, _, (Option.some.inj hp).symm, rfl⟩
    | symbolPublish i m => exact ⟨m, _, (Option.some.inj hp).symm, rfl⟩
    | _ => cases hp
  | symbol t =>
    obtain ⟨symbol, pc⟩ := t
    cases pc with
    | publish i g m => exact ⟨m, _, (Option.some.inj hp).symm, rfl⟩
    | _ => cases hp
  | chart t => exact absurd ht id
  | receive t => exact absurd ht id

/-- A step in a pool that is not paused, without an exception, leaves what it does not attempt. -/
theorem Task.OfTable.step_rest {t : Task} (ht : t.OfTable) {w : World} (hw : w.paused = false)
    {o : Outcome} (hthrew : (t.step w o).2.threw = true → t.threw = true) :
    (t.todo w.groups w.symbols).map w.attemptOf = (t.atPublish w.names).toList ++
      ((t.step w o).2.todo w.groups w.symbols).map w.attemptOf := by
  have hstep : Emitted w (t.step w o).1 (t.todo w.groups w.symbols)
      ((t.step w o).2.todo w.groups w.symbols) o.status := by
    cases t with
    | group t => exact GroupTask.step_todo o hw hthrew
    | symbol t => exact SymbolTask.step_todo o hw hthrew
    | chart t => exact absurd ht id
    | receive t => exact absurd ht id
  have hcalls := t.step_calls w o
  rcases hstep with ⟨hc, htodo⟩ | ⟨m, hc, htodo⟩
  · have hnone : (t.atPublish w.names).map (w.callOf o.status) = none := by
      cases hp : (t.atPublish w.names).map (w.callOf o.status) with
      | none => rfl
      | some c =>
        rw [hp, hc] at hcalls
        exact absurd hcalls (by simp)
    rw [Option.map_eq_none_iff.mp hnone, htodo]
    rfl
  · rw [hc] at hcalls
    have hcall := List.append_cancel_left hcalls
    cases hp : t.atPublish w.names with
    | none =>
      rw [hp] at hcall
      cases hcall
    | some p =>
      rw [hp] at hcall
      obtain ⟨htopic, hmessage, -⟩ := PublishCall.mk.inj (List.cons.inj hcall).1
      have hpair : w.attemptOf m = p := Prod.ext htopic hmessage
      rw [htodo, List.map_cons, hpair]
      rfl

/-- **One step of a table task** attempts the first of its messages or none, and goes on with the
others unless it ends at a pause or an exception. -/
theorem Task.step_attempts {t : Task} (ht : t.OfTable) (hended : t.threw = false) (w : World)
    (b : Bool) (o : Outcome) :
    ∃ rest, (t.todo w.groups w.symbols).map w.attemptOf =
        (t.atPublish w.names).toList ++ rest.map w.attemptOf ∧
      ((t.step { w with paused := b } o).2.todo w.groups w.symbols = rest ∨
        (t.step { w with paused := b } o).2.ended = true ∧
          (b = true ∨ (t.step { w with paused := b } o).2.threw = true)) := by
  rcases Bool.eq_false_or_eq_true (t.step { w with paused := false } o).2.threw with hthrew | hthrew
  · -- the publish of the next message throws
    have hpublish := (t.step_threw { w with paused := false } o).mp hthrew
    rw [hended] at hpublish
    obtain ⟨p, hp, henc⟩ := hpublish.resolve_left Bool.false_ne_true
    obtain ⟨m, rest, rfl, htodo⟩ := ht.atPublish (w := { w with paused := false }) hp
    have hthrew' : (t.step { w with paused := b } o).2.threw = true :=
      (t.step_threw { w with paused := b } o).mpr (Or.inr ⟨_, hp, henc⟩)
    have hp' : t.atPublish w.names = some (w.attemptOf m) := hp
    have htodo' : t.todo w.groups w.symbols = m :: rest := htodo
    refine ⟨rest, ?_, Or.inr ⟨Task.ended_of_threw hthrew', Or.inr hthrew'⟩⟩
    rw [htodo', hp']
    rfl
  · refine ⟨(t.step { w with paused := false } o).2.todo w.groups w.symbols,
      ht.step_rest (w := { w with paused := false }) rfl fun h => ?_, ?_⟩
    · rw [hthrew] at h
      cases h
    · rcases t.step_paused w b o with heq | hfin
      · exact Or.inl (by rw [heq])
      · cases b with
        | false => exact Or.inl rfl
        | true => exact Or.inr ⟨Task.ended_of_finished hfin, Or.inl rfl⟩

/-! ## The log of one step -/

theorem keyed_marginLoop (group : ConGroup) (i : Nat) :
    (Task.group ⟨group, .marginLoop group i⟩).Keyed ∧
      (Task.group ⟨group, .marginLoop group i⟩).owes = [] := by
  unfold GroupPc.marginLoop
  cases group.secmargins[i]? with
  | none => exact ⟨trivial, rfl⟩
  | some margin =>
    simp only
    split <;> exact ⟨trivial, rfl⟩

theorem keyed_symbolBody (group : ConGroup) (i : Nat) (symbol : ConSymbol) :
    (Task.group ⟨group, .symbolBody group i symbol⟩).Keyed ∧
      (Task.group ⟨group, .symbolBody group i symbol⟩).owes = [] := by
  unfold GroupPc.symbolBody
  cases h : makeGroupSymbol group symbol none with
  | none => exact ⟨trivial, rfl⟩
  | some m => exact ⟨(makeGroupSymbol_key h).1, rfl⟩

theorem keyed_symbolTask_body (symbol : ConSymbol) (i : Nat) (group : ConGroup) :
    (Task.symbol ⟨symbol, .body symbol i group⟩).Keyed ∧
      (Task.symbol ⟨symbol, .body symbol i group⟩).owes = [] := by
  unfold SymbolPc.body
  cases h : makeGroupSymbol group symbol (symbolMarginSec group symbol) with
  | none => exact ⟨trivial, rfl⟩
  | some m => exact ⟨(makeGroupSymbol_key h).1, rfl⟩

theorem Task.Keyed.step {t : Task} (h : t.Keyed) (w : World) (o : Outcome) :
    (t.step w o).2.Keyed := by
  cases t with
  | chart t => trivial
  | receive t => trivial
  | group t =>
    obtain ⟨group, pc⟩ := t
    cases pc with
    | start => exact (keyed_marginLoop group 0).1
    | marginStop i margin =>
      simp only [Task.step, GroupTask.step]
      split <;> trivial
    | marginGet i margin =>
      simp only [Task.step, GroupTask.step]
      split
      · rename_i m hm
        obtain ⟨symbol, -, hmake⟩ := Option.bind_eq_some_iff.mp hm
        exact (makeGroupSymbol_key hmake).1
      · exact (keyed_marginLoop group (i + 1)).1
    | marginPublish i m =>
      simp only [Task.step, GroupTask.step]
      split
      · exact (keyed_marginLoop group (i + 1)).1
      · trivial
      · trivial
    | marginFailed i e => exact (keyed_marginLoop group (i + 1)).1
    | symbolsNext i =>
      simp only [Task.step, GroupTask.step]
      split
      · trivial
      · split
        · trivial
        · exact (keyed_symbolBody group i _).1
    | symbolStop i symbol =>
      simp only [Task.step, GroupTask.step]
      split
      · trivial
      · exact (keyed_symbolBody group i symbol).1
    | symbolPublish i m =>
      simp only [Task.step, GroupTask.step]
      split <;> trivial
    | symbolFailed i e => trivial
    | done => trivial
    | threw => trivial
  | symbol t =>
    obtain ⟨symbol, pc⟩ := t
    cases pc with
    | start => trivial
    | groupsNext i =>
      simp only [Task.step, SymbolTask.step]
      split
      · trivial
      · split
        · trivial
        · exact (keyed_symbolTask_body symbol i _).1
    | stop i g =>
      simp only [Task.step, SymbolTask.step]
      split
      · trivial
      · exact (keyed_symbolTask_body symbol i g).1
    | publish i g m =>
      simp only [Task.step, SymbolTask.step]
      split <;> trivial
    | failed i g e => trivial
    | done => trivial
    | threw => trivial

/-- What a table task does about the publish of `m` for the group `g`. -/
theorem owes_publish (w : World) (status : NatsStatus) (t' : Task) {g : ConGroup}
    {m : GroupSymbol} (hkey : m.accountGroup = g.group.text)
    (hok : ∀ e, (w.publish status w.names.topicNameConSymbol (.symbol m)).2 = .error e →
      t'.owes = [.error (failedSymbolText g e)])
    (helse : (∀ e, (w.publish status w.names.topicNameConSymbol (.symbol m)).2 ≠ .error e) →
      t'.owes = []) :
    t'.owes = [w.callOf status (w.attemptOf m)].filterMap PublishCall.symbolFailure := by
  cases hres : (w.publish status w.names.topicNameConSymbol (.symbol m)).2 with
  | error e =>
    have hresult : (w.callOf status (w.attemptOf m)).result = .error e := hres
    have hmessage : (w.callOf status (w.attemptOf m)).message = .symbol m := rfl
    rw [hok e hres]
    simp only [List.filterMap_cons, PublishCall.symbolFailure, hmessage, hresult, hkey]
    rfl
  | ok =>
    have hresult : (w.callOf status (w.attemptOf m)).result = .ok := hres
    rw [helse fun e h => by rw [hres] at h; cases h]
    simp only [List.filterMap_cons, PublishCall.symbolFailure, hresult]
    rfl
  | threw =>
    have hresult : (w.callOf status (w.attemptOf m)).result = .threw := hres
    rw [helse fun e h => by rw [hres] at h; cases h]
    simp only [List.filterMap_cons, PublishCall.symbolFailure, hresult]
    rfl

/-- **One step of a table task** logs what it owed and owes what its call came to. -/
theorem Task.step_owes {t : Task} (ht : t.OfTable) (hkey : t.Keyed) (w : World) (o : Outcome) :
    (t.step w o).1.logs ++ (t.step w o).2.owes =
      w.logs ++ (t.owes ++ (t.stepCalls w o).filterMap PublishCall.symbolFailure) := by
  cases t with
  | chart t => exact absurd ht id
  | receive t => exact absurd ht id
  | group t =>
    obtain ⟨group, pc⟩ := t
    cases pc with
    | start =>
      simp only [Task.step, GroupTask.step, (keyed_marginLoop group 0).2]
      exact List.append_nil _
    | marginStop i margin =>
      simp only [Task.step, GroupTask.step]
      split <;> rfl
    | marginGet i margin =>
      simp only [Task.step, GroupTask.step]
      split
      · rfl
      · simp only [(keyed_marginLoop group (i + 1)).2]
        rfl
    | marginPublish i m =>
      have howes := owes_publish w o.status
        ((Task.group ⟨group, .marginPublish i m⟩).step w o).2 hkey
        (fun e he => by simp only [Task.step, GroupTask.step, he]; rfl) fun hne => by
          simp only [Task.step, GroupTask.step]
          split
          · exact (keyed_marginLoop group (i + 1)).2
          · rename_i e he
            exact absurd he (hne e)
          · rfl
      rw [howes]
      simp only [Task.step, GroupTask.step]
      split <;> rfl
    | marginFailed i e =>
      simp only [Task.step, GroupTask.step, (keyed_marginLoop group (i + 1)).2]
      exact List.append_nil _
    | symbolsNext i =>
      simp only [Task.step, GroupTask.step]
      split
      · rfl
      · split
        · rfl
        · simp only [(keyed_symbolBody group i _).2]
          rfl
    | symbolStop i symbol =>
      simp only [Task.step, GroupTask.step]
      split
      · rfl
      · simp only [(keyed_symbolBody group i symbol).2]
        rfl
    | symbolPublish i m =>
      have howes := owes_publish w o.status
        ((Task.group ⟨group, .symbolPublish i m⟩).step w o).2 hkey
        (fun e he => by simp only [Task.step, GroupTask.step, he]; rfl) fun hne => by
          simp only [Task.step, GroupTask.step]
          split
          · rfl
          · rename_i e he
            exact absurd he (hne e)
          · rfl
      rw [howes]
      simp only [Task.step, GroupTask.step]
      split <;> rfl
    | symbolFailed i e => exact List.append_nil _
    | done => rfl
    | threw => rfl
  | symbol t =>
    obtain ⟨symbol, pc⟩ := t
    cases pc with
    | start => exact List.append_nil _
    | groupsNext i =>
      simp only [Task.step, SymbolTask.step]
      split
      · rfl
      · split
        · rfl
        · simp only [(keyed_symbolTask_body symbol i _).2]
          rfl
    | stop i g =>
      simp only [Task.step, SymbolTask.step]
      split
      · rfl
      · simp only [(keyed_symbolTask_body symbol i g).2]
        rfl
    | publish i g m =>
      have howes := owes_publish w o.status ((Task.symbol ⟨symbol, .publish i g m⟩).step w o).2 hkey
        (fun e he => by simp only [Task.step, SymbolTask.step, he]; rfl) fun hne => by
          simp only [Task.step, SymbolTask.step]
          split
          · rfl
          · rename_i e he
            exact absurd he (hne e)
          · rfl
      rw [howes]
      simp only [Task.step, SymbolTask.step]
      split <;> rfl
    | failed i g e => exact List.append_nil _
    | done => rfl
    | threw => rfl

/-! ## A run of one task -/

/-- The account of a run of a table task: the calls `cs` attempt the first of its messages, the
others are still to come unless a pause or an exception ended it, and the log has an entry for each
failure. -/
structure Task.Accounts (w : World) (t : Task) (paused : Prop) (cs : List PublishCall) (w' : World)
    (t' : Task) : Prop where
  calls : w'.calls = w.calls ++ cs
  attempts : ∃ rest, (t.todo w.groups w.symbols).map w.attemptOf =
      cs.map PublishCall.attempt ++ rest.map w.attemptOf ∧
    (t'.todo w.groups w.symbols = rest ∨
      t'.ended = true ∧ (paused ∨ ∃ c ∈ cs, c.result = .threw))
  logs : w'.logs ++ t'.owes = w.logs ++ (t.owes ++ cs.filterMap PublishCall.symbolFailure)

/-- After its end a task does nothing. -/
theorem Task.turns_idle {t : Task} (h : t.ended = true) : ∀ (xs : List Turn) (w : World),
    (Task.turns w t xs).2 = t ∧ (Task.turns w t xs).1.calls = w.calls ∧
      (Task.turns w t xs).1.logs = w.logs
  | [], _ => ⟨rfl, rfl, rfl⟩
  | x :: xs, w => by
    rw [Task.turns, Task.step_of_ended h]
    exact turns_idle h xs { w with paused := x.paused }

theorem Task.threw_stepCalls {t : Task} {w : World} {o : Outcome} (h : t.threw = false)
    (hthrew : (t.step w o).2.threw = true) : ∃ c ∈ t.stepCalls w o, c.result = .threw := by
  have hpublish := (t.step_threw w o).mp hthrew
  rw [h] at hpublish
  obtain ⟨p, hp, henc⟩ := hpublish.resolve_left Bool.false_ne_true
  refine ⟨w.callOf o.status p, ?_, publish_threw_iff.mpr henc⟩
  unfold Task.stepCalls
  rw [hp]
  exact List.mem_singleton_self _

/-- **A run of a table task**, whatever NATS answers and whenever the pool is paused. -/
theorem Task.turns_account : ∀ (xs : List Turn) {w : World} {t : Task}, t.OfTable → t.Keyed →
    t.threw = false → ∃ cs, Task.Accounts w t (∃ x ∈ xs, x.paused = true) cs
      (Task.turns w t xs).1 (Task.turns w t xs).2
  | [], w, t, _, _, _ => by
    refine ⟨[], (List.append_nil _).symm, ⟨_, rfl, Or.inl rfl⟩, ?_⟩
    rw [List.filterMap_nil, List.append_nil]
    rfl
  | x :: xs, w, t, ht, hkey, hthrew => by
    obtain ⟨rest, hrest, hnext⟩ := Task.step_attempts ht hthrew w x.paused x.outcome
    have hsame := t.step_same { w with paused := x.paused } x.outcome
    have hlogs := Task.step_owes ht hkey { w with paused := x.paused } x.outcome
    have hcalls := t.step_calls { w with paused := x.paused } x.outcome
    have hthrows := Task.threw_stepCalls (w := { w with paused := x.paused }) (o := x.outcome)
      hthrew
    rw [← t.attempts_stepCalls { w with paused := x.paused } x.outcome] at hrest
    generalize hw₁ : (t.step { w with paused := x.paused } x.outcome).1 = w₁ at *
    generalize ht₁ : (t.step { w with paused := x.paused } x.outcome).2 = t₁ at *
    rw [Task.turns, hw₁, ht₁]
    by_cases hended : t₁.ended = true
    · -- nothing follows
      obtain ⟨hstay, hcalls', hlogs'⟩ := Task.turns_idle hended xs w₁
      refine ⟨t.stepCalls { w with paused := x.paused } x.outcome, hcalls'.trans hcalls,
        ⟨rest, hrest, ?_⟩, ?_⟩
      · rw [hstay]
        refine hnext.imp_right fun h => ⟨h.1, h.2.imp (fun hx => ?_) hthrows⟩
        exact ⟨x, List.mem_cons_self, hx⟩
      · rw [hstay, hlogs', hlogs]
    · have hgoes := (Bool.or_eq_false_iff.mp (Bool.not_eq_true _ ▸ hended)).2
      have ht₁' : t₁.OfTable := ht₁ ▸ ht.step _ _
      have hkey₁ : t₁.Keyed := ht₁ ▸ hkey.step _ _
      obtain ⟨ds, hds⟩ := turns_account xs (w := w₁) ht₁' hkey₁ hgoes
      obtain ⟨rest', hrest', hlast⟩ := hds.attempts
      have htodo : t₁.todo w.groups w.symbols = rest :=
        hnext.resolve_right fun h => hended h.1
      have hattempt : w₁.attemptOf = w.attemptOf := by
        unfold World.attemptOf
        rw [hsame.names]
      rw [hsame.groups, hsame.symbols, hattempt, htodo] at hrest'
      rw [hsame.groups, hsame.symbols] at hlast
      refine ⟨t.stepCalls { w with paused := x.paused } x.outcome ++ ds, ?_, ⟨rest', ?_, ?_⟩, ?_⟩
      · rw [hds.calls, hcalls, List.append_assoc]
        rfl
      · rw [hrest, hrest', List.map_append, List.append_assoc]
      · refine hlast.imp_right fun h => ⟨h.1, h.2.imp ?_ ?_⟩
        · rintro ⟨y, hy, hp⟩
          exact ⟨y, List.mem_cons_of_mem _ hy, hp⟩
        · rintro ⟨c, hc, hres⟩
          exact ⟨c, List.mem_append.mpr (Or.inr hc), hres⟩
      · rw [hds.logs, ← List.append_assoc, hlogs, List.filterMap_append]
        simp only [List.append_assoc]

/-! ## Any number of tasks -/

/-- A table task as a hook detaches it. -/
def Task.FreshTable (t : Task) : Prop := (∃ g, t = .ofGroup g) ∨ ∃ s, t = .ofSymbol s

theorem Task.FreshTable.ofTable {t : Task} (h : t.FreshTable) :
    t.OfTable ∧ t.Keyed ∧ t.threw = false := by
  rcases h with ⟨g, rfl⟩ | ⟨s, rfl⟩ <;> exact ⟨trivial, trivial, rfl⟩

/-- Table tasks have no file. -/
theorem Task.OfTable.file {t : Task} (h : t.OfTable) (w : World) : t.file w = none := by
  cases t with
  | group t => rfl
  | symbol t => rfl
  | chart t => exact absurd h id
  | receive t => exact absurd h id

/-- A task that has ended owes nothing. -/
theorem Task.owes_of_ended {t : Task} (h : t.ended = true) : t.owes = [] := by
  cases t with
  | chart t => rfl
  | receive t => rfl
  | group t =>
    obtain ⟨group, pc⟩ := t
    cases pc <;> first | rfl | exact Bool.noConfusion h
  | symbol t =>
    obtain ⟨symbol, pc⟩ := t
    cases pc <;> first | rfl | exact Bool.noConfusion h

/-- The account of table tasks that have come to their end: `made` are the calls of each. They
attempt a first part of its messages, and all of them where no pause and no exception came in
between; the log has the first entry of each task and one for each of its failures. -/
structure TableAccount (paused : Prop) (w w' : World) (made : List (Task × List PublishCall)) :
    Prop where
  attempts : ∀ x ∈ made, ∃ attempted, attempted <+: x.1.todo w.groups w.symbols ∧
    x.2.map PublishCall.attempt = attempted.map w.attemptOf
  whole : ∀ x ∈ made, ¬ paused → (∀ c ∈ x.2, c.result ≠ .threw) →
    x.2.map PublishCall.attempt = (x.1.todo w.groups w.symbols).map w.attemptOf
  calls : ∃ cs, w'.calls = w.calls ++ cs ∧ Interleaving (made.map Prod.snd) cs
  logs : ∃ es, w'.logs = w.logs ++ es ∧
    Interleaving (made.map fun x => x.1.owes ++ x.2.filterMap PublishCall.symbolFailure) es
  files : w'.files = w.files

variable {w w' : World}

/-- **The account of any number of table tasks**, interleaved in any order: `Allowed` says which
turns there may be. -/
theorem table_tasks_account {Allowed : Turn → Prop} {tasks ts : List Task}
    (htasks : ∀ t ∈ tasks, t.FreshTable)
    (hr : (turnThreads Allowed).Reach (w, tasks) (w', ts)) (hended : ∀ t ∈ ts, t.ended = true) :
    ∃ made, made.map Prod.fst = tasks ∧
      TableAccount (∃ x, Allowed x ∧ x.paused = true) w w' made := by
  have hfile : ∀ t ∈ tasks, t.file w = none := fun t ht => (htasks t ht).ofTable.1.file w
  have hap : tasks.Pairwise (Task.Apart w) := by
    refine List.Pairwise.imp_of_mem (R := fun _ _ => True) (fun {a b} ha _ _ path hpath => ?_)
      (List.pairwise_of_forall fun _ _ => trivial)
    rw [hfile a ha] at hpath
    cases hpath
  obtain ⟨runs, hfst, hturns, hsnd, hrecords, -, hother⟩ := turnThreads_eachAlone hr hap
  have htask : ∀ x ∈ runs, x.1.FreshTable := fun x hx =>
    htasks x.1 (hfst ▸ List.mem_map_of_mem hx)
  have hend : ∀ x ∈ runs, (Task.turns w x.1 x.2).2.ended = true := fun x hx =>
    hended _ (hsnd ▸ List.mem_map_of_mem hx)
  have haccount : ∀ x ∈ runs, ∃ cs, Task.Accounts w x.1 (∃ y ∈ x.2, y.paused = true) cs
      (Task.turns w x.1 x.2).1 (Task.turns w x.1 x.2).2 := fun x hx =>
    Task.turns_account x.2 (htask x hx).ofTable.1 (htask x hx).ofTable.2.1 (htask x hx).ofTable.2.2
  choose! made hmade using haccount
  refine ⟨runs.map fun x => (x.1, made x), ?_, ?_, ?_, ?_, ?_, ?_⟩
  · rw [List.map_map]
    exact hfst
  · intro y hy
    obtain ⟨x, hx, rfl⟩ := List.mem_map.mp hy
    obtain ⟨rest, hrest, -⟩ := (hmade x hx).attempts
    obtain ⟨attempted, rest', htodo, hattempted, -⟩ := List.map_eq_append_iff.mp hrest
    exact ⟨attempted, htodo ▸ List.prefix_append _ _, hattempted.symm⟩
  · intro y hy hnot hthrew
    obtain ⟨x, hx, rfl⟩ := List.mem_map.mp hy
    obtain ⟨rest, hrest, hlast⟩ := (hmade x hx).attempts
    have hnil : rest = [] := by
      rcases hlast with hlast | ⟨-, ⟨turn, hturn, hp⟩ | ⟨c, hc, hres⟩⟩
      · rw [← hlast]
        exact todo_of_ended (hend x hx)
      · exact absurd ⟨turn, hturns x hx turn hturn, hp⟩ hnot
      · exact absurd hres (hthrew c hc)
    rw [hrest, hnil, List.map_nil, List.append_nil]
  · obtain ⟨cs, hcs, hi⟩ := hrecords .calls
    refine ⟨cs, hcs, ?_⟩
    rw [List.map_map]
    refine (List.map_congr_left fun x hx => ?_) ▸ hi
    change (Task.turns w x.1 x.2).1.calls.drop w.calls.length = made x
    rw [(hmade x hx).calls, List.drop_left]
  · obtain ⟨es, hes, hi⟩ := hrecords .logs
    refine ⟨es, hes, ?_⟩
    rw [List.map_map]
    refine (List.map_congr_left fun x hx => ?_) ▸ hi
    have hlogs := (hmade x hx).logs
    rw [Task.owes_of_ended (hend x hx), List.append_nil] at hlogs
    change (Task.turns w x.1 x.2).1.logs.drop w.logs.length = _
    rw [hlogs, List.drop_left]
    rfl
  · funext path
    refine hother path fun t ht => ?_
    rw [hfile t ht]
    exact fun h => by cases h

/-- Two groups, one with an override, and one symbol. -/
def twoGroups : World :=
  World.start .win32 (.ofServer (bytes "mt4api") (bytes "srv"))
    [demoGroup [eurusdMargin], demoGroup []] [eurusd] fun _ _ => none

/-- The account of `publish_all_groups_with_symbols` over two groups, never paused. -/
theorem two_groups_account : ∃ w' made, made.map Prod.fst = twoGroups.publishAllGroupsWithSymbols ∧
    TableAccount (∃ x : Turn, x.paused = false ∧ x.paused = true) twoGroups w' made := by
  have hfresh : ∀ t ∈ twoGroups.publishAllGroupsWithSymbols, t.FreshTable := by
    intro t ht
    obtain ⟨g, -, rfl⟩ := List.mem_map.mp ht
    exact Or.inl ⟨g, rfl⟩
  obtain ⟨w', ts, hr, hts⟩ := exists_pass (w := twoGroups) twoGroups.publishAllGroupsWithSymbols []
    rfl (fun _ h => by cases h) fun t ht => (hfresh t ht).ofTable.1.publishes
  exact ⟨w', table_tasks_account hfresh (reach_unpaused rfl hr) hts⟩

end TradeBridge
