import TradeBridge.Exceptions

/-!
# The trade mode of a published symbol

`make_group_symbol` (`plugin.cpp:22-53`) starts from the symbol's own mode and overwrites it twice:
with `long_only` when the symbol has that flag, and then with `no_trade` when the group does not
trade the symbol's type. The first overwrite looks at no mode, so a symbol that permits nothing, or
closing only, comes out as one that may be bought.

Results:
* `permitted_eq`: what the JSON `trade` value permits, by the mode of the message.
* `grantsNoMore_iff`: a message grants no more than the configuration unless the group trades a
  long-only symbol that may not be opened.
* `Task.turns_messages`: every call of a run of a table task is for one of its messages.
* **`published_modes_iff`**: the same of every message the two tasks publish.
* `a_disabled_symbol_may_be_bought`.
-/

namespace TradeBridge

open TradeBridge.Lib

/-! ## Operations -/

inductive Operation
  | openLong
  | openShort
  | close
  deriving DecidableEq

/-- What a JSON `trade` value permits. -/
def permittedBy (v : Json) : List Operation :=
  if v.isString (bytes "close_only") then [.close]
  else if v.isString (bytes "full") then [.openLong, .openShort, .close]
  else if v.isString (bytes "long_only") then [.openLong, .close]
  else []

/-- What a message permits. -/
def GroupSymbol.permitted (m : GroupSymbol) : List Operation :=
  match m.toJson.at (bytes "trade") with
  | .ok v => permittedBy v
  | .error _ => []

/-- `TRADE_NO`, `TRADE_CLOSE`, `TRADE_FULL`. -/
def tradeNo : Int32 := 0
def tradeClose : Int32 := 1
def tradeFull : Int32 := 2

/-- What the symbol's `trade` permits. -/
def ConSymbol.permitted (symbol : ConSymbol) : List Operation :=
  if symbol.trade = tradeClose then [.close]
  else if symbol.trade = tradeFull then [.openLong, .openShort, .close]
  else []

/-- One of the three modes of the server. -/
def ConSymbol.HasMode (symbol : ConSymbol) : Prop :=
  symbol.trade = tradeNo ∨ symbol.trade = tradeClose ∨ symbol.trade = tradeFull

/-- The message permits what each of the three restrictions permits. -/
structure GrantsNoMore (group : ConGroup) (symbol : ConSymbol) (m : GroupSymbol) : Prop where
  bySymbol : ∀ op ∈ m.permitted, op ∈ symbol.permitted
  byLongOnly : symbol.longOnly ≠ 0 → .openShort ∉ m.permitted
  byGroup : (group.secgroups symbol.type).trade = 0 → m.permitted = []

/-- The symbol is long-only and may not be opened, and the group trades its type. -/
def LongOnlyWidens (group : ConGroup) (symbol : ConSymbol) : Prop :=
  symbol.longOnly ≠ 0 ∧ symbol.trade ≠ tradeFull ∧ (group.secgroups symbol.type).trade ≠ 0

/-! ## One message -/

/-- What a mode permits, once written as JSON. -/
def TradeMode.permitted : TradeMode → List Operation
  | .tradeClose => [.close]
  | .tradeFull => [.openLong, .openShort, .close]
  | .tradeLongOnly => [.openLong, .close]
  | .tradeNo | .other _ => []

theorem permitted_eq (m : GroupSymbol) : m.permitted = m.mode.permitted := by
  have hat : m.toJson.at (bytes "trade") = .ok m.mode.toJson := rfl
  unfold GroupSymbol.permitted
  rw [hat]
  cases m.mode <;> rfl

variable {group : ConGroup} {symbol : ConSymbol} {margin : Option ConGroupMargin} {m : GroupSymbol}

/-- The mode of a message, by the two overwrites. -/
theorem makeGroupSymbol_mode (h : makeGroupSymbol group symbol margin = some m) :
    m.mode = if (group.secgroups symbol.type).trade = 0 then .tradeNo
      else if symbol.longOnly ≠ 0 then .tradeLongOnly else .cast symbol.trade := by
  unfold makeGroupSymbol at h
  simp only at h
  split at h
  · cases h
  · obtain rfl := Option.some.inj h
    rfl

/-- The cast keeps what the three modes permit. -/
theorem cast_permitted (h : symbol.HasMode) :
    (TradeMode.cast symbol.trade).permitted = symbol.permitted := by
  unfold ConSymbol.permitted
  rcases h with h | h | h <;> rw [h] <;> rfl

/-- **A message grants no more than the configuration** unless the flag widens the mode. -/
theorem grantsNoMore_iff (h : makeGroupSymbol group symbol margin = some m)
    (hmode : symbol.HasMode) : GrantsNoMore group symbol m ↔ ¬ LongOnlyWidens group symbol := by
  have hm : m.permitted = _ := (permitted_eq m).trans (congrArg _ (makeGroupSymbol_mode h))
  by_cases hgroup : (group.secgroups symbol.type).trade = 0
  · rw [if_pos hgroup] at hm
    have hnone : m.permitted = [] := hm
    refine iff_of_true ⟨fun op hop => ?_, fun _ hop => ?_, fun _ => hnone⟩ fun hw => hw.2.2 hgroup
    · rw [hnone] at hop
      cases hop
    · rw [hnone] at hop
      cases hop
  · rw [if_neg hgroup] at hm
    by_cases hlong : symbol.longOnly ≠ 0
    · rw [if_pos hlong] at hm
      have hboth : m.permitted = [.openLong, .close] := hm
      constructor
      · rintro hgrants ⟨-, hfull, -⟩
        -- opening long is permitted by the full mode only
        have hopen := hgrants.bySymbol .openLong (hboth ▸ List.mem_cons_self)
        unfold ConSymbol.permitted at hopen
        rw [if_neg hfull] at hopen
        split at hopen
        · exact absurd hopen (by decide)
        · cases hopen
      · intro hno
        have hfull : symbol.trade = tradeFull := by
          by_contra hne
          exact hno ⟨hlong, hne, hgroup⟩
        refine ⟨fun op hop => ?_, fun _ => hboth ▸ by decide, fun h => absurd h hgroup⟩
        rw [hboth] at hop
        have hsymbol : symbol.permitted = [.openLong, .openShort, .close] := by
          unfold ConSymbol.permitted
          rw [hfull]
          rfl
        rw [hsymbol]
        rcases List.mem_pair.mp hop with rfl | rfl <;> decide
    · rw [if_neg hlong, cast_permitted hmode] at hm
      refine iff_of_true ⟨fun op hop => hm ▸ hop, fun h => absurd h hlong, fun h => absurd h hgroup⟩ ?_
      exact fun hw => hlong hw.1

/-! ## Every call is for a message of the task -/

variable {groups : List ConGroup} {symbols : List ConSymbol}

theorem Task.OfTable.atPublish_mem {t : Task} (ht : t.OfTable) {names : Names}
    {p : Bytes × Message} (hp : t.atPublish names = some p) :
    ∃ m ∈ t.todo groups symbols, p.2 = .symbol m := by
  cases t with
  | group t =>
    obtain ⟨group, pc⟩ := t
    cases pc with
    | marginPublish i m =>
      obtain rfl := Option.some.inj hp
      exact ⟨m, List.mem_cons_self, rfl⟩
    | symbolPublish i m =>
      obtain rfl := Option.some.inj hp
      exact ⟨m, List.mem_cons_self, rfl⟩
    | _ => cases hp
  | symbol t =>
    obtain ⟨symbol, pc⟩ := t
    cases pc with
    | publish i group m =>
      obtain rfl := Option.some.inj hp
      exact ⟨m, List.mem_cons_self, rfl⟩
    | _ => cases hp
  | chart t => exact absurd ht id
  | receive t => exact absurd ht id

/-- A turn leaves no message that was not there before. -/
theorem Task.turn_todo (t : Task) (w : World) (b : Bool) (o : Outcome) :
    ∀ m ∈ (t.step { w with paused := b } o).2.todo w.groups w.symbols,
      m ∈ t.todo w.groups w.symbols := by
  intro m hm
  rcases t.step_paused w b o with heq | hfin
  · rw [heq] at hm
    by_cases hthrew : (t.step { w with paused := false } o).2.threw = true
    · rw [todo_of_ended (Task.ended_of_threw hthrew)] at hm
      cases hm
    · rcases Task.step_todo (w := { w with paused := false }) ⟨rfl, rfl, rfl⟩ t o
        fun h => absurd h hthrew with ⟨-, htodo⟩ | ⟨m', -, htodo⟩
      · exact htodo ▸ hm
      · rw [htodo]
        exact List.mem_cons_of_mem _ hm
  · rw [todo_of_ended (Task.ended_of_finished hfin)] at hm
    cases hm

/-- The publish calls of a run. -/
def Task.newCalls (w : World) (t : Task) (xs : List Turn) : List PublishCall :=
  (Task.turns w t xs).1.calls.drop w.calls.length

/-- **Every call of a run of a table task is for one of its messages**, paused or not. -/
theorem Task.turns_messages : ∀ (xs : List Turn) {w : World} {t : Task}, t.OfTable →
    ∀ c ∈ Task.newCalls w t xs, ∃ m ∈ t.todo w.groups w.symbols, c.message = .symbol m := by
  have hall : ∀ (xs : List Turn) {w : World} {t : Task}, t.OfTable →
      ∃ cs, (Task.turns w t xs).1.calls = w.calls ++ cs ∧
        ∀ c ∈ cs, ∃ m ∈ t.todo w.groups w.symbols, c.message = .symbol m := by
    intro xs
    induction xs with
    | nil => exact fun {w t} _ => ⟨[], (List.append_nil _).symm, fun _ hc => absurd hc List.not_mem_nil⟩
    | cons x xs ih =>
      intro w t ht
      have hsame := t.step_same { w with paused := x.paused } x.outcome
      obtain ⟨cs, hcs, hmem⟩ := ih (w := (t.step { w with paused := x.paused } x.outcome).1)
        (ht.step { w with paused := x.paused } x.outcome)
      rw [hsame.groups, hsame.symbols] at hmem
      refine Task.turns_calls_cons hcs (fun p hp => ht.atPublish_mem hp) fun c hc => ?_
      obtain ⟨m, hm, hcm⟩ := hmem c hc
      exact ⟨m, t.turn_todo w x.paused x.outcome m hm, hcm⟩
  intro xs w t ht c hc
  obtain ⟨cs, hcs, hmem⟩ := hall xs (w := w) ht
  unfold Task.newCalls at hc
  rw [hcs, List.drop_left] at hc
  exact hmem c hc

/-- **Every message the two tasks publish** is that of a pair of the tables, and it grants no more
than the configuration unless the pair is long-only, may not be opened and is traded. -/
theorem published_modes_iff (w : World) (xs : List Turn) :
    (∀ group, ∀ c ∈ Task.newCalls w (.ofGroup group) xs, ∃ symbol ∈ w.symbols, ∃ margin m,
      c.message = .symbol m ∧ makeGroupSymbol group symbol margin = some m ∧
        (symbol.HasMode → (GrantsNoMore group symbol m ↔ ¬ LongOnlyWidens group symbol))) ∧
    ∀ symbol, ∀ c ∈ Task.newCalls w (.ofSymbol symbol) xs, ∃ group ∈ w.groups, ∃ margin m,
      c.message = .symbol m ∧ makeGroupSymbol group symbol margin = some m ∧
        (symbol.HasMode → (GrantsNoMore group symbol m ↔ ¬ LongOnlyWidens group symbol)) := by
  refine ⟨fun group c hc => ?_, fun symbol c hc => ?_⟩
  · obtain ⟨m, hm, hcm⟩ := Task.turns_messages xs (t := .ofGroup group) trivial c hc
    obtain ⟨symbol, hs, margin, hmake⟩ := mem_groupMessages hm
    exact ⟨symbol, hs, margin, m, hcm, hmake, grantsNoMore_iff hmake⟩
  · obtain ⟨m, hm, hcm⟩ := Task.turns_messages xs (t := .ofSymbol symbol) trivial c hc
    obtain ⟨group, hg, hmake⟩ := mem_symbolMessages hm
    exact ⟨group, hg, _, m, hcm, hmake, grantsNoMore_iff hmake⟩

/-! ## A symbol that is disabled and long-only -/

/-- `TRADE_NO`, with the flag. -/
def disabledLongOnly : ConSymbol := { eurusd with trade := tradeNo, longOnly := 1 }

/-- The tables of one group and that symbol. -/
def disabledWorld : World :=
  World.start .win32 (.ofServer (bytes "mt4api") (bytes "srv")) [demoGroup []] [disabledLongOnly]
    fun _ _ => none

/-- The message of the one pair of a demo group. -/
theorem published_modes_oneGroup :
    ∃ c ∈ Task.newCalls (oneGroup []) (.ofGroup (demoGroup [])) (allOk 4),
      ∃ symbol ∈ [eurusd], ∃ margin m, c.message = .symbol m ∧
        makeGroupSymbol (demoGroup []) symbol margin = some m ∧ (symbol.HasMode →
          (GrantsNoMore (demoGroup []) symbol m ↔ ¬ LongOnlyWidens (demoGroup []) symbol)) :=
  ⟨_, List.mem_cons_self, (published_modes_iff (oneGroup []) (allOk 4)).1 (demoGroup []) _
    List.mem_cons_self⟩

/-- **A disabled symbol may be bought**, as its published mode is `long_only`. -/
theorem a_disabled_symbol_may_be_bought :
    ∃ c ∈ Task.newCalls disabledWorld (.ofGroup (demoGroup [])) (allOk 4), ∃ m,
      c.message = .symbol m ∧ makeGroupSymbol (demoGroup []) disabledLongOnly none = some m ∧
        disabledLongOnly.HasMode ∧ .openLong ∈ m.permitted ∧
        ¬ GrantsNoMore (demoGroup []) disabledLongOnly m :=
  ⟨_, List.mem_cons_self, _, rfl, rfl, Or.inl rfl, by decide, fun h =>
    absurd (h.bySymbol .openLong (by decide)) (by decide)⟩

end TradeBridge
