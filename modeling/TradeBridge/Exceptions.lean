import TradeBridge.Agreement

/-!
# Exceptions out of the publish calls

`marshaler::unmarshal` catches what the JSON library throws; `marshal` does not, and neither does
`server::publish`. So a message with a string that is not UTF-8 throws out of the task that
publishes it, and what the task had still to publish is lost.

Results:
* **`neverThrows_table_iff`**: no exception leaves a table task, and all its messages are attempted,
  iff all its messages can be encoded.
* **`neverThrows_chart_iff`**: the same for a chart task, by the symbol's name, unless no candle is
  to be published.
* **`publishing_never_throws_iff`**: the four callers of `publish`, by the texts of the tables.
* `a_cyrillic_description_throws`: a description in a single-byte code page.
-/

namespace TradeBridge

open TradeBridge.Lib

/-- No exception leaves the task, however it is paused and whatever NATS answers, and a run of it
that is never paused makes a publish call for each of its messages. -/
structure NeverThrows (w : World) (t : Task) : Prop where
  noThrow : ∀ xs, (Task.turns w t xs).2.threw = false
  allAttempted : ∀ xs, (∀ x ∈ xs, x.paused = false) → (Task.turns w t xs).2.ended = true →
    (Task.turns w t xs).1.attempted = w.attempted ++ t.todo w.groups w.symbols

/-- The texts of the message for the pair are UTF-8. -/
def ValidTexts (group : ConGroup) (symbol : ConSymbol) : Prop :=
  utf8Valid group.group.text = true ∧ utf8Valid symbol.symbol.text = true ∧
    utf8Valid symbol.description.text = true

/-- The history's newest candle is not before the stored time point. -/
def ChartPublishes (w : World) (symbolName : Bytes) (period : Int) : Prop :=
  ∃ rates newest, w.historyQuotes symbolName period = some rates ∧
    rates.getLast? = some newest ∧ w.loadChartPoint symbolName period ≤ newest.time

/-! ## Messages that can be encoded -/

/-- A pause makes a step end the task, if anything. -/
theorem Task.step_paused (t : Task) (w : World) (b : Bool) (o : Outcome) :
    (t.step { w with paused := b } o).2 = (t.step { w with paused := false } o).2 ∨
      (t.step { w with paused := b } o).2.finished = true := by
  cases b with
  | false => exact Or.inl rfl
  | true =>
    cases t with
    | chart t =>
      obtain ⟨symbolName, digits, period, pc⟩ := t
      cases pc with
      | quotes =>
        left
        simp only [Task.step, ChartTask.step]
        split <;> rfl
      | stop newest fromTime rate older => exact Or.inr rfl
      | publish newest fromTime rate older =>
        left
        simp only [Task.step, ChartTask.step, World.publish_snd]
        split <;> rfl
      | _ => exact Or.inl rfl
    | group t =>
      obtain ⟨group, pc⟩ := t
      cases pc with
      | marginStop i margin => exact Or.inr rfl
      | symbolStop i symbol => exact Or.inr rfl
      | marginGet i margin =>
        left
        simp only [Task.step, GroupTask.step, World.symbolsGet]
        split <;> rfl
      | marginPublish i m =>
        left
        simp only [Task.step, GroupTask.step, World.publish_snd]
        split <;> rfl
      | symbolsNext i =>
        left
        simp only [Task.step, GroupTask.step]
        split <;> rfl
      | symbolPublish i m =>
        left
        simp only [Task.step, GroupTask.step, World.publish_snd]
        split <;> rfl
      | _ => exact Or.inl rfl
    | symbol t =>
      obtain ⟨symbol, pc⟩ := t
      cases pc with
      | stop i group => exact Or.inr rfl
      | groupsNext i =>
        left
        simp only [Task.step, SymbolTask.step]
        split <;> rfl
      | publish i group m =>
        left
        simp only [Task.step, SymbolTask.step, World.publish_snd]
        split <;> rfl
      | _ => exact Or.inl rfl
    | receive t =>
      obtain ⟨topicName, pc⟩ := t
      cases pc <;> exact Or.inl rfl

variable {groups : List ConGroup} {symbols : List ConSymbol}

/-- The task publishes the symbol messages of the tables. -/
def Task.OfTable : Task → Prop
  | .group _ => True
  | .symbol _ => True
  | _ => False

theorem Task.OfTable.step {t : Task} (h : t.OfTable) (w : World) (o : Outcome) :
    (t.step w o).2.OfTable := by
  cases t with
  | group t => trivial
  | symbol t => trivial
  | chart t => exact absurd h id
  | receive t => exact absurd h id

theorem Task.OfTable.sendable_iff {t : Task} (h : t.OfTable) :
    t.Sendable groups symbols ↔ CanPublish (t.todo groups symbols) := by
  cases t with
  | group t => exact Iff.rfl
  | symbol t => exact Iff.rfl
  | chart t => exact absurd h id
  | receive t => exact absurd h id

theorem Task.OfTable.publishes {t : Task} (h : t.OfTable) : t.publishes = true := by
  cases t with
  | receive t => exact absurd h id
  | _ => rfl

/-- Paused or not, a task goes on with messages that can be encoded. -/
theorem Task.Sendable.turn {t : Task} (ht : t.OfTable) {w : World}
    (h : t.Sendable w.groups w.symbols) (b : Bool) (o : Outcome) :
    (t.step { w with paused := b } o).2.Sendable w.groups w.symbols := by
  rcases t.step_paused w b o with heq | hfin
  · rw [heq]
    exact h.step (w := { w with paused := false }) ⟨rfl, rfl, rfl⟩ o
  · rw [(ht.step _ _).sendable_iff, todo_of_ended (Task.ended_of_finished hfin)]
    intro m hm
    exact absurd hm List.not_mem_nil

/-- **No exception leaves a table task whose messages can be encoded.** -/
theorem Task.Sendable.turns_threw : ∀ (xs : List Turn) {w : World} {t : Task}, t.OfTable →
    t.Sendable w.groups w.symbols → t.threw = false → (Task.turns w t xs).2.threw = false
  | [], _, _, _, _, hthrew => hthrew
  | x :: xs, w, t, ht, h, hthrew => by
    have hsame := t.step_same { w with paused := x.paused } x.outcome
    have hnext := h.turn ht x.paused x.outcome
    refine turns_threw xs (ht.step _ _) ?_ ?_
    · rw [hsame.groups, hsame.symbols]
      exact hnext
    · cases hcase : (t.step { w with paused := x.paused } x.outcome).2.threw with
      | false => rfl
      | true => rw [← hthrew, h.threw hcase]

/-- What such a task has attempted and has still to publish stays the same list. -/
theorem Task.Sendable.turns_attempted : ∀ (xs : List Turn) {w : World} {t : Task}, t.OfTable →
    t.Sendable w.groups w.symbols → (∀ x ∈ xs, x.paused = false) →
    (Task.turns w t xs).1.attempted ++ (Task.turns w t xs).2.todo w.groups w.symbols =
      w.attempted ++ t.todo w.groups w.symbols
  | [], _, _, _, _, _ => rfl
  | x :: xs, w, t, ht, h, hxs => by
    have hsame := t.step_same { w with paused := x.paused } x.outcome
    have hnext := h.turn ht x.paused x.outcome
    have ih := turns_attempted xs (w := (t.step { w with paused := x.paused } x.outcome).1)
      (ht.step _ _) (by rw [hsame.groups, hsame.symbols]; exact hnext)
      fun y hy => hxs y (List.mem_cons_of_mem _ hy)
    rw [hsame.groups, hsame.symbols] at ih
    rw [Task.turns]
    refine ih.trans ?_
    have hpaused : x.paused = false := hxs x List.mem_cons_self
    rw [hpaused]
    rcases Task.step_todo (w := { w with paused := false }) ⟨rfl, rfl, rfl⟩ t x.outcome h.threw
      with ⟨ha, htodo⟩ | ⟨m, ha, htodo⟩
    · rw [ha, htodo]
      rfl
    · rw [ha, htodo, List.append_assoc]
      rfl

/-! ## Messages that cannot -/

/-- **A task that has not thrown has made its calls with messages that can be encoded.** -/
theorem Task.turns_encodable : ∀ (xs : List Turn) {w : World} {t : Task},
    (Task.turns w t xs).2.threw = false →
    ∃ cs, (Task.turns w t xs).1.calls = w.calls ++ cs ∧
      ∀ c ∈ cs, c.message.toJson.encodable = true
  | [], w, _, _ => ⟨[], (List.append_nil _).symm, fun _ hc => absurd hc List.not_mem_nil⟩
  | x :: xs, w, t, h => by
    obtain ⟨cs, hcs, henc⟩ := turns_encodable xs h
    refine Task.turns_calls_cons hcs (fun p hp => ?_) henc
    cases he : p.2.toJson.encodable with
    | true => exact he
    | false =>
      have hthrew := (t.step_threw { w with paused := x.paused } x.outcome).mpr
        (Or.inr ⟨p, hp, he⟩)
      rw [Task.turns, Task.turns_of_ended (Task.ended_of_threw hthrew), hthrew] at h
      cases h

/-- **A table task never throws iff all its messages can be encoded.** -/
theorem neverThrows_table_iff {w : World} {t : Task} (ht : t.OfTable) (hthrew : t.threw = false) :
    NeverThrows w t ↔ CanPublish (t.todo w.groups w.symbols) := by
  constructor
  · rintro ⟨hno, hall⟩ m hm
    have hended : (Task.turns w t (allOk (t.size w))).2.ended = true :=
      Task.turns_ended _ ht.publishes (List.length_replicate.symm.le)
    obtain ⟨cs, hcs, henc⟩ := Task.turns_encodable _ (hno (allOk (t.size w)))
    have hatt := hall _ (fun x hx => (mem_allOk hx).1) hended
    -- the messages of the run's own calls are those of the task
    have hnew : symbolsOf (cs.map PublishCall.message) = t.todo w.groups w.symbols := by
      unfold World.attempted symbolsOf at hatt
      rw [hcs, List.map_append, List.filterMap_append] at hatt
      exact List.append_cancel_left hatt
    rw [← hnew] at hm
    obtain ⟨c, hc, hcm⟩ := mem_symbolsOf.mp hm
    have := henc c hc
    rw [hcm] at this
    exact this
  · intro hcan
    have hs : t.Sendable w.groups w.symbols := ht.sendable_iff.mpr hcan
    refine ⟨fun xs => hs.turns_threw xs ht hthrew, fun xs hxs hended => ?_⟩
    have := hs.turns_attempted xs ht hxs
    rw [todo_of_ended hended, List.append_nil] at this
    exact this

/-! ## Chart tasks -/

theorem chart_turns_attempted : ∀ (xs : List Turn) (w : World) (t : ChartTask),
    (Task.turns w (.chart t) xs).1.attempted = w.attempted
  | [], _, _ => rfl
  | x :: xs, w, t => by
    rw [Task.turns]
    exact (chart_turns_attempted xs _ _).trans (t.step_attempted _ _)

/-- A chart task of a symbol whose name is UTF-8 never throws. -/
theorem chart_turns_valid : ∀ (xs : List Turn) {w : World} {t : ChartTask},
    utf8Valid t.symbolName = true → (Task.chart t).threw = false →
    (Task.turns w (.chart t) xs).2.threw = false
  | [], _, _, _, hthrew => hthrew
  | x :: xs, w, t, hv, hthrew => by
    have hname := (t.step_captures { w with paused := x.paused } x.outcome).1
    refine chart_turns_valid xs (hname ▸ hv) ?_
    have hs : (Task.chart t).Sendable w.groups w.symbols := hv
    cases hcase : (Task.chart (t.step { w with paused := x.paused } x.outcome).2).threw with
    | false => rfl
    | true => rw [← hthrew, hs.threw (w := { w with paused := x.paused }) (o := x.outcome) hcase]

/-- The task is not going to publish, because its newest candle is before the stored time point. -/
def ChartIdle (w : World) (t : ChartTask) : Prop :=
  match t.pc with
  | .quotes | .done => True
  | .load newest rates =>
    (∃ older, rates = newest :: older) ∧ newest.time < w.loadChartPoint t.symbolName t.period
  | _ => False

theorem ChartIdle.step {w : World} {t : ChartTask} (h : ChartIdle w t)
    (hno : ¬ ChartPublishes w t.symbolName t.period) (o : Outcome) :
    (t.step w o).1 = w ∧ ChartIdle w (t.step w o).2 := by
  obtain ⟨symbolName, digits, period, pc⟩ := t
  cases pc with
  | quotes =>
    simp only [ChartTask.step]
    split
    · rename_i newest older hq
      obtain ⟨rates, hrates, hrev⟩ := Option.map_eq_some_iff.mp hq
      have hlast : rates.getLast? = some newest := by
        rw [← List.head?_reverse, hrev]
        rfl
      refine ⟨rfl, ⟨older, rfl⟩, ?_⟩
      by_contra hle
      exact hno ⟨rates, newest, hrates, hlast, Int.not_lt.mp hle⟩
    · exact ⟨rfl, trivial⟩
  | load newest rates =>
    obtain ⟨⟨older, rfl⟩, hlt⟩ := h
    have hstep : (ChartTask.step ⟨symbolName, digits, period, .load newest (newest :: older)⟩ w o)
        = (w, ⟨symbolName, digits, period, .done⟩) := by
      simp only [ChartTask.step, ChartPc.loop, if_pos hlt]
    rw [hstep]
    exact ⟨rfl, trivial⟩
  | done => exact ⟨rfl, trivial⟩
  | _ => exact absurd h id

theorem chart_turns_idle : ∀ (xs : List Turn) {w : World} {t : ChartTask}, ChartIdle w t →
    ¬ ChartPublishes w t.symbolName t.period → (Task.turns w (.chart t) xs).2.threw = false
  | [], _, t, h, _ => by
    obtain ⟨symbolName, digits, period, pc⟩ := t
    cases pc <;> first | rfl | exact absurd h id
  | x :: xs, w, t, h, hno => by
    obtain ⟨hw, hidle⟩ := ChartIdle.step (w := { w with paused := x.paused }) h hno x.outcome
    obtain ⟨hname, -, hperiod⟩ := t.step_captures { w with paused := x.paused } x.outcome
    have hstep : (Task.chart t).step { w with paused := x.paused } x.outcome =
        ({ w with paused := x.paused },
          .chart (t.step { w with paused := x.paused } x.outcome).2) := Prod.ext hw rfl
    rw [Task.turns, hstep]
    refine chart_turns_idle xs hidle ?_
    rw [hname, hperiod]
    exact hno

/-- **A chart task over a candle to publish throws**, when the symbol's name is not UTF-8. -/
theorem chart_turns_throw {w : World} {symbolName : Bytes} {digits : Int32} {period : Int}
    (h : ChartPublishes w symbolName period) (hv : utf8Valid symbolName = false) :
    (Task.turns w (.chart ⟨symbolName, digits, period, .quotes⟩) (allOk 4)).2.threw = true := by
  obtain ⟨rates, newest, hq, hlast, hle⟩ := h
  obtain ⟨older, hrev⟩ : ∃ older, rates.reverse = newest :: older := by
    cases hr : rates.reverse with
    | nil =>
      rw [List.reverse_eq_nil_iff.mp hr] at hlast
      cases hlast
    | cons r older =>
      rw [← List.head?_reverse, hr] at hlast
      exact ⟨older, by rw [Option.some.inj hlast]⟩
  let idle : World := { w with paused := false }
  have h₁ : (Task.chart ⟨symbolName, digits, period, .quotes⟩).step idle (.ofStatus .ok) =
      (idle, .chart ⟨symbolName, digits, period, .load newest (newest :: older)⟩) := by
    have hidle : idle.historyQuotes symbolName period = some rates := hq
    simp only [Task.step, ChartTask.step, hidle, Option.map_some, hrev]
  have hthrow : ∀ fromTime, ((Task.chart ⟨symbolName, digits, period,
      .publish newest fromTime newest older⟩).step idle (.ofStatus .ok)).2.threw = true :=
    fun fromTime => (Task.step_threw _ idle _).mpr
      (Or.inr ⟨_, rfl, (candle_encodable _).trans hv⟩)
  have h₂ : (Task.chart ⟨symbolName, digits, period, .load newest (newest :: older)⟩).step idle
      (.ofStatus .ok) = (idle, .chart ⟨symbolName, digits, period,
        .loop newest (idle.loadChartPoint symbolName period) (newest :: older)⟩) := rfl
  have hnlt : ¬ newest.time < idle.loadChartPoint symbolName period := Int.not_lt.mpr hle
  have hcons : ∀ t n, Task.turns idle t (allOk (n + 1)) = Task.turns
      (t.step idle (.ofStatus .ok)).1 (t.step idle (.ofStatus .ok)).2 (allOk n) := fun _ _ => rfl
  have hidle : Task.turns w (.chart ⟨symbolName, digits, period, .quotes⟩) (allOk 4) =
      Task.turns idle (.chart ⟨symbolName, digits, period, .quotes⟩) (allOk 4) := rfl
  rw [hidle, hcons, h₁, hcons, h₂, ChartPc.loop, if_neg hnlt]
  by_cases hc : checksPause older.length = true
  · -- one more turn, before `is_paused`
    rw [if_pos hc]
    exact hthrow _
  · rw [if_neg hc]
    have hended := Task.ended_of_threw (hthrow (idle.loadChartPoint symbolName period))
    refine (congrArg Task.threw (Task.turns_of_ended hended (allOk 1) _)).trans (hthrow _)

/-- **A chart task never throws iff the symbol's name is UTF-8**, or there is nothing to publish. -/
theorem neverThrows_chart_iff (w : World) (symbol : ConSymbol) (period : Int) :
    NeverThrows w (.ofChart symbol period) ↔
      (ChartPublishes w symbol.symbol.text period → utf8Valid symbol.symbol.text = true) := by
  constructor
  · rintro ⟨hno, -⟩ hpub
    cases hv : utf8Valid symbol.symbol.text with
    | true => rfl
    | false =>
      have := hno (allOk 4)
      rw [Task.ofChart, chart_turns_throw hpub hv] at this
      cases this
  · intro h
    refine ⟨fun xs => ?_, fun xs _ _ => ?_⟩
    · by_cases hpub : ChartPublishes w symbol.symbol.text period
      · exact chart_turns_valid xs (h hpub) rfl
      · exact chart_turns_idle xs (t := ⟨symbol.symbol.text, symbol.digits, period, .quotes⟩)
          trivial hpub
    · exact (chart_turns_attempted xs w _).trans (List.append_nil _).symm

/-! ## The four callers -/

/-- A message can be encoded iff the texts of its pair are UTF-8. -/
theorem encodable_iff_validTexts {group : ConGroup} {symbol : ConSymbol}
    {margin : Option ConGroupMargin} {m : GroupSymbol}
    (hm : makeGroupSymbol group symbol margin = some m) :
    m.toJson.encodable = true ↔ ValidTexts group symbol := by
  obtain ⟨hg, hs, hd⟩ := makeGroupSymbol_key hm
  rw [groupSymbol_encodable, Bool.and_eq_true, Bool.and_eq_true, hg, hs, hd, and_assoc]
  rfl

theorem canPublish_groupMessages_iff {symbols : List ConSymbol} {group : ConGroup} :
    CanPublish (groupMessages symbols group) ↔
      ∀ symbol ∈ symbols, Shown group symbol → ValidTexts group symbol := by
  constructor
  · intro hcan symbol hs hshown
    obtain ⟨m, hm⟩ := makeGroupSymbol_isSome none hshown
    have hmem : m ∈ groupMessages symbols group :=
      List.mem_append.mpr (Or.inr (List.mem_filterMap.mpr ⟨symbol, hs, hm⟩))
    exact (encodable_iff_validTexts hm).mp (hcan m hmem)
  · intro hall m hm
    obtain ⟨symbol, hs, margin, hmake⟩ := mem_groupMessages hm
    exact (encodable_iff_validTexts hmake).mpr (hall symbol hs (shown_of_makeGroupSymbol hmake))

theorem canPublish_symbolMessages_iff {groups : List ConGroup} {symbol : ConSymbol} :
    CanPublish (symbolMessages groups symbol) ↔
      ∀ group ∈ groups, Shown group symbol → ValidTexts group symbol := by
  constructor
  · intro hcan group hg hshown
    obtain ⟨m, hm⟩ := makeGroupSymbol_isSome (symbolMarginSec group symbol) hshown
    exact (encodable_iff_validTexts hm).mp (hcan m (List.mem_filterMap.mpr ⟨group, hg, hm⟩))
  · intro hall m hm
    obtain ⟨group, hg, hmake⟩ := mem_symbolMessages hm
    exact (encodable_iff_validTexts hmake).mpr (hall group hg (shown_of_makeGroupSymbol hmake))

/-- **When the four callers of `publish` never throw**, by the texts of what they publish. -/
theorem publishing_never_throws_iff (w : World) :
    (∀ tick, (∀ status, (w.handleTick status (some tick)).2 = false) ↔
      utf8Valid tick.symbol.text = true) ∧
    (∀ group, NeverThrows w (.ofGroup group) ↔
      ∀ symbol ∈ w.symbols, Shown group symbol → ValidTexts group symbol) ∧
    (∀ symbol, NeverThrows w (.ofSymbol symbol) ↔
      ∀ group ∈ w.groups, Shown group symbol → ValidTexts group symbol) ∧
    ∀ symbol period, NeverThrows w (.ofChart symbol period) ↔
      (ChartPublishes w symbol.symbol.text period → utf8Valid symbol.symbol.text = true) := by
  refine ⟨fun tick => ?_, fun group => ?_, fun symbol => ?_, neverThrows_chart_iff w⟩
  · constructor
    · intro h
      cases hv : utf8Valid tick.symbol.text with
      | true => rfl
      | false => rw [← h .ok, (w.handleTick_threw_iff .ok tick).mpr hv]
    · intro hv status
      cases hthrew : (w.handleTick status (some tick)).2 with
      | false => rfl
      | true => rw [← hv, (w.handleTick_threw_iff status tick).mp hthrew]
  · exact (neverThrows_table_iff (t := .ofGroup group) trivial rfl).trans
      canPublish_groupMessages_iff
  · exact (neverThrows_table_iff (t := .ofSymbol symbol) trivial rfl).trans
      canPublish_symbolMessages_iff

/-! ## A description in a single-byte code page -/

/-- The description's first letter is `C5`, a Cyrillic letter in the code page 1251. -/
def cyrillicEurusd : ConSymbol :=
  { eurusd with description := ⟨[0xC5, 0xE2, 0xF0, 0xEE], by decide, by decide⟩ }

/-- The tables of one group, that symbol and another one. -/
def cyrillicWorld : World :=
  World.start .win32 (.ofServer (bytes "mt4api") (bytes "srv")) [demoGroup []]
    [cyrillicEurusd, { eurusd with symbol := ⟨bytes "GBPUSD", by decide, by decide⟩ }]
    fun _ _ => none

/-- **The description throws** out of the task of its group, and the other symbol is not
published. -/
theorem a_cyrillic_description_throws : ¬ NeverThrows cyrillicWorld (.ofGroup (demoGroup [])) := by
  intro h
  have hthrew : (Task.turns cyrillicWorld (.ofGroup (demoGroup [])) (allOk 5)).2.threw = true := by
    decide
  rw [h.noThrow (allOk 5)] at hthrew
  cases hthrew

end TradeBridge
