import TradeBridge.Progress

/-!
# Passes: runs in which every task returns and every publish succeeds

`Completes w tasks w'`: some interleaving of the steps of `tasks`, never paused, with every publish
a success, takes the world from `w` to `w'`, and every task has returned there.

Results:
* **`Completes.sent`**: the symbol messages such a run publishes are an interleaving of what its
  tasks had to publish, and each of them can be encoded.
* `Completes.sent_single`: a task alone publishes its messages in order.
* `exists_completes`: a task whose messages can be encoded has such a run.
-/

namespace TradeBridge

open TradeBridge.Lib

/-- A run of `tasks` from `w` to `w'`, to the end of each, in which every publish succeeds. -/
def Completes (w : World) (tasks : List Task) (w' : World) : Prop :=
  ∃ ts, (taskThreads (· = .ok)).Reach (w, tasks) (w', ts) ∧ ∀ t ∈ ts, t.finished = true

/-- Every call so far succeeded, with a message that can be encoded. -/
def AllPublished (w : World) : Prop :=
  ∀ c ∈ w.calls, c.result = .ok ∧ c.message.toJson.encodable = true

theorem AllPublished.of_nil {w : World} (h : w.calls = []) : AllPublished w := by
  intro c hc
  rw [h] at hc
  cases hc

theorem sentSymbols_of_nil {w : World} (h : w.calls = []) : w.sentSymbols = [] := by
  unfold World.sentSymbols World.sent
  rw [h]
  rfl

theorem OverTables.start (platform : Platform) (names : Names) (groups : List ConGroup)
    (symbols : List ConSymbol) (quotes : Bytes → Int → Option (List RateInfo)) :
    OverTables groups symbols (World.start platform names groups symbols quotes) :=
  ⟨rfl, rfl, rfl⟩

theorem AllPublished.sentSymbols {w : World} (h : AllPublished w) :
    w.sentSymbols = w.attempted :=
  World.sentSymbols_eq_attempted fun c hc => (h c hc).1

theorem mem_symbolsOf {cs : List PublishCall} {m : GroupSymbol} :
    m ∈ symbolsOf (cs.map PublishCall.message) ↔ ∃ c ∈ cs, c.message = .symbol m := by
  unfold symbolsOf
  rw [List.mem_filterMap]
  constructor
  · rintro ⟨x, hx, hxm⟩
    obtain ⟨c, hc, rfl⟩ := List.mem_map.mp hx
    refine ⟨c, hc, ?_⟩
    cases hcm : c.message with
    | symbol s =>
      rw [hcm] at hxm
      rw [Option.some.inj hxm]
    | tick t =>
      rw [hcm] at hxm
      cases hxm
    | candle r =>
      rw [hcm] at hxm
      cases hxm
  · rintro ⟨c, hc, hcm⟩
    exact ⟨_, List.mem_map.mpr ⟨c, hc, hcm⟩, rfl⟩

theorem AllPublished.encodable {w : World} (h : AllPublished w) {m : GroupSymbol}
    (hm : m ∈ w.attempted) : m.toJson.encodable = true := by
  obtain ⟨c, hc, hcm⟩ := mem_symbolsOf.mp hm
  have := (h c hc).2
  rw [hcm] at this
  exact this

theorem allPublished_invariant :
    Threads.Invariant (taskThreads (· = .ok)) AllPublished fun _ _ => True where
  env_inv _ he := absurd he id
  env_local _ _ _ := trivial
  spawn_local _ _ := trivial
  run_inv := by
    rintro w t w' t' hw - ⟨o, hstep, hok⟩ c hc
    have hw' : w' = (t.step w o).1 := congrArg Prod.fst hstep.symm
    refine ⟨hok c hc, ?_⟩
    have hres := hok c hc
    rw [hw'] at hc
    rcases Task.mem_step_calls hc with hc | ⟨p, -, rfl⟩
    · exact (hw c hc).2
    · exact (publish_ok_iff.mp hres).1
  run_own _ _ _ := trivial
  run_other _ _ _ _ := trivial

variable {groups : List ConGroup} {symbols : List ConSymbol}

/-- **What a completed run publishes** is an interleaving of what its tasks had to publish. -/
theorem Completes.sent {w w' : World} {tasks : List Task} (h : Completes w tasks w')
    (hw : OverTables groups symbols w) (hp : AllPublished w) :
    ∃ e, w'.sentSymbols = w.sentSymbols ++ e ∧
      Interleaving (tasks.map (Task.todo groups symbols)) e ∧
      ∀ m ∈ e, m.toJson.encodable = true := by
  obtain ⟨ts, hreach, hfin⟩ := h
  have hp' : AllPublished w' :=
    (allPublished_invariant.reach hreach ⟨hp, fun _ _ => trivial⟩).1
  have hdone : ∀ t ∈ ts, t.todo groups symbols = [] := fun t ht =>
    todo_of_ended (Task.ended_of_finished (hfin t ht))
  obtain ⟨e, he, hi⟩ := (attempted_emits groups symbols (by decide)).reach_done hreach hw hdone
  refine ⟨e, ?_, hi, fun m hm => hp'.encodable ?_⟩
  · rw [hp'.sentSymbols, hp.sentSymbols, he]
  · rw [he]
    exact List.mem_append.mpr (Or.inr hm)

/-- A task alone publishes its messages in their order. -/
theorem Completes.sent_single {w w' : World} {t : Task} (h : Completes w [t] w')
    (hw : OverTables groups symbols w) (hp : AllPublished w) :
    w'.sentSymbols = w.sentSymbols ++ t.todo groups symbols := by
  obtain ⟨e, he, hi, -⟩ := h.sent hw hp
  rw [he, hi.eq_of_singleton]

/-- The world after a completed run. -/
theorem Completes.world {w w' : World} {tasks : List Task} (h : Completes w tasks w')
    (hw : OverTables groups symbols w) (hp : AllPublished w) :
    OverTables groups symbols w' ∧ AllPublished w' := by
  obtain ⟨ts, hreach, -⟩ := h
  exact ⟨((attempted_emits groups symbols (by decide)).reach hreach hw).1,
    (allPublished_invariant.reach hreach ⟨hp, fun _ _ => trivial⟩).1⟩

/-- **A publish task whose messages can be encoded has a completed run.** -/
theorem exists_completes {w : World} {t : Task} (hw : OverTables groups symbols w)
    (hp : AllPublished w) (hpub : t.publishes = true) (hthrew : t.threw = false)
    (hs : t.Sendable groups symbols) : ∃ w', Completes w [t] w' := by
  have hturns : ∀ x ∈ allOk (t.size w), x.paused = false ∧ x.outcome.status = .ok :=
    fun x hx => mem_allOk hx
  obtain ⟨hnot, hok⟩ :=
    Task.turns_sendable (allOk (t.size w)) hw hs hthrew (fun c hc => (hp c hc).1) hturns
  have hended := Task.turns_ended (allOk (t.size w)) hpub (List.length_replicate.symm.le)
  refine ⟨_, _, Task.turns_reach [] [] _ hw.paused (fun x hx => (hturns x hx).1) hok,
    fun u hu => ?_⟩
  rw [List.mem_singleton.mp hu]
  exact Task.finished_of_ended hended hnot

/-! ## Last values -/

/-- The message is for this group and this symbol. -/
def forPair (group symbol : Bytes) (m : GroupSymbol) : Bool :=
  m.accountGroup == group && m.symbol == symbol

/-- What a last-value subscriber holds for a pair. -/
def World.lastFor (w : World) (group symbol : Bytes) : Option GroupSymbol :=
  lastWith (forPair group symbol) w.sentSymbols

theorem forPair_iff {group symbol : Bytes} {m : GroupSymbol} :
    forPair group symbol m = true ↔ m.accountGroup = group ∧ m.symbol = symbol := by
  unfold forPair
  rw [Bool.and_eq_true, beq_iff_eq, beq_iff_eq]

/-- A message of `make_group_symbol` is for its group and its symbol. -/
theorem any_forPair (group : ConGroup) (symbol : ConSymbol) (margin : Option ConGroupMargin)
    (g s : Bytes) : (makeGroupSymbol group symbol margin).any (forPair g s) =
      (decide (Shown group symbol) && (group.group.text == g && symbol.symbol.text == s)) := by
  cases hm : makeGroupSymbol group symbol margin with
  | none =>
    have hs := makeGroupSymbol_eq_none_iff.mp hm
    rw [decide_eq_false hs, Option.any_none, Bool.false_and]
  | some m =>
    have hs := shown_of_makeGroupSymbol hm
    obtain ⟨hg, hsym, -⟩ := makeGroupSymbol_key hm
    rw [decide_eq_true hs, Option.any_some, Bool.true_and, forPair, hg, hsym]

end TradeBridge
