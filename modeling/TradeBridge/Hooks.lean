import TradeBridge.Task

/-!
# The public functions of `plugin`

`handle` for a tick publishes on the server's own thread; the other hooks detach tasks, given here
as the list of the tasks, in order. A null pointer is `none`.
-/

namespace TradeBridge

open TradeBridge.Lib

/-- `handle(const FeedTick*)`; the second component says that an exception left it. -/
def World.handleTick (w : World) (status : NatsStatus) : Option FeedTick → World × Bool
  | none => (w, false)
  | some tick =>
    let p := w.publish status w.names.topicNameFeedTick (.tick tick)
    match p.2 with
    | .ok => (p.1, false)
    | .error e => (p.1.logError (bytes "Failed to publish feed tick: " ++ e), false)
    | .threw => (p.1, true)

/-- `handle(const ConSymbol*)`. -/
def handleSymbol : Option ConSymbol → List Task
  | none => []
  | some symbol => [.ofSymbol symbol]

/-- `handle(const ConGroup*)`. -/
def handleGroup : Option ConGroup → List Task
  | none => []
  | some group => [.ofGroup group]

/-- `publish_chart`. -/
def World.publishChart (w : World) : List Task :=
  w.symbols.map fun symbol => .ofChart symbol periodM1

/-- `publish_all_groups_with_symbols`. -/
def World.publishAllGroupsWithSymbols (w : World) : List Task := w.groups.map .ofGroup

theorem mem_handleSymbol {t : Task} {symbol : Option ConSymbol} (h : t ∈ handleSymbol symbol) :
    ∃ s, t = .ofSymbol s := by
  cases symbol with
  | none => exact absurd h List.not_mem_nil
  | some s => exact ⟨s, List.mem_singleton.mp h⟩

/-- **An exception leaves `handle(const FeedTick*)`** exactly at a symbol that is not UTF-8. -/
theorem World.handleTick_threw_iff (w : World) (status : NatsStatus) (tick : FeedTick) :
    (w.handleTick status (some tick)).2 = true ↔ utf8Valid tick.symbol.text = false := by
  have hthrew : (w.publish status w.names.topicNameFeedTick (.tick tick)).2 = .threw ↔
      utf8Valid tick.symbol.text = false := by
    rw [World.publish_snd, publish_threw_iff, ← tick_encodable]
    rfl
  rw [← hthrew]
  unfold World.handleTick
  simp only
  split <;> rename_i h <;> rw [h] <;> simp

end TradeBridge
