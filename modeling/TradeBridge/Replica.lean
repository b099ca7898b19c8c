import TradeBridge.Agreement
import TradeBridge.Lib.NamedTable

/-!
# What a subscriber that keeps the last message of each pair holds

`Directory` is such a subscriber beside the server's tables, in its own terms: `serve` says what
each event on the server does to it. An event is a change of the tables, or one of the publishing
functions with its tasks run to their end. The plugin refines it: whatever order the workers run
those tasks in, the last message published for each pair is the entry of the directory.

Between two events (`Serving`) the pool is not paused, the names of each table are distinct, every
publish has succeeded and no task is running: tasks of two hooks that overlap may publish in either
order. An entry is never taken back: a pair that is no longer shown keeps its last message.

Results:
* `Completes.lastFor`: what a pass does to the last messages.
* **`replica_refines`**: the plugin refines the directory along every sequence of events.
* **`current_but_for_swaps`**: after `publish_all_groups_with_symbols`, and any changes of one entry
  each with its hook behind it, every pair shown has the message of the tables as they are, up to
  the swaps, which are the symbol's own or those of the group's first entry for it.
-/

namespace TradeBridge

open TradeBridge.Lib

def ConGroup.name (g : ConGroup) : Bytes := g.group.text

def ConSymbol.name (s : ConSymbol) : Bytes := s.symbol.text

/-! ## The directory -/

/-- What happens on the server: the tables change, or a publishing function is called and its tasks
come to their end. -/
inductive ServerEvent
  | tables (groups : List ConGroup) (symbols : List ConSymbol)
  | group (g : ConGroup)
  | symbol (s : ConSymbol)
  | all

/-- The names of the tables are distinct. -/
structure NamedTables (groups : List ConGroup) (symbols : List ConSymbol) : Prop where
  groups : (groups.map ConGroup.name).Nodup
  symbols : (symbols.map ConSymbol.name).Nodup

/-- New tables have distinct names. -/
def ServerEvent.Valid : ServerEvent → Prop
  | .tables groups symbols => NamedTables groups symbols
  | _ => True

/-- The tables of the server, and the message held for each pair. -/
structure Directory where
  groups : List ConGroup
  symbols : List ConSymbol
  entries : Bytes → Bytes → Option GroupSymbol

/-- An event renews the entries it publishes a message for and leaves the others. -/
def Directory.serve (d : Directory) : ServerEvent → Directory
  | .tables groups symbols => { d with groups := groups, symbols := symbols }
  | .group g =>
    { d with entries := fun gn sn =>
        if g.name = gn then
          ((named ConSymbol.name sn d.symbols).bind (plainEntry g)).or (d.entries gn sn)
        else d.entries gn sn }
  | .symbol s =>
    { d with entries := fun gn sn =>
        if s.name = sn then
          ((named ConGroup.name gn d.groups).bind (symbolEntry s)).or (d.entries gn sn)
        else d.entries gn sn }
  | .all =>
    { d with entries := fun gn sn =>
        ((named ConGroup.name gn d.groups).bind fun g =>
          (named ConSymbol.name sn d.symbols).bind (plainEntry g)).or (d.entries gn sn) }

/-! ## The plugin -/

/-- The event takes the world from `w` to `w'`: the tasks of a publishing function run to their end,
in any order, and each publish succeeds. -/
inductive Serves : World → ServerEvent → World → Prop
  | tables {w : World} {groups : List ConGroup} {symbols : List ConSymbol} :
      Serves w (.tables groups symbols) { w with groups := groups, symbols := symbols }
  | group {w w' : World} {g : ConGroup} (h : Completes w (handleGroup (some g)) w') :
      Serves w (.group g) w'
  | symbol {w w' : World} {s : ConSymbol} (h : Completes w (handleSymbol (some s)) w') :
      Serves w (.symbol s) w'
  | all {w w' : World} (h : Completes w w.publishAllGroupsWithSymbols w') : Serves w .all w'

/-- The events, one after the other. -/
inductive ServesAll : World → List ServerEvent → World → Prop
  | nil {w : World} : ServesAll w [] w
  | cons {w w₁ w₂ : World} {ev : ServerEvent} {evs : List ServerEvent} (h : Serves w ev w₁)
      (hrest : ServesAll w₁ evs w₂) : ServesAll w (ev :: evs) w₂

/-- A plugin between two events. -/
structure Serving (w : World) : Prop where
  paused : w.paused = false
  published : AllPublished w
  names : NamedTables w.groups w.symbols

/-- The plugin's tables and last messages are those of the directory. -/
structure Refines (w : World) (d : Directory) : Prop where
  groups : w.groups = d.groups
  symbols : w.symbols = d.symbols
  entries : ∀ gn sn, w.lastFor gn sn = d.entries gn sn

/-! ## The last messages of a pass -/

variable {w w' : World} {groups : List ConGroup} {symbols : List ConSymbol}

/-- The last message for a pair after a pass is that of the pass, if it publishes one. -/
theorem Completes.lastFor {tasks : List Task} (h : Completes w tasks w')
    (hw : OverTables groups symbols w) (hp : AllPublished w) :
    ∃ e, Interleaving (tasks.map (Task.todo groups symbols)) e ∧
      ∀ gn sn, w'.lastFor gn sn = (lastWith (forPair gn sn) e).or (w.lastFor gn sn) := by
  obtain ⟨e, he, hi, -⟩ := h.sent hw hp
  refine ⟨e, hi, fun gn sn => ?_⟩
  unfold World.lastFor
  rw [he, lastWith_append]

theorem NamedTables.symbolNames (h : NamedTables groups symbols) :
    (symbols.map ConSymbol.symbol).Nodup := by
  have hmap : symbols.map ConSymbol.name = (symbols.map ConSymbol.symbol).map CStr.text := by
    rw [List.map_map]
    rfl
  exact List.Nodup.of_map _ (hmap ▸ h.symbols)

/-- The last message of a group's task for a pair. -/
theorem groupMessages_lastFor (h : (symbols.map ConSymbol.symbol).Nodup) (g : ConGroup)
    (gn sn : Bytes) : lastWith (forPair gn sn) (groupMessages symbols g) =
      if g.name = gn then (named ConSymbol.name sn symbols).bind (plainEntry g) else none := by
  by_cases hg : g.name = gn
  · rw [if_pos hg]
    subst hg
    cases hs : named ConSymbol.name sn symbols with
    | none => exact groupMessages_last_of_ne (Or.inr (named_eq_none_iff.mp hs))
    | some s =>
      obtain ⟨hmem, rfl⟩ := mem_of_named hs
      exact groupMessages_last h g hmem
  · rw [if_neg hg]
    exact groupMessages_last_of_ne (Or.inl hg)

/-- In a table of distinct names the last group of a name that shows the symbol is the group of that
name. -/
theorem symbolMessages_lastFor (h : (groups.map ConGroup.name).Nodup) (s : ConSymbol)
    (gn sn : Bytes) : lastWith (forPair gn sn) (symbolMessages groups s) =
      if s.name = sn then (named ConGroup.name gn groups).bind (symbolEntry s) else none := by
  by_cases hs : s.name = sn
  · rw [if_pos hs]
    subst hs
    refine (symbolMessages_last groups gn s).trans ?_
    cases hlast : lastShowing groups gn s with
    | none =>
      cases hg : named ConGroup.name gn groups with
      | none => rfl
      | some g =>
        obtain ⟨hmem, hname⟩ := mem_of_named hg
        exact (makeGroupSymbol_eq_none_iff.mpr (lastShowing_eq_none hlast hmem hname)).symm
    | some g =>
      obtain ⟨hmem, -, hname⟩ := lastShowing_eq_some hlast
      rw [(named_eq_some_iff h).mpr ⟨hmem, hname⟩]
  · rw [if_neg hs]
    exact symbolMessages_last_of_ne hs

/-- The last message of the tasks of all groups for a pair, however they are interleaved. -/
theorem allMessages_lastFor (h : NamedTables groups symbols) {e : List GroupSymbol}
    (hi : Interleaving (groups.map (groupMessages symbols)) e) (gn sn : Bytes) :
    lastWith (forPair gn sn) e = (named ConGroup.name gn groups).bind fun g =>
      (named ConSymbol.name sn symbols).bind (plainEntry g) := by
  have hlast := groupMessages_lastFor h.symbolNames
  cases hg : named ConGroup.name gn groups with
  | none =>
    refine hi.lastWith_eq (Or.inl rfl) fun l hl => Or.inl ?_
    obtain ⟨g, hmem, rfl⟩ := List.mem_map.mp hl
    rw [hlast, if_neg (named_eq_none_iff.mp hg g hmem)]
  | some g =>
    obtain ⟨hmem, hname⟩ := mem_of_named hg
    refine hi.lastWith_eq (Or.inr ⟨_, List.mem_map.mpr ⟨g, hmem, rfl⟩, ?_⟩) fun l hl => ?_
    · rw [hlast, if_pos hname]
      rfl
    · obtain ⟨g', hmem', rfl⟩ := List.mem_map.mp hl
      rw [hlast]
      by_cases hname' : g'.name = gn
      · right
        have hsame : g' = g :=
          List.inj_on_of_nodup_map h.groups hmem' hmem (hname'.trans hname.symm)
        rw [if_pos hname', hsame]
        rfl
      · exact Or.inl (if_neg hname')

/-! ## Refinement -/

theorem Completes.serving {tasks : List Task} (h : Completes w tasks w') (hw : Serving w) :
    Serving w' ∧ w'.groups = w.groups ∧ w'.symbols = w.symbols := by
  have hstart : OverTables w.groups w.symbols w := ⟨rfl, rfl, hw.paused⟩
  obtain ⟨hover, hp⟩ := h.world hstart hw.published
  refine ⟨⟨hover.paused, hp, ?_⟩, hover.groups, hover.symbols⟩
  rw [hover.groups, hover.symbols]
  exact hw.names

theorem Serves.serving {ev : ServerEvent} (h : Serves w ev w') (hw : Serving w) (hv : ev.Valid) :
    Serving w' := by
  cases h with
  | tables => exact ⟨hw.paused, hw.published, hv⟩
  | group h => exact (h.serving hw).1
  | symbol h => exact (h.serving hw).1
  | all h => exact (h.serving hw).1

/-- **One event** does to the last messages what it does to the directory. -/
theorem Serves.refines {ev : ServerEvent} {d : Directory} (h : Serves w ev w') (hw : Serving w)
    (hd : Refines w d) : Refines w' (d.serve ev) := by
  obtain ⟨hgroups, hsymbols, hentries⟩ := hd
  have hover : OverTables w.groups w.symbols w := ⟨rfl, rfl, hw.paused⟩
  cases h with
  | tables => exact ⟨rfl, rfl, hentries⟩
  | @group _ g h =>
    obtain ⟨-, hg, hs⟩ := h.serving hw
    obtain ⟨e, hi, hlast⟩ := h.lastFor hover hw.published
    refine ⟨hg.trans hgroups, hs.trans hsymbols, fun gn sn => ?_⟩
    have he : e = groupMessages w.symbols g := hi.eq_of_singleton
    rw [hlast, he, groupMessages_lastFor hw.names.symbolNames, hentries, hsymbols]
    simp only [Directory.serve]
    by_cases hname : g.name = gn
    · rw [if_pos hname, if_pos hname]
    · rw [if_neg hname, if_neg hname, Option.none_or]
  | @symbol _ s h =>
    obtain ⟨-, hg, hs⟩ := h.serving hw
    obtain ⟨e, hi, hlast⟩ := h.lastFor hover hw.published
    refine ⟨hg.trans hgroups, hs.trans hsymbols, fun gn sn => ?_⟩
    have he : e = symbolMessages w.groups s := hi.eq_of_singleton
    rw [hlast, he, symbolMessages_lastFor hw.names.groups, hentries, hgroups]
    simp only [Directory.serve]
    by_cases hname : s.name = sn
    · rw [if_pos hname, if_pos hname]
    · rw [if_neg hname, if_neg hname, Option.none_or]
  | all h =>
    obtain ⟨-, hg, hs⟩ := h.serving hw
    obtain ⟨e, hi, hlast⟩ := h.lastFor hover hw.published
    refine ⟨hg.trans hgroups, hs.trans hsymbols, fun gn sn => ?_⟩
    have hi' : Interleaving (w.groups.map (groupMessages w.symbols)) e := map_todo_ofGroup ▸ hi
    rw [hlast, allMessages_lastFor hw.names hi', hentries, hgroups, hsymbols]
    rfl

/-- A sequence of events does to the last messages what it does to the directory. -/
theorem ServesAll.refines {evs : List ServerEvent} (h : ServesAll w evs w') : Serving w →
    (∀ ev ∈ evs, ev.Valid) → ∀ {d : Directory}, Refines w d →
      Serving w' ∧ Refines w' (evs.foldl Directory.serve d) := by
  induction h with
  | nil => exact fun hw _ _ hd => ⟨hw, hd⟩
  | cons h _ ih =>
    intro hw hv d hd
    exact ih (h.serving hw (hv _ List.mem_cons_self))
      (fun ev hev => hv ev (List.mem_cons_of_mem _ hev)) (h.refines hw hd)

/-- **The plugin refines the directory** along every sequence of events. -/
theorem replica_refines {evs : List ServerEvent} {d : Directory} (hw : Serving w)
    (hv : ∀ ev ∈ evs, ev.Valid) (hd : Refines w d) (h : ServesAll w evs w') :
    Refines w' (evs.foldl Directory.serve d) :=
  (h.refines hw hv hd).2

/-! ## The tables as they are -/

/-- A change of one entry of a table, with its hook behind it. -/
inductive Update
  | group (g : ConGroup)
  | symbol (s : ConSymbol)

/-- The tables after the change. -/
def Update.tables (u : Update) (groups : List ConGroup) (symbols : List ConSymbol) :
    List ConGroup × List ConSymbol :=
  match u with
  | .group g => (putNamed ConGroup.name g groups, symbols)
  | .symbol s => (groups, putNamed ConSymbol.name s symbols)

/-- The hook. -/
def Update.hook : Update → ServerEvent
  | .group g => .group g
  | .symbol s => .symbol s

/-- The changes, one after the other, each with its hook run to the end of its task. -/
inductive Updates : World → List Update → World → Prop
  | nil {w : World} : Updates w [] w
  | cons {w w₁ w₂ w₃ : World} {u : Update} {us : List Update}
      (htables : Serves w (.tables (u.tables w.groups w.symbols).1
        (u.tables w.groups w.symbols).2) w₁)
      (hhook : Serves w₁ u.hook w₂) (hrest : Updates w₂ us w₃) : Updates w (u :: us) w₃

/-- Every pair shown has the message of the tables, with the symbol's own swaps or those of the
group's first entry for it. -/
def Current (w : World) : Prop :=
  ∀ g ∈ w.groups, ∀ s ∈ w.symbols, Shown g s →
    w.lastFor g.name s.name = plainEntry g s ∨ w.lastFor g.name s.name = symbolEntry s g

theorem Update.names (u : Update) {groups : List ConGroup} {symbols : List ConSymbol}
    (h : NamedTables groups symbols) :
    NamedTables (u.tables groups symbols).1 (u.tables groups symbols).2 := by
  cases u with
  | group g => exact ⟨nodup_putNamed h.groups, h.symbols⟩
  | symbol s => exact ⟨h.groups, nodup_putNamed h.symbols⟩

/-- The directory of a world. -/
def World.directory (w : World) : Directory := ⟨w.groups, w.symbols, w.lastFor⟩

theorem World.refines_directory (w : World) : Refines w w.directory := ⟨rfl, rfl, fun _ _ => rfl⟩

/-- A renewed entry is the new message. -/
theorem or_of_shown {o : Option GroupSymbol} {g : ConGroup} {s : ConSymbol}
    {margin : Option ConGroupMargin} (h : Shown g s) :
    (makeGroupSymbol g s margin).or o = makeGroupSymbol g s margin := by
  obtain ⟨m, hm⟩ := makeGroupSymbol_isSome margin h
  rw [hm, Option.some_or]

/-- After `publish_all_groups_with_symbols` every pair shown is current. -/
theorem Serves.current (h : Serves w .all w') (hw : Serving w) : Current w' := by
  obtain ⟨hgroups, hsymbols, hentries⟩ := h.refines hw w.refines_directory
  intro g hg s hs hshown
  rw [hgroups] at hg
  rw [hsymbols] at hs
  left
  have hg' : named ConGroup.name g.name w.groups = some g :=
    (named_eq_some_iff hw.names.groups).mpr ⟨hg, rfl⟩
  have hs' : named ConSymbol.name s.name w.symbols = some s :=
    (named_eq_some_iff hw.names.symbols).mpr ⟨hs, rfl⟩
  rw [hentries]
  simp only [Directory.serve, World.directory, hg', hs', Option.bind_some]
  exact or_of_shown hshown

/-- **One change with its hook keeps every pair current.** -/
theorem Current.update {w₁ w₂ : World} {u : Update} (hc : Current w) (hw : Serving w)
    (htables :
      Serves w (.tables (u.tables w.groups w.symbols).1 (u.tables w.groups w.symbols).2) w₁)
    (hhook : Serves w₁ u.hook w₂) : Serving w₂ ∧ Current w₂ := by
  have hvalid : (ServerEvent.tables (u.tables w.groups w.symbols).1
      (u.tables w.groups w.symbols).2).Valid := u.names hw.names
  have hw₁ := htables.serving hw hvalid
  have hhookValid : u.hook.Valid := by cases u <;> trivial
  obtain ⟨hgroups, hsymbols, hentries⟩ :=
    hhook.refines hw₁ (htables.refines hw w.refines_directory)
  refine ⟨hhook.serving hw₁ hhookValid, fun g hg s hs hshown => ?_⟩
  rw [hgroups] at hg
  rw [hsymbols] at hs
  rw [hentries]
  cases u with
  | group g₀ =>
    have hg' : g ∈ putNamed ConGroup.name g₀ w.groups := hg
    have hs' : s ∈ w.symbols := hs
    simp only [Directory.serve, Update.hook, Update.tables, World.directory]
    rcases (mem_putNamed_iff hw.names.groups).mp hg' with rfl | ⟨hmem, hne⟩
    · left
      rw [if_pos rfl, (named_eq_some_iff hw.names.symbols).mpr ⟨hs', rfl⟩, Option.bind_some]
      exact or_of_shown hshown
    · rw [if_neg (Ne.symm hne)]
      exact hc g hmem s hs' hshown
  | symbol s₀ =>
    have hg' : g ∈ w.groups := hg
    have hs' : s ∈ putNamed ConSymbol.name s₀ w.symbols := hs
    simp only [Directory.serve, Update.hook, Update.tables, World.directory]
    rcases (mem_putNamed_iff hw.names.symbols).mp hs' with rfl | ⟨hmem, hne⟩
    · right
      rw [if_pos rfl, (named_eq_some_iff hw.names.groups).mpr ⟨hg', rfl⟩, Option.bind_some]
      exact or_of_shown hshown
    · rw [if_neg (Ne.symm hne)]
      exact hc g hg' s hmem hshown

/-- **Every pair shown has the message of the tables as they are, up to the swaps**, after
`publish_all_groups_with_symbols` and any changes of one entry with its hook, where the tasks of each
end, with every publish a success, before the next change. -/
theorem current_but_for_swaps {w₁ w₂ : World} {us : List Update} (hw : Serving w)
    (hall : Serves w .all w₁) (hus : Updates w₁ us w₂) : Current w₂ := by
  have hgoal : Serving w₁ → Current w₁ → Current w₂ := by
    clear hall
    induction hus with
    | nil => exact fun _ hc => hc
    | cons htables hhook _ ih =>
      intro hw₁ hc
      obtain ⟨hw₂, hc₂⟩ := hc.update hw₁ htables hhook
      exact ih hw₂ hc₂
  exact hgoal (hall.serving hw trivial) (hall.current hw)

/-! ## One group and one symbol -/

theorem serving_oneGroup : Serving (oneGroup []) :=
  ⟨rfl, AllPublished.of_nil rfl, ⟨List.nodup_singleton _, List.nodup_singleton _⟩⟩

/-- `publish_all_groups_with_symbols` has a run to its end over these tables. -/
theorem exists_serves_all : ∃ w', Serves (oneGroup []) .all w' := by
  have hover : OverTables [demoGroup []] [eurusd] (oneGroup []) := ⟨rfl, rfl, rfl⟩
  obtain ⟨w', h⟩ := exists_completes (t := .ofGroup (demoGroup [])) hover (AllPublished.of_nil rfl)
    rfl rfl (show CanPublish _ by unfold CanPublish; decide)
  exact ⟨w', .all h⟩

/-- So has the hook of the symbol. -/
theorem exists_serves_symbol (hw : Serving w) (hg : w.groups = [demoGroup []])
    (hs : w.symbols = [eurusd]) : ∃ w', Serves w (.symbol eurusd) w' := by
  have hover : OverTables [demoGroup []] [eurusd] w := ⟨hg, hs, hw.paused⟩
  obtain ⟨w', h⟩ := exists_completes (t := .ofSymbol eurusd) hover hw.published rfl rfl
    (show CanPublish _ by unfold CanPublish; decide)
  exact ⟨w', .symbol h⟩

/-- All groups, then one symbol. -/
theorem replica_refines_two_events : ∃ w',
    Refines w' ([ServerEvent.all, .symbol eurusd].foldl Directory.serve (oneGroup []).directory) := by
  obtain ⟨w₁, h₁⟩ := exists_serves_all
  have hw₁ := h₁.serving serving_oneGroup trivial
  obtain ⟨hg, hs, -⟩ := h₁.refines serving_oneGroup (World.refines_directory _)
  obtain ⟨w₂, h₂⟩ := exists_serves_symbol hw₁ hg hs
  refine ⟨w₂, replica_refines serving_oneGroup (fun ev hev => ?_) (World.refines_directory _)
    (.cons h₁ (.cons h₂ .nil))⟩
  rcases List.mem_cons.mp hev with rfl | hev
  · trivial
  · obtain rfl := List.mem_singleton.mp hev
    trivial

/-- All groups, then one symbol that changes to what it was. -/
theorem current_after_update : ∃ w₁ w₂, Updates w₁ [.symbol eurusd] w₂ ∧ Current w₂ := by
  obtain ⟨w₁, h₁⟩ := exists_serves_all
  have hw₁ := h₁.serving serving_oneGroup trivial
  obtain ⟨hg, hs, -⟩ := h₁.refines serving_oneGroup (World.refines_directory _)
  have htables : Serves w₁ (.tables ((Update.symbol eurusd).tables w₁.groups w₁.symbols).1
      ((Update.symbol eurusd).tables w₁.groups w₁.symbols).2) _ := Serves.tables
  have hw₂ := htables.serving hw₁ ((Update.symbol eurusd).names hw₁.names)
  obtain ⟨w₃, h₃⟩ := exists_serves_symbol hw₂ hg (by simp only [Update.tables, hs]; rfl)
  have hus : Updates w₁ [.symbol eurusd] w₃ := .cons htables h₃ .nil
  exact ⟨w₁, w₃, hus, current_but_for_swaps serving_oneGroup h₁ hus⟩

end TradeBridge
