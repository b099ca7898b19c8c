import Mathlib.Data.List.Nodup
import TradeBridge.Hooks
import TradeBridge.Passes

/-!
# The by-group and the by-symbol path

`publish_group_symbols` publishes a group's overridden symbols first and then the whole symbol table
without overrides, so for a shown symbol its last message is the one without the override
(`groupMessages_last`); `published_symbols`, which the source fills in the first loop, is never
read. `publish_symbol_for_groups` takes the first override of each group (`symbolMessages_last`).

Results:
* **`pathsAgree_iff`**: the two paths agree exactly where no override that shows changes a swap, and
  groups of one name show a symbol alike.
* `an_override_is_overwritten`: one group with one override on which they disagree.
-/

namespace TradeBridge

open TradeBridge.Lib

/-! ## What the property and its condition say -/

/-- The last messages of the two tasks for the pair agree, and their swaps are those of the group's
entry when there is one. -/
def AgreeFor (group : ConGroup) (symbol : ConSymbol) (wGroup wSymbol : World) : Prop :=
  wGroup.lastFor group.group.text symbol.symbol.text =
      wSymbol.lastFor group.group.text symbol.symbol.text ∧
    ∀ m, wGroup.lastFor group.group.text symbol.symbol.text = some m →
      ∀ e, symbolMarginSec group symbol = some e →
        m.swapLong = e.swapLong ∧ m.swapShort = e.swapShort

/-- The two paths over the tables of `w` agree, task by task and as a whole. -/
def PathsAgree (w : World) : Prop :=
  (∀ group ∈ w.groups, ∀ symbol ∈ w.symbols, ∀ wGroup wSymbol,
    Completes w [.ofGroup group] wGroup → Completes w [.ofSymbol symbol] wSymbol →
    AgreeFor group symbol wGroup wSymbol) ∧
  ∀ wGroups wSymbols, Completes w w.publishAllGroupsWithSymbols wGroups →
    Completes w (w.symbols.map .ofSymbol) wSymbols →
    ∀ g s, wGroups.lastFor g s = wSymbols.lastFor g s

/-- The group's first entry for the symbol, if any, has the symbol's own swaps. -/
def OwnSwaps (group : ConGroup) (symbol : ConSymbol) : Prop :=
  ∀ e, symbolMarginSec group symbol = some e →
    e.swapLong = symbol.swapLong ∧ e.swapShort = symbol.swapShort

/-- The last group of the table with this name that shows the symbol. -/
def lastShowing (groups : List ConGroup) (name : Bytes) (symbol : ConSymbol) : Option ConGroup :=
  lastWith (fun group => decide (Shown group symbol) && group.group.text == name) groups

/-- The group overrides no swap of the symbol, and neither does the last group of its name that
shows the symbol, whose other settings for it are the same. -/
def PairAgrees (groups : List ConGroup) (group : ConGroup) (symbol : ConSymbol) : Prop :=
  (Shown group symbol → OwnSwaps group symbol) ∧
    ∀ last, lastShowing groups group.group.text symbol = some last →
      makeGroupSymbol group symbol none = makeGroupSymbol last symbol none ∧
        OwnSwaps last symbol

/-- Every message can be encoded. -/
def CanPublish (messages : List GroupSymbol) : Prop :=
  ∀ m ∈ messages, m.toJson.encodable = true

/-! ## The last message of each task -/

theorem mem_groupMessages {symbols : List ConSymbol} {group : ConGroup} {m : GroupSymbol}
    (h : m ∈ groupMessages symbols group) :
    ∃ symbol ∈ symbols, ∃ margin, makeGroupSymbol group symbol margin = some m := by
  rcases List.mem_append.mp h with h | h
  · obtain ⟨margin, -, hm⟩ := List.mem_filterMap.mp h
    obtain ⟨symbol, hfind, hmake⟩ := Option.bind_eq_some_iff.mp hm
    exact ⟨symbol, List.mem_of_find?_eq_some hfind, some margin, hmake⟩
  · obtain ⟨symbol, hmem, hmake⟩ := List.mem_filterMap.mp h
    exact ⟨symbol, hmem, none, hmake⟩

theorem mem_symbolMessages {groups : List ConGroup} {symbol : ConSymbol} {m : GroupSymbol}
    (h : m ∈ symbolMessages groups symbol) :
    ∃ group ∈ groups, symbolEntry symbol group = some m :=
  List.mem_filterMap.mp h

/-- One symbol of the table has each name. -/
theorem eq_of_name {symbols : List ConSymbol} (hnames : (symbols.map ConSymbol.symbol).Nodup)
    {s s' : ConSymbol} (hs : s ∈ symbols) (hs' : s' ∈ symbols)
    (h : s.symbol.text = s'.symbol.text) : s = s' :=
  List.inj_on_of_nodup_map hnames hs hs' (CStr.ext_text h)

/-- **The last message of `publish_group_symbols` for a symbol is the one without an override.** -/
theorem groupMessages_last {symbols : List ConSymbol}
    (hnames : (symbols.map ConSymbol.symbol).Nodup) (group : ConGroup) {symbol : ConSymbol}
    (hs : symbol ∈ symbols) :
    lastWith (forPair group.group.text symbol.symbol.text) (groupMessages symbols group) =
      makeGroupSymbol group symbol none := by
  by_cases hshown : Shown group symbol
  · obtain ⟨m, hm⟩ := makeGroupSymbol_isSome none hshown
    obtain ⟨hg, hsym, -⟩ := makeGroupSymbol_key hm
    have hlast : lastWith (forPair group.group.text symbol.symbol.text)
        (symbols.filterMap (plainEntry group)) = some m := by
      refine lastWith_eq_some_of_unique (List.mem_filterMap.mpr ⟨symbol, hs, hm⟩)
        (forPair_iff.mpr ⟨hg, hsym⟩) fun m' hm' hp => ?_
      obtain ⟨symbol', hs', hmake⟩ := List.mem_filterMap.mp hm'
      have hname : symbol'.symbol.text = symbol.symbol.text :=
        (makeGroupSymbol_key hmake).2.1.symm.trans (forPair_iff.mp hp).2
      obtain rfl := eq_of_name hnames hs' hs hname
      exact Option.some.inj (hmake.symm.trans hm)
    rw [hm]
    exact lastWith_append_of_some hlast
  · rw [makeGroupSymbol_eq_none_iff.mpr hshown, lastWith_eq_none_iff]
    intro m hm
    by_contra hp
    rw [Bool.not_eq_false] at hp
    obtain ⟨symbol', hs', margin, hmake⟩ := mem_groupMessages hm
    have hname : symbol'.symbol.text = symbol.symbol.text :=
      (makeGroupSymbol_key hmake).2.1.symm.trans (forPair_iff.mp hp).2
    obtain rfl := eq_of_name hnames hs' hs hname
    rw [makeGroupSymbol_eq_none_iff.mpr hshown] at hmake
    cases hmake

/-- The last message of `publish_symbol_for_groups` for a group name. -/
theorem symbolMessages_last (groups : List ConGroup) (name : Bytes) (symbol : ConSymbol) :
    lastWith (forPair name symbol.symbol.text) (symbolMessages groups symbol) =
      (lastShowing groups name symbol).bind (symbolEntry symbol) := by
  refine lastWith_filterMap (fun group => ?_) groups
  have := any_forPair group symbol (symbolMarginSec group symbol) name symbol.symbol.text
  rw [beq_self_eq_true, Bool.and_true] at this
  exact this.symm

theorem lastShowing_eq_none {groups : List ConGroup} {name : Bytes} {symbol : ConSymbol}
    (h : lastShowing groups name symbol = none) {group : ConGroup} (hg : group ∈ groups)
    (hname : group.group.text = name) : ¬ Shown group symbol := by
  intro hshown
  have := lastWith_eq_none_iff.mp h group hg
  rw [decide_eq_true hshown, hname, beq_self_eq_true] at this
  cases this

theorem lastShowing_eq_some {groups : List ConGroup} {name : Bytes} {symbol : ConSymbol}
    {last : ConGroup} (h : lastShowing groups name symbol = some last) :
    last ∈ groups ∧ Shown last symbol ∧ last.group.text = name := by
  obtain ⟨hmem, hp⟩ := lastWith_mem h
  rw [Bool.and_eq_true, decide_eq_true_eq, beq_iff_eq] at hp
  exact ⟨hmem, hp⟩

/-! ## When the two agree -/

/-- The override of `last` shows nowhere but in the swaps. -/
theorem plain_eq_symbolEntry_iff {group last : ConGroup} {symbol : ConSymbol}
    (hshown : Shown last symbol) :
    makeGroupSymbol group symbol none = symbolEntry symbol last ↔
      makeGroupSymbol group symbol none = makeGroupSymbol last symbol none ∧
        OwnSwaps last symbol := by
  unfold symbolEntry OwnSwaps
  cases hmargin : symbolMarginSec last symbol with
  | none =>
    refine ⟨fun h => ⟨h, fun e he => ?_⟩, And.left⟩
    cases he
  | some e =>
    have hsame := makeGroupSymbol_none_eq_some_iff hshown e
    constructor
    · intro h
      have hown : e.swapLong = symbol.swapLong ∧ e.swapShort = symbol.swapShort := by
        cases hm : makeGroupSymbol group symbol none with
        | none =>
          rw [hm] at h
          exact absurd hshown (makeGroupSymbol_eq_none_iff.mp h.symm)
        | some m =>
          obtain ⟨hlong, hshort⟩ := makeGroupSymbol_swaps hm
          rw [hm] at h
          obtain ⟨hlong', hshort'⟩ := makeGroupSymbol_swaps h.symm
          exact ⟨hlong'.symm.trans hlong, hshort'.symm.trans hshort⟩
      refine ⟨h.trans (hsame.mpr hown).symm, fun e' he' => ?_⟩
      obtain rfl := Option.some.inj he'
      exact hown
    · rintro ⟨h, hown⟩
      exact h.trans (hsame.mpr (hown e rfl))

/-- **The pair's two last messages agree iff its tables do.** -/
theorem pairAgrees_iff {groups : List ConGroup} {group : ConGroup} {symbol : ConSymbol}
    (hg : group ∈ groups) :
    (makeGroupSymbol group symbol none =
        (lastShowing groups group.group.text symbol).bind (symbolEntry symbol) ∧
      ∀ m, makeGroupSymbol group symbol none = some m →
        ∀ e, symbolMarginSec group symbol = some e →
          m.swapLong = e.swapLong ∧ m.swapShort = e.swapShort) ↔
      PairAgrees groups group symbol := by
  have hown : (∀ m, makeGroupSymbol group symbol none = some m →
      ∀ e, symbolMarginSec group symbol = some e →
        m.swapLong = e.swapLong ∧ m.swapShort = e.swapShort) ↔
      (Shown group symbol → OwnSwaps group symbol) := by
    cases hm : makeGroupSymbol group symbol none with
    | none =>
      have hshown := makeGroupSymbol_eq_none_iff.mp hm
      exact ⟨fun _ h => absurd h hshown, fun _ m h => by cases h⟩
    | some m =>
      have hshown := shown_of_makeGroupSymbol hm
      obtain ⟨hlong, hshort⟩ := makeGroupSymbol_swaps hm
      constructor
      · intro h _ e he
        obtain ⟨hl, hs⟩ := h m rfl e he
        exact ⟨hl.symm.trans hlong, hs.symm.trans hshort⟩
      · intro h m' hm' e he
        obtain rfl := Option.some.inj hm'
        obtain ⟨hl, hs⟩ := h hshown e he
        exact ⟨hlong.trans hl.symm, hshort.trans hs.symm⟩
  rw [hown, and_comm]
  refine and_congr_right fun _ => ?_
  cases hl : lastShowing groups group.group.text symbol with
  | none =>
    have hnot := lastShowing_eq_none hl hg rfl
    rw [makeGroupSymbol_eq_none_iff.mpr hnot]
    exact ⟨fun _ last h => absurd h (by simp), fun _ => rfl⟩
  | some last =>
    have hshown := (lastShowing_eq_some hl).2.1
    rw [Option.bind_some, plain_eq_symbolEntry_iff hshown]
    constructor
    · intro h last' hlast'
      obtain rfl := Option.some.inj hlast'
      exact h
    · intro h
      exact h last rfl

/-! ## The whole tables -/

theorem groupMessages_last_of_ne {symbols : List ConSymbol} {group : ConGroup} {g s : Bytes}
    (h : group.group.text ≠ g ∨ ∀ symbol ∈ symbols, symbol.symbol.text ≠ s) :
    lastWith (forPair g s) (groupMessages symbols group) = none := by
  rw [lastWith_eq_none_iff]
  intro m hm
  by_contra hp
  obtain ⟨hpg, hps⟩ := forPair_iff.mp (Bool.not_eq_false _ ▸ hp)
  obtain ⟨symbol, hs, margin, hmake⟩ := mem_groupMessages hm
  obtain ⟨hg, hsym, -⟩ := makeGroupSymbol_key hmake
  rcases h with h | h
  · exact h (hg.symm.trans hpg)
  · exact h symbol hs (hsym.symm.trans hps)

theorem symbolMessages_last_of_ne {groups : List ConGroup} {symbol : ConSymbol} {g s : Bytes}
    (h : symbol.symbol.text ≠ s) :
    lastWith (forPair g s) (symbolMessages groups symbol) = none := by
  rw [lastWith_eq_none_iff]
  intro m hm
  by_contra hp
  obtain ⟨-, hps⟩ := forPair_iff.mp (Bool.not_eq_false _ ▸ hp)
  obtain ⟨group, -, hmake⟩ := mem_symbolMessages hm
  exact h ((makeGroupSymbol_key hmake).2.1.symm.trans hps)

variable {groups : List ConGroup} {symbols : List ConSymbol}

/-- **Interleaved in any order, the two families of tasks leave the same last values**, when the
pairs of their tables agree. -/
theorem interleavings_agree (hnames : (symbols.map ConSymbol.symbol).Nodup)
    (hpairs : ∀ group ∈ groups, ∀ symbol ∈ symbols, CanPublish (groupMessages symbols group) →
      CanPublish (symbolMessages groups symbol) → PairAgrees groups group symbol)
    {eGroups eSymbols : List GroupSymbol}
    (hG : Interleaving (groups.map (groupMessages symbols)) eGroups)
    (hS : Interleaving (symbols.map (symbolMessages groups)) eSymbols)
    (hencG : CanPublish eGroups) (hencS : CanPublish eSymbols) (g s : Bytes) :
    lastWith (forPair g s) eGroups = lastWith (forPair g s) eSymbols := by
  by_cases hex : ∃ symbol ∈ symbols, symbol.symbol.text = s
  · obtain ⟨symbol, hsym, rfl⟩ := hex
    have hcanS : CanPublish (symbolMessages groups symbol) := fun m hm =>
      hencS m (hS.mem_iff.mpr ⟨_, List.mem_map.mpr ⟨symbol, hsym, rfl⟩, hm⟩)
    -- both sides are the last message of the symbol's own task
    have hright : lastWith (forPair g symbol.symbol.text) eSymbols =
        (lastShowing groups g symbol).bind (symbolEntry symbol) := by
      refine hS.lastWith_eq (Or.inr ⟨_, List.mem_map.mpr ⟨symbol, hsym, rfl⟩,
        symbolMessages_last groups g symbol⟩) fun l hl => ?_
      obtain ⟨symbol', hsym', rfl⟩ := List.mem_map.mp hl
      by_cases hname : symbol'.symbol.text = symbol.symbol.text
      · obtain rfl := eq_of_name hnames hsym' hsym hname
        exact Or.inr (symbolMessages_last groups g symbol')
      · exact Or.inl (symbolMessages_last_of_ne hname)
    have heach : ∀ group ∈ groups, group.group.text = g →
        lastWith (forPair g symbol.symbol.text) (groupMessages symbols group) =
          (lastShowing groups g symbol).bind (symbolEntry symbol) := by
      rintro group hgroup rfl
      have hcanG : CanPublish (groupMessages symbols group) := fun m hm =>
        hencG m (hG.mem_iff.mpr ⟨_, List.mem_map.mpr ⟨group, hgroup, rfl⟩, hm⟩)
      rw [groupMessages_last hnames group hsym]
      exact ((pairAgrees_iff hgroup).mpr (hpairs group hgroup symbol hsym hcanG hcanS)).1
    rw [hright]
    refine hG.lastWith_eq ?_ fun l hl => ?_
    · cases hl : lastShowing groups g symbol with
      | none => exact Or.inl rfl
      | some last =>
        obtain ⟨hmem, -, hname⟩ := lastShowing_eq_some hl
        refine Or.inr ⟨_, List.mem_map.mpr ⟨last, hmem, rfl⟩, ?_⟩
        rw [← hl]
        exact heach last hmem hname
    · obtain ⟨group, hgroup, rfl⟩ := List.mem_map.mp hl
      by_cases hname : group.group.text = g
      · exact Or.inr (heach group hgroup hname)
      · exact Or.inl (groupMessages_last_of_ne (Or.inl hname))
  · have hno : ∀ symbol ∈ symbols, symbol.symbol.text ≠ s :=
      fun symbol hs he => hex ⟨symbol, hs, he⟩
    have hnoG : lastWith (forPair g s) eGroups = none := by
      refine hG.lastWith_eq_none_iff.mpr fun l hl => ?_
      obtain ⟨group, -, rfl⟩ := List.mem_map.mp hl
      exact groupMessages_last_of_ne (Or.inr hno)
    have hnoS : lastWith (forPair g s) eSymbols = none := by
      refine hS.lastWith_eq_none_iff.mpr fun l hl => ?_
      obtain ⟨symbol, hs, rfl⟩ := List.mem_map.mp hl
      exact symbolMessages_last_of_ne (hno symbol hs)
    rw [hnoG, hnoS]

/-- The tasks of the world over these tables, each with its messages to come. -/
theorem map_todo_ofGroup : (groups.map Task.ofGroup).map (Task.todo groups symbols) =
    groups.map (groupMessages symbols) := by
  rw [List.map_map]
  exact List.map_congr_left fun group _ => todo_ofGroup groups symbols group

theorem map_todo_ofSymbol : (symbols.map Task.ofSymbol).map (Task.todo groups symbols) =
    symbols.map (symbolMessages groups) := by
  rw [List.map_map]
  exact List.map_congr_left fun symbol _ => todo_ofSymbol groups symbols symbol

/-- What the task of the by-group path leaves for a pair. -/
theorem completes_ofGroup_last {w wGroup : World} (hw : OverTables groups symbols w)
    (hp : w.calls = []) (hnames : (symbols.map ConSymbol.symbol).Nodup) {group : ConGroup}
    {symbol : ConSymbol} (hs : symbol ∈ symbols) (h : Completes w [.ofGroup group] wGroup) :
    wGroup.lastFor group.group.text symbol.symbol.text = makeGroupSymbol group symbol none := by
  unfold World.lastFor
  rw [h.sent_single hw (AllPublished.of_nil hp), sentSymbols_of_nil hp]
  exact groupMessages_last hnames group hs

/-- What the task of the by-symbol path leaves for a pair. -/
theorem completes_ofSymbol_last {w wSymbol : World} (hw : OverTables groups symbols w)
    (hp : w.calls = []) {name : Bytes} {symbol : ConSymbol}
    (h : Completes w [.ofSymbol symbol] wSymbol) :
    wSymbol.lastFor name symbol.symbol.text =
      (lastShowing groups name symbol).bind (symbolEntry symbol) := by
  unfold World.lastFor
  rw [h.sent_single hw (AllPublished.of_nil hp), sentSymbols_of_nil hp]
  exact symbolMessages_last groups name symbol

/-- **The two paths agree iff the pairs of the tables whose messages can be encoded do.** -/
theorem pathsAgree_iff (platform : Platform) (names : Names) (groups : List ConGroup)
    (symbols : List ConSymbol) (quotes : Bytes → Int → Option (List RateInfo))
    (hnames : (symbols.map ConSymbol.symbol).Nodup) :
    PathsAgree (World.start platform names groups symbols quotes) ↔
      ∀ group ∈ groups, ∀ symbol ∈ symbols, CanPublish (groupMessages symbols group) →
        CanPublish (symbolMessages groups symbol) → PairAgrees groups group symbol := by
  have hw := OverTables.start platform names groups symbols quotes
  have hp : AllPublished (World.start platform names groups symbols quotes) :=
    AllPublished.of_nil rfl
  constructor
  · rintro ⟨htasks, -⟩ group hg symbol hs hcanG hcanS
    obtain ⟨wGroup, hG⟩ := exists_completes (t := .ofGroup group) hw hp rfl rfl hcanG
    obtain ⟨wSymbol, hS⟩ := exists_completes (t := .ofSymbol symbol) hw hp rfl rfl hcanS
    have hagree := htasks group hg symbol hs wGroup wSymbol hG hS
    unfold AgreeFor at hagree
    rw [completes_ofGroup_last hw rfl hnames hs hG, completes_ofSymbol_last hw rfl hS] at hagree
    exact (pairAgrees_iff hg).mp hagree
  · intro hpairs
    refine ⟨fun group hg symbol hs wGroup wSymbol hG hS => ?_, fun wGroups wSymbols hG hS g s => ?_⟩
    · have hcanG : CanPublish (groupMessages symbols group) := by
        obtain ⟨e, -, hi, henc⟩ := hG.sent hw hp
        rw [hi.eq_of_singleton] at henc
        exact henc
      have hcanS : CanPublish (symbolMessages groups symbol) := by
        obtain ⟨e, -, hi, henc⟩ := hS.sent hw hp
        rw [hi.eq_of_singleton] at henc
        exact henc
      unfold AgreeFor
      rw [completes_ofGroup_last hw rfl hnames hs hG, completes_ofSymbol_last hw rfl hS]
      exact (pairAgrees_iff hg).mpr (hpairs group hg symbol hs hcanG hcanS)
    · unfold World.publishAllGroupsWithSymbols at hG
      obtain ⟨eGroups, heG, hiG, hencG⟩ := hG.sent hw hp
      obtain ⟨eSymbols, heS, hiS, hencS⟩ := hS.sent hw hp
      have hiG' : Interleaving (groups.map (groupMessages symbols)) eGroups :=
        map_todo_ofGroup ▸ hiG
      have hiS' : Interleaving (symbols.map (symbolMessages groups)) eSymbols :=
        map_todo_ofSymbol ▸ hiS
      unfold World.lastFor
      rw [heG, heS]
      exact interleavings_agree hnames hpairs hiG' hiS' hencG hencS g s

/-! ## An override that changes a swap -/

/-- A symbol with its own swaps. -/
def eurusd : ConSymbol where
  symbol := ⟨bytes "EURUSD", by decide, by decide⟩
  description := ⟨bytes "Euro", by decide, by decide⟩
  type := ⟨0, by decide⟩
  digits := 5
  trade := 2
  longOnly := 0
  contractSize := 100000
  tickSize := 0
  swapLong := -2
  swapShort := 1

/-- A group that shows every security. -/
def demoGroup (secmargins : List ConGroupMargin) : ConGroup where
  group := ⟨bytes "demo", by decide, by decide⟩
  secgroups _ := ⟨1, 1, 1, 100, 1⟩
  secmargins := secmargins

/-- Other swaps for the symbol. -/
def eurusdMargin : ConGroupMargin := ⟨eurusd.symbol, -5, 3⟩

/-- The tables of one group and one symbol. -/
def oneGroup (secmargins : List ConGroupMargin) : World :=
  World.start .win32 (.ofServer (bytes "mt4api") (bytes "srv")) [demoGroup secmargins] [eurusd]
    fun _ _ => none

/-- **The second loop overwrites the override**: the last message has the symbol's own swaps. -/
theorem an_override_is_overwritten : ¬ PathsAgree (oneGroup [eurusdMargin]) := by
  rintro ⟨htasks, -⟩
  have hw : OverTables [demoGroup [eurusdMargin]] [eurusd] (oneGroup [eurusdMargin]) :=
    ⟨rfl, rfl, rfl⟩
  have hp : AllPublished (oneGroup [eurusdMargin]) := AllPublished.of_nil rfl
  obtain ⟨wGroup, hG⟩ := exists_completes (t := .ofGroup (demoGroup [eurusdMargin])) hw hp rfl rfl
    (show CanPublish _ by unfold CanPublish; decide)
  obtain ⟨wSymbol, hS⟩ := exists_completes (t := .ofSymbol eurusd) hw hp rfl rfl
    (show CanPublish _ by unfold CanPublish; decide)
  have hagree := (htasks _ (List.mem_singleton_self _) _ (List.mem_singleton_self _) _ _ hG hS).1
  rw [completes_ofGroup_last hw rfl (by decide) (List.mem_singleton_self _) hG,
    completes_ofSymbol_last hw rfl hS] at hagree
  exact absurd hagree (by decide)

/-- Without overrides the two paths agree. -/
theorem paths_agree_without_override : PathsAgree (oneGroup []) :=
  (pathsAgree_iff .win32 (.ofServer (bytes "mt4api") (bytes "srv")) [demoGroup []] [eurusd]
    (fun _ _ => none) (by decide)).mpr fun group hg symbol hs _ _ => by
      obtain rfl := List.mem_singleton.mp hg
      obtain rfl := List.mem_singleton.mp hs
      refine ⟨fun _ e he => ?_, fun last hlast => ?_⟩
      · cases he
      · obtain rfl := List.mem_singleton.mp (lastShowing_eq_some hlast).1
        refine ⟨rfl, fun e he => ?_⟩
        cases he

end TradeBridge
