import TradeBridge.Exceptions

/-!
# How often a group run publishes a symbol

`publish_group_symbols` (`plugin.cpp:281-321`) publishes the symbols of the group's `secmargins` in
a first loop and the whole table in a second one. The set `published_symbols` that the first loop
fills is not looked at by the second, so an overridden symbol is published by both.

Results:
* `plain_count`: the second loop publishes each shown symbol once.
* `margin_count_eq_zero_iff`: the first loop publishes a symbol unless no entry names it.
* **`publishedOnce_iff`**: a run publishes each shown symbol once iff no entry names one of them.
* `an_overridden_symbol_is_published_twice`.
-/

namespace TradeBridge

open TradeBridge.Lib

/-- The message is for the symbol. -/
def forSymbol (symbol : ConSymbol) (m : GroupSymbol) : Bool := m.symbol == symbol.symbol.text

/-- One message for each symbol of the table that the group shows, and none for another name. -/
structure PublishedOnce (symbols : List ConSymbol) (group : ConGroup) (ms : List GroupSymbol) :
    Prop where
  once : ∀ symbol ∈ symbols, Shown group symbol → ms.countP (forSymbol symbol) = 1
  noOther : ∀ m ∈ ms, ∃ symbol ∈ symbols, Shown group symbol ∧ forSymbol symbol m = true

/-- No `secmargins` entry of the group names a symbol of the table that the group shows. -/
def OverridesNone (symbols : List ConSymbol) (group : ConGroup) : Prop :=
  ∀ margin ∈ group.secmargins, ∀ symbol ∈ symbols, symbol.symbol = margin.symbol →
    ¬ Shown group symbol

variable {symbols : List ConSymbol} {group : ConGroup} {symbol : ConSymbol}

/-! ## The two loops -/

/-- A message of `make_group_symbol` is for a symbol of the table iff it is made of that one. -/
theorem any_forSymbol (hnames : (symbols.map ConSymbol.symbol).Nodup) (hs : symbol ∈ symbols)
    (hshown : Shown group symbol) {symbol' : ConSymbol} (hs' : symbol' ∈ symbols)
    (margin : Option ConGroupMargin) :
    (makeGroupSymbol group symbol' margin).any (forSymbol symbol) = (symbol' == symbol) := by
  rw [Bool.eq_iff_iff, beq_iff_eq, Option.any_eq_true]
  constructor
  · rintro ⟨m, hm, hfor⟩
    refine eq_of_name hnames hs' hs ?_
    rw [← (makeGroupSymbol_key hm).2.1]
    exact beq_iff_eq.mp hfor
  · rintro rfl
    obtain ⟨m, hm⟩ := makeGroupSymbol_isSome margin hshown
    exact ⟨m, hm, beq_iff_eq.mpr (makeGroupSymbol_key hm).2.1⟩

/-- **The second loop publishes each shown symbol once.** -/
theorem plain_count (hnames : (symbols.map ConSymbol.symbol).Nodup) (hs : symbol ∈ symbols)
    (hshown : Shown group symbol) :
    (symbols.filterMap (plainEntry group)).countP (forSymbol symbol) = 1 := by
  have hcount : (symbols.filterMap (plainEntry group)).countP (forSymbol symbol) =
      symbols.count symbol := by
    rw [List.countP_filterMap]
    refine List.countP_congr fun symbol' hs' => ?_
    have := any_forSymbol hnames hs hshown hs' none
    rw [← this]
    unfold plainEntry
    cases makeGroupSymbol group symbol' none <;> rfl
  rw [hcount]
  exact List.count_eq_one_of_mem (List.Nodup.of_map _ hnames) hs

/-- An entry makes a message for a shown symbol iff it names it. -/
theorem marginEntry_forSymbol (hnames : (symbols.map ConSymbol.symbol).Nodup) (hs : symbol ∈ symbols)
    (hshown : Shown group symbol) (margin : ConGroupMargin) :
    (marginEntry symbols group margin).any (forSymbol symbol) = true ↔
      symbol.symbol = margin.symbol := by
  unfold marginEntry
  cases hfind : symbols.find? fun s => s.symbol == margin.symbol with
  | none =>
    have hno := List.find?_eq_none.mp hfind symbol hs
    exact ⟨fun h => absurd h Bool.false_ne_true, fun h => absurd (beq_iff_eq.mpr h) hno⟩
  | some found =>
    have hmem := List.mem_of_find?_eq_some hfind
    have hname : found.symbol = margin.symbol := by
      have := List.find?_some hfind
      exact beq_iff_eq.mp this
    rw [Option.bind_some, any_forSymbol hnames hs hshown hmem, beq_iff_eq]
    constructor
    · rintro rfl
      exact hname
    · intro h
      exact eq_of_name hnames hmem hs (congrArg CStr.text (hname.trans h.symm))

/-- **The first loop publishes a shown symbol** unless no entry names it. -/
theorem margin_count_eq_zero_iff (hnames : (symbols.map ConSymbol.symbol).Nodup)
    (hs : symbol ∈ symbols) (hshown : Shown group symbol) :
    (group.secmargins.filterMap (marginEntry symbols group)).countP (forSymbol symbol) = 0 ↔
      ∀ margin ∈ group.secmargins, symbol.symbol ≠ margin.symbol := by
  rw [List.countP_filterMap, List.countP_eq_zero]
  refine forall₂_congr fun margin _ => not_congr ?_
  rw [← marginEntry_forSymbol hnames hs hshown margin]
  cases marginEntry symbols group margin <;> rfl

/-- The messages of both loops. -/
theorem publishedOnce_groupMessages_iff (hnames : (symbols.map ConSymbol.symbol).Nodup) :
    PublishedOnce symbols group (groupMessages symbols group) ↔ OverridesNone symbols group := by
  have hcount : ∀ symbol ∈ symbols, Shown group symbol →
      ((groupMessages symbols group).countP (forSymbol symbol) = 1 ↔
        ∀ margin ∈ group.secmargins, symbol.symbol ≠ margin.symbol) := by
    intro symbol hs hshown
    rw [← margin_count_eq_zero_iff hnames hs hshown]
    unfold groupMessages
    rw [List.countP_append, plain_count hnames hs hshown]
    omega
  constructor
  · intro h margin hmargin symbol hs hname hshown
    exact (hcount symbol hs hshown).mp (h.once symbol hs hshown) margin hmargin hname
  · intro h
    refine ⟨fun symbol hs hshown => (hcount symbol hs hshown).mpr fun margin hmargin hname =>
      h margin hmargin symbol hs hname hshown, fun m hm => ?_⟩
    obtain ⟨symbol, hs, margin, hmake⟩ := mem_groupMessages hm
    exact ⟨symbol, hs, shown_of_makeGroupSymbol hmake,
      beq_iff_eq.mpr (makeGroupSymbol_key hmake).2.1⟩

/-! ## Runs -/

/-- What a successful run over the tables publishes. -/
theorem Completes.sentSymbols_ofGroup {platform : Platform} {names : Names}
    {groups : List ConGroup} {quotes : Bytes → Int → Option (List RateInfo)} {w' : World}
    (h : Completes (.start platform names groups symbols quotes) [.ofGroup group] w') :
    w'.sentSymbols = groupMessages symbols group := by
  have hsent := h.sent_single (OverTables.start platform names groups symbols quotes)
    (AllPublished.of_nil rfl)
  have hnil : (World.start platform names groups symbols quotes).sentSymbols = [] :=
    sentSymbols_of_nil rfl
  rw [hnil, List.nil_append, todo_ofGroup] at hsent
  exact hsent

/-- **A group run publishes each shown symbol once** iff no `secmargins` entry names one of them.
(When a message cannot be encoded, no run publishes with success only.) -/
theorem publishedOnce_iff (platform : Platform) (names : Names) (groups : List ConGroup)
    (symbols : List ConSymbol) (quotes : Bytes → Int → Option (List RateInfo)) (group : ConGroup)
    (hnames : (symbols.map ConSymbol.symbol).Nodup) :
    (∀ w', Completes (.start platform names groups symbols quotes) [.ofGroup group] w' →
        PublishedOnce symbols group w'.sentSymbols) ↔
      ((∀ symbol ∈ symbols, Shown group symbol → ValidTexts group symbol) →
        OverridesNone symbols group) := by
  constructor
  · intro h hvalid
    have hs : (Task.ofGroup group).Sendable groups symbols := fun m hm =>
      canPublish_groupMessages_iff.mpr hvalid m hm
    obtain ⟨w', hw'⟩ := exists_completes (OverTables.start platform names groups symbols quotes)
      (AllPublished.of_nil rfl) rfl rfl hs
    have honce := h w' hw'
    rw [hw'.sentSymbols_ofGroup] at honce
    exact (publishedOnce_groupMessages_iff hnames).mp honce
  · intro h w' hw'
    have hvalid : ∀ symbol ∈ symbols, Shown group symbol → ValidTexts group symbol := by
      refine canPublish_groupMessages_iff.mp fun m hm => ?_
      have hpublished := (hw'.world (OverTables.start platform names groups symbols quotes)
        (AllPublished.of_nil rfl)).2
      rw [← hw'.sentSymbols_ofGroup, hpublished.sentSymbols] at hm
      exact hpublished.encodable hm
    rw [hw'.sentSymbols_ofGroup]
    exact (publishedOnce_groupMessages_iff hnames).mpr (h hvalid)

/-- Without an entry the one symbol is published once. -/
theorem publishedOnce_without_override :
    ∃ w', Completes (oneGroup []) [.ofGroup (demoGroup [])] w' ∧
      PublishedOnce [eurusd] (demoGroup []) w'.sentSymbols := by
  have hw : OverTables [demoGroup []] [eurusd] (oneGroup []) := ⟨rfl, rfl, rfl⟩
  obtain ⟨w', hw'⟩ := exists_completes (t := .ofGroup (demoGroup [])) hw (AllPublished.of_nil rfl)
    rfl rfl (show CanPublish _ by unfold CanPublish; decide)
  exact ⟨w', hw', (publishedOnce_iff .win32 (.ofServer (bytes "mt4api") (bytes "srv"))
    [demoGroup []] [eurusd] (fun _ _ => none) (demoGroup []) (List.nodup_singleton _)).mpr
      (fun _ _ hmargin => absurd hmargin List.not_mem_nil) w' hw'⟩

/-- **An overridden symbol is published twice.** -/
theorem an_overridden_symbol_is_published_twice :
    ¬ ∀ w', Completes (oneGroup [eurusdMargin]) [.ofGroup (demoGroup [eurusdMargin])] w' →
      PublishedOnce [eurusd] (demoGroup [eurusdMargin]) w'.sentSymbols := by
  intro h
  have hw : OverTables [demoGroup [eurusdMargin]] [eurusd] (oneGroup [eurusdMargin]) :=
    ⟨rfl, rfl, rfl⟩
  obtain ⟨w', hw'⟩ := exists_completes (t := .ofGroup (demoGroup [eurusdMargin])) hw
    (AllPublished.of_nil rfl) rfl rfl (show CanPublish _ by unfold CanPublish; decide)
  have honce := h w' hw'
  rw [hw'.sentSymbols_ofGroup] at honce
  have := honce.once eurusd (List.mem_singleton_self _) (by decide)
  exact absurd this (by decide)

end TradeBridge
