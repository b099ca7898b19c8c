import Mathlib.Data.Rat.Defs
import TradeBridge.Lib.Bytes

/-!
# The server's records and the plugin's messages

`MT4ServerAPI.h`, `models.h` and `tools.h`, as far as the plugin reads them. A `char[n]` is a
`CStr n`, an `int` and a `__time32_t` are `Int32`, and a `double` is the rational it denotes:
rounding of the arithmetic is not modelled, and neither are NaN and the infinities.

* `ConSymbol.type` indexes `ConGroup.secgroups`, an array of `MAX_SEC_GROUPS`; it is a
  `Fin maxSecGroups`, so an index outside the array cannot be built.
* `ConGroup.secmargins` is the list of the first `secmargins_total` entries of the array.
-/

namespace TradeBridge

open TradeBridge.Lib

/-! ## `MT4ServerAPI.h` -/

/-- `MAX_SEC_GROUPS`. -/
def maxSecGroups : Nat := 32

/-- `ServerApiVersion`. -/
def serverApiVersion : Int32 := 5

/-- `ConGroupSec`: a group's settings for one security group. -/
structure ConGroupSec where
  shown : Int32
  trade : Int32
  lotMin : Int32
  lotMax : Int32
  lotStep : Int32
  deriving DecidableEq

/-- `ConGroupMargin`: a group's special settings for one security. -/
structure ConGroupMargin where
  symbol : CStr 12
  swapLong : Rat
  swapShort : Rat
  deriving DecidableEq

/-- `ConGroup`. -/
structure ConGroup where
  group : CStr 16
  secgroups : Fin maxSecGroups → ConGroupSec
  secmargins : List ConGroupMargin

/-- `ConSymbol`. -/
structure ConSymbol where
  symbol : CStr 12
  description : CStr 64
  type : Fin maxSecGroups
  digits : Int32
  trade : Int32
  longOnly : Int32
  contractSize : Rat
  tickSize : Rat
  swapLong : Rat
  swapShort : Rat
  deriving DecidableEq

/-- `FeedTick`. -/
structure FeedTick where
  symbol : CStr 16
  ctm : Int32
  bid : Rat
  ask : Rat
  deriving DecidableEq

/-- `RateInfo`: `openPrice` in points, the other prices as shifts from it. -/
structure RateInfo where
  ctm : Int32
  openPrice : Int32
  high : Int32
  low : Int32
  close : Int32
  deriving DecidableEq

/-- A candle's time, as the `time_t` it is compared with. -/
def RateInfo.time (r : RateInfo) : Int := r.ctm.toInt

/-- `PERIOD_M1 … PERIOD_MN1`, in the order of `chart_periods`. -/
def chartPeriods : List Int := [1, 5, 15, 30, 60, 240, 1440, 10080, 43200]

def periodM1 : Int := 1
def periodM5 : Int := 5
def periodM15 : Int := 15

/-! ## `models.h` -/

/-- `candle`. -/
structure Candle where
  symbol : Bytes
  ts : Int32
  openPrice : Rat
  high : Rat
  low : Rat
  close : Rat
  deriving DecidableEq

/-- `group_symbol::trade_mode`; `other` is a value outside the enumerators that
`static_cast<trade_mode>` can produce. -/
inductive TradeMode
  | tradeNo
  | tradeClose
  | tradeFull
  | tradeLongOnly
  | other (raw : Int32)
  deriving DecidableEq

/-- `static_cast<group_symbol::trade_mode>(i)`. -/
def TradeMode.cast (i : Int32) : TradeMode :=
  if i = 0 then .tradeNo
  else if i = 1 then .tradeClose
  else if i = 2 then .tradeFull
  else if i = 3 then .tradeLongOnly
  else .other i

/-- `group_symbol`. -/
structure GroupSymbol where
  accountGroup : Bytes
  symbol : Bytes
  description : Bytes
  digits : Int32
  mode : TradeMode
  contractSize : Rat
  tickSize : Rat
  swapLong : Rat
  swapShort : Rat
  lotMin : Int32
  lotMax : Int32
  lotStep : Int32
  deriving DecidableEq

/-- `trade_request::order_side`. -/
inductive OrderSide
  | buy
  | sell
  deriving DecidableEq

/-- `trade_request`. -/
structure TradeRequest where
  requestId : Int32
  side : OrderSide
  login : Int32
  volume : Rat
  sl : Rat
  tp : Rat
  symbol : Bytes
  comment : Bytes
  deriving DecidableEq

/-! ## `tools.h` -/

/-- `const_digits`. -/
def constDigits : List Rat := [1, 10, 100, 1000, 10000, 100000]

/-- `tools::int_price_to_double`. Digits outside the table, which index past the array in the
source, divide by `0` here. -/
def intPriceToDouble (price : Int32) (digits : Int32) : Rat :=
  (price.toInt : Rat) / constDigits.getD digits.toInt.toNat 0

/-! ## `make_group_symbol` -/

/-- `make_group_symbol`: the message for `symbol` in `group`, `none` when the group does not show
it. The swaps come from `symbolMarginSec` when there is one. -/
def makeGroupSymbol (group : ConGroup) (symbol : ConSymbol)
    (symbolMarginSec : Option ConGroupMargin) : Option GroupSymbol :=
  let symbolSecGroup := group.secgroups symbol.type
  if symbolSecGroup.shown = 0 then none
  else
    let mode := TradeMode.cast symbol.trade
    let mode := if symbol.longOnly ≠ 0 then .tradeLongOnly else mode
    let mode := if symbolSecGroup.trade = 0 then .tradeNo else mode
    some {
      accountGroup := group.group.text
      symbol := symbol.symbol.text
      description := symbol.description.text
      digits := symbol.digits
      mode := mode
      contractSize := symbol.contractSize
      tickSize := symbol.tickSize
      swapLong := (symbolMarginSec.map (·.swapLong)).getD symbol.swapLong
      swapShort := (symbolMarginSec.map (·.swapShort)).getD symbol.swapShort
      lotMin := symbolSecGroup.lotMin
      lotMax := symbolSecGroup.lotMax
      lotStep := symbolSecGroup.lotStep }

/-- The group shows the symbol. -/
def Shown (group : ConGroup) (symbol : ConSymbol) : Prop :=
  (group.secgroups symbol.type).shown ≠ 0

instance (group : ConGroup) (symbol : ConSymbol) : Decidable (Shown group symbol) :=
  inferInstanceAs (Decidable (_ ≠ _))

theorem makeGroupSymbol_eq_none_iff {group : ConGroup} {symbol : ConSymbol}
    {margin : Option ConGroupMargin} :
    makeGroupSymbol group symbol margin = none ↔ ¬ Shown group symbol := by
  unfold makeGroupSymbol Shown
  split <;> simp_all

theorem makeGroupSymbol_isSome {group : ConGroup} {symbol : ConSymbol}
    (margin : Option ConGroupMargin) (h : Shown group symbol) :
    ∃ m, makeGroupSymbol group symbol margin = some m := by
  cases hm : makeGroupSymbol group symbol margin with
  | none => exact absurd h (makeGroupSymbol_eq_none_iff.mp hm)
  | some m => exact ⟨m, rfl⟩

theorem shown_of_makeGroupSymbol {group : ConGroup} {symbol : ConSymbol}
    {margin : Option ConGroupMargin} {m : GroupSymbol}
    (h : makeGroupSymbol group symbol margin = some m) : Shown group symbol := by
  by_contra hs
  rw [makeGroupSymbol_eq_none_iff.mpr hs] at h
  cases h

/-- A message names its group and its symbol. -/
theorem makeGroupSymbol_key {group : ConGroup} {symbol : ConSymbol}
    {margin : Option ConGroupMargin} {m : GroupSymbol}
    (h : makeGroupSymbol group symbol margin = some m) :
    m.accountGroup = group.group.text ∧ m.symbol = symbol.symbol.text ∧
      m.description = symbol.description.text := by
  unfold makeGroupSymbol at h
  simp only at h
  split at h
  · exact absurd h (by simp)
  · obtain rfl := Option.some.inj h
    exact ⟨rfl, rfl, rfl⟩

/-- The swaps of a message are those of the margin entry, or else the symbol's. -/
theorem makeGroupSymbol_swaps {group : ConGroup} {symbol : ConSymbol}
    {margin : Option ConGroupMargin} {m : GroupSymbol}
    (h : makeGroupSymbol group symbol margin = some m) :
    m.swapLong = (margin.map (·.swapLong)).getD symbol.swapLong ∧
      m.swapShort = (margin.map (·.swapShort)).getD symbol.swapShort := by
  unfold makeGroupSymbol at h
  simp only at h
  split at h
  · cases h
  · obtain rfl := Option.some.inj h
    exact ⟨rfl, rfl⟩

/-- **The margin entry shows only in the swaps**: for a shown symbol two messages agree iff the
swaps they take agree. -/
theorem makeGroupSymbol_none_eq_some_iff {group : ConGroup} {symbol : ConSymbol}
    (hs : Shown group symbol) (margin : ConGroupMargin) :
    makeGroupSymbol group symbol none = makeGroupSymbol group symbol (some margin) ↔
      margin.swapLong = symbol.swapLong ∧ margin.swapShort = symbol.swapShort := by
  unfold Shown at hs
  unfold makeGroupSymbol
  simp only [if_neg hs, Option.some.injEq, GroupSymbol.mk.injEq, Option.map_none, Option.map_some,
    Option.getD_none, Option.getD_some, true_and, and_true]
  exact and_congr eq_comm eq_comm

end TradeBridge
