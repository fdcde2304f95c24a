import CryptoNav.History.Fields
import CryptoNav.Intra.Accumulators
import CryptoNav.Lib.Partition
import CryptoNav.Pnl.SymbolState
import Mathlib.Algebra.Order.Group.Abs

/-!
# Interest in USDT

`load_spot_swap_inputs` turns the interest rows of a strategy into events. Where an exchange reports
no cost in USDT, the interest is priced with the strategy's own trades: at the price of the one that
is nearest in time.

The query that selects the rows is left out, and so are the rows of trades and funding, which
need no price. What happens at equal distances is settled by the source in favour of the earlier
trade. The differences of times are saturating there, which is the only reason for the condition
on them: times that far apart are no times of trades.
-/

set_option autoImplicit false

namespace CryptoNav.Pnl

open CryptoNav.Lib CryptoNav.History.Raw
open CryptoNav.Intra (saturatingSub)

/-! ## The nearest trade -/

section
variable {π : Type}

def nearestTradePrice (point : PartitionPoint) (prices : List (ℤ × π)) (ts : ℤ) : Option π :=
  let next := point.index (fun price => price.1 < ts) prices
  match if next = 0 then none else prices[next - 1]?, prices[next]? with
  | some previous, some next =>
    if saturatingSub ts previous.1 ≤ saturatingSub next.1 ts then some previous.2 else some next.2
  | some previous, none => some previous.2
  | none, some next => some next.2
  | none, none => none

/-- No trade is nearer to `ts`, and of two times that are equally near the trade has the earlier. -/
def Nearest (prices : List (ℤ × π)) (ts : ℤ) (trade : ℤ × π) : Prop :=
  trade ∈ prices ∧ ∀ other ∈ prices,
    |trade.1 - ts| < |other.1 - ts| ∨ |trade.1 - ts| = |other.1 - ts| ∧ trade.1 ≤ other.1

end

/-! ## Interest rows -/

def stablecoins : List String := ["USDT", "USDC", "USD"]

inductive MarkPriceExchange where
  | binance
  | bybit
  | gate
  | okx
  deriving DecidableEq, Repr

/-- What is read of a trade for the histories of prices. -/
structure SpotSwapTradeRow where
  market : String
  symbol : String
  price : ℚ
  ts : ℤ
  deriving DecidableEq, Repr

structure SpotSwapInterestRow where
  currency : String
  interest : ℚ
  costUsdt : Option ℚ
  ts : ℤ
  deriving DecidableEq, Repr

/-- `all_price_history`; a symbol without trades is not in it. -/
def allPriceHistory (trades : List SpotSwapTradeRow) (symbol : String) : List (ℤ × ℚ) :=
  (trades.filter fun trade => uppercase trade.symbol = symbol).map fun trade =>
    (trade.ts, trade.price)

def spotPriceHistory (trades : List SpotSwapTradeRow) (symbol : String) : List (ℤ × ℚ) :=
  allPriceHistory (trades.filter fun trade => trade.market = "spot") symbol

def interestCostUsdt (exchange : String) (amountUsdt : ℚ) : ℚ :=
  if exchange = "binance" then max amountUsdt 0 else max (-amountUsdt) 0

def conversionPrice (point : PartitionPoint) (exchange : String)
    (markPrice : MarkPriceExchange → String → Option ℚ) (trades : List SpotSwapTradeRow)
    (currency symbol : String) (ts : ℤ) : Option ℚ :=
  if currency ∈ stablecoins then some 1
  else if exchange = "binance" then markPrice .binance symbol
  else
    let nearestPrice := (nearestTradePrice point (spotPriceHistory trades symbol) ts).or
      (nearestTradePrice point (allPriceHistory trades symbol) ts)
    if exchange = "bybit" then nearestPrice.or (markPrice .bybit symbol) else nearestPrice

def interestEvent (point : PartitionPoint) (exchange : String)
    (markPrice : MarkPriceExchange → String → Option ℚ) (trades : List SpotSwapTradeRow)
    (row : SpotSwapInterestRow) : InterestEvent :=
  let currency := uppercase row.currency
  let symbol := if currency ∈ stablecoins then currency else currency ++ "USDT"
  let conversion := conversionPrice point exchange markPrice trades currency symbol row.ts
  { symbol
    costUsdt := (row.costUsdt.or (conversion.map (row.interest * ·))).map (interestCostUsdt exchange)
    conversionPrice := conversion
    spotQuantityDelta :=
      if exchange = "bybit" ∧ currency ∉ stablecoins then row.interest else 0
    ts := row.ts }

/-! ## The neighbours of a time -/

theorem saturatingSub_eq {a b : ℤ} (h : |a - b| ≤ 2 ^ 63 - 1) : saturatingSub a b = a - b := by
  obtain ⟨hlow, hhigh⟩ := abs_le.mp h
  unfold saturatingSub
  omega

section
variable {π : Type}

theorem nearest_of_before {prices : List (ℤ × π)} {ts : ℤ} {trade : ℤ × π} (hmem : trade ∈ prices)
    (hts : trade.1 < ts) (hbefore : ∀ other ∈ prices, other.1 < ts → other.1 ≤ trade.1)
    (hafter : ∀ other ∈ prices, ts ≤ other.1 → ts - trade.1 ≤ other.1 - ts) :
    Nearest prices ts trade := by
  refine ⟨hmem, fun other hother => ?_⟩
  rw [abs_of_neg (sub_neg.mpr hts)]
  rcases lt_or_ge other.1 ts with hlt | hge
  · have := hbefore other hother hlt
    rw [abs_of_neg (sub_neg.mpr hlt)]
    omega
  · have := hafter other hother hge
    rw [abs_of_nonneg (sub_nonneg.mpr hge)]
    omega

theorem nearest_of_after {prices : List (ℤ × π)} {ts : ℤ} {trade : ℤ × π} (hmem : trade ∈ prices)
    (hts : ts ≤ trade.1) (hafter : ∀ other ∈ prices, ts ≤ other.1 → trade.1 ≤ other.1)
    (hbefore : ∀ other ∈ prices, other.1 < ts → trade.1 - ts < ts - other.1) :
    Nearest prices ts trade := by
  refine ⟨hmem, fun other hother => ?_⟩
  rw [abs_of_nonneg (sub_nonneg.mpr hts)]
  rcases lt_or_ge other.1 ts with hlt | hge
  · have := hbefore other hother hlt
    rw [abs_of_neg (sub_neg.mpr hlt)]
    omega
  · have := hafter other hother hge
    rw [abs_of_nonneg (sub_nonneg.mpr hge)]
    omega

/-- What the two elements at the partition point are, if they are there. -/
theorem neighbours (point : PartitionPoint) {prices : List (ℤ × π)} (ts : ℤ)
    (hsorted : prices.Pairwise fun a b => a.1 ≤ b.1) :
    let next := point.index (fun price => price.1 < ts) prices
    (match if next = 0 then none else prices[next - 1]? with
      | some previous => previous ∈ prices ∧ previous.1 < ts ∧
          ∀ other ∈ prices, other.1 < ts → other.1 ≤ previous.1
      | none => ∀ other ∈ prices, ts ≤ other.1) ∧
    match prices[next]? with
      | some after => after ∈ prices ∧ ts ≤ after.1 ∧
          ∀ other ∈ prices, ts ≤ other.1 → after.1 ≤ other.1
      | none => ∀ other ∈ prices, other.1 < ts := by
  intro next
  have hparts : Partitioned (fun price : ℤ × π => decide (price.1 < ts)) prices := by
    refine fun a ha => not_of_mem_dropWhile (hsorted.imp fun {x y} hxy hy => ?_) ha
    exact decide_eq_true (hxy.trans_lt (of_decide_eq_true hy))
  constructor
  · by_cases hzero : next = 0
    · rw [if_pos hzero]
      intro other hother
      have := (point.index_eq_zero hparts).mp hzero other hother
      simpa using this
    · rw [if_neg hzero]
      cases hprevious : prices[next - 1]? with
      | none =>
        have hle := point.index_le (fun price : ℤ × π => decide (price.1 < ts)) prices
        have := List.getElem?_eq_none_iff.mp hprevious
        omega
      | some previous => simpa using point.previous_spec hparts hsorted hzero hprevious
  · cases hnext : prices[next]? with
    | none =>
      intro other hother
      have := (point.getElem?_index_eq_none hparts).mp hnext other hother
      simpa using this
    | some after => simpa using point.next_spec hparts hsorted hnext

/-- **`nearest_trade_price` is the nearest neighbour**, as long as the differences fit: it returns
    the price of a trade than which none is nearer in time, of two times that are equally near that
    of the earlier, and nothing only if there are no trades. -/
theorem nearestTradePrice_nearest (point : PartitionPoint) {prices : List (ℤ × π)} {ts : ℤ}
    (hsorted : prices.Pairwise fun a b => a.1 ≤ b.1)
    (hfits : ∀ trade ∈ prices, |trade.1 - ts| ≤ 2 ^ 63 - 1) :
    (nearestTradePrice point prices ts = none ↔ prices = []) ∧
      ∀ price, nearestTradePrice point prices ts = some price →
        ∃ trade, Nearest prices ts trade ∧ trade.2 = price := by
  obtain ⟨hprevious, hnext⟩ := neighbours point ts hsorted
  unfold nearestTradePrice
  simp only
  split
  · rename_i previous next hbefore hafter
    rw [hbefore] at hprevious
    rw [hafter] at hnext
    obtain ⟨hmem, hlt, hlast⟩ := hprevious
    obtain ⟨hmem', hge, hfirst⟩ := hnext
    rw [saturatingSub_eq (abs_sub_comm ts previous.1 ▸ hfits previous hmem),
      saturatingSub_eq (hfits next hmem')]
    have hne : prices ≠ [] := List.ne_nil_of_mem hmem
    split
    · rename_i hle
      refine ⟨by simp [hne], fun price hprice => ⟨previous, ?_, Option.some.inj hprice⟩⟩
      refine nearest_of_before hmem hlt hlast fun other hother hts => ?_
      have := hfirst other hother hts
      omega
    · rename_i hgt
      refine ⟨by simp [hne], fun price hprice => ⟨next, ?_, Option.some.inj hprice⟩⟩
      refine nearest_of_after hmem' hge hfirst fun other hother hts => ?_
      have := hlast other hother hts
      omega
  · rename_i previous hbefore hafter
    rw [hbefore] at hprevious
    rw [hafter] at hnext
    obtain ⟨hmem, hlt, hlast⟩ := hprevious
    refine ⟨by simp [List.ne_nil_of_mem hmem],
      fun price hprice => ⟨previous, ?_, Option.some.inj hprice⟩⟩
    exact nearest_of_before hmem hlt hlast fun other hother hts =>
      absurd (hnext other hother) (not_lt.mpr hts)
  · rename_i next hbefore hafter
    rw [hbefore] at hprevious
    rw [hafter] at hnext
    obtain ⟨hmem, hge, hfirst⟩ := hnext
    refine ⟨by simp [List.ne_nil_of_mem hmem],
      fun price hprice => ⟨next, ?_, Option.some.inj hprice⟩⟩
    exact nearest_of_after hmem hge hfirst fun other hother hts =>
      absurd (hprevious other hother) (not_le.mpr hts)
  · rename_i hbefore hafter
    rw [hbefore] at hprevious
    rw [hafter] at hnext
    refine ⟨iff_of_true rfl (List.eq_nil_iff_forall_not_mem.mpr fun other hother => ?_),
      fun price hprice => by cases hprice⟩
    exact absurd (hnext other hother) (not_lt.mpr (hprevious other hother))

end

def sampleTrades : List (ℤ × ℚ) := [(100, 10), (200, 20), (200, 21), (300, 30)]

/-- Halfway between two trades the earlier one counts. -/
theorem nearestTradePrice_halfway :
    nearestTradePrice (.unspecified 0) sampleTrades 150 = some 10 ∧
      ∃ trade, Nearest sampleTrades 150 trade ∧ trade.2 = 10 := by
  have hprice : nearestTradePrice (.unspecified 0) sampleTrades 150 = some 10 := by decide +kernel
  exact ⟨hprice, (nearestTradePrice_nearest _ (by decide) (by decide)).2 10 hprice⟩

/-! ## The price of interest -/

theorem allPriceHistory_sorted {trades : List SpotSwapTradeRow}
    (hsorted : trades.Pairwise fun a b => a.ts ≤ b.ts) (symbol : String) :
    (allPriceHistory trades symbol).Pairwise fun a b => a.1 ≤ b.1 :=
  List.pairwise_map.mpr (hsorted.filter _)

theorem spotPriceHistory_sorted {trades : List SpotSwapTradeRow}
    (hsorted : trades.Pairwise fun a b => a.ts ≤ b.ts) (symbol : String) :
    (spotPriceHistory trades symbol).Pairwise fun a b => a.1 ≤ b.1 :=
  allPriceHistory_sorted (hsorted.filter _) symbol

theorem spotPriceHistory_subset (trades : List SpotSwapTradeRow) (symbol : String) :
    spotPriceHistory trades symbol ⊆ allPriceHistory trades symbol :=
  ((List.filter_sublist.filter _).map _).subset

/-- Outside Binance, interest in a coin is priced at the nearest spot trade of the strategy, or at the
    nearest trade if there is none on the spot market; only where the strategy did not trade the coin
    the mark price is asked for. -/
theorem interestEvent_conversionPrice (point : PartitionPoint) {exchange : String}
    (markPrice : MarkPriceExchange → String → Option ℚ) {trades : List SpotSwapTradeRow}
    {row : SpotSwapInterestRow} (hsorted : trades.Pairwise fun a b => a.ts ≤ b.ts)
    (hfits : ∀ trade ∈ trades, |trade.ts - row.ts| ≤ 2 ^ 63 - 1) (hexchange : exchange ≠ "binance")
    (hcoin : uppercase row.currency ∉ stablecoins) :
    let event := interestEvent point exchange markPrice trades row
    let spot := spotPriceHistory trades event.symbol
    let all := allPriceHistory trades event.symbol
    (spot ≠ [] → ∃ trade, Nearest spot row.ts trade ∧ event.conversionPrice = some trade.2) ∧
      (spot = [] → all ≠ [] →
        ∃ trade, Nearest all row.ts trade ∧ event.conversionPrice = some trade.2) ∧
      (all = [] → event.conversionPrice =
        if exchange = "bybit" then markPrice .bybit event.symbol else none) := by
  intro event spot all
  have hfitsAll : ∀ trade ∈ all, |trade.1 - row.ts| ≤ 2 ^ 63 - 1 := by
    intro trade hmem
    obtain ⟨source, hsource, rfl⟩ := List.mem_map.mp hmem
    exact hfits source (List.mem_filter.mp hsource).1
  have hspot := nearestTradePrice_nearest point (spotPriceHistory_sorted hsorted event.symbol)
    fun trade hmem => hfitsAll trade (spotPriceHistory_subset trades event.symbol hmem)
  have hall := nearestTradePrice_nearest point (allPriceHistory_sorted hsorted event.symbol) hfitsAll
  have hevent : event.conversionPrice =
      if exchange = "bybit" then ((nearestTradePrice point spot row.ts).or
        (nearestTradePrice point all row.ts)).or (markPrice .bybit event.symbol)
      else (nearestTradePrice point spot row.ts).or (nearestTradePrice point all row.ts) := by
    show conversionPrice point exchange markPrice trades (uppercase row.currency) event.symbol row.ts
      = _
    unfold conversionPrice
    rw [if_neg hcoin, if_neg hexchange]
  have hfirst : ∀ price, (nearestTradePrice point spot row.ts).or
      (nearestTradePrice point all row.ts) = some price → event.conversionPrice = some price := by
    intro price hprice
    rw [hevent, hprice, Option.some_or, ite_self]
  refine ⟨fun hne => ?_, fun hnone hne => ?_, fun hnone => ?_⟩
  · obtain ⟨price, hprice⟩ := Option.ne_none_iff_exists'.mp (hspot.1.not.mpr hne)
    obtain ⟨trade, hnearest, rfl⟩ := hspot.2 price hprice
    exact ⟨trade, hnearest, hfirst _ (by rw [hprice, Option.some_or])⟩
  · obtain ⟨price, hprice⟩ := Option.ne_none_iff_exists'.mp (hall.1.not.mpr hne)
    obtain ⟨trade, hnearest, rfl⟩ := hall.2 price hprice
    exact ⟨trade, hnearest, hfirst _ (by rw [hspot.1.mpr hnone, Option.none_or, hprice])⟩
  · have hspotNone : spot = [] :=
      List.subset_nil.mp (hnone ▸ spotPriceHistory_subset trades event.symbol)
    rw [hevent, hspot.1.mpr hspotNone, hall.1.mpr hnone, Option.none_or, Option.none_or]

end CryptoNav.Pnl
