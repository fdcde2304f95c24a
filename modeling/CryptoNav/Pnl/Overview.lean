import CryptoNav.Pnl.Calculate

/-!
# `overview::replay`

The lean account replay of `pnl/overview.rs`: the same events over states created on demand, one
running total of per-event differences, and the totals at requested boundaries. The `BTreeMap`s
of a `History` are filled in increasing key order and are lists of pairs here.

The points that it keeps are those of one start; its boundaries may lie anywhere. Both are read
off the running total, which is in the state for that reason. What the replay captures is in
`Captures`, that its totals are those of `calculate` in `Agreement`, and the account that it is
made for in the overview.
-/

set_option autoImplicit false

namespace CryptoNav.Pnl

open CryptoNav.Lib

structure History where
  boundaries : List (ℤ × ℚ)
  points : List (ℤ × ℚ)
  realizedBoundaries : List (ℤ × ℚ)
  finalRealizedNet : ℚ
  finalPnl : ℚ
  startPnl : ℚ
  deriving DecidableEq, Repr

/-- Fees are already deducted in `fee_after_pnl_usdt`, including opening fees. -/
def realizedNetPnl (m : Metrics) : ℚ := m.feeAfterPnlUsdt + m.fundingPnlUsdt - m.interestCostUsdt

/-- What the event loop of `replay` carries. -/
structure Replay where
  states : States
  wanted : List ℤ
  boundaries : List (ℤ × ℚ) := []
  realizedBoundaries : List (ℤ × ℚ) := []
  points : List (ℤ × ℚ) := []
  startPnl : ℚ := 0
  total : ℚ := 0
  realizedNet : ℚ := 0
  started : Bool := false

/-- `states.entry(symbol).or_insert_with(|| SymbolState::for_source(source))`. -/
def entryOf (source : PnlSourceKind) (states : States) (symbol : String) : SymbolState :=
  (states symbol).getD (.forSource source)

def seedEntry (source : PnlSourceKind) (states : States) (position : InitialPosition) :
    Except PnlError States := do
  let state ← (entryOf source states position.symbol).seedPosition position
  return Function.update states position.symbol (some state)

namespace Replay

def markStart (r : Replay) (start ts : ℤ) : Replay :=
  if !r.started ∧ start ≤ ts then { r with startPnl := r.total, started := true } else r

/-- The `while` that captures every wanted boundary up to `ts`. -/
def captureThrough (r : Replay) (ts : ℤ) : Replay :=
  { r with
    wanted := r.wanted.dropWhile (· ≤ ts)
    boundaries := r.boundaries ++ (r.wanted.takeWhile (· ≤ ts)).map (·, r.total)
    realizedBoundaries :=
      r.realizedBoundaries ++ (r.wanted.takeWhile (· ≤ ts)).map (·, r.realizedNet) }

def pushPoint (r : Replay) (ts : ℤ) : Replay :=
  { r with points :=
      if (r.points.getLast?.map (·.1)) = some ts then r.points.dropLast ++ [(ts, r.total)]
      else r.points ++ [(ts, r.total)] }

def apply (source : PnlSourceKind) (start : ℤ) (r : Replay) (event : PnlEvent) :
    Except PnlError Replay := do
  let r := (r.markStart start event.ts).captureThrough event.ts
  let before := entryOf source r.states event.symbol
  let after ← before.applyEvent event
  if after.metrics.unconvertedFeeCount ≠ 0 ∨ after.metrics.unconvertedInterestCount ≠ 0 then
    .error (.message "account history contains unconverted charges")
  else
    let r := { r with
      states := Function.update r.states event.symbol (some after)
      total := r.total + (after.metrics.totalPnlUsdt - before.metrics.totalPnlUsdt)
      realizedNet := r.realizedNet
        + (realizedNetPnl after.metrics - realizedNetPnl before.metrics) }
    return if start ≤ event.ts then r.pushPoint event.ts else r

def finish (r : Replay) (ending : ℤ) : History :=
  { boundaries := r.boundaries ++ r.wanted.map (·, r.total)
    realizedBoundaries := r.realizedBoundaries ++ r.wanted.map (·, r.realizedNet)
    points := r.points ++ [(ending, r.total)]
    finalPnl := r.total
    finalRealizedNet := r.realizedNet
    startPnl := if r.started then r.startPnl else r.total }

end Replay

def replay (source : PnlSourceKind) (inputs : PnlInputs) (start ending : ℤ)
    (boundaries : List ℤ) : Except PnlError History := do
  let states ← inputs.initialPositions.foldlM (seedEntry source) fun _ => none
  let r ← (inputs.sortedEvents.filter (·.ts ≤ ending)).foldlM (Replay.apply source start)
    { states, wanted := sortedSet (boundaries.filter (· ≤ ending)) }
  return r.finish ending

end CryptoNav.Pnl
