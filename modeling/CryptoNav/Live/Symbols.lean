import CryptoNav.History.Watermark
import CryptoNav.Lib.Sorting
import CryptoNav.Lib.Text
import Mathlib.Data.String.Basic

/-!
# The names of symbols

The online lists write a symbol in many ways; `normalize_online_symbol` makes of all of them the name
of a USDT contract. It keeps only ASCII letters and digits. The CTA Manager reports contract symbols,
from which only blanks are taken away.

Stored is the name that `sync_history` makes of the exchange's: without `-` and `_`, in capitals.

How an exchange spells its symbols is not modelled beyond this, and two spellings with one name
are one symbol wherever names are compared. The names are made of what is read and never parsed
back. What follows for the fills that a cycle asks for is in `Discovery` and `Backfill`.
-/

set_option autoImplicit false

namespace CryptoNav.Live

open CryptoNav.Lib CryptoNav.History

/-- Without the blanks, tabs and line ends around it; the source takes away the other blanks of
Unicode as well. -/
def trimmed (value : String) : String := .ofList (trim value.toList)

def cleanSymbolText (value : List Char) : List Char := value.filter Char.isAlphanum

def stripSuffix (suffix value : List Char) : Option (List Char) :=
  if suffix <:+ value then some (value.take (value.length - suffix.length)) else none

/-- What stands before the first occurrence of a text. -/
def before (text : List Char) : List Char → Option (List Char)
  | [] => if text = [] then some [] else none
  | c :: rest =>
    if text <+: c :: rest then some [] else (before text rest).map (c :: ·)

def usdt : List Char := ['U', 'S', 'D', 'T']

/-- The asset that a written symbol is about, before it is cleaned. -/
def assetText (canonical : List Char) : List Char :=
  match stripSuffix ('-' :: usdt ++ ['-', 'S', 'W', 'A', 'P']) canonical with
  | some asset => asset
  | none => match before ('-' :: usdt ++ ['-']) canonical with
    | some asset => asset
    | none => match stripSuffix ('-' :: usdt) canonical with
      | some asset => asset
      | none =>
        let cleaned := cleanSymbolText canonical
        if usdt <:+ cleaned ∧ cleaned.length > usdt.length then
          cleaned.take (cleaned.length - usdt.length)
        else cleaned

/-- The asset that a text is about. -/
def onlineAsset (text : List Char) : List Char :=
  let text := if text.contains '@' then trim (text.takeWhile (· ≠ '@')) else text
  cleanSymbolText (assetText (text.map fun c => if c = '_' || c = '/' then '-' else c))

def normalizeOnlineSymbol (value : String) : Option String :=
  let text := (trim value.toList).map Char.toUpper
  if text = [] then none
  else if onlineAsset text = [] then none
  else some (.ofList (onlineAsset text ++ usdt))

theorem normalizeOnlineSymbol_eq_some {value symbol : String}
    (h : normalizeOnlineSymbol value = some symbol) :
    ∃ asset : List Char, (∀ c ∈ asset, c.isAlphanum = true) ∧ symbol = .ofList (asset ++ usdt) := by
  unfold normalizeOnlineSymbol at h
  generalize (trim value.toList).map Char.toUpper = text at h
  dsimp only at h
  split at h
  · cases h
  · split at h
    · cases h
    · refine ⟨onlineAsset text, fun c hc => ?_, (Option.some.inj h).symm⟩
      unfold onlineAsset cleanSymbolText at hc
      exact (List.mem_filter.mp hc).2

/-- The union of two lists of names, as an ordered set. -/
def mergeTradeSymbols (online recent : List String) : List String :=
  sortedSet ((online ++ recent).filterMap normalizeOnlineSymbol)

def mergeCtaSymbols (online stored : List String) : List String :=
  sortedSet (((online ++ stored).map trimmed).filter (· ≠ ""))

/-- The JSON lists of the keys that exist, each value as text. -/
def parseRedisMget (values : List (Option (List String))) : List String :=
  sortedSet ((values.filterMap id).flatten.filterMap normalizeOnlineSymbol)

theorem mem_mergeCtaSymbols {online stored : List String} {symbol : String} :
    symbol ∈ mergeCtaSymbols online stored ↔
      symbol ≠ "" ∧ ∃ value ∈ online ++ stored, trimmed value = symbol := by
  rw [mergeCtaSymbols, mem_sortedSet, List.mem_filter, List.mem_map, decide_eq_true_eq, and_comm]

/-! ## Stored names -/

/-- What is not a capital has not been raised. -/
theorem eq_of_toUpper {c d : Char} (h : c.toUpper = d) (hd : d.isUpper = false) : c = d := by
  rcases toUpper_cases c with hsame | ⟨-, hupper⟩
  · rw [← hsame, h]
  · have hd' : d.isUpper = true := h ▸ decide_eq_true hupper
    rw [hd] at hd'
    cases hd'

theorem toUpper_unspaced {c : Char} (h : c.isWhitespace = false) :
    c.toUpper.isWhitespace = false := by
  rcases toUpper_cases c with hsame | ⟨-, hlo, -⟩
  · rw [hsame]
    exact h
  · generalize c.toUpper = d at hlo
    cases hd : d.isWhitespace with
    | false => rfl
    | true =>
      simp only [Char.isWhitespace, Bool.or_eq_true, decide_eq_true_eq] at hd
      rcases hd with ((rfl | rfl) | rfl) | rfl <;> exact absurd hlo (by decide)

theorem trim_unspaced {l : List Char} (h : ∀ c ∈ l, c.isWhitespace = false) : trim l = l := by
  have hdrop : ∀ l : List Char, (∀ c ∈ l, c.isWhitespace = false) →
      l.dropWhile Char.isWhitespace = l := by
    intro l hl
    cases l with
    | nil => rfl
    | cons c l => exact List.dropWhile_cons_of_neg (by rw [hl c List.mem_cons_self]; decide)
  unfold trim
  rw [hdrop l h, hdrop l.reverse fun c hc => h c (List.mem_reverse.mp hc), List.reverse_reverse]

/-- A name that `sync_history` and the merges leave as it is. -/
structure Canonical (symbol : String) : Prop where
  trimmed : trimmed symbol = symbol
  normalized : normalizeSymbol symbol = symbol

/-- A name without blanks is canonical once it is stored. -/
theorem canonical_normalizeSymbol {symbol : String}
    (h : ∀ c ∈ symbol.toList, c.isWhitespace = false) : Canonical (normalizeSymbol symbol) := by
  have htrim : ∀ c ∈ (normalizeSymbol symbol).toList, c.isWhitespace = false := by
    intro c hc
    rw [normalizeSymbol, String.toList_ofList, trim_unspaced h] at hc
    obtain ⟨d, hd, rfl⟩ := List.mem_map.mp hc
    exact toUpper_unspaced (h d (List.mem_filter.mp hd).1)
  have hsigns : ∀ c ∈ (normalizeSymbol symbol).toList, c ≠ '-' ∧ c ≠ '_' := by
    intro c hc
    rw [normalizeSymbol, String.toList_ofList] at hc
    obtain ⟨d, hd, rfl⟩ := List.mem_map.mp hc
    have hpred := (List.mem_filter.mp hd).2
    simp only [Bool.and_eq_true, decide_eq_true_eq] at hpred
    exact ⟨fun he => hpred.1 (eq_of_toUpper he (by decide)),
      fun he => hpred.2 (eq_of_toUpper he (by decide))⟩
  have hupper : ∀ c ∈ (normalizeSymbol symbol).toList, c.toUpper = c := by
    intro c hc
    rw [normalizeSymbol, String.toList_ofList] at hc
    obtain ⟨d, _, rfl⟩ := List.mem_map.mp hc
    exact toUpper_toUpper d
  constructor
  · rw [Live.trimmed, trim_unspaced htrim, String.ofList_toList]
  · have hfilter : (normalizeSymbol symbol).toList.filter (fun c => c ≠ '-' && c ≠ '_') =
        (normalizeSymbol symbol).toList :=
      List.filter_eq_self.mpr fun c hc => by simp [hsigns c hc]
    generalize normalizeSymbol symbol = name at *
    rw [normalizeSymbol, trim_unspaced htrim, hfilter]
    have hmap : name.toList.map Char.toUpper = name.toList := by
      conv_rhs => rw [← List.map_id name.toList]
      exact List.map_congr_left hupper
    rw [hmap, String.ofList_toList]

/-- Names that are normalized are asked for as they are. -/
theorem requestedSymbols_normalized {symbols : List String}
    (h : ∀ symbol ∈ symbols, symbol ≠ "" ∧ normalizeSymbol symbol = symbol) :
    requestedSymbols symbols = symbols := by
  have hmap : symbols.map normalizeSymbol = symbols := by
    conv_rhs => rw [← List.map_id symbols]
    exact List.map_congr_left fun symbol hsymbol => (h symbol hsymbol).2
  rw [requestedSymbols, hmap]
  exact List.filter_eq_self.mpr fun symbol hsymbol => by simpa using (h symbol hsymbol).1

end CryptoNav.Live
