import Mathlib.Algebra.Order.Group.Int
import Mathlib.Tactic.Linarith
import CryptoNav.Lib.Routine
import CryptoNav.History.Interest

/-!
# What the exchange clients share

The errors and answers of a request, and the chunks that a range of time is asked for in. The chunks
tile the range (`chunks_gives`), unless it ends at the last millisecond an `i64` can hold: there the
saturating sums stay short of the end and the loop goes on for ever (`chunks_never`).

The HTTP client, signatures and rate limits are left out: a request is a function from its
parameters to an answer or an error, the same one for the whole of a scan. What the exchange is
assumed to hold is said where a list is read, not here. Rows are JSON values that stay raw until
the rows of all pages are together; repeated ones are removed by the texts of the fields that a
client names, and an object without any of the fields is one row with all others like it.

Numbers in a row may be JSON numbers or texts, and the readers of the source take both.
-/

set_option autoImplicit false

namespace CryptoNav.Exchange

open CryptoNav.Lib
open CryptoNav.History (i64Min i64Max)
open CryptoNav.History.Raw (TimeRange inRange dedup dedupKey_eq dedup_append valueI64)

inductive ExchangeError where
  | dispatch (error : String)
  | invalidQuery (message : String)
  | http (exchange : String) (status : ℕ) (body : String)
  | api (exchange code message : String)
  | invalidResponse (exchange message : String)
  | header (name message : String)
  deriving DecidableEq

abbrev Params := List (String × String)

def truncate (value : Json) (max : ℕ) : String := .ofList (value.text.take max)

def rootArray (exchange : String) : Json → Except ExchangeError (List Json)
  | .array items => .ok items
  | value =>
    let shown := truncate value 500
    .error (.invalidResponse exchange s!"expected array: {shown}")

@[simp] theorem rootArray_array (exchange : String) (items : List Json) :
    rootArray exchange (.array items) = .ok items := rfl

def dataArray (exchange : String) (value : Json) : Except ExchangeError (List Json) :=
  match value.get "data" with
  | some (.array items) => .ok items
  | _ =>
    let shown := truncate value 500
    .error (.invalidResponse exchange s!"missing data array: {shown}")

/-- A row is in a window when it has a time and the time is. -/
def rowInRange (time : Json → Option ℤ) (window : TimeRange) (row : Json) : Bool :=
  (time row).any (inRange window)

theorem rowInRange_iff {time : Json → Option ℤ} {window : TimeRange} {row : Json} {t : ℤ}
    (ht : time row = some t) :
    rowInRange time window row = true ↔ window.startMs ≤ t ∧ t ≤ window.endMs := by
  simp [rowInRange, inRange, ht]

/-- A number that is read is an `i64`. -/
theorem valueI64_fits {row : Json} {key : String} {n : ℤ} (h : valueI64 row key = some n) :
    i64Min ≤ n ∧ n ≤ i64Max := by
  have hparse : ∀ text, parseInt text = some n → i64Min ≤ n ∧ n ≤ i64Max := by
    intro text htext
    simp only [parseInt, Option.ite_none_right_eq_some, Option.some.injEq] at htext
    obtain ⟨-, ⟨hge, hlt⟩, rfl⟩ := htext
    exact ⟨hge, Int.le_sub_one_of_lt hlt⟩
  unfold valueI64 at h
  split at h
  · exact hparse _ h
  · exact hparse _ h
  · cases h

/-- The rows of a window. -/
def rowsIn (time : Json → Option ℤ) (rows : List Json) (window : TimeRange) : List Json :=
  rows.filter (rowInRange time window)

theorem rowsIn_eq_nil {time : Json → Option ℤ} {rows : List Json} {window : TimeRange}
    (h : window.endMs < window.startMs) : rowsIn time rows window = [] := by
  refine List.filter_eq_nil_iff.mpr fun row _ hin => ?_
  obtain ⟨t, -, ht⟩ := (Option.any_eq_true _ _).mp hin
  simp only [inRange, Bool.and_eq_true, decide_eq_true_eq] at ht
  omega

/-! ## Repeated rows -/

theorem dedup_append_congr {fields : List String} {rows rows' : List Json}
    (h : dedup fields rows = dedup fields rows') (more : List Json) :
    dedup fields (rows ++ more) = dedup fields (rows' ++ more) := by
  rw [← dedup_append, h, dedup_append]

theorem dedup_append_of_subset {fields : List String} {rows more : List Json} (h : more ⊆ rows) :
    dedup fields (rows ++ more) = dedup fields rows :=
  keepFirst_append_of_subset fun row hrow => ⟨row, h hrow, rfl⟩

/-- Rows that a field tells apart are all kept. -/
theorem dedup_eq_self {fields : List String} {field : String} (hfield : field ∈ fields)
    {rows : List Json} (h : rows.Pairwise fun r s => r.get field ≠ s.get field) :
    dedup fields rows = rows := by
  refine keepFirst_eq_self ?_ (by simp)
  refine List.pairwise_map.mpr (h.imp fun hne hkey => hne ?_)
  exact dedupKey_eq.mp hkey field hfield

/-! ## Numbers as parameters -/

/-- The number that a parameter shows. -/
def readInt (text : String) : ℤ :=
  let (negative, digits) := readSign text.toList
  if negative then -digitsValue digits else digitsValue digits

theorem digitsValue_toDigits (n : ℕ) : digitsValue (Nat.toDigits 10 n) = n := by
  have h := Nat.ofDigitChars_ten_toDigits (n := n)
  rw [Nat.ofDigitChars_eq_foldl] at h
  exact h

theorem readSign_of_digits {digits : List Char} (h : ∀ c ∈ digits, c.isDigit = true) :
    readSign digits = (false, digits) := by
  unfold readSign
  split
  · exact absurd (h '-' List.mem_cons_self) (by decide)
  · exact absurd (h '+' List.mem_cons_self) (by decide)
  · rfl

theorem readSign_toString (n : ℤ) :
    readSign (toString n).toList = (decide (n < 0), Nat.toDigits 10 n.natAbs) := by
  rw [Int.toString_eq_repr, Int.repr_eq_if]
  by_cases hn : 0 ≤ n
  · rw [if_pos hn, Nat.toList_repr, decide_eq_false (not_lt.mpr hn),
      show n.toNat = n.natAbs by omega]
    exact readSign_of_digits fun c hc => Nat.isDigit_of_mem_toDigits (by decide) (by decide) hc
  · rw [if_neg hn, String.toList_append, Nat.toList_repr, decide_eq_true (not_le.mp hn),
      show (-n).toNat = n.natAbs by omega]
    rfl

@[simp] theorem readInt_toString (n : ℤ) : readInt (toString n) = n := by
  rw [readInt, readSign_toString]
  simp only [digitsValue_toDigits, decide_eq_true_eq]
  split
  · omega
  · omega

@[simp] theorem readInt_toString_nat (n : ℕ) : readInt (toString n) = n := by
  rw [← readInt_toString (n : ℤ), Int.toString_eq_repr, Int.repr_eq_if, if_pos (Int.natCast_nonneg n),
    Int.toNat_natCast, Nat.toString_eq_repr]

theorem parseInt_toString {n : ℤ} (hmin : i64Min ≤ n) (hmax : n ≤ i64Max) :
    parseInt (toString n).toList = some n := by
  have hdigits : Nat.toDigits 10 n.natAbs ≠ [] ∧ (Nat.toDigits 10 n.natAbs).all Char.isDigit = true :=
    ⟨Nat.toDigits_ne_nil, List.all_eq_true.mpr fun c hc =>
      Nat.isDigit_of_mem_toDigits (by decide) (by decide) hc⟩
  have hvalue : (if n < 0 then -(n.natAbs : ℤ) else n.natAbs) = n := by
    split <;> omega
  simp only [parseInt, readSign_toString, hdigits, ne_eq, not_false_eq_true, and_self, if_true,
    digitsValue_toDigits, decide_eq_true_eq, hvalue]
  exact if_pos ⟨hmin, Int.lt_add_one_iff.mpr hmax⟩

theorem toString_injective {m n : ℤ} (h : toString m = toString n) : m = n := by
  rw [← readInt_toString m, h, readInt_toString]

/-! ## Ranges -/

def saturate (n : ℤ) : ℤ := max i64Min (min n i64Max)

/-- `TimeRange::new` -/
def newTimeRange (startMs endMs : ℤ) : Except ExchangeError TimeRange :=
  if startMs < 0 then .error (.invalidQuery "start_ms must not be negative")
  else if endMs < startMs then
    .error (.invalidQuery "end_ms must be greater than or equal to start_ms")
  else .ok { startMs, endMs }

/-- What `TimeRange::new` lets through. -/
def Valid (range : TimeRange) : Prop := 0 ≤ range.startMs ∧ range.startMs ≤ range.endMs

instance (range : TimeRange) : Decidable (Valid range) := inferInstanceAs (Decidable (_ ∧ _))

theorem newTimeRange_of_valid {range : TimeRange} (h : Valid range) :
    newTimeRange range.startMs range.endMs = .ok range := by
  rw [newTimeRange, if_neg h.1.not_gt, if_neg h.2.not_gt]

theorem valid_of_newTimeRange {startMs endMs : ℤ} {range : TimeRange}
    (h : newTimeRange startMs endMs = .ok range) : Valid range ∧ range = ⟨startMs, endMs⟩ := by
  unfold newTimeRange at h
  split at h
  · cases h
  · split at h
    · cases h
    · cases h
      exact ⟨⟨not_lt.mp ‹_›, not_lt.mp ‹_›⟩, rfl⟩

/-- A window that is pushed on a condition. -/
def windowIf {α : Type} (p : Prop) [Decidable p] (startMs endMs : ℤ) (entry : TimeRange → α) :
    Except ExchangeError (List α) :=
  if p then do
    let window ← newTimeRange startMs endMs
    pure [entry window]
  else pure []

theorem windowIf_eq_ok {α : Type} {p : Prop} [Decidable p] {startMs endMs : ℤ}
    {entry : TimeRange → α} {entries : List α} :
    windowIf p startMs endMs entry = .ok entries ↔
      (p ∧ Valid ⟨startMs, endMs⟩ ∧ entries = [entry ⟨startMs, endMs⟩]) ∨ (¬p ∧ entries = []) := by
  unfold windowIf
  by_cases hp : p
  · rw [if_pos hp, bind_eq_ok]
    constructor
    · rintro ⟨window, hwindow, hentries⟩
      obtain ⟨hvalid, rfl⟩ := valid_of_newTimeRange hwindow
      exact .inl ⟨hp, hvalid, (pure_eq_ok.mp hentries).symm⟩
    · rintro (⟨-, hvalid, rfl⟩ | ⟨hnot, -⟩)
      · exact ⟨_, newTimeRange_of_valid hvalid, rfl⟩
      · exact absurd hp hnot
  · rw [if_neg hp, pure_eq_ok]
    constructor
    · exact fun h => .inr ⟨hp, h.symm⟩
    · rintro (⟨hpos, -⟩ | ⟨-, rfl⟩)
      · exact absurd hpos hp
      · rfl

/-- Where the chunk that starts at `start` ends. -/
def chunkEnd (range : TimeRange) (maxSpanMs start : ℤ) : ℤ :=
  min (saturate (saturate (start + maxSpanMs) - 1)) range.endMs

/-- A turn of the `while` of `TimeRange::chunks`. -/
def chunkTurn (range : TimeRange) (maxSpanMs : ℤ) (s : ℤ × List TimeRange) :
    Routine ExchangeError ((ℤ × List TimeRange) ⊕ List TimeRange) :=
  let (start, chunks) := s
  if start ≤ range.endMs then
    let endMs := chunkEnd range maxSpanMs start
    let chunks := chunks ++ [{ startMs := start, endMs }]
    if endMs = range.endMs then pure (.inr chunks) else pure (.inl (saturate (endMs + 1), chunks))
  else pure (.inr chunks)

/-- `TimeRange::chunks` -/
def chunks (range : TimeRange) (maxSpanMs : ℤ) : Routine ExchangeError (List TimeRange) :=
  if maxSpanMs ≤ 0 then
    .ofExcept (.error (.invalidQuery "max_span_ms must be greater than zero"))
  else Routine.loop (chunkTurn range maxSpanMs) (range.startMs, [])

/-- Windows that follow each other from `start` to `ending` without a gap. -/
def Tiles (ending : ℤ) : ℤ → List TimeRange → Prop
  | start, [] => ending < start
  | start, window :: rest =>
    window.startMs = start ∧ start ≤ window.endMs ∧ window.endMs ≤ ending ∧
      Tiles ending (window.endMs + 1) rest

theorem Tiles.append {middle ending start : ℤ} {windows rest : List TimeRange}
    (h : Tiles middle start windows) (hend : middle ≤ ending) (hstart : start ≤ middle + 1)
    (hrest : Tiles ending (middle + 1) rest) : Tiles ending start (windows ++ rest) := by
  induction windows generalizing start with
  | nil =>
    have hlt : middle < start := h
    rw [show start = middle + 1 by omega]
    exact hrest
  | cons window windows ih =>
    obtain ⟨hs, hle, hmiddle, htail⟩ := h
    exact ⟨hs, hle, hmiddle.trans hend, ih htail (by omega)⟩

theorem Tiles.snoc {start ending : ℤ} {windows : List TimeRange} {window : TimeRange}
    (h : Tiles (window.startMs - 1) start windows) (hstart : start ≤ window.startMs)
    (hle : window.startMs ≤ window.endMs) (hend : ending = window.endMs) :
    Tiles ending start (windows ++ [window]) := by
  refine h.append (by omega) (by omega) ⟨by omega, by omega, hend.ge, ?_⟩
  show ending < window.endMs + 1
  omega

/-- Inside the `i64` range a chunk starts no later than it ends. -/
theorem le_chunkEnd {range : TimeRange} {maxSpanMs start : ℤ} (hspan : 0 < maxSpanMs)
    (hend : range.endMs < i64Max) (hstart : start ≤ range.endMs) :
    start ≤ chunkEnd range maxSpanMs start := by
  unfold chunkEnd saturate i64Min i64Max at *
  omega

/-- With the end of the range at `i64::MAX` no chunk reaches it. -/
theorem chunkEnd_lt {range : TimeRange} (maxSpanMs start : ℤ) (hend : i64Max ≤ range.endMs) :
    chunkEnd range maxSpanMs start < range.endMs := by
  unfold chunkEnd saturate i64Min i64Max at *
  omega

theorem chunks_gives {range : TimeRange} {maxSpanMs : ℤ} (hspan : 0 < maxSpanMs)
    (hend : range.endMs < i64Max ∨ range.endMs < range.startMs) :
    ∃ windows, (chunks range maxSpanMs).Gives (.ok windows) ∧
      Tiles range.endMs range.startMs windows := by
  -- What has been pushed tiles the range up to the start of the next chunk.
  let P : ℤ × List TimeRange → Prop := fun s =>
    range.startMs ≤ s.1 ∧ Tiles (s.1 - 1) range.startMs s.2 ∧
      (s.1 = range.startMs ∨ s.1 ≤ range.endMs)
  let Q : Except ExchangeError (List TimeRange) → Prop := fun r =>
    ∃ windows, r = .ok windows ∧ Tiles range.endMs range.startMs windows
  have hturn : ∀ s, P s → ∃ r, (chunkTurn range maxSpanMs s).Gives r ∧
      Routine.Turns P Q (fun s => (range.endMs + 1 - s.1).toNat) s r := by
    rintro ⟨start, pushed⟩ ⟨hstart, htiles, hreach⟩
    simp only [chunkTurn]
    by_cases hle : start ≤ range.endMs
    · have hmax : range.endMs < i64Max := hend.resolve_right (by omega)
      have hce := le_chunkEnd hspan hmax hle
      have hcle : chunkEnd range maxSpanMs start ≤ range.endMs := min_le_right _ _
      rw [if_pos hle]
      by_cases hlast : chunkEnd range maxSpanMs start = range.endMs
      · rw [if_pos hlast]
        refine ⟨_, Routine.gives_pure.mpr rfl, _, rfl, ?_⟩
        exact htiles.snoc hstart hce hlast.symm
      · have hmin : i64Min ≤ chunkEnd range maxSpanMs start := by
          unfold chunkEnd saturate i64Min i64Max at *
          omega
        have hnext : saturate (chunkEnd range maxSpanMs start + 1)
            = chunkEnd range maxSpanMs start + 1 := by
          unfold saturate i64Min i64Max at *
          omega
        rw [if_neg hlast, hnext]
        refine ⟨_, Routine.gives_pure.mpr rfl, ⟨?_, ?_, ?_⟩, ?_⟩
        · show range.startMs ≤ chunkEnd range maxSpanMs start + 1
          omega
        · exact htiles.snoc hstart hce (by simp)
        · exact .inr (by show chunkEnd range maxSpanMs start + 1 ≤ range.endMs; omega)
        · show (range.endMs + 1 - (chunkEnd range maxSpanMs start + 1)).toNat
            < (range.endMs + 1 - start).toNat
          omega
    · rw [if_neg hle]
      refine ⟨_, Routine.gives_pure.mpr rfl, _, rfl, ?_⟩
      have hsame : start = range.startMs := hreach.resolve_right hle
      cases pushed with
      | nil => show range.endMs < range.startMs; omega
      | cons window rest =>
        obtain ⟨hs, hwle, hwend, -⟩ := htiles
        exact absurd hwend (by show ¬window.endMs ≤ start - 1; omega)
  have hinit : P (range.startMs, []) :=
    ⟨le_rfl, by show range.startMs - 1 < range.startMs; omega, .inl rfl⟩
  obtain ⟨r, hr, windows, rfl, htiles⟩ :=
    Routine.loop_total (fun s => (range.endMs + 1 - s.1).toNat) hturn hinit
  exact ⟨windows, by rw [chunks, if_neg hspan.not_ge]; exact hr, htiles⟩

/-- **A range that ends at `i64::MAX` is never cut into chunks.** -/
theorem chunks_never {range : TimeRange} {maxSpanMs : ℤ} (hspan : 0 < maxSpanMs)
    (hend : i64Max ≤ range.endMs) (hstart : range.startMs ≤ range.endMs) :
    ¬(chunks range maxSpanMs).Ends := by
  rw [chunks, if_neg hspan.not_ge]
  refine Routine.loop_never (P := fun s => s.1 ≤ range.endMs) ?_ hstart
  rintro ⟨start, pushed⟩ hle
  have hlast := chunkEnd_lt maxSpanMs start hend
  refine ⟨(saturate (chunkEnd range maxSpanMs start + 1),
    pushed ++ [{ startMs := start, endMs := chunkEnd range maxSpanMs start }]), ?_, ?_⟩
  · simp only [chunkTurn, if_pos hle, if_neg hlast.ne]
    exact Routine.gives_pure.mpr rfl
  · show saturate _ ≤ range.endMs
    exact (max_le (by decide) (min_le_right _ _)).trans hend

theorem chunks_error {range : TimeRange} {maxSpanMs : ℤ} (hspan : maxSpanMs ≤ 0) :
    (chunks range maxSpanMs).Gives
      (.error (.invalidQuery "max_span_ms must be greater than zero")) := by
  rw [chunks, if_pos hspan]
  exact Routine.gives_ofExcept.mpr rfl

/-! ## Rows of a tiled range -/

theorem Tiles.mem_bounds {start ending : ℤ} {windows : List TimeRange}
    (h : Tiles ending start windows) {window : TimeRange} (hmem : window ∈ windows) :
    start ≤ window.startMs ∧ window.startMs ≤ window.endMs ∧ window.endMs ≤ ending := by
  induction windows generalizing start with
  | nil => cases hmem
  | cons first rest ih =>
    obtain ⟨hs, hle, hend, hrest⟩ := h
    rcases List.mem_cons.mp hmem with rfl | hmem
    · omega
    · have := ih hrest hmem
      omega

/-- Every time of the range is in a window. -/
theorem Tiles.exists_window {start ending t : ℤ} {windows : List TimeRange}
    (h : Tiles ending start windows) (hstart : start ≤ t) (hend : t ≤ ending) :
    ∃ window ∈ windows, window.startMs ≤ t ∧ t ≤ window.endMs := by
  induction windows generalizing start with
  | nil =>
    have hlt : ending < start := h
    omega
  | cons first rest ih =>
    obtain ⟨hs, -, -, hrest⟩ := h
    by_cases ht : t ≤ first.endMs
    · exact ⟨first, List.mem_cons_self, by omega, ht⟩
    · obtain ⟨window, hmem, hin⟩ := ih hrest (by omega)
      exact ⟨window, List.mem_cons_of_mem _ hmem, hin⟩

/-- The rows of two windows in a row are those of both together. -/
theorem filter_split_perm {time : Json → Option ℤ} {a b c : ℤ} (rows : List Json) (hab : a ≤ b + 1)
    (hbc : b ≤ c) :
    (rowsIn time rows { startMs := a, endMs := b } ++
        rowsIn time rows { startMs := b + 1, endMs := c }).Perm
      (rowsIn time rows { startMs := a, endMs := c }) := by
  unfold rowsIn
  let early : Json → Bool := fun row => (time row).any (· ≤ b)
  have hfirst : rows.filter (rowInRange time { startMs := a, endMs := b }) =
      (rows.filter (rowInRange time { startMs := a, endMs := c })).filter early := by
    rw [List.filter_filter]
    refine List.filter_congr fun row _ => ?_
    cases ht : time row with
    | none => simp [rowInRange, early, ht]
    | some t =>
      rw [Bool.eq_iff_iff]
      simp only [rowInRange, inRange, early, ht, Option.any_some, Bool.and_eq_true,
        decide_eq_true_eq]
      omega
  have hsecond : rows.filter (rowInRange time { startMs := b + 1, endMs := c }) =
      (rows.filter (rowInRange time { startMs := a, endMs := c })).filter fun row => !early row := by
    rw [List.filter_filter]
    refine List.filter_congr fun row _ => ?_
    cases ht : time row with
    | none => simp [rowInRange, early, ht]
    | some t =>
      rw [Bool.eq_iff_iff]
      simp only [rowInRange, inRange, early, ht, Option.any_some, Bool.and_eq_true,
        Bool.not_eq_true', decide_eq_true_eq, decide_eq_false_iff_not]
      omega
  rw [hfirst, hsecond]
  exact List.filter_append_perm _ _

/-- Rows in the order of their time are the rows of one window after those of the other. -/
theorem filter_split {time : Json → Option ℤ} {a b c : ℤ} {rows : List Json} (hab : a ≤ b + 1)
    (hbc : b ≤ c) (htime : ∀ row ∈ rows, (time row).isSome)
    (hsorted : rows.Pairwise fun r s => ∀ t ∈ time r, ∀ u ∈ time s, t ≤ u) :
    rows.filter (rowInRange time { startMs := a, endMs := b }) ++
        rows.filter (rowInRange time { startMs := b + 1, endMs := c }) =
      rows.filter (rowInRange time { startMs := a, endMs := c }) := by
  induction rows with
  | nil => rfl
  | cons row rows ih =>
    obtain ⟨hfirst, hrest⟩ := List.pairwise_cons.mp hsorted
    have hih := ih (fun r hr => htime r (List.mem_cons_of_mem _ hr)) hrest
    obtain ⟨t, ht⟩ := Option.isSome_iff_exists.mp (htime row List.mem_cons_self)
    have hwindow : ∀ x y : ℤ, rowInRange time { startMs := x, endMs := y } row
        = decide (x ≤ t ∧ t ≤ y) := by
      intro x y
      rw [Bool.eq_iff_iff, rowInRange_iff ht, decide_eq_true_iff]
    simp only [List.filter_cons, hwindow, decide_eq_true_eq]
    by_cases htb : t ≤ b
    · rw [if_neg (show ¬(b + 1 ≤ t ∧ t ≤ c) by omega), ← hih]
      by_cases hat : a ≤ t
      · rw [if_pos ⟨hat, htb⟩, if_pos ⟨hat, by omega⟩, List.cons_append]
      · rw [if_neg (by omega), if_neg (by omega)]
    · -- The rows after this one are all past the first window.
      have hempty : rows.filter (rowInRange time { startMs := a, endMs := b }) = [] := by
        refine List.filter_eq_nil_iff.mpr fun r hr hin => ?_
        obtain ⟨u, hu⟩ := Option.isSome_iff_exists.mp (htime r (List.mem_cons_of_mem _ hr))
        have hafter := hfirst r hr t ht u hu
        have hbefore : u ≤ b := ((rowInRange_iff hu).mp hin).2
        omega
      rw [hempty, List.nil_append] at hih
      rw [if_neg (show ¬(a ≤ t ∧ t ≤ b) by omega), hempty, List.nil_append, hih]
      by_cases htc : t ≤ c
      · rw [if_pos (by omega), if_pos (by omega)]
      · rw [if_neg (by omega), if_neg (by omega)]

/-- **The windows' rows, one window after the other, are the range's**, for rows in order of time. -/
theorem Tiles.flatMap_filter {time : Json → Option ℤ} {start ending : ℤ}
    {windows : List TimeRange} (h : Tiles ending start windows) {rows : List Json}
    (htime : ∀ row ∈ rows, (time row).isSome)
    (hsorted : rows.Pairwise fun r s => ∀ t ∈ time r, ∀ u ∈ time s, t ≤ u) :
    windows.flatMap (fun window => rows.filter (rowInRange time window)) =
      rows.filter (rowInRange time { startMs := start, endMs := ending }) := by
  induction windows generalizing start with
  | nil =>
    have hlt : ending < start := h
    refine (List.filter_eq_nil_iff.mpr fun r hr hin => ?_).symm
    obtain ⟨t, ht⟩ := Option.isSome_iff_exists.mp (htime r hr)
    have hin : start ≤ t ∧ t ≤ ending := (rowInRange_iff ht).mp hin
    omega
  | cons window rest ih =>
    obtain ⟨hs, hle, hend, hrest⟩ := h
    have hsplit := filter_split (a := start) (b := window.endMs) (by omega) hend htime hsorted
    rw [List.flatMap_cons, ih hrest, ← hsplit, ← hs]

end CryptoNav.Exchange
