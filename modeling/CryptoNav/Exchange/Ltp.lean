import CryptoNav.Exchange.Client

/-!
# History that is complete or an error

RapidX numbers its pages and says with each how many there are and how many rows they have together.
The client does not trust any of it: it goes on only as long as the pages agree with each other and
every row is one of the window that has not been there, and returns rows only if they are as many as
was said (`history_all_or_nothing`). Executions are asked for in two tiers, whose rows may overlap.

The HTTP client, the keys and the signature are left out, and an answer is a JSON value:
whatever in it is missing or of the wrong kind is one of the errors, with the source's own text.
Nothing at all is assumed of the server. That makes the theorem weaker than completeness: a
server that says of itself that it has fewer rows than it has is believed, if it does so
consistently.
-/

set_option autoImplicit false

namespace CryptoNav.Exchange.Ltp

open CryptoNav.Lib
open CryptoNav.History.Raw (TimeRange lowercase textRow)

def exchange : String := "ltp"

def executionsPath : String := "/api/v1/trading/executions/pageable"

def archivedExecutionsPath : String := "/api/v1/trading/archive/executions/pageable"

def statementPath : String := "/api/v1/trading/statement"

def pageSize : ℕ := 1000

def maxPages : ℕ := 100

def oneDayMs : ℤ := 86400000

def recentSpanMs : ℤ := 7 * oneDayMs

def archiveSpanMs : ℤ := 90 * oneDayMs

def invalidResponse (message : String) : ExchangeError := .invalidResponse exchange message

/-! ## Fields -/

/-- `as_u64` -/
def asU64 (number : Numeral) : Option ℕ :=
  let digits := number.text.toList
  if digits.all Char.isDigit ∧ digitsValue digits < 2 ^ 64 then some (digitsValue digits) else none

def integer (data : Json) (key : String) : Except ExchangeError ℕ :=
  match data.get key with
  | some (.number number) =>
    match asU64 number with
    | some n => .ok n
    | none => .error (invalidResponse s!"missing integer {key}")
  | _ => .error (invalidResponse s!"missing integer {key}")

def requiredString (row : Json) (key : String) : Except ExchangeError String :=
  match row.get key with
  | some (.string text) =>
    if text = "" then .error (invalidResponse s!"row missing string {key}") else .ok text
  | _ => .error (invalidResponse s!"row missing string {key}")

/-- A number in statements, a text in executions. -/
def portfolioText (row : Json) (key : String) : Except ExchangeError String :=
  match row.get key with
  | some (.string text) =>
    if text = "" then .error (invalidResponse s!"row missing {key}") else .ok text
  | some (.number number) => .ok number.text
  | _ => .error (invalidResponse s!"row missing {key}")

def timestampMs (row : Json) (key : String) : Except ExchangeError ℤ := do
  let timestamp ← match row.get key with
    | some (.number number) =>
      match parseInt number.text.toList with
      | some timestamp => pure timestamp
      | none => .error (invalidResponse s!"{key} is not an integer timestamp")
    | some (.string text) =>
      match parseInt text.toList with
      | some timestamp => pure timestamp
      | none => .error (invalidResponse s!"{key} is not milliseconds")
    | _ => .error (invalidResponse s!"row missing {key}")
  if timestamp ≤ 0 then .error (invalidResponse s!"{key} must be positive") else .ok timestamp

/-! ## Pages -/

/-- Whose rows are asked for, and of which time. -/
structure Scope where
  exchange : String
  portfolioId : String
  range : TimeRange

/-- What distinguishes executions and statements. -/
structure Listing where
  label : String
  idKey : String

def executions : Listing := { label := "execution", idKey := "transactionId" }

def statements : Listing := { label := "statement", idKey := "statementId" }

structure Page where
  pages : ℕ
  total : ℕ
  rows : List Json

/-- The body of the `for` over the rows of a page: the ids so far. -/
def validateRow (listing : Listing) (scope : Scope) (ids : List String) (row : Json) :
    Except ExchangeError (List String) := do
  let id ← requiredString row listing.idKey
  if id ∈ ids then .error (invalidResponse s!"duplicate {listing.idKey} {id}")
  else
    let portfolio ← portfolioText row "portfolioId"
    if portfolio ≠ scope.portfolioId then
      .error (invalidResponse s!"{listing.label} scope mismatch")
    else
      let exchangeType ← requiredString row "exchangeType"
      if lowercase exchangeType ≠ lowercase scope.exchange then
        .error (invalidResponse s!"{listing.label} scope mismatch")
      else
        let timestamp ← timestampMs row "createAt"
        if timestamp < scope.range.startMs ∨ scope.range.endMs < timestamp then
          .error (invalidResponse s!"{listing.label} timestamp outside requested window")
        else .ok (id :: ids)

/-- What is known of the pages so far. -/
structure Progress where
  rows : List Json := []
  ids : List String := []
  expectedPages : Option ℕ := none
  expectedTotal : Option ℕ := none

def dataObject (label : String) (value : Json) : Except ExchangeError Json :=
  match value.get "data" with
  | some (.object fields) => .ok (.object fields)
  | _ => .error (invalidResponse s!"{label} response missing data object")

def dataList (label : String) (data : Json) : Except ExchangeError (List Json) :=
  match data.get "list" with
  | some (.array items) => .ok items
  | _ => .error (invalidResponse s!"{label} response missing list")

/-- The page and the ids with those of its rows. -/
def validateExecutionPage (scope : Scope) (value : Json) (requestedPage : ℕ) (p : Progress) :
    Except ExchangeError (Page × List String) := do
  let data ← dataObject "execution" value
  let page ← integer data "page"
  let size ← integer data "pageSize"
  let pages ← integer data "pageNum"
  let total ← integer data "totalSize"
  if page ≠ requestedPage ∨ size ≠ pageSize ∨ maxPages < pages ∨
      (0 < total ∧ (pages = 0 ∨ pages < page)) ∨ (total = 0 ∧ (1 < pages ∨ page ≠ 1)) then
    .error (invalidResponse "invalid execution pagination envelope")
  else if p.expectedPages.any (· ≠ pages) ∨ p.expectedTotal.any (· ≠ total) then
    .error (invalidResponse "execution pagination changed during fetch")
  else
    let list ← dataList "execution" data
    if list = [] ∧ total ≠ 0 then .error (invalidResponse "unexpected empty execution page")
    else if pageSize < list.length ∨ total < list.length ∨
        (page < pages ∧ list.length ≠ pageSize) then
      .error (invalidResponse "execution page is incomplete or oversized")
    else
      let ids ← list.foldlM (validateRow executions scope) p.ids
      .ok ({ pages, total, rows := list }, ids)

def validateStatementPage (scope : Scope) (value : Json) (requestedPage : ℕ) (p : Progress) :
    Except ExchangeError (Page × List String) := do
  let data ← dataObject "statement" value
  let page ← integer data "page"
  let size ← integer data "pageSize"
  let pages ← integer data "pageNum"
  let total ← integer data "totalSize"
  if page ≠ requestedPage ∨ size ≠ pageSize ∨ maxPages < pages ∨ maxPages * pageSize < total ∨
      (0 < total ∧ (pages ≠ (total + pageSize - 1) / pageSize ∨ pages < page)) ∨
      (total = 0 ∧ (1 < pages ∨ page ≠ 1)) ∨
      p.expectedPages.any (· ≠ pages) ∨ p.expectedTotal.any (· ≠ total) then
    .error (invalidResponse "invalid statement pagination envelope")
  else
    let list ← dataList "statement" data
    let expectedLen := min (total - (page - 1) * pageSize) pageSize
    if list.length ≠ expectedLen then
      .error (invalidResponse "incomplete or oversized statement page")
    else
      let ids ← list.foldlM (validateRow statements scope) p.ids
      .ok ({ pages, total, rows := list }, ids)

/-! ## Fetching -/

/-- The answers to the requests that were made, and what comes of them. -/
structure Fetched where
  answers : List (Except ExchangeError Json)
  result : Except ExchangeError (List Json)

/-- The `for` over the pages, with so many to go. -/
def fetchPages (label : String) (get : ℕ → Except ExchangeError Json)
    (validate : Json → ℕ → Progress → Except ExchangeError (Page × List String)) :
    ℕ → ℕ → Progress → Fetched
  | 0, _, _ =>
    ⟨[], .error (invalidResponse s!"{label} history exceeds the {maxPages} page limit")⟩
  | remaining + 1, page, p =>
    let answer := get page
    match answer >>= fun value => validate value page p with
    | .error e => ⟨[answer], .error e⟩
    | .ok (parsed, ids) =>
      let rows := p.rows ++ parsed.rows
      if parsed.pages ≤ page then
        ⟨[answer], if rows.length ≠ parsed.total then
          .error (invalidResponse s!"{label} pagination totalSize mismatch") else .ok rows⟩
      else
        let rest := fetchPages label get validate remaining (page + 1)
          { rows, ids, expectedPages := some parsed.pages, expectedTotal := some parsed.total }
        ⟨answer :: rest.answers, rest.result⟩

/-- `signed_get`, of the path and the parameters. -/
abbrev SignedGet := String → Params → Except ExchangeError Json

structure Client where
  signedGet : SignedGet
  portfolioId : String
  exchange : String

namespace Client

variable (client : Client)

def scope (range : TimeRange) : Scope :=
  { exchange := client.exchange, portfolioId := client.portfolioId, range }

/-- `LtpClient::execution_window`, with the answers. The parameters are in the order of a
    `BTreeMap`. -/
def executionWindow (path : String) (range : TimeRange) : Fetched :=
  fetchPages "execution"
    (fun page => client.signedGet path
      [("begin", toString range.startMs), ("end", toString range.endMs),
        ("exchange", client.exchange), ("page", toString page), ("pageSize", toString pageSize)])
    (validateExecutionPage (client.scope range)) maxPages 1 {}

/-- `LtpClient::statement_history`, with the answers. -/
def statementHistory (nowMs : ℤ) (range : TimeRange) (statementType : String) : Fetched :=
  if range.startMs ≤ 0 ∨ nowMs < range.endMs ∨ range.startMs < saturate (nowMs - archiveSpanMs) then
    ⟨[], .error (.invalidQuery
      "statement history is outside the documented 90-day retention window")⟩
  else
    fetchPages "statement"
      (fun page => client.signedGet statementPath
        [("endTime", toString range.endMs), ("exchange", client.exchange), ("page", toString page),
          ("pageSize", toString pageSize), ("startTime", toString range.startMs),
          ("statementType", statementType)])
      (validateStatementPage (client.scope range)) maxPages 1 {}

end Client

/-- The tiers of a range: where they are asked for, and which part of it. -/
def executionRanges (range : TimeRange) (nowMs : ℤ) :
    Except ExchangeError (List (String × TimeRange)) :=
  if range.startMs ≤ 0 ∨ nowMs < range.endMs then
    .error (.invalidQuery "invalid execution history window")
  else if range.startMs < saturate (nowMs - archiveSpanMs) then
    .error (.invalidQuery "execution recovery exceeds the documented 90-day archive")
  else do
    let cutoff := saturate (nowMs - recentSpanMs)
    let archived ← windowIf (range.startMs < cutoff) range.startMs (min range.endMs cutoff)
      (archivedExecutionsPath, ·)
    let recent ← windowIf (cutoff ≤ range.endMs) (max range.startMs cutoff) range.endMs
      (executionsPath, ·)
    pure (archived ++ recent)

/-- The rows that were seen, by id, and those that are kept. -/
structure Merged where
  seen : List (String × Json) := []
  rows : List Json := []

/-- The body of the `for` over the rows of a tier. -/
def mergeRow (m : Merged) (row : Json) : Except ExchangeError Merged := do
  let id ← requiredString row "transactionId"
  match (m.seen.find? (·.1 = id)).map (·.2) with
  | some previous =>
    if previous ≠ row then
      .error (invalidResponse s!"conflicting execution {id} across recent/archive boundary")
    else .ok m
  | none => .ok { seen := (id, row) :: m.seen, rows := m.rows ++ [row] }

/-- `LtpClient::execution_history` -/
def Client.executionHistory (client : Client) (nowMs : ℤ) (range : TimeRange) :
    Except ExchangeError (List Json) := do
  let ranges ← executionRanges range nowMs
  let merged ← ranges.foldlM (fun m (path, window) => do
    let rows ← (client.executionWindow path window).result
    rows.foldlM mergeRow m) {}
  pure (sortByKey (fun row => (timestampMs row "createAt").toOption.getD 0) merged.rows)

/-! ## Rows that are whole -/

/-- A row of the portfolio, the exchange and the window. The client checks the same of every row,
    and an answer with another row is an error. -/
def InScope (scope : Scope) (row : Json) : Prop :=
  portfolioText row "portfolioId" = .ok scope.portfolioId ∧
    (∃ exchangeType, requiredString row "exchangeType" = .ok exchangeType ∧
      lowercase exchangeType = lowercase scope.exchange) ∧
    ∃ timestamp, timestampMs row "createAt" = .ok timestamp ∧
      scope.range.startMs ≤ timestamp ∧ timestamp ≤ scope.range.endMs

/-- The rows have ids, and no two the same. An id is a text that is not blank; whether ids mean the
    same on the server is not asked. -/
structure Distinct (key : String) (rows : List Json) : Prop where
  named : ∀ row ∈ rows, ∃ id, requiredString row key = .ok id
  nodup : (rows.map (requiredString · key)).Nodup

/-- How many rows a page says that there are. -/
def totalSize (value : Json) : Except ExchangeError ℕ :=
  integer ((value.get "data").getD .null) "totalSize"

/-- Every page agrees with the rows that are returned. Each page has said how many rows there are
    together, and that many were returned. -/
structure Whole (listing : Listing) (scope : Scope) (answers : List (Except ExchangeError Json))
    (rows : List Json) : Prop where
  distinct : Distinct listing.idKey rows
  total : ∀ answer ∈ answers, ∃ value, answer = .ok value ∧ totalSize value = .ok rows.length
  inScope : ∀ row ∈ rows, InScope scope row
  requests : answers.length ≤ maxPages

theorem Distinct.perm {key : String} {rows rows' : List Json} (h : Distinct key rows)
    (hperm : rows.Perm rows') : Distinct key rows' where
  named row hrow := h.named row (hperm.mem_iff.mpr hrow)
  nodup := (hperm.map _).nodup_iff.mp h.nodup

/-- Two rows with one id are one row. -/
theorem Distinct.eq_of_id {key : String} {rows : List Json} (h : Distinct key rows) {r s : Json}
    (hr : r ∈ rows) (hs : s ∈ rows) (hid : requiredString r key = requiredString s key) : r = s :=
  List.inj_on_of_nodup_map h.nodup hr hs hid

/-- What has been accepted of the pages so far. -/
structure Accepted (listing : Listing) (scope : Scope) (rows : List Json) (ids : List String) :
    Prop where
  named : rows.map (requiredString · listing.idKey) =
    ids.reverse.map (.ok : String → Except ExchangeError String)
  nodup : ids.Nodup
  inScope : ∀ row ∈ rows, InScope scope row

variable {listing : Listing} {scope : Scope} {rows : List Json} {ids : List String}

theorem Accepted.row {row : Json} {ids' : List String} (h : Accepted listing scope rows ids)
    (hvalid : validateRow listing scope ids row = .ok ids') :
    Accepted listing scope (rows ++ [row]) ids' := by
  unfold validateRow at hvalid
  obtain ⟨id, hid, hvalid⟩ := bind_eq_ok.mp hvalid
  split at hvalid
  · cases hvalid
  rename_i hnew
  obtain ⟨portfolio, hportfolio, hvalid⟩ := bind_eq_ok.mp hvalid
  split at hvalid
  · cases hvalid
  rename_i hsame
  obtain ⟨exchangeType, hexchange, hvalid⟩ := bind_eq_ok.mp hvalid
  split at hvalid
  · cases hvalid
  rename_i hlower
  obtain ⟨timestamp, htimestamp, hvalid⟩ := bind_eq_ok.mp hvalid
  split at hvalid
  · cases hvalid
  rename_i hwindow
  cases hvalid
  obtain ⟨hstart, hend⟩ := not_or.mp hwindow
  refine ⟨?_, List.nodup_cons.mpr ⟨hnew, h.nodup⟩, ?_⟩
  · rw [List.map_append, h.named, List.reverse_cons, List.map_append, List.map_singleton, hid]
    rfl
  · intro other hother
    rcases List.mem_append.mp hother with hold | hlast
    · exact h.inScope other hold
    · rw [List.mem_singleton.mp hlast]
      exact ⟨not_ne_iff.mp hsame ▸ hportfolio, ⟨exchangeType, hexchange, not_ne_iff.mp hlower⟩,
        timestamp, htimestamp, not_lt.mp hstart, not_lt.mp hend⟩

theorem Accepted.distinct (h : Accepted listing scope rows ids) : Distinct listing.idKey rows where
  named row hrow := by
    have hmem := List.mem_map_of_mem (f := (requiredString · listing.idKey)) hrow
    rw [h.named] at hmem
    obtain ⟨id, -, hid⟩ := List.mem_map.mp hmem
    exact ⟨id, hid.symm⟩
  nodup := by
    rw [h.named]
    exact (List.nodup_reverse.mpr h.nodup).map fun _ _ heq => Except.ok.inj heq

theorem Accepted.page {page : List Json} {ids' : List String} (h : Accepted listing scope rows ids)
    (hvalid : page.foldlM (validateRow listing scope) ids = .ok ids') :
    Accepted listing scope (rows ++ page) ids' := by
  refine run_prefix (P := fun past ids => Accepted listing scope (rows ++ past) ids) ?_
    (by rwa [List.append_nil]) hvalid
  intro past row _ _ ids ids' hpast hrow
  rw [← List.append_assoc]
  exact hpast.row hrow

/-! ## Pages that agree -/

/-- What a page has to be for a validation to let it through. The two listings check their pages in
    ways of their own, and this is what both make sure of. -/
def Validates (listing : Listing) (scope : Scope)
    (validate : Json → ℕ → Progress → Except ExchangeError (Page × List String)) : Prop :=
  ∀ value page p parsed ids, validate value page p = .ok (parsed, ids) →
    totalSize value = .ok parsed.total ∧ (∀ total ∈ p.expectedTotal, total = parsed.total) ∧
      parsed.rows.foldlM (validateRow listing scope) p.ids = .ok ids

theorem totalSize_of_data {label : String} {value data : Json}
    (h : dataObject label value = .ok data) : totalSize value = integer data "totalSize" := by
  unfold dataObject at h
  split at h
  · rename_i fields hdata
    cases h
    rw [totalSize, hdata, Option.getD_some]
  · cases h

theorem expected_of_not_any {expected : Option ℕ} {total : ℕ}
    (h : ¬expected.any (· ≠ total) = true) : ∀ t ∈ expected, t = total := by
  rintro t rfl
  by_contra hne
  exact h (decide_eq_true hne)

theorem validates_execution (scope : Scope) :
    Validates executions scope (validateExecutionPage scope) := by
  intro value page p parsed ids h
  unfold validateExecutionPage at h
  obtain ⟨data, hdata, h⟩ := bind_eq_ok.mp h
  obtain ⟨shown, -, h⟩ := bind_eq_ok.mp h
  obtain ⟨size, -, h⟩ := bind_eq_ok.mp h
  obtain ⟨pages, -, h⟩ := bind_eq_ok.mp h
  obtain ⟨total, htotal, h⟩ := bind_eq_ok.mp h
  split at h
  · cases h
  split at h
  · cases h
  rename_i hsame
  obtain ⟨list, -, h⟩ := bind_eq_ok.mp h
  split at h
  · cases h
  split at h
  · cases h
  obtain ⟨ids', hids, h⟩ := bind_eq_ok.mp h
  cases h
  exact ⟨(totalSize_of_data hdata).trans htotal, expected_of_not_any (not_or.mp hsame).2, hids⟩

theorem validates_statement (scope : Scope) :
    Validates statements scope (validateStatementPage scope) := by
  intro value page p parsed ids h
  unfold validateStatementPage at h
  obtain ⟨data, hdata, h⟩ := bind_eq_ok.mp h
  obtain ⟨shown, -, h⟩ := bind_eq_ok.mp h
  obtain ⟨size, -, h⟩ := bind_eq_ok.mp h
  obtain ⟨pages, -, h⟩ := bind_eq_ok.mp h
  obtain ⟨total, htotal, h⟩ := bind_eq_ok.mp h
  split at h
  · cases h
  rename_i henvelope
  simp only [not_or] at henvelope
  obtain ⟨-, -, -, -, -, -, -, hsame⟩ := henvelope
  obtain ⟨list, -, h⟩ := bind_eq_ok.mp h
  simp only at h
  split at h
  · cases h
  obtain ⟨ids', hids, h⟩ := bind_eq_ok.mp h
  cases h
  exact ⟨(totalSize_of_data hdata).trans htotal, expected_of_not_any hsame, hids⟩

variable {label : String} {get : ℕ → Except ExchangeError Json}
  {validate : Json → ℕ → Progress → Except ExchangeError (Page × List String)}

theorem fetchPages_requests (remaining page : ℕ) (p : Progress) :
    (fetchPages label get validate remaining page p).answers.length ≤ remaining := by
  induction remaining generalizing page p with
  | zero => exact le_rfl
  | succ remaining ih =>
    rw [fetchPages]
    split
    · exact Nat.succ_le_succ (Nat.zero_le _)
    · split
      · exact Nat.succ_le_succ (Nat.zero_le _)
      · exact Nat.succ_le_succ (ih _ _)

/-- **The pages from one on**, after pages that were accepted. -/
theorem fetchPages_whole (hvalid : Validates listing scope validate) {remaining page : ℕ}
    {p : Progress} (haccepted : Accepted listing scope p.rows p.ids)
    (h : (fetchPages label get validate remaining page p).result = .ok rows) :
    (∃ ids, Accepted listing scope rows ids) ∧ (∀ total ∈ p.expectedTotal, total = rows.length) ∧
      ∀ answer ∈ (fetchPages label get validate remaining page p).answers,
        ∃ value, answer = .ok value ∧ totalSize value = .ok rows.length := by
  induction remaining generalizing page p with
  | zero => cases h
  | succ remaining ih =>
    rw [fetchPages] at h ⊢
    split at h
    · cases h
    · rename_i parsed ids hpage
      obtain ⟨value, hget, hparsed⟩ := bind_eq_ok.mp hpage
      obtain ⟨htotal, hexpected, hrows⟩ := hvalid value page p parsed ids hparsed
      have haccepted := haccepted.page hrows
      split at h
      · rename_i hlast
        simp only at h
        split at h
        · cases h
        rename_i hlength
        cases h
        rw [if_pos hlast]
        have hlength := not_ne_iff.mp hlength
        refine ⟨⟨ids, haccepted⟩, fun total ht => (hexpected total ht).trans hlength.symm, ?_⟩
        intro answer hanswer
        rw [List.mem_singleton.mp hanswer, hlength]
        exact ⟨value, hget, htotal⟩
      · rename_i hmore
        obtain ⟨hwhole, hsame, hanswers⟩ := ih haccepted h
        have hlength : parsed.total = rows.length := hsame parsed.total rfl
        rw [if_neg hmore]
        refine ⟨hwhole, fun total ht => (hexpected total ht).trans hlength, ?_⟩
        intro answer hanswer
        rcases List.mem_cons.mp hanswer with rfl | hrest
        · exact ⟨value, hget, hlength ▸ htotal⟩
        · exact hanswers answer hrest

/-- **All pages.** -/
theorem whole_of_fetched (hvalid : Validates listing scope validate)
    (h : (fetchPages label get validate maxPages 1 {}).result = .ok rows) :
    Whole listing scope (fetchPages label get validate maxPages 1 {}).answers rows := by
  obtain ⟨⟨ids, haccepted⟩, -, hanswers⟩ :=
    fetchPages_whole hvalid ⟨rfl, List.nodup_nil, List.forall_mem_nil _⟩ h
  exact ⟨haccepted.distinct, hanswers, haccepted.inScope, fetchPages_requests maxPages 1 {}⟩

variable {client : Client} {range : TimeRange} {nowMs : ℤ}

theorem executionWindow_whole {path : String}
    (h : (client.executionWindow path range).result = .ok rows) :
    Whole executions (client.scope range) (client.executionWindow path range).answers rows :=
  whole_of_fetched (validates_execution _) h

theorem statementHistory_whole {statementType : String}
    (h : (client.statementHistory nowMs range statementType).result = .ok rows) :
    Whole statements (client.scope range)
      (client.statementHistory nowMs range statementType).answers rows := by
  unfold Client.statementHistory at h ⊢
  split at h
  · cases h
  · rename_i hrange
    rw [if_neg hrange]
    exact whole_of_fetched (validates_statement _) h

/-! ## Both tiers -/

/-- The rows that are kept are those that were seen. -/
structure Merging (m : Merged) : Prop where
  kept : m.rows = m.seen.reverse.map (·.2)
  named : ∀ entry ∈ m.seen, requiredString entry.2 executions.idKey = .ok entry.1
  nodup : (m.seen.map (·.1)).Nodup

theorem Merging.mem_rows {m : Merged} (h : Merging m) {row : Json} :
    row ∈ m.rows ↔ ∃ entry ∈ m.seen, entry.2 = row := by
  rw [h.kept, List.mem_map]
  simp only [List.mem_reverse]

theorem Merging.distinct {m : Merged} (h : Merging m) : Distinct executions.idKey m.rows where
  named row hrow := by
    obtain ⟨entry, hentry, rfl⟩ := h.mem_rows.mp hrow
    exact ⟨entry.1, h.named entry hentry⟩
  nodup := by
    have hnames : m.rows.map (requiredString · executions.idKey) =
        (m.seen.reverse.map (·.1)).map (.ok : String → Except ExchangeError String) := by
      rw [h.kept, List.map_map, List.map_map]
      exact List.map_congr_left fun entry hentry => h.named entry (List.mem_reverse.mp hentry)
    rw [hnames, List.map_reverse]
    exact (List.nodup_reverse.mpr h.nodup).map fun _ _ heq => Except.ok.inj heq

/-- A row is kept, or it was there already. -/
theorem Merging.row {m m' : Merged} {row : Json} (h : Merging m) (hrow : mergeRow m row = .ok m') :
    Merging m' ∧ ∀ r, r ∈ m'.rows ↔ r ∈ m.rows ∨ r = row := by
  unfold mergeRow at hrow
  obtain ⟨id, hid, hrow⟩ := bind_eq_ok.mp hrow
  split at hrow
  · rename_i previous hseen
    split at hrow
    · cases hrow
    · rename_i hsame
      cases hrow
      obtain ⟨entry, hfind, rfl⟩ := Option.map_eq_some_iff.mp hseen
      have hmem : row ∈ m.rows :=
        h.mem_rows.mpr ⟨entry, List.mem_of_find?_eq_some hfind, not_ne_iff.mp hsame⟩
      exact ⟨h, fun r => ⟨.inl, fun hr => hr.elim (fun hold => hold) fun heq => heq ▸ hmem⟩⟩
  · rename_i hunseen
    cases hrow
    have hnew := List.find?_eq_none.mp (Option.map_eq_none_iff.mp hunseen)
    refine ⟨⟨?_, List.forall_mem_cons.mpr ⟨hid, h.named⟩, List.nodup_cons.mpr ⟨?_, h.nodup⟩⟩, ?_⟩
    · simp only [List.reverse_cons, List.map_append, List.map_singleton, h.kept]
    · rintro hmem
      obtain ⟨entry, hentry, heq⟩ := List.mem_map.mp hmem
      exact hnew entry hentry (decide_eq_true heq)
    · intro r
      rw [List.mem_append, List.mem_singleton]

theorem Merging.tier {m m' : Merged} {tier : List Json} (h : Merging m)
    (hrows : tier.foldlM mergeRow m = .ok m') :
    Merging m' ∧ ∀ r, r ∈ m'.rows ↔ r ∈ m.rows ∨ r ∈ tier := by
  refine run_prefix (P := fun past t => Merging t ∧ ∀ r, r ∈ t.rows ↔ r ∈ m.rows ∨ r ∈ past) ?_
    ⟨h, by simp⟩ hrows
  rintro past row _ - t t' ⟨ht, hmem⟩ hrow
  obtain ⟨ht', hmem'⟩ := ht.row hrow
  refine ⟨ht', fun r => ?_⟩
  rw [hmem', hmem, List.mem_append, List.mem_singleton, or_assoc]

/-- The rows of a tier, when it is read. -/
def Client.TierRow (client : Client) (tier : String × TimeRange) (row : Json) : Prop :=
  ∃ rows, (client.executionWindow tier.1 tier.2).result = .ok rows ∧ row ∈ rows

/-- Every tier is read, and the rows are those of the tiers, each once. What two tiers both have is
    returned once. -/
structure Once (client : Client) (nowMs : ℤ) (range : TimeRange) (rows : List Json) : Prop where
  distinct : Distinct executions.idKey rows
  tiers : ∃ tiers, executionRanges range nowMs = .ok tiers ∧
    (∀ tier ∈ tiers, ∃ rows, (client.executionWindow tier.1 tier.2).result = .ok rows) ∧
    ∀ row, row ∈ rows ↔ ∃ tier ∈ tiers, client.TierRow tier row

theorem Merging.read {m m' : Merged} {tier : String × TimeRange} (h : Merging m)
    (hstep : (do
      let rows ← (client.executionWindow tier.1 tier.2).result
      rows.foldlM mergeRow m) = .ok m') :
    Merging m' ∧ (∃ rows, (client.executionWindow tier.1 tier.2).result = .ok rows) ∧
      ∀ row, row ∈ m'.rows ↔ row ∈ m.rows ∨ client.TierRow tier row := by
  obtain ⟨tierRows, hresult, hstep⟩ := bind_eq_ok.mp hstep
  obtain ⟨hm', hmem⟩ := h.tier hstep
  refine ⟨hm', ⟨tierRows, hresult⟩, fun row => (hmem row).trans (or_congr_right ?_)⟩
  constructor
  · exact fun hrow => ⟨tierRows, hresult, hrow⟩
  · rintro ⟨rows, hok, hrow⟩
    cases hresult.symm.trans hok
    exact hrow

theorem executionHistory_once (h : client.executionHistory nowMs range = .ok rows) :
    Once client nowMs range rows := by
  unfold Client.executionHistory at h
  obtain ⟨tiers, htiers, h⟩ := bind_eq_ok.mp h
  obtain ⟨merged, hmerged, h⟩ := bind_eq_ok.mp h
  obtain rfl := pure_eq_ok.mp h
  let P : List (String × TimeRange) → Merged → Prop := fun past m => Merging m ∧
    (∀ tier ∈ past, ∃ rows, (client.executionWindow tier.1 tier.2).result = .ok rows) ∧
    ∀ row, row ∈ m.rows ↔ ∃ tier ∈ past, client.TierRow tier row
  have hstart : P [] {} := ⟨⟨rfl, List.forall_mem_nil _, List.nodup_nil⟩, by simp, by simp⟩
  obtain ⟨hmerging, hread, hrows⟩ : P tiers merged := by
    refine run_prefix ?_ hstart hmerged
    rintro past tier _ - m m' ⟨hm, hread, hrows⟩ hstep
    obtain ⟨hm', hlast, hmem⟩ := hm.read hstep
    refine ⟨hm', List.forall_mem_append.mpr ⟨hread, List.forall_mem_singleton.mpr hlast⟩, ?_⟩
    intro row
    rw [hmem, hrows]
    simp only [List.mem_append, List.mem_singleton, or_and_right, exists_or, exists_eq_left]
  refine ⟨hmerging.distinct.perm (sortByKey_perm _ _).symm, tiers, htiers, hread, fun row => ?_⟩
  rw [mem_sortByKey, hrows]

/-- Two tiers have a row of one id that is not the same. Such a row is an error, as it cannot be
    told which of the two is right. -/
def Disagree (client : Client) (nowMs : ℤ) (range : TimeRange) : Prop :=
  ∃ tiers, executionRanges range nowMs = .ok tiers ∧ ∃ tier ∈ tiers, ∃ tier' ∈ tiers,
    ∃ row row', client.TierRow tier row ∧ client.TierRow tier' row' ∧
      requiredString row executions.idKey = requiredString row' executions.idKey ∧ row ≠ row'

theorem executionHistory_disagree (h : Disagree client nowMs range) :
    ∃ e, client.executionHistory nowMs range = .error e := by
  obtain ⟨tiers, htiers, tier, hmem, tier', hmem', row, row', hrow, hrow', hid, hne⟩ := h
  cases hresult : client.executionHistory nowMs range with
  | error e => exact ⟨e, rfl⟩
  | ok rows =>
    obtain ⟨hdistinct, _, htiers', -, hrows⟩ := executionHistory_once hresult
    cases htiers.symm.trans htiers'
    exact absurd (hdistinct.eq_of_id ((hrows row).mpr ⟨tier, hmem, hrow⟩)
      ((hrows row').mpr ⟨tier', hmem', hrow'⟩) hid) hne

/-! ## What is accepted -/

/-- A row of the window that has not been there is accepted. -/
theorem validateRow_of_inScope {row : Json} {id : String}
    (hid : requiredString row listing.idKey = .ok id) (hnew : id ∉ ids) (hscope : InScope scope row) :
    validateRow listing scope ids row = .ok (id :: ids) := by
  obtain ⟨hportfolio, ⟨exchangeType, hexchange, hlower⟩, timestamp, htime, hstart, hend⟩ := hscope
  unfold validateRow
  refine bind_eq_ok.mpr ⟨id, hid, ?_⟩
  rw [if_neg hnew]
  refine bind_eq_ok.mpr ⟨_, hportfolio, ?_⟩
  rw [if_neg (not_not.mpr rfl)]
  refine bind_eq_ok.mpr ⟨_, hexchange, ?_⟩
  rw [if_neg (not_not.mpr hlower)]
  refine bind_eq_ok.mpr ⟨_, htime, ?_⟩
  rw [if_neg (not_or.mpr ⟨not_lt.mpr hstart, not_lt.mpr hend⟩)]

/-- Rows with names of their own are accepted after those before them. -/
theorem validateRows_of_inScope {name : ℕ → String} {row : ℕ → Json} (hname : name.Injective)
    (hid : ∀ i, requiredString (row i) listing.idKey = .ok (name i))
    (hscope : ∀ i, InScope scope (row i)) (first count : ℕ) :
    ((List.range' first count).map row).foldlM (validateRow listing scope)
        ((List.range first).map name).reverse =
      .ok ((List.range (first + count)).map name).reverse := by
  induction count generalizing first with
  | zero => rfl
  | succ count ih =>
    have hnew : name first ∉ ((List.range first).map name).reverse := by
      simp [hname.eq_iff]
    rw [List.range'_succ, List.map_cons, List.foldlM_cons]
    refine bind_eq_ok.mpr ⟨_, validateRow_of_inScope (hid first) hnew (hscope first), ?_⟩
    have hnext : name first :: ((List.range first).map name).reverse =
        ((List.range (first + 1)).map name).reverse := by
      rw [List.range_succ, List.map_append, List.reverse_append]
      rfl
    rw [hnext, ih, Nat.add_right_comm, Nat.add_assoc]

/-- A page that is not the last of its history. -/
theorem fetchPages_more {remaining page : ℕ} {p : Progress} {value : Json} {parsed : Page}
    {ids : List String} {rest : Fetched} (hget : get page = .ok value)
    (hvalid : validate value page p = .ok (parsed, ids)) (hmore : page < parsed.pages)
    (hrest : fetchPages label get validate remaining (page + 1)
      ⟨p.rows ++ parsed.rows, ids, some parsed.pages, some parsed.total⟩ = rest) :
    fetchPages label get validate (remaining + 1) page p =
      ⟨.ok value :: rest.answers, rest.result⟩ := by
  have hpage : ((.ok value : Except ExchangeError Json) >>= fun value => validate value page p) =
    .ok (parsed, ids) := hvalid
  simp only [fetchPages, hget, hpage, if_neg (not_le.mpr hmore), hrest]

theorem fetchPages_last (remaining : ℕ) {page : ℕ} {p : Progress} {value : Json} {parsed : Page}
    {ids : List String} (hget : get page = .ok value)
    (hvalid : validate value page p = .ok (parsed, ids)) (hlast : parsed.pages ≤ page)
    (htotal : (p.rows ++ parsed.rows).length = parsed.total) :
    fetchPages label get validate (remaining + 1) page p =
      ⟨[.ok value], .ok (p.rows ++ parsed.rows)⟩ := by
  have hpage : ((.ok value : Except ExchangeError Json) >>= fun value => validate value page p) =
    .ok (parsed, ids) := hvalid
  simp only [fetchPages, hget, hpage, if_pos hlast, if_neg (not_not.mpr htotal)]

/-! ## All or nothing -/

/-- **History is all or nothing.** What is returned of a window is as much as every page said, no row
    twice and none from elsewhere; over both tiers each execution is returned once, and nothing where
    they disagree. -/
theorem history_all_or_nothing (client : Client) (nowMs : ℤ) (range : TimeRange) :
    (∀ path rows, (client.executionWindow path range).result = .ok rows →
      Whole executions (client.scope range) (client.executionWindow path range).answers rows) ∧
    (∀ statementType rows, (client.statementHistory nowMs range statementType).result = .ok rows →
      Whole statements (client.scope range)
        (client.statementHistory nowMs range statementType).answers rows) ∧
    (∀ rows, client.executionHistory nowMs range = .ok rows → Once client nowMs range rows) ∧
    (Disagree client nowMs range → ∃ e, client.executionHistory nowMs range = .error e) :=
  ⟨fun _ _ => executionWindow_whole, fun _ _ => statementHistory_whole,
    fun _ => executionHistory_once, executionHistory_disagree⟩

def transactionId (i : ℕ) : String := "t" ++ toString (i : ℤ)

theorem transactionId_injective : transactionId.Injective := by
  intro i j h
  have htext : ("t" ++ toString (i : ℤ)).toList = ("t" ++ toString (j : ℤ)).toList :=
    congrArg String.toList h
  rw [String.toList_append, String.toList_append] at htext
  exact Int.ofNat.inj (toString_injective (String.toList_inj.mp (List.append_cancel_left htext)))

def transaction (i : ℕ) : Json :=
  .object [("createAt", .string "1700000000000"), ("exchangeType", .string "BINANCE"),
    ("portfolioId", .string "7"), ("transactionId", .string (transactionId i))]

theorem requiredString_transaction (i : ℕ) :
    requiredString (transaction i) "transactionId" = .ok (transactionId i) := by
  have hne : transactionId i ≠ "" := fun h => by
    have := congrArg String.toList h
    rw [transactionId, String.toList_append] at this
    cases this
  unfold requiredString
  exact if_neg hne

def one : Numeral := ⟨"1", by decide, by decide⟩
def two : Numeral := ⟨"2", by decide, by decide⟩
def thousand : Numeral := ⟨"1000", by decide, by decide⟩

def transactionsPage (page : Numeral) (rows : List Json) : Json :=
  .object [("data", .object [("list", .array rows), ("page", .number page),
    ("pageNum", .number two), ("pageSize", .number thousand),
    ("totalSize", .number ⟨"1001", by decide, by decide⟩)])]

def firstPage : Json := transactionsPage one ((List.range' 0 1000).map transaction)
def lastPage : Json := transactionsPage two ((List.range' 1000 1).map transaction)

/-- A server with 1001 executions on two pages. -/
def twoPages : Client where
  signedGet _ params := .ok (if ("page", "1") ∈ params then firstPage else lastPage)
  portfolioId := "7"
  exchange := "binance"

theorem transaction_inScope (i : ℕ) :
    InScope (twoPages.scope ⟨1700000000000, 1700000000000⟩) (transaction i) :=
  ⟨rfl, ⟨"BINANCE", rfl, by decide⟩, 1700000000000, by rfl, le_rfl, le_rfl⟩

theorem validate_transactionsPage {page : Numeral} {number first count : ℕ} {p : Progress}
    (hpage : asU64 page = some number) (hnumber : number = 1 ∨ number = 2) (hcount : 0 < count)
    (hfull : count ≤ pageSize ∧ (number < 2 → count = pageSize))
    (hpages : ∀ pages ∈ p.expectedPages, pages = 2) (htotal : ∀ total ∈ p.expectedTotal, total = 1001)
    (hids : p.ids = ((List.range first).map transactionId).reverse) :
    validateExecutionPage (twoPages.scope ⟨1700000000000, 1700000000000⟩)
        (transactionsPage page ((List.range' first count).map transaction)) number p =
      .ok (⟨2, 1001, (List.range' first count).map transaction⟩,
        ((List.range (first + count)).map transactionId).reverse) := by
  obtain ⟨hsize, hshort⟩ := hfull
  unfold validateExecutionPage
  refine bind_eq_ok.mpr ⟨_, rfl, ?_⟩
  refine bind_eq_ok.mpr ⟨number, ?_, ?_⟩
  · change (match asU64 page with | some n => Except.ok n | none => _) = _
    rw [hpage]
  refine bind_eq_ok.mpr ⟨1000, rfl, bind_eq_ok.mpr ⟨2, rfl, bind_eq_ok.mpr ⟨1001, rfl, ?_⟩⟩⟩
  rw [if_neg (by simp only [pageSize, maxPages]; omega), if_neg]
  swap
  · simp only [Option.any_eq_true, not_or, not_exists, not_and, decide_eq_true_eq, not_not]
    exact ⟨hpages, htotal⟩
  refine bind_eq_ok.mpr ⟨_, rfl, ?_⟩
  have hne : (List.range' first count).map transaction ≠ [] := by
    simp [hcount.ne']
  rw [if_neg fun h => hne h.1, List.length_map, List.length_range', if_neg]
  swap
  · simp only [pageSize] at *
    omega
  refine bind_eq_ok.mpr ⟨_, ?_, rfl⟩
  rw [hids]
  exact validateRows_of_inScope transactionId_injective requiredString_transaction
    transaction_inScope first count

theorem twoPages_executionWindow :
    twoPages.executionWindow executionsPath ⟨1700000000000, 1700000000000⟩ =
      ⟨[.ok firstPage, .ok lastPage], .ok ((List.range 1001).map transaction)⟩ := by
  let get (page : ℕ) := twoPages.signedGet executionsPath
    [("begin", toString (1700000000000 : ℤ)), ("end", toString (1700000000000 : ℤ)),
      ("exchange", "binance"), ("page", toString page), ("pageSize", toString pageSize)]
  have hget : get 1 = .ok firstPage := congrArg Except.ok (if_pos (by decide))
  have hget' : get 2 = .ok lastPage := congrArg Except.ok (if_neg (by decide))
  have hfirst := @validate_transactionsPage ⟨"1", by decide, by decide⟩ 1 0 1000 {} (by decide)
    (.inl rfl) (by decide) (by decide) (by simp) (by simp) (by simp)
  have hlast := @validate_transactionsPage ⟨"2", by decide, by decide⟩ 2 1000 1
    ⟨(List.range' 0 1000).map transaction, ((List.range (0 + 1000)).map transactionId).reverse,
      some 2, some 1001⟩ (by decide) (.inr rfl) (by decide) (by decide) (by simp) (by simp)
    (by rw [Nat.zero_add])
  have hrows : (List.range' 0 1000).map transaction ++ (List.range' 1000 1).map transaction =
      (List.range 1001).map transaction := by
    rw [← List.map_append, List.range_eq_range']
    exact congrArg _ (@List.range'_append_1 0 1000 1)
  have hend := @fetchPages_last "execution" get _ 98 2 _ lastPage _ _ hget' hlast (by decide)
    (by simp)
  rw [hrows] at hend
  exact fetchPages_more hget hfirst (by decide) hend

theorem history_over_two_pages : ∃ rows,
    (twoPages.executionWindow executionsPath ⟨1700000000000, 1700000000000⟩).result = .ok rows ∧
      rows.length = 1001 ∧
      Whole executions (twoPages.scope ⟨1700000000000, 1700000000000⟩)
        [.ok firstPage, .ok lastPage] rows := by
  have hwindow := twoPages_executionWindow
  have hwhole := (history_all_or_nothing twoPages 0 ⟨1700000000000, 1700000000000⟩).1
    executionsPath _ (congrArg Fetched.result hwindow)
  rw [congrArg Fetched.answers hwindow] at hwhole
  exact ⟨_, congrArg Fetched.result hwindow, by simp, hwhole⟩

end CryptoNav.Exchange.Ltp
