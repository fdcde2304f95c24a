import Mathlib.Data.List.Basic
import Mathlib.Data.List.Induction

/-!
# Comma separated values

Writing records of texts and reading them again. A field that has a comma, a quote or a line end is
written in quotes, its own quotes twice; a record ends with a line feed. The reader goes through the
text a character at a time, and takes lines that end with a carriage return and fields that are
quoted without need as well. It reads back what was written (`read_write`).

Few texts are refused: text after a closing quote is taken as it stands, and a quote that is not
closed takes the rest of the text into its field; only a record with more or fewer fields than
the first is an error. So a round trip is what is stated, and it needs one thing of each record
that was written, that it is not empty, as an empty line is no record for the reader. `read`
skips the byte order mark that a text may start with, so a header that starts with one would
come back without it; `NoMark` says that it does not. Line ends are the writer's default, a line
feed, and how a number becomes a field is left to whoever has numbers.
-/

set_option autoImplicit false

namespace CryptoNav.Lib.Csv

abbrev Record := List (List Char)

/-! ## Writing -/

def isSpecial (c : Char) : Bool := c = ',' || c = '"' || c = '\n' || c = '\r'

def doubled (field : List Char) : List Char :=
  field.flatMap fun c => if c = '"' then [c, c] else [c]

def fieldText (field : List Char) : List Char :=
  if field.any isSpecial then '"' :: doubled field ++ ['"'] else field

/-- A record of one empty field is written as two quotes, lest its line be empty. -/
def recordText (record : Record) : List Char :=
  let line := [','].intercalate (record.map fieldText)
  (if line = [] then ['"', '"'] else line) ++ ['\n']

def write (records : List Record) : List Char := records.flatMap recordText

/-! ## Reading -/

inductive Mode where
  | startRecord
  | startField
  | inField
  | inQuoted
  | quoted -- behind a quote within quotes
  deriving DecidableEq

structure Reader where
  records : List Record
  fields : Record
  field : List Char
  mode : Mode

namespace Reader

def start (records : List Record) : Reader := ⟨records, [], [], .startRecord⟩

def endField (r : Reader) : Reader := ⟨r.records, r.fields ++ [r.field], [], .startField⟩

def endRecord (r : Reader) : Reader := start (r.records ++ [r.fields ++ [r.field]])

def push (r : Reader) (c : Char) (mode : Mode) : Reader :=
  ⟨r.records, r.fields, r.field ++ [c], mode⟩

/-- A character that is not within quotes and does not begin them. -/
def plain (r : Reader) (c : Char) : Reader :=
  if c = ',' then r.endField
  else if c = '\n' || c = '\r' then r.endRecord
  else r.push c .inField

def step (r : Reader) (c : Char) : Reader :=
  match r.mode with
  | .startRecord =>
    if c = '\n' || c = '\r' then r
    else if c = '"' then { r with mode := .inQuoted }
    else r.plain c
  | .startField => if c = '"' then { r with mode := .inQuoted } else r.plain c
  | .inField => r.plain c
  | .inQuoted => if c = '"' then { r with mode := .quoted } else r.push c .inQuoted
  | .quoted => if c = '"' then r.push c .inQuoted else r.plain c

def finish (r : Reader) : List Record :=
  match r.mode with
  | .startRecord => r.records
  | _ => r.endRecord.records

end Reader

def parse (text : List Char) : List Record := (text.foldl Reader.step (.start [])).finish

/-- The records of a text behind its byte order mark, all as long as the first. -/
def read (text : List Char) : Option (List Record) :=
  let records := parse (if text.head? = some '\uFEFF' then text.tail else text)
  if records.all fun record => record.length = (records.headD []).length then some records else none

/-! ## Reading what was written -/

section
variable (records : List Record) (fields : Record)

theorem plain_fold {field : List Char} (h : ∀ c ∈ field, isSpecial c = false)
    (before : List Char) : field.foldl Reader.step ⟨records, fields, before, .inField⟩ =
      ⟨records, fields, before ++ field, .inField⟩ := by
  induction field generalizing before with
  | nil => rw [List.append_nil, List.foldl_nil]
  | cons c field ih =>
    obtain ⟨hc, hfield⟩ := List.forall_mem_cons.mp h
    simp only [isSpecial, Bool.or_eq_false_iff, decide_eq_false_iff_not] at hc
    have hstep : Reader.step ⟨records, fields, before, .inField⟩ c =
        ⟨records, fields, before ++ [c], .inField⟩ := by
      simp [Reader.step, Reader.plain, Reader.push, hc]
    rw [List.foldl_cons, hstep, ih hfield, List.append_assoc, List.singleton_append]

theorem quoted_fold (field before : List Char) :
    (doubled field).foldl Reader.step ⟨records, fields, before, .inQuoted⟩ =
      ⟨records, fields, before ++ field, .inQuoted⟩ := by
  induction field generalizing before with
  | nil => rw [List.append_nil]; rfl
  | cons c field ih =>
    have hstep : (if c = '"' then [c, c] else [c]).foldl Reader.step
        ⟨records, fields, before, .inQuoted⟩ = ⟨records, fields, before ++ [c], .inQuoted⟩ := by
      by_cases hc : c = '"'
      · rw [if_pos hc, hc]
        rfl
      · simp [Reader.step, Reader.push, hc]
    rw [doubled, List.flatMap_cons, List.foldl_append, hstep, ← doubled, ih, List.append_assoc,
      List.singleton_append]

/-- Between the fields of a record, and where one begins. -/
def AtField : Mode → Prop
  | .startRecord | .startField => True
  | _ => False

/-- Behind a field that has been read, where a comma or a line end ends it. -/
def Behind (field : List Char) (r : Reader) : Prop :=
  r.records = records ∧ r.fields = fields ∧ r.field = field ∧
    (∀ c, c ≠ '"' → (r.mode = .startRecord → c ≠ '\n' ∧ c ≠ '\r') → r.step c = r.plain c)

theorem read_field {mode : Mode} (hmode : AtField mode) (field : List Char) :
    let r := (fieldText field).foldl Reader.step ⟨records, fields, [], mode⟩
    Behind records fields field r ∧ (fieldText field ≠ [] → r.mode ≠ .startRecord) ∧
      (fieldText field = [] → r.mode = mode) := by
  have hquote : Reader.step ⟨records, fields, [], mode⟩ '"' = ⟨records, fields, [], .inQuoted⟩ := by
    cases mode with
    | startRecord => rfl
    | startField => rfl
    | inField => exact hmode.elim
    | inQuoted => exact hmode.elim
    | quoted => exact hmode.elim
  unfold fieldText
  split
  case isTrue hspecial =>
    have hread : ('"' :: doubled field ++ ['"']).foldl Reader.step ⟨records, fields, [], mode⟩ =
        ⟨records, fields, field, .quoted⟩ := by
      rw [List.cons_append, List.foldl_cons, hquote, List.foldl_append, quoted_fold]
      rfl
    rw [hread]
    refine ⟨⟨rfl, rfl, rfl, fun c hc _ => ?_⟩, by simp, by simp⟩
    simp [Reader.step, hc]
  case isFalse hplain =>
    have hall : ∀ c ∈ field, isSpecial c = false := by
      intro c hc
      by_contra hspecial
      exact hplain (List.any_eq_true.mpr ⟨c, hc, by simpa using hspecial⟩)
    cases field with
    | nil =>
      refine ⟨⟨rfl, rfl, rfl, fun c hc hend => ?_⟩, by simp, fun _ => rfl⟩
      cases mode with
      | startRecord =>
        have := hend rfl
        simp [Reader.step, hc, this]
      | startField => simp [Reader.step, hc]
      | inField => exact hmode.elim
      | inQuoted => exact hmode.elim
      | quoted => exact hmode.elim
    | cons c field =>
      obtain ⟨hc, hfield⟩ := List.forall_mem_cons.mp hall
      simp only [isSpecial, Bool.or_eq_false_iff, decide_eq_false_iff_not] at hc
      have hfirst : Reader.step ⟨records, fields, [], mode⟩ c = ⟨records, fields, [c], .inField⟩ := by
        cases mode with
        | startRecord => simp [Reader.step, Reader.plain, Reader.push, hc]
        | startField => simp [Reader.step, Reader.plain, Reader.push, hc]
        | inField => exact hmode.elim
        | inQuoted => exact hmode.elim
        | quoted => exact hmode.elim
      rw [List.foldl_cons, hfirst, plain_fold _ _ hfield]
      exact ⟨⟨rfl, rfl, rfl, fun _ _ _ => rfl⟩, by simp, by simp⟩

/-- The comma behind a field. -/
theorem read_comma {mode : Mode} (hmode : AtField mode) (field : List Char) :
    (fieldText field ++ [',']).foldl Reader.step ⟨records, fields, [], mode⟩ =
      ⟨records, fields ++ [field], [], .startField⟩ := by
  obtain ⟨⟨hrecords, hfields, hfield, hstep⟩, -, -⟩ := read_field records fields hmode field
  rw [List.foldl_append, List.foldl_cons, List.foldl_nil,
    hstep ',' (by decide) fun _ => ⟨by decide, by decide⟩]
  rw [Reader.plain, if_pos rfl, Reader.endField, hrecords, hfields, hfield]

/-- The end of the line behind the last field. -/
theorem read_end {mode : Mode} (hmode : AtField mode) {field : List Char}
    (h : mode = .startRecord → fieldText field ≠ []) :
    (fieldText field ++ ['\n']).foldl Reader.step ⟨records, fields, [], mode⟩ =
      .start (records ++ [fields ++ [field]]) := by
  obtain ⟨⟨hrecords, hfields, hfield, hstep⟩, hsome, hnone⟩ := read_field records fields hmode field
  have hend : ((fieldText field).foldl Reader.step ⟨records, fields, [], mode⟩).mode ≠
      .startRecord := by
    by_cases hempty : fieldText field = []
    · rw [hnone hempty]
      exact fun hstart => h hstart hempty
    · exact hsome hempty
  rw [List.foldl_append, List.foldl_cons, List.foldl_nil,
    hstep '\n' (by decide) fun hstart => absurd hstart hend]
  rw [Reader.plain, if_neg (by decide), if_pos (by decide), Reader.endRecord, hrecords, hfields, hfield]

theorem read_line {mode : Mode} (hmode : AtField mode) {field : List Char} {rest : Record}
    (h : mode = .startRecord → [','].intercalate ((field :: rest).map fieldText) ≠ []) :
    ([','].intercalate ((field :: rest).map fieldText) ++ ['\n']).foldl Reader.step
      ⟨records, fields, [], mode⟩ = .start (records ++ [fields ++ field :: rest]) := by
  induction rest generalizing fields mode field with
  | nil =>
    have hone : [','].intercalate ([field].map fieldText) = fieldText field := by
      simp [List.intercalate]
    rw [hone] at h ⊢
    exact read_end records fields hmode h
  | cons next rest ih =>
    have hline : [','].intercalate ((field :: next :: rest).map fieldText) ++ ['\n'] =
        (fieldText field ++ [',']) ++ ([','].intercalate ((next :: rest).map fieldText) ++ ['\n']) := by
      simp [List.intercalate]
    rw [hline, List.foldl_append, read_comma records fields hmode,
      @ih (fields ++ [field]) .startField trivial next nofun, List.append_assoc,
      List.singleton_append]

end

theorem read_record (records : List Record) {record : Record} (h : record ≠ []) :
    (recordText record).foldl Reader.step (.start records) = .start (records ++ [record]) := by
  obtain ⟨field, rest, rfl⟩ := List.exists_cons_of_ne_nil h
  rw [recordText]
  split
  case isTrue hempty =>
    -- Only a single empty field leaves its line empty.
    obtain rfl : rest = [] := by
      cases rest with
      | nil => rfl
      | cons next rest => simp [List.intercalate] at hempty
    obtain rfl : field = [] := by
      simp only [List.intercalate, List.map_cons, List.map_nil] at hempty
      unfold fieldText at hempty
      split at hempty
      · simp at hempty
      · simpa using hempty
    rfl
  case isFalse hline => exact @read_line records [] .startRecord trivial field rest fun _ => hline

theorem parse_write {records : List Record} (h : ∀ record ∈ records, record ≠ []) :
    parse (write records) = records := by
  have hread : ∀ before, (write records).foldl Reader.step (.start before) =
      .start (before ++ records) := by
    induction records with
    | nil => exact fun before => congrArg Reader.start (List.append_nil before).symm
    | cons record records ih =>
      obtain ⟨hrecord, hrest⟩ := List.forall_mem_cons.mp h
      intro before
      rw [write, List.flatMap_cons, List.foldl_append, read_record before hrecord, ← write,
        ih hrest, List.append_assoc, List.singleton_append]
  rw [parse, hread, List.nil_append]
  rfl

/-- A text that begins with a character which is not the byte order mark. -/
def NoMark (record : Record) : Prop := ∃ c field rest, record = (c :: field) :: rest ∧ c ≠ '\uFEFF'

/-- **What is written can be read**: a header and records that are as long. -/
theorem read_write {header : Record} {records : List Record} (hheader : NoMark header)
    (h : ∀ record ∈ records, record.length = header.length) :
    read (write (header :: records)) = some (header :: records) := by
  obtain ⟨c, field, rest, rfl, hc⟩ := hheader
  have hmark : (write (((c :: field) :: rest) :: records)).head? ≠ some '\uFEFF' := by
    obtain ⟨d, more, hline, hd⟩ : ∃ d more,
        [','].intercalate (((c :: field) :: rest).map fieldText) = d :: more ∧ d ≠ '\uFEFF' := by
      obtain ⟨d, more, hfirst, hd⟩ : ∃ d more, fieldText (c :: field) = d :: more ∧ d ≠ '\uFEFF' := by
        unfold fieldText
        split
        · exact ⟨'"', _, rfl, by decide⟩
        · exact ⟨c, field, rfl, hc⟩
      cases rest with
      | nil => exact ⟨d, more, by simpa [List.intercalate] using hfirst, hd⟩
      | cons next rest =>
        refine ⟨d, more ++ ',' :: [','].intercalate ((next :: rest).map fieldText), ?_, hd⟩
        simp [List.intercalate, hfirst]
    rw [write, List.flatMap_cons, recordText, hline, if_neg (by simp)]
    exact fun hsome => hd (Option.some.inj hsome)
  rw [read, if_neg hmark, parse_write]
  · refine if_pos (List.all_eq_true.mpr fun record hrecord => decide_eq_true ?_)
    rcases List.mem_cons.mp hrecord with rfl | hrecord
    · rfl
    · exact h record hrecord
  · intro record hrecord hnil
    rcases List.mem_cons.mp hrecord with rfl | hrecord
    · cases hnil
    · have := h record hrecord
      rw [hnil] at this
      cases this

end CryptoNav.Lib.Csv
