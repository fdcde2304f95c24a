import CryptoNav.Lib.Json
import CryptoNav.Lib.Decimal
import CryptoNav.Lib.Runs

/-!
# Reading the fields of a raw row

The field readers of `sync_history`: a text is a string that is not blank or a number as it is
printed, a number is a text that parses to a finite `f64`, and the first of several field names
that reads as a text is taken. Errors carry the outermost message.

An error keeps only its outermost message, since that is what the log of a run shows; what the
parser of a number said about it is left out. Numbers that a text column takes are never parsed
at all, which is why the readers come in two kinds: the decimal of a text that was checked, and
the text itself. Rows are objects; a field of anything else reads as absent.
-/

set_option autoImplicit false

namespace CryptoNav.History.Raw

open CryptoNav.Lib

abbrev Result := Except String

/-- `bail!` under a condition. -/
def bailIf (p : Prop) [Decidable p] (message : String) : Result Unit :=
  if p then .error message else .ok ()

/-! ## Texts -/

/-- The `White_Space` characters of Unicode. -/
def isWhitespace (c : Char) : Bool :=
  let n := c.toNat
  (9 ≤ n && n ≤ 13) || (0x2000 ≤ n && n ≤ 0x200A) ||
    [0x20, 0x85, 0xA0, 0x1680, 0x2028, 0x2029, 0x202F, 0x205F, 0x3000].contains n

def trim (text : String) : String :=
  .ofList ((text.toList.dropWhile isWhitespace).reverse.dropWhile isWhitespace).reverse

def lowercase (text : String) : String := .ofList (text.toList.map Char.toLower)

def uppercase (text : String) : String := .ofList (text.toList.map Char.toUpper)

def stripPrefix (characters : List Char) (text : String) : String :=
  match text.toList with
  | c :: rest => if characters.contains c then .ofList rest else text
  | [] => text

def lowerSide (value : String) : String := lowercase (trim value)

/-- `toUppercase` is `char::to_uppercase`, which may give several characters. -/
def normalizeSymbol (toUppercase : Char → List Char) (value : String) : String :=
  .ofList (((trim value).toList.filter fun c => c ≠ '-' && c ≠ '_').flatMap toUppercase)

def contractFromText (text : Option String) : Option String :=
  text.bind fun text =>
    ((text.toList.splitOnP fun c => !c.isAlphanum && c ≠ '_').find?
      (['_', 'U', 'S', 'D', 'T'].isSuffixOf ·)).map .ofList

/-! ## Fields -/

def optionalText (value : Json) (fields : List String) : Option String :=
  fields.findSome? fun field =>
    match value.get field with
    | some (.string text) => if trim text = "" then none else some (trim text)
    | some (.number number) => some number.text
    | _ => none

def textField (value : Json) (fields : List String) : Result String :=
  match fields.findSome? fun field => optionalText value [field] with
  | some text => .ok text
  | none =>
    let names := "/".intercalate fields
    let row := String.ofList value.text
    .error s!"row is missing field {names}: {row}"

def parseNumber (value : String) : Result Float :=
  match parseFloat value.toList with
  | none => .error "parse decimal"
  | some number => if number.isFinite then .ok number else .error "decimal is not finite"

def numberField (value : Json) (fields : List String) : Result String := do
  let text ← textField value fields
  match parseNumber text with
  | .ok _ => .ok text
  | .error _ =>
    let names := "/".intercalate fields
    .error s!"invalid numeric field {names}: {text}"

def optionalNumber (value : Json) (fields : List String) : Option String :=
  (optionalText value fields).filter fun text => (parseNumber text).toBool

/-- The first of the fields that is a number other than zero, or else the first that is a text. -/
def nonzeroNumber (value : Json) (fields : List String) : Result String :=
  match fields.findSome? fun field => (optionalNumber value [field]).filter fun text =>
      (parseNumber text).toOption.any (· != 0) with
  | some text => .ok text
  | none => numberField value fields

def boolField (value : Json) (fields : List String) : Option Bool :=
  fields.findSome? fun field =>
    match value.get field with
    | some (.bool b) => some b
    | some (.string "true") | some (.string "1") => some true
    | some (.string "false") | some (.string "0") => some false
    | _ => none

/-- Numbers below this are seconds. -/
def secondsBelow : Float := 100000000000

def toMilliseconds (number : Float) : Float := if number < secondsBelow then number * 1000 else number

def i64MaxFloat : Float := Float.ofScientific (2 ^ 63) false 0

def timestampField (value : Json) (fields : List String) : Result ℤ := do
  let text ← textField value fields
  let names := "/".intercalate fields
  match parseFloat text.toList with
  | none => .error s!"invalid timestamp {names}: {text}"
  | some number =>
    if !number.isFinite || number ≤ 0 then .error s!"invalid timestamp {names}: {text}"
    else if toMilliseconds number > i64MaxFloat then .error s!"timestamp overflow: {text}"
    else .ok (roundToInt (toMilliseconds number))

/-! ## Decimals -/

def absoluteDecimal (value : String) : Result String := do
  let number ← parseNumber value
  .ok (if number == 0 then "0" else stripPrefix ['-', '+'] (trim value))

def signedDecimal (value : String) : Result String := do
  let number ← parseNumber value
  .ok (if number == 0 then "0" else stripPrefix ['+'] (trim value))

def negateDecimal (value : String) : Result String := do
  let value ← signedDecimal value
  .ok (if value = "0" then value
    else match value.toList with
      | '-' :: rest => .ofList rest
      | rest => .ofList ('-' :: rest))

/-- Without the zeros that end the decimals and without a point that ends the text. -/
def decimalString (value : Float) : String :=
  let text := fixedDecimals value
  let text := if text.contains '.' then (text.reverse.dropWhile (· = '0')).reverse else text
  let text := if text.getLast? = some '.' then text.dropLast else text
  if text = ['-', '0'] then "0" else .ofList text

/-! ## What the readers return -/

theorem textField_ok {value : Json} {fields : List String} {text : String} :
    textField value fields = .ok text ↔ optionalText value fields = some text := by
  have hread : (fields.findSome? fun field => optionalText value [field]) =
      optionalText value fields := by
    unfold optionalText
    congr 1
    funext field
    simp only [List.findSome?_cons, List.findSome?_nil]
    split <;> simp_all
  unfold textField
  rw [hread]
  cases optionalText value fields with
  | none => simp
  | some found => simp

theorem numberField_ok {value : Json} {fields : List String} {text : String}
    (h : numberField value fields = .ok text) :
    optionalText value fields = some text ∧ (parseNumber text).toBool := by
  obtain ⟨found, hfound, h⟩ := bind_eq_ok.mp h
  cases hnumber : parseNumber found with
  | error message => rw [hnumber] at h; cases h
  | ok number =>
    rw [hnumber] at h
    cases h
    exact ⟨textField_ok.mp hfound, by rw [hnumber]; rfl⟩

/-- What is read from fields depends on these fields alone. -/
theorem optionalText_congr {r s : Json} {fields : List String}
    (h : ∀ field ∈ fields, r.get field = s.get field) :
    optionalText r fields = optionalText s fields := by
  unfold optionalText
  induction fields with
  | nil => rfl
  | cons field rest ih =>
    rw [List.findSome?_cons, List.findSome?_cons, h field List.mem_cons_self,
      ih fun other hother => h other (List.mem_cons_of_mem _ hother)]

end CryptoNav.History.Raw
