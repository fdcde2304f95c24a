import Mathlib.Data.List.Basic
import Mathlib.Data.String.Basic
import Mathlib.Tactic.IntervalCases

/-!
# JSON values and their compact text

A value as a parsed document holds it, and the text its compact printer writes. The one fact
about the printer is that it is self-delimiting (`Json.text_inj`): a value is determined by its
text even when more text follows, so that fields joined with a separator can be told apart
again. A number is held as the text it is printed as, which is all that printing or reading it
back as a decimal needs. An object lists its fields in the order they are printed in.

Parsing a text is left out: programs that read a document get the value from a library, and all
they rely on is that printing says everything about it. Two objects with the same fields in
different orders are different values here, because their texts are; a library that sorts the
fields, or keeps them in the order of the text, is one way to choose among them, and nothing
here depends on which. `Json.get` reads the first field of a name; a parsed object has one of
each. Strings are escaped the way a compact printer escapes them, control characters in
hexadecimal.
-/

set_option autoImplicit false

namespace CryptoNav.Lib

/-- The characters of a printed number: digits, signs, the point and the exponent mark. -/
def isNumeralChar (c : Char) : Bool := c.isDigit || ['-', '+', '.', 'e', 'E'].contains c

/-- A number as it is printed. -/
structure Numeral where
  text : String
  nonempty : text.toList ≠ []
  chars : text.toList.all isNumeralChar
deriving DecidableEq

theorem Numeral.ext {n m : Numeral} (h : n.text = m.text) : n = m := by
  cases n; cases m; cases h; rfl

inductive Json where
  | null
  | bool (b : Bool)
  | number (n : Numeral)
  | string (s : String)
  | array (items : List Json)
  | object (fields : List (String × Json))

/-! ## Strings -/

/-- The lower-case hexadecimal digit of `n`. -/
def hexDigit (n : ℕ) : Char := if n < 10 then Char.ofNat (48 + n) else Char.ofNat (87 + n)

def hexValue (c : Char) : ℕ := if c.toNat < 58 then c.toNat - 48 else c.toNat - 87

theorem hexValue_hexDigit : ∀ n < 16, hexValue (hexDigit n) = n := by decide

/-- A character inside a string: quotes, backslashes and control characters are escaped, five of
the control characters by a letter of their own. -/
def escape (c : Char) : List Char :=
  if c = '"' then ['\\', '"']
  else if c = '\\' then ['\\', '\\']
  else if c = '\x08' then ['\\', 'b']
  else if c = '\x0c' then ['\\', 'f']
  else if c = '\n' then ['\\', 'n']
  else if c = '\r' then ['\\', 'r']
  else if c = '\t' then ['\\', 't']
  else if c.toNat < 32 then ['\\', 'u', '0', '0', hexDigit (c.toNat / 16), hexDigit (c.toNat % 16)]
  else [c]

/-- The first character of a string's inside and what follows it. -/
def unescape : List Char → Option (Char × List Char)
  | '\\' :: 'u' :: _ :: _ :: high :: low :: rest =>
    some (Char.ofNat (16 * hexValue high + hexValue low), rest)
  | '\\' :: 'b' :: rest => some ('\x08', rest)
  | '\\' :: 'f' :: rest => some ('\x0c', rest)
  | '\\' :: 'n' :: rest => some ('\n', rest)
  | '\\' :: 'r' :: rest => some ('\r', rest)
  | '\\' :: 't' :: rest => some ('\t', rest)
  | '\\' :: c :: rest => some (c, rest)
  | '"' :: _ => none
  | c :: rest => some (c, rest)
  | [] => none

theorem unescape_plain {c : Char} (hquote : c ≠ '"') (hback : c ≠ '\\') (rest : List Char) :
    unescape (c :: rest) = some (c, rest) := by
  unfold unescape
  split <;> simp_all

theorem unescape_escape (c : Char) (rest : List Char) :
    unescape (escape c ++ rest) = some (c, rest) := by
  unfold escape
  split_ifs with hquote hback hb hf hn hr ht hcontrol
  · rw [hquote]; rfl
  · rw [hback]; rfl
  · rw [hb]; rfl
  · rw [hf]; rfl
  · rw [hn]; rfl
  · rw [hr]; rfl
  · rw [ht]; rfl
  · show some (Char.ofNat (16 * hexValue (hexDigit (c.toNat / 16)) +
      hexValue (hexDigit (c.toNat % 16))), rest) = _
    rw [hexValue_hexDigit _ (by omega), hexValue_hexDigit _ (by omega), Nat.div_add_mod,
      Char.ofNat_toNat]
  · exact unescape_plain hquote hback rest

/-- The inside of a string and its closing quote. -/
def escaped : List Char → List Char
  | [] => ['"']
  | c :: rest => escape c ++ escaped rest

theorem escaped_inj {a b s t : List Char} (h : escaped a ++ s = escaped b ++ t) :
    a = b ∧ s = t := by
  induction a generalizing b with
  | nil =>
    cases b with
    | nil => exact ⟨rfl, by simpa [escaped] using h⟩
    | cons d b =>
      have hd := unescape_escape d (escaped b ++ t)
      rw [← List.append_assoc, ← escaped, ← h] at hd
      exact absurd hd (by simp [escaped, unescape])
  | cons c a ih =>
    have hc := unescape_escape c (escaped a ++ s)
    rw [← List.append_assoc, ← escaped, h] at hc
    cases b with
    | nil => exact absurd hc (by simp [escaped, unescape])
    | cons d b =>
      have hd := unescape_escape d (escaped b ++ t)
      rw [← List.append_assoc, ← escaped, hc] at hd
      obtain ⟨rfl, hrest⟩ := Prod.mk.inj (Option.some.inj hd)
      obtain ⟨rfl, hst⟩ := ih hrest
      exact ⟨rfl, hst⟩

/-- A string in quotes. -/
def quoted (s : String) : List Char := '"' :: escaped s.toList

theorem quoted_inj {a b : String} {s t : List Char} (h : quoted a ++ s = quoted b ++ t) :
    a = b ∧ s = t := by
  obtain ⟨hab, hst⟩ := escaped_inj (List.cons.inj h).2
  exact ⟨String.toList_injective hab, hst⟩

/-! ## The printer -/

mutual

/-- The text of a value, without blanks. -/
def Json.text : Json → List Char
  | .null => ['n', 'u', 'l', 'l']
  | .bool true => ['t', 'r', 'u', 'e']
  | .bool false => ['f', 'a', 'l', 's', 'e']
  | .number n => n.text.toList
  | .string s => quoted s
  | .array items => '[' :: itemsText true items
  | .object fields => '{' :: fieldsText true fields

/-- The items of an array that are still to come, after a comma unless the next is the first, and
the closing bracket. -/
def itemsText (first : Bool) : List Json → List Char
  | [] => [']']
  | v :: rest => (if first then [] else [',']) ++ (v.text ++ itemsText false rest)

def fieldsText (first : Bool) : List (String × Json) → List Char
  | [] => ['}']
  | (key, v) :: rest =>
    (if first then [] else [',']) ++ (quoted key ++ (':' :: (v.text ++ fieldsText false rest)))

end

/-- Text that can follow a value: it does not go on with a number. -/
def Stops (s : List Char) : Prop := ∀ c ∈ s.head?, isNumeralChar c = false

theorem stops_nil : Stops [] := by simp [Stops]

theorem stops_cons {c : Char} {s : List Char} (h : isNumeralChar c = false) : Stops (c :: s) := by
  simpa [Stops] using h

theorem numeral_inj {a b s t : List Char} (ha : a.all isNumeralChar) (hb : b.all isNumeralChar)
    (hs : Stops s) (ht : Stops t) (h : a ++ s = b ++ t) : a = b ∧ s = t := by
  induction a generalizing b with
  | nil =>
    cases b with
    | nil => exact ⟨rfl, h⟩
    | cons d b =>
      have hd : isNumeralChar d = false := hs d (by rw [show s = d :: (b ++ t) from h]; rfl)
      simp [hd] at hb
  | cons c a ih =>
    cases b with
    | nil =>
      have hc : isNumeralChar c = false := ht c (by rw [show t = c :: (a ++ s) from h.symm]; rfl)
      simp [hc] at ha
    | cons d b =>
      obtain ⟨rfl, hrest⟩ := List.cons.inj h
      simp only [List.all_cons, Bool.and_eq_true] at ha hb
      obtain ⟨rfl, hst⟩ := ih ha.2 hb.2 hrest
      exact ⟨rfl, hst⟩

/-- Which form a value has, as its first character shows it. -/
def Json.form : Json → ℕ
  | .null => 0
  | .bool true => 1
  | .bool false => 2
  | .number _ => 3
  | .string _ => 4
  | .array _ => 5
  | .object _ => 6

def formOf (c : Char) : ℕ :=
  if c = 'n' then 0 else if c = 't' then 1 else if c = 'f' then 2 else if c = '"' then 4
  else if c = '[' then 5 else if c = '{' then 6 else if isNumeralChar c then 3 else 7

theorem formOf_numeral {c : Char} (h : isNumeralChar c = true) : formOf c = 3 := by
  unfold formOf
  split_ifs with h0 h1 h2 h4 h5 h6
  · rw [h0] at h; exact absurd h (by decide)
  · rw [h1] at h; exact absurd h (by decide)
  · rw [h2] at h; exact absurd h (by decide)
  · rw [h4] at h; exact absurd h (by decide)
  · rw [h5] at h; exact absurd h (by decide)
  · rw [h6] at h; exact absurd h (by decide)
  · rfl

/-- A value's text begins with a character that shows its form. -/
theorem Json.text_head (v : Json) : ∃ c s, v.text = c :: s ∧ formOf c = v.form := by
  cases v with
  | null => exact ⟨'n', _, rfl, by decide⟩
  | bool b => cases b <;> exact ⟨_, _, rfl, by decide⟩
  | number n =>
    obtain ⟨c, s, hs⟩ := List.exists_cons_of_ne_nil n.nonempty
    have hc := n.chars
    rw [hs, List.all_cons, Bool.and_eq_true] at hc
    exact ⟨c, s, by simpa [Json.text] using hs, formOf_numeral hc.1⟩
  | string s => exact ⟨'"', _, rfl, rfl⟩
  | array items => exact ⟨'[', _, rfl, rfl⟩
  | object fields => exact ⟨'{', _, rfl, rfl⟩

/-- Values with the same text, as far as it goes, have the same form. -/
theorem Json.form_eq {v w : Json} {s t : List Char} (h : v.text ++ s = w.text ++ t) :
    v.form = w.form := by
  obtain ⟨c, a, hv, hc⟩ := v.text_head
  obtain ⟨d, b, hw, hd⟩ := w.text_head
  rw [hv, hw] at h
  rw [← hc, ← hd, (List.cons.inj h).1]

theorem stops_items (items : List Json) (s : List Char) : Stops (itemsText false items ++ s) := by
  cases items with
  | nil => exact stops_cons (by decide)
  | cons v rest => exact stops_cons (by decide)

theorem stops_fields (fields : List (String × Json)) (s : List Char) :
    Stops (fieldsText false fields ++ s) := by
  cases fields with
  | nil => exact stops_cons (by decide)
  | cons field rest => exact stops_cons (by decide)

/-- An array's items do not look like its closing bracket. -/
theorem items_ne_close {first : Bool} {v : Json} {rest : List Json} {s t : List Char} :
    itemsText first (v :: rest) ++ s ≠ ']' :: t := by
  intro h
  obtain ⟨c, a, hv, hc⟩ := v.text_head
  cases first with
  | true =>
    rw [itemsText, hv] at h
    rw [show c = ']' from (List.cons.inj h).1] at hc
    cases v with
    | bool b => cases b <;> exact absurd hc (by decide)
    | _ => exact absurd hc (by simp [formOf, isNumeralChar, Json.form])
  | false => exact absurd (List.cons.inj h).1 (by decide)

theorem fields_ne_close {first : Bool} {key : String} {v : Json} {rest : List (String × Json)}
    {s t : List Char} : fieldsText first ((key, v) :: rest) ++ s ≠ '}' :: t := by
  intro h
  cases first with
  | true => exact absurd (List.cons.inj h).1 (by decide)
  | false => exact absurd (List.cons.inj h).1 (by decide)

mutual

/-- **The printer is self-delimiting**: a value can be read off its text, whatever follows. -/
theorem Json.text_inj : ∀ {v w : Json} {s t : List Char}, Stops s → Stops t →
    v.text ++ s = w.text ++ t → v = w ∧ s = t
  | .null, w, s, t, hs, ht, h => by
    have hform := Json.form_eq h
    cases w with
    | null => exact ⟨rfl, by simpa [Json.text] using h⟩
    | bool b => cases b <;> cases hform
    | _ => cases hform
  | .bool b, w, s, t, hs, ht, h => by
    have hform := Json.form_eq h
    cases w with
    | bool b' =>
      cases b <;> cases b'
      · exact ⟨rfl, by simpa [Json.text] using h⟩
      · cases hform
      · cases hform
      · exact ⟨rfl, by simpa [Json.text] using h⟩
    | _ => cases b <;> cases hform
  | .number n, w, s, t, hs, ht, h => by
    have hform := Json.form_eq h
    cases w with
    | number m =>
      obtain ⟨hnm, hst⟩ := numeral_inj n.chars m.chars hs ht h
      exact ⟨congrArg _ (Numeral.ext (String.toList_injective hnm)), hst⟩
    | bool b => cases b <;> cases hform
    | _ => cases hform
  | .string a, w, s, t, hs, ht, h => by
    have hform := Json.form_eq h
    cases w with
    | string b =>
      obtain ⟨rfl, hst⟩ := quoted_inj h
      exact ⟨rfl, hst⟩
    | bool b => cases b <;> cases hform
    | _ => cases hform
  | .array xs, w, s, t, hs, ht, h => by
    have hform := Json.form_eq h
    cases w with
    | array ys =>
      obtain ⟨rfl, hst⟩ := itemsText_inj (List.cons.inj h).2
      exact ⟨rfl, hst⟩
    | bool b => cases b <;> cases hform
    | _ => cases hform
  | .object xs, w, s, t, hs, ht, h => by
    have hform := Json.form_eq h
    cases w with
    | object ys =>
      obtain ⟨rfl, hst⟩ := fieldsText_inj (List.cons.inj h).2
      exact ⟨rfl, hst⟩
    | bool b => cases b <;> cases hform
    | _ => cases hform

theorem itemsText_inj : ∀ {first : Bool} {xs ys : List Json} {s t : List Char},
    itemsText first xs ++ s = itemsText first ys ++ t → xs = ys ∧ s = t
  | first, [], ys, s, t, h => by
    cases ys with
    | nil => exact ⟨rfl, (List.cons.inj h).2⟩
    | cons w ys => exact absurd h.symm items_ne_close
  | first, v :: xs, ys, s, t, h => by
    cases ys with
    | nil => exact absurd h items_ne_close
    | cons w ys =>
      simp only [itemsText, List.append_assoc, List.append_cancel_left_eq] at h
      obtain ⟨rfl, hrest⟩ := Json.text_inj (stops_items xs s) (stops_items ys t) h
      obtain ⟨rfl, hst⟩ := itemsText_inj hrest
      exact ⟨rfl, hst⟩

theorem fieldsText_inj : ∀ {first : Bool} {xs ys : List (String × Json)} {s t : List Char},
    fieldsText first xs ++ s = fieldsText first ys ++ t → xs = ys ∧ s = t
  | first, [], ys, s, t, h => by
    cases ys with
    | nil => exact ⟨rfl, (List.cons.inj h).2⟩
    | cons field ys => exact absurd h.symm fields_ne_close
  | first, (key, v) :: xs, ys, s, t, h => by
    cases ys with
    | nil => exact absurd h fields_ne_close
    | cons field ys =>
      simp only [fieldsText, List.append_assoc, List.append_cancel_left_eq] at h
      obtain ⟨hkey, hvalue⟩ := quoted_inj h
      obtain ⟨hv, hrest⟩ := Json.text_inj (stops_fields xs s) (stops_fields ys t)
        (by simpa using (List.cons.inj hvalue).2)
      obtain ⟨rfl, hst⟩ := fieldsText_inj hrest
      exact ⟨by rw [hkey, hv], hst⟩

end

theorem Json.text_injective {v w : Json} (h : v.text = w.text) : v = w :=
  (Json.text_inj stops_nil stops_nil (congrArg (· ++ []) h)).1

instance : DecidableEq Json := fun v w =>
  decidable_of_iff (v.text = w.text) ⟨Json.text_injective, congrArg Json.text⟩

/-! ## Fields -/

/-- The value under `key`, when the value is an object that has it. -/
def Json.get (v : Json) (key : String) : Option Json :=
  match v with
  | .object fields => (fields.find? (·.1 = key)).map (·.2)
  | _ => none

/-- The text of a field that may be absent, which then has none. -/
def optionText (v : Option Json) : List Char := v.elim [] Json.text

/-- Texts joined with a separator. -/
def joined (separator : Char) : List (List Char) → List Char
  | [] => []
  | [a] => a
  | a :: rest => a ++ separator :: joined separator rest

/-- A field's text followed by the end or by a separator that no value begins with. -/
theorem optionText_inj {separator : Char} (hform : formOf separator = 7) {v w : Option Json}
    {s t : List Char} (hs : ∀ c ∈ s.head?, c = separator) (ht : ∀ c ∈ t.head?, c = separator)
    (h : optionText v ++ s = optionText w ++ t) : v = w ∧ s = t := by
  have hstop : ∀ {u : List Char}, (∀ c ∈ u.head?, c = separator) → Stops u := by
    intro u hu c hc
    rw [hu c hc]
    cases hnum : isNumeralChar separator with
    | false => rfl
    | true => exact absurd (formOf_numeral hnum) (by rw [hform]; decide)
  have hne : ∀ (x : Json) {a u : List Char}, (∀ c ∈ u.head?, c = separator) →
      x.text ++ a ≠ u := by
    intro x a u hu hau
    obtain ⟨c, b, hx, hc⟩ := x.text_head
    rw [hx] at hau
    rw [hu c (by rw [← hau]; rfl), hform] at hc
    cases x with
    | bool b => cases b <;> exact absurd hc (by decide)
    | _ => cases hc
  cases v with
  | none =>
    cases w with
    | none => exact ⟨rfl, h⟩
    | some w => exact absurd h.symm (hne w hs)
  | some v =>
    cases w with
    | none => exact absurd h (hne v ht)
    | some w =>
      obtain ⟨rfl, hst⟩ := Json.text_inj (hstop hs) (hstop ht) h
      exact ⟨rfl, hst⟩

/-- **Joined fields can be told apart**: as many fields, joined with a separator that begins no
value, have the same text exactly when they are the same. -/
theorem joined_inj {separator : Char} (hform : formOf separator = 7) {vs ws : List (Option Json)}
    (hlength : vs.length = ws.length)
    (h : joined separator (vs.map optionText) = joined separator (ws.map optionText)) :
    vs = ws := by
  induction vs generalizing ws with
  | nil => exact (List.length_eq_zero_iff.mp hlength.symm).symm
  | cons v vs ih =>
    obtain ⟨w, ws, rfl⟩ := List.exists_cons_of_length_eq_add_one hlength.symm
    have hlength' : vs.length = ws.length := Nat.succ.inj hlength
    cases vs with
    | nil =>
      obtain rfl := List.length_eq_zero_iff.mp hlength'.symm
      obtain ⟨rfl, -⟩ := optionText_inj hform (s := []) (t := []) (by simp) (by simp)
        (congrArg (· ++ []) h)
      rfl
    | cons v' vs =>
      obtain ⟨w', ws, rfl⟩ := List.exists_cons_of_length_eq_add_one hlength'.symm
      change optionText v ++ separator :: joined separator ((v' :: vs).map optionText) =
        optionText w ++ separator :: joined separator ((w' :: ws).map optionText) at h
      obtain ⟨rfl, hrest⟩ := optionText_inj hform (by simp) (by simp) h
      rw [ih hlength' (List.cons.inj hrest).2]

end CryptoNav.Lib
