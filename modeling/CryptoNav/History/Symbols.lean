import Mathlib.Data.List.DropRight
import CryptoNav.History.Dedup
import CryptoNav.Lib.Text

/-!
# One symbol per instrument

A derivative's name comes in its fills, its funding rows and its liquidations, and each is stored
under a symbol made of the name. Fills of OKX lose their `-SWAP` first, funding rows do not; Gate's
funding rows may have the name in a text only, where it is found by its last characters.

Names are lists of characters. Capitals are a parameter, since the source asks Unicode for them;
all that is used is that no character becomes nothing and that a letter of ASCII has one
capital. Positions in a text are bytes, as in the source (`Lib.Text`), and a name that is not of
ASCII can be cut in the middle of a character. Which rows come back for a symbol, and the tables
that are read by it later, are left out.
-/

set_option autoImplicit false

namespace CryptoNav.History.Raw

open CryptoNav.Lib

variable (toUppercase : Char → List Char)

/-! ## The name of an instrument -/

def instrumentField : Client → String
  | .gate => "contract"
  | .okx => "instId"
  | _ => "symbol"

def instrument (client : Client) (raw : Json) : Option String :=
  optionalText raw [instrumentField client]

/-- Liquidations are fetched from two exchanges. -/
def normalizeLiquidation (multipliers : String → Option Float) :
    Client → Json → Result LiquidationRow
  | .binance, raw => normalizeBinanceLiquidation toUppercase raw
  | .gate, raw => normalizeGateLiquidation toUppercase multipliers raw
  | _, _ => .error "liquidation history is currently only supported for Binance and Gate"

/-- `_USDT` -/
def quoteSuffix : List Char := ['_', 'U', 'S', 'D', 'T']

/-- `-SWAP` -/
def swapSuffix : List Char := ['-', 'S', 'W', 'A', 'P']

def isNamePart (c : Char) : Bool := c.isAlphanum || c = '_'

/-- A character that stands between words: ASCII, and in no name. -/
def isBoundary (c : Char) : Bool := c.toNat < 128 && !isNamePart c

/-- The text has the name as one of its words, and nothing else in it looks like a contract. Words
    end at characters of ASCII that no name has; where the first look-alike stands decides what is
    found. -/
def Mentions (text name : String) : Prop :=
  ∃ before after : List Char, text.toList = before ++ (name.toList ++ after) ∧
    (∀ c ∈ before.getLast?, isBoundary c) ∧ (∀ c ∈ after.head?, isBoundary c) ∧
    ¬quoteSuffix <:+: before ∧ ¬quoteSuffix <:+: after

/-- A funding row of an instrument: its field has the name or, where Gate leaves the field out, its
    text. -/
def FundingOf (client : Client) (name : String) (raw : Json) : Prop :=
  instrument client raw = some name ∨ (client = .gate ∧ instrument client raw = none ∧
    ∃ text, optionalText raw ["text"] = some text ∧ Mentions text name)

/-- But for dashes and underscores around it the name is of ASCII letters, digits and underscores
    and ends in `_USDT`. -/
def Readable (name : String) : Prop :=
  ∃ before contract after : List Char, name.toList = before ++ (contract ++ after) ∧
    (∀ c ∈ contract, isNamePart c) ∧ quoteSuffix <:+ contract ∧
    (∀ c ∈ before ++ after, c = '-' ∨ c = '_') ∧
    (∀ c ∈ before.getLast?, c = '-') ∧ (∀ c ∈ after.head?, c = '-')

/-- A funding row is stored under the symbol of the fills. It is put in terms of the name and the
    row, not of the symbols that are made of them. -/
def BookedWithFills (client : Client) (name : String) (raw : Json) : Prop :=
  match client with
  | .okx => ¬swapSuffix <:+ name.toList
  | .gate => (instrument client raw).isSome ∨ Readable name
  | _ => True

/-! ## Trimming -/

theorem toList_trim (text : String) :
    (trim text).toList = (text.toList.dropWhile isWhitespace).rdropWhile isWhitespace := by
  unfold trim
  rw [String.toList_ofList]
  rfl

theorem trim_trim (text : String) : trim (trim text) = trim text := by
  rw [← String.toList_inj, toList_trim (trim text), toList_trim text]
  set middle := text.toList.dropWhile isWhitespace with hmiddle
  have hleft : (middle.rdropWhile isWhitespace).dropWhile isWhitespace =
      middle.rdropWhile isWhitespace := by
    rw [List.dropWhile_eq_self_iff]
    intro hpos
    have hpre := List.rdropWhile_prefix isWhitespace (l := middle)
    have hlength : 0 < middle.length := hpos.trans_le hpre.length_le
    rw [hpre.getElem hpos]
    exact List.dropWhile_get_zero_not isWhitespace text.toList hlength
  rw [hleft, List.rdropWhile_idempotent]

theorem trim_unspaced {text : String} (h : ∀ c ∈ text.toList, isWhitespace c = false) :
    trim text = text := by
  rw [← String.toList_inj, toList_trim]
  have hleft : text.toList.dropWhile isWhitespace = text.toList := by
    rw [List.dropWhile_eq_self_iff]
    intro hpos
    simpa using h _ (List.getElem_mem hpos)
  rw [hleft, List.rdropWhile_eq_self_iff]
  intro hne
  simpa using h _ (List.getLast_mem hne)

theorem not_isWhitespace {c : Char} (hlo : 32 < c.toNat) (hhi : c.toNat < 127) :
    isWhitespace c = false := by
  simp only [isWhitespace, List.contains_eq_mem, List.mem_cons, List.not_mem_nil, or_false]
  simp
  omega

theorem isAlphanum_iff {c : Char} : c.isAlphanum ↔
    (65 ≤ c.toNat ∧ c.toNat ≤ 90 ∨ 97 ≤ c.toNat ∧ c.toNat ≤ 122) ∨
      48 ≤ c.toNat ∧ c.toNat ≤ 57 := by
  have hupper : c.isUpper ↔ 65 ≤ c.toNat ∧ c.toNat ≤ 90 := decide_eq_true_iff
  have hrange : ∀ lo hi : UInt32, (decide (lo ≤ c.val) && decide (c.val ≤ hi)) ↔
      lo.toNat ≤ c.toNat ∧ c.toNat ≤ hi.toNat := fun lo hi => by
    rw [Bool.and_eq_true, decide_eq_true_iff, decide_eq_true_iff]
    exact Iff.rfl
  have hlower : c.isLower ↔ 97 ≤ c.toNat ∧ c.toNat ≤ 122 := hrange 97 122
  have hdigit : c.isDigit ↔ 48 ≤ c.toNat ∧ c.toNat ≤ 57 := hrange 48 57
  change ((c.isUpper || c.isLower) || c.isDigit) = true ↔ _
  rw [Bool.or_eq_true, Bool.or_eq_true, hupper, hlower, hdigit]

theorem toNat_of_isAlphanum {c : Char} (h : c.isAlphanum) : 32 < c.toNat ∧ c.toNat < 127 := by
  rw [isAlphanum_iff] at h
  omega

theorem not_isWhitespace_of_isNamePart {c : Char} (h : isNamePart c) : isWhitespace c = false := by
  unfold isNamePart at h
  rw [Bool.or_eq_true, decide_eq_true_eq] at h
  rcases h with h | rfl
  · obtain ⟨hlo, hhi⟩ := toNat_of_isAlphanum h
    exact not_isWhitespace hlo hhi
  · rfl

theorem trim_numeral (number : Numeral) : trim number.text = number.text := by
  refine trim_unspaced fun c hc => ?_
  have hnumeral := List.all_eq_true.mp number.chars c hc
  unfold isNumeralChar at hnumeral
  rw [Bool.or_eq_true] at hnumeral
  rcases hnumeral with h | h
  · have halphanum : c.isAlphanum := by simp [Char.isAlphanum, h]
    obtain ⟨hlo, hhi⟩ := toNat_of_isAlphanum halphanum
    exact not_isWhitespace hlo hhi
  · rw [List.contains_iff_mem] at h
    simp only [List.mem_cons, List.not_mem_nil, or_false] at h
    rcases h with rfl | rfl | rfl | rfl | rfl <;> rfl

/-- What is read from a field is trimmed. -/
theorem trim_of_optionalText {value : Json} {fields : List String} {text : String}
    (h : optionalText value fields = some text) : trim text = text := by
  unfold optionalText at h
  obtain ⟨field, -, h⟩ := List.exists_of_findSome?_eq_some h
  split at h
  · split at h
    · cases h
    · cases h
      exact trim_trim _
  · cases h
    exact trim_numeral _
  · cases h

/-! ## What a symbol keeps of a name -/

section
variable {toUppercase : Char → List Char}

/-- The characters of the symbol of a trimmed name. -/
def symbolChars (toUppercase : Char → List Char) (name : List Char) : List Char :=
  (name.filter fun c => c ≠ '-' && c ≠ '_').flatMap toUppercase

theorem normalizeSymbol_eq (name : String) :
    normalizeSymbol toUppercase name = .ofList (symbolChars toUppercase (trim name).toList) := rfl

theorem symbolChars_append (l l' : List Char) :
    symbolChars toUppercase (l ++ l') = symbolChars toUppercase l ++ symbolChars toUppercase l' := by
  unfold symbolChars
  rw [List.filter_append, List.flatMap_append]

theorem symbolChars_eq_nil (hupper : ∀ c, toUppercase c ≠ []) {l : List Char} :
    symbolChars toUppercase l = [] ↔ ∀ c ∈ l, c = '-' ∨ c = '_' := by
  unfold symbolChars
  rw [List.flatMap_eq_nil_iff]
  simp only [hupper, imp_false, List.mem_filter, Bool.and_eq_true, decide_eq_true_eq, not_and,
    ne_eq]
  exact forall₂_congr fun c _ => by tauto

theorem symbolChars_length_le {l l' : List Char} (h : l <+: l') :
    (symbolChars toUppercase l).length ≤ (symbolChars toUppercase l').length := by
  obtain ⟨rest, rfl⟩ := h
  rw [symbolChars_append, List.length_append]
  exact Nat.le_add_right _ _

end

/-! ## Fills of OKX -/

theorem dropWhile_mono {α : Type} (p : α → Bool) {l l' : List α} (h : l <+: l') :
    l.dropWhile p <+: l'.dropWhile p := by
  obtain ⟨rest, rfl⟩ := h
  rw [List.dropWhile_append]
  cases l.dropWhile p with
  | nil => exact List.nil_prefix
  | cons a l => exact List.prefix_append _ _

theorem trimSwap_go_le (n : ℕ) (l : List Char) : trimSwap.go n l <+: l := by
  induction n generalizing l with
  | zero => exact List.prefix_rfl
  | succ n ih =>
    unfold trimSwap.go
    split
    · exact (ih _).trans (List.take_prefix _ _)
    · exact List.prefix_rfl

/-- A name that does not end in `-SWAP` is kept, another one loses it. -/
theorem trimSwap_cases (name : List Char) :
    (¬swapSuffix <:+ name ∧ trimSwap name = name) ∨
      ∃ rest, name = rest ++ swapSuffix ∧ trimSwap name <+: rest := by
  by_cases h : swapSuffix <:+ name
  · right
    obtain ⟨rest, rfl⟩ := h
    refine ⟨rest, rfl, ?_⟩
    unfold trimSwap
    obtain ⟨n, hn⟩ : ∃ n, (rest ++ swapSuffix).length = n + 1 := ⟨rest.length + 4, by
      simp [swapSuffix]⟩
    have hsuffix : ['-', 'S', 'W', 'A', 'P'].isSuffixOf (rest ++ swapSuffix) = true :=
      List.isSuffixOf_iff_suffix.mpr (List.suffix_append rest swapSuffix)
    rw [hn, trimSwap.go, if_pos hsuffix]
    refine (trimSwap_go_le _ _).trans ?_
    rw [List.take_append_of_le_length (by simp [swapSuffix])]
    exact List.take_prefix _ _
  · left
    refine ⟨h, ?_⟩
    unfold trimSwap
    cases hn : name.length with
    | zero => rfl
    | succ n =>
      unfold trimSwap.go
      rw [if_neg (by simpa [swapSuffix] using h)]

/-- Losing `-SWAP` changes the symbol of a name. -/
theorem okxSymbol_eq_iff (hupper : ∀ c, toUppercase c ≠ []) (name : String) :
    normalizeSymbol toUppercase name = okxSymbol toUppercase .derivative name ↔
      ¬swapSuffix <:+ name.toList := by
  unfold okxSymbol
  rw [if_pos rfl]
  rcases trimSwap_cases name.toList with ⟨hno, hkept⟩ | ⟨rest, hname, hpre⟩
  · rw [hkept, String.ofList_toList]
    exact iff_of_true rfl hno
  · refine iff_of_false (fun heq => ?_) (by rw [hname, not_not]; exact List.suffix_append _ _)
    rw [normalizeSymbol_eq, normalizeSymbol_eq, String.ofList_inj, toList_trim, toList_trim,
      String.toList_ofList, hname] at heq
    have hswap : (rest ++ swapSuffix).dropWhile isWhitespace =
        rest.dropWhile isWhitespace ++ swapSuffix := by
      rw [List.dropWhile_append]
      cases rest.dropWhile isWhitespace with
      | nil => rfl
      | cons c l => rfl
    have hlast : (rest.dropWhile isWhitespace ++ swapSuffix).rdropWhile isWhitespace =
        rest.dropWhile isWhitespace ++ swapSuffix := by
      rw [List.rdropWhile_eq_self_iff]
      intro hne
      rw [List.getLast_append_of_ne_nil hne (List.cons_ne_nil _ _)]
      decide
    have hle : (symbolChars toUppercase
        (((trimSwap name.toList).dropWhile isWhitespace).rdropWhile isWhitespace)).length ≤
        (symbolChars toUppercase (rest.dropWhile isWhitespace)).length :=
      symbolChars_length_le (( List.rdropWhile_prefix _ _).trans (dropWhile_mono _ hpre))
    have hpos : 0 < (symbolChars toUppercase swapSuffix).length := by
      rw [List.length_pos_iff, ne_eq, symbolChars_eq_nil hupper]
      exact fun hall => absurd (hall 'S' (by decide)) (by decide)
    rw [hswap, hlast, symbolChars_append, ← hname] at heq
    have hlength := congrArg List.length heq
    rw [List.length_append] at hlength
    omega

/-! ## Fills of Gate -/

theorem isWhitespace_toUpper (c : Char) : isWhitespace c.toUpper = isWhitespace c := by
  rcases toUpper_cases c with h | ⟨⟨hlo, hhi⟩, hlo', hhi'⟩
  · rw [h]
  · rw [not_isWhitespace (by omega) (by omega), not_isWhitespace (by omega) (by omega)]

theorem toUpper_eq_iff {c d : Char} (hd : d.isAlphanum = false) : c.toUpper = d ↔ c = d := by
  rcases toUpper_cases c with h | ⟨hlower, hupper⟩
  · rw [h]
  · have hnot : ¬d.isAlphanum := by rw [hd]; exact Bool.false_ne_true
    rw [isAlphanum_iff] at hnot
    refine iff_of_false ?_ ?_
    · rintro rfl
      omega
    · rintro rfl
      omega

/-- The symbol of a name is that of its upper case. -/
theorem normalizeSymbol_uppercase (hascii : ∀ c, toUppercase c.toUpper = toUppercase c)
    (name : String) :
    normalizeSymbol toUppercase (uppercase name) = normalizeSymbol toUppercase name := by
  have hspace : isWhitespace ∘ Char.toUpper = isWhitespace := funext isWhitespace_toUpper
  have hkeep : (fun c => c ≠ '-' && c ≠ '_') ∘ Char.toUpper = fun c => decide (c ≠ '-') && c ≠ '_' := by
    funext c
    simp only [Function.comp_apply, ne_eq, toUpper_eq_iff (show Char.isAlphanum '-' = false by decide),
      toUpper_eq_iff (show Char.isAlphanum '_' = false by decide)]
  rw [normalizeSymbol_eq, normalizeSymbol_eq, toList_trim, toList_trim]
  unfold uppercase List.rdropWhile symbolChars
  rw [String.toList_ofList, List.dropWhile_map, hspace, ← List.map_reverse, List.dropWhile_map,
    hspace, ← List.map_reverse, List.filter_map, hkeep, List.flatMap_map]
  congr 2
  funext c
  exact hascii c

/-! ## Contracts in a text -/

theorem mem_splitOnP {α : Type} {p : α → Bool} {l part : List α} (h : part ∈ l.splitOnP p) :
    ∃ before after, l = before ++ (part ++ after) ∧ (∀ a ∈ part, p a = false) ∧
      (∀ a ∈ before.getLast?, p a) ∧ (∀ a ∈ after.head?, p a) := by
  induction hn : l.length using Nat.strong_induction_on generalizing l with
  | _ n ih =>
    have hparts := List.takeWhile_append_dropWhile (p := fun a => !p a) (l := l)
    have hfirst : ∀ a ∈ l.takeWhile fun a => !p a, p a = false := fun a ha => by
      simpa using List.mem_takeWhile_imp ha
    cases hrest : l.dropWhile fun a => !p a with
    | nil =>
      rw [hrest, List.append_nil] at hparts
      rw [hparts] at hfirst
      rw [List.splitOnP_eq_singleton hfirst, List.mem_singleton] at h
      subst h
      exact ⟨[], [], by simp, hfirst, by simp, by simp⟩
    | cons sep rest =>
      have hsep : p sep = true := by
        have hnot := List.head?_dropWhile_not (fun a => !p a) l
        rw [hrest] at hnot
        simpa using hnot
      rw [hrest] at hparts
      rw [← hparts, List.splitOnP_append_cons_of_forall_mem hfirst sep hsep, List.mem_cons] at h
      rcases h with rfl | h
      · exact ⟨[], sep :: rest, hparts.symm, hfirst, by simp, by simp [hsep]⟩
      · have hlength : rest.length < n := by
          rw [← hn, ← hparts, List.length_append, List.length_cons]
          omega
        obtain ⟨before, after, hsplit, hpart, hbefore, hafter⟩ := ih rest.length hlength h rfl
        refine ⟨l.takeWhile (fun a => !p a) ++ (sep :: before), after, ?_, hpart, ?_, hafter⟩
        · conv => lhs; rw [← hparts, hsplit]
          simp
        · intro a ha
          rw [List.getLast?_append, List.getLast?_cons] at ha
          cases hlast : before.getLast? with
          | none =>
            rw [hlast] at ha
            obtain rfl : sep = a := by simpa using ha
            exact hsep
          | some b =>
            rw [hlast] at ha
            obtain rfl : b = a := by simpa using ha
            exact hbefore b hlast

/-- The first part of a text that ends in `_USDT`. -/
def contractIn (text : List Char) : Option (List Char) :=
  (text.splitOnP fun c => !isNamePart c).find? (quoteSuffix.isSuffixOf ·)

theorem contractFromText_some (text : String) :
    contractFromText (some text) = (contractIn text.toList).map .ofList := by
  have hsep : (fun c : Char => !c.isAlphanum && decide (c ≠ '_')) = fun c => !isNamePart c := by
    funext c
    simp [isNamePart]
  change ((text.toList.splitOnP fun c => !c.isAlphanum && decide (c ≠ '_')).find? _).map _ = _
  rw [hsep]
  rfl

theorem contractIn_append_cons {l l' : List Char} {c : Char} (hc : isNamePart c = false) :
    contractIn (l ++ c :: l') = (contractIn l).or (contractIn l') := by
  unfold contractIn
  rw [List.splitOnP_append_cons _ _ (by simpa using hc), List.find?_append]

theorem contractIn_eq_none {l : List Char} (h : ¬quoteSuffix <:+: l) : contractIn l = none := by
  unfold contractIn
  rw [List.find?_eq_none]
  intro part hpart hsuffix
  obtain ⟨before, after, rfl, -⟩ := mem_splitOnP hpart
  exact h ((List.isSuffixOf_iff_suffix.mp hsuffix).isInfix.trans (List.infix_append' ..))

/-- What stands around a name between boundaries, and looks like no contract, is not found. -/
theorem contractIn_around {before name after : List Char}
    (hbefore : ∀ c ∈ before.getLast?, isNamePart c = false)
    (hafter : ∀ c ∈ after.head?, isNamePart c = false)
    (hno : ¬quoteSuffix <:+: before) (hno' : ¬quoteSuffix <:+: after) :
    contractIn (before ++ (name ++ after)) = contractIn name := by
  have hname : contractIn (name ++ after) = contractIn name := by
    cases after with
    | nil => rw [List.append_nil]
    | cons c rest =>
      rw [contractIn_append_cons (hafter c rfl), contractIn_eq_none fun h =>
        hno' (h.trans (List.suffix_cons c rest).isInfix), Option.or_none]
  rcases List.eq_nil_or_concat before with rfl | ⟨rest, c, rfl⟩
  · exact hname
  · rw [List.concat_eq_append, List.append_assoc, List.singleton_append,
      contractIn_append_cons (hbefore c (by simp)), hname,
      contractIn_eq_none fun h => hno (h.trans (List.prefix_concat c rest).isInfix),
      Option.none_or]

theorem Mentions.contractIn_eq {text name : String} (h : Mentions text name) :
    contractIn text.toList = contractIn name.toList := by
  obtain ⟨before, after, htext, hbefore, hafter, hno, hno'⟩ := h
  have hpart : ∀ c, isBoundary c → isNamePart c = false := by
    intro c hc
    unfold isBoundary at hc
    simpa using (Bool.and_eq_true_iff.mp hc).2
  rw [htext, contractIn_around (fun c hc => hpart c (hbefore c hc))
    (fun c hc => hpart c (hafter c hc)) hno hno']

/-- Dashes and underscores contain no `_USDT`. -/
theorem no_quoteSuffix_of_dashes {l : List Char} (h : ∀ c ∈ l, c = '-' ∨ c = '_') :
    ¬quoteSuffix <:+: l := by
  intro hinfix
  have hmem : 'U' ∈ l := hinfix.subset (by decide)
  rcases h _ hmem with h | h <;> exact absurd h (by decide)

/-- What is found in a name has the symbol of the name exactly when the name is readable. -/
theorem symbolChars_contractIn_iff {toUppercase : Char → List Char}
    (hupper : ∀ c, toUppercase c ≠ []) {name : String} {contract : List Char}
    (h : contractIn name.toList = some contract) :
    symbolChars toUppercase contract = symbolChars toUppercase name.toList ↔ Readable name := by
  constructor
  · intro heq
    obtain ⟨before, after, hname, hcontract, hbefore, hafter⟩ :=
      mem_splitOnP (List.mem_of_find?_eq_some h)
    have hsuffix : quoteSuffix <:+ contract :=
      List.isSuffixOf_iff_suffix.mp (List.find?_some h)
    rw [hname, symbolChars_append, symbolChars_append] at heq
    have hlength := congrArg List.length heq
    rw [List.length_append, List.length_append] at hlength
    have hnil : symbolChars toUppercase before = [] := List.eq_nil_of_length_eq_zero (by omega)
    have hnil' : symbolChars toUppercase after = [] := List.eq_nil_of_length_eq_zero (by omega)
    rw [symbolChars_eq_nil hupper] at hnil hnil'
    have hdash : ∀ c, (!isNamePart c) = true → c = '-' ∨ c = '_' → c = '-' := by
      rintro c hc (rfl | rfl)
      · rfl
      · cases hc
    refine ⟨before, contract, after, hname, fun c hc => by simpa using hcontract c hc, hsuffix,
      ?_, fun c hc => ?_, fun c hc => ?_⟩
    · intro c hc
      rcases List.mem_append.mp hc with hc | hc
      · exact hnil c hc
      · exact hnil' c hc
    · exact hdash c (hbefore c hc) (hnil c (List.mem_of_getLast? hc))
    · exact hdash c (hafter c hc) (hnil' c (List.mem_of_head? hc))
  · rintro ⟨before, core, after, hname, hcore, hsuffix, haround, hbefore, hafter⟩
    have hfound : contractIn core = some core := by
      unfold contractIn
      rw [List.splitOnP_eq_singleton fun c hc => by simpa using hcore c hc,
        List.find?_cons_of_pos (List.isSuffixOf_iff_suffix.mpr hsuffix)]
    have hdashes : ∀ c ∈ before, c = '-' ∨ c = '_' := fun c hc =>
      haround c (List.mem_append_left _ hc)
    have hdashes' : ∀ c ∈ after, c = '-' ∨ c = '_' := fun c hc =>
      haround c (List.mem_append_right _ hc)
    rw [hname, contractIn_around (fun c hc => by rw [hbefore c hc]; rfl)
      (fun c hc => by rw [hafter c hc]; rfl) (no_quoteSuffix_of_dashes hdashes)
      (no_quoteSuffix_of_dashes hdashes'), hfound] at h
    obtain rfl := Option.some_injective _ h
    rw [hname, symbolChars_append, symbolChars_append, (symbolChars_eq_nil hupper).mpr hdashes,
      (symbolChars_eq_nil hupper).mpr hdashes', List.append_nil, List.nil_append]

/-! ## The three symbols -/

section
variable {toUppercase : Char → List Char} {multipliers : String → Option Float} {client : Client}
  {name : String}

theorem symbol_of_fill (hascii : ∀ c, toUppercase c.toUpper = toUppercase c) {fill : Json}
    {trade : TradeRow} (hname : instrument client fill = some name)
    (h : normalizeTrade toUppercase multipliers client .derivative fill = .ok trade) :
    trade.symbol = if client = .okx then okxSymbol toUppercase .derivative name
      else normalizeSymbol toUppercase name := by
  have hsymbol := (normalizeTrade_ok h).2.2.1
  unfold instrument instrumentField at hname
  cases client with
  | gate =>
    rw [tradeSymbol, hname, Option.map_some, normalizeSymbol_uppercase _ hascii] at hsymbol
    exact (Option.some_injective _ hsymbol).symm
  | okx =>
    rw [tradeSymbol, hname] at hsymbol
    exact (Option.some_injective _ hsymbol).symm
  | _ =>
    rw [tradeSymbol, hname] at hsymbol
    exact (Option.some_injective _ hsymbol).symm

theorem symbol_of_funding {raw : Json} {row : CashRow} (hclient : client ≠ .gate)
    (h : normalizeCash toUppercase client .funding raw = .ok row) :
    row.symbol = (instrument client raw).map (normalizeSymbol toUppercase) := by
  simp only [normalizeCash, bind_eq_ok] at h
  obtain ⟨fields, hfields, _, -, _, -, h⟩ := h
  cases h
  unfold instrument instrumentField
  cases client with
  | binance =>
    simp only [cashFields, bind_eq_ok] at hfields
    obtain ⟨_, -, _, -, _, -, _, -, hfields⟩ := hfields
    cases hfields
    rfl
  | bybit =>
    simp only [cashFields, bind_eq_ok, textField_ok] at hfields
    obtain ⟨_, -, _, hsymbol, _, -, _, -, hfields⟩ := hfields
    cases hfields
    rw [hsymbol]
    rfl
  | gate => exact absurd rfl hclient
  | bitget =>
    simp only [cashFields, bind_eq_ok] at hfields
    obtain ⟨_, -, _, -, _, -, _, -, hfields⟩ := hfields
    cases hfields
    rfl
  | okx =>
    simp only [cashFields, bind_eq_ok] at hfields
    obtain ⟨_, -, _, -, _, -, hfields⟩ := hfields
    cases hfields
    rfl

theorem symbol_of_gate_funding {raw : Json} {row : CashRow}
    (h : normalizeCash toUppercase .gate .funding raw = .ok row) :
    ∃ contract, (instrument .gate raw).or (contractFromText (optionalText raw ["text"])) =
      some contract ∧ row.symbol = some (normalizeSymbol toUppercase contract) := by
  simp only [normalizeCash, bind_eq_ok] at h
  obtain ⟨fields, hfields, _, -, _, -, h⟩ := h
  cases h
  simp only [cashFields, bind_eq_ok] at hfields
  obtain ⟨id, -, contract, hcontract, _, -, _, -, hfields⟩ := hfields
  cases hfields
  refine ⟨contract, ?_, rfl⟩
  unfold gateContract at hcontract
  split at hcontract
  case h_1 found hfound =>
    cases hcontract
    exact hfound
  case h_2 => cases hcontract

theorem symbol_of_liquidation {raw : Json} {row : LiquidationRow}
    (hname : instrument client raw = some name)
    (h : normalizeLiquidation toUppercase multipliers client raw = .ok row) :
    client ≠ .okx ∧ row.symbol = normalizeSymbol toUppercase name := by
  unfold instrument instrumentField at hname
  cases client with
  | binance =>
    simp only [normalizeLiquidation, normalizeBinanceLiquidation, bind_eq_ok, textField_ok] at h
    obtain ⟨_, -, symbol, hsymbol, _, -, _, -, _, -, _, -, _, -, _, -, h⟩ := h
    cases h
    obtain rfl := Option.some_injective _ (hname.symm.trans hsymbol)
    exact ⟨by decide, rfl⟩
  | gate =>
    simp only [normalizeLiquidation, normalizeGateLiquidation, bind_eq_ok, textField_ok] at h
    obtain ⟨contract, hcontract, _, -, _, -, _, -, _, -, h⟩ := h
    cases h
    obtain rfl := Option.some_injective _ (hname.symm.trans hcontract)
    exact ⟨by decide, rfl⟩
  | _ => cases h

/-- A Gate row whose text has the name is stored under its symbol exactly when the name is
    readable. -/
theorem symbol_of_text_iff (hupper : ∀ c, toUppercase c ≠ []) {raw : Json} {row : CashRow}
    (hname : trim name = name) (hnone : instrument .gate raw = none) {text : String}
    (htext : optionalText raw ["text"] = some text) (hmentions : Mentions text name)
    (h : normalizeCash toUppercase .gate .funding raw = .ok row) :
    row.symbol = some (normalizeSymbol toUppercase name) ↔ Readable name := by
  obtain ⟨contract, hcontract, hsymbol⟩ := symbol_of_gate_funding h
  rw [hnone, Option.none_or, htext, contractFromText_some, hmentions.contractIn_eq,
    Option.map_eq_some_iff] at hcontract
  obtain ⟨part, hpart, rfl⟩ := hcontract
  have hunspaced : ∀ c ∈ (String.ofList part).toList, isWhitespace c = false := by
    obtain ⟨-, -, -, hchars, -⟩ := mem_splitOnP (List.mem_of_find?_eq_some hpart)
    intro c hc
    rw [String.toList_ofList] at hc
    exact not_isWhitespace_of_isNamePart (by simpa using hchars c hc)
  rw [hsymbol, Option.some_inj, normalizeSymbol_eq, normalizeSymbol_eq, String.ofList_inj,
    trim_unspaced hunspaced, hname, String.toList_ofList]
  exact symbolChars_contractIn_iff hupper hpart

/-- **The symbol of an instrument's fills is that of its funding and its liquidations** exactly when
    no `-SWAP` is lost and no name is read out of a text that cannot be. -/
theorem one_symbol_iff (hupper : ∀ c, toUppercase c ≠ [])
    (hascii : ∀ c, toUppercase c.toUpper = toUppercase c) {fill cash : Json} {trade : TradeRow}
    {funding : CashRow} (hfill : instrument client fill = some name)
    (htrade : normalizeTrade toUppercase multipliers client .derivative fill = .ok trade)
    (hcash : FundingOf client name cash)
    (hfunding : normalizeCash toUppercase client .funding cash = .ok funding) :
    (funding.symbol = some trade.symbol ∧
      ∀ raw liquidation, instrument client raw = some name →
        normalizeLiquidation toUppercase multipliers client raw = .ok liquidation →
          liquidation.symbol = trade.symbol) ↔
      BookedWithFills client name cash := by
  have hsymbol := symbol_of_fill hascii hfill htrade
  have hliquidations : ∀ raw liquidation, instrument client raw = some name →
      normalizeLiquidation toUppercase multipliers client raw = .ok liquidation →
        liquidation.symbol = trade.symbol := by
    intro raw liquidation hraw hliquidation
    obtain ⟨hclient, heq⟩ := symbol_of_liquidation hraw hliquidation
    rw [heq, hsymbol, if_neg hclient]
  rw [and_iff_left hliquidations, hsymbol]
  rcases hcash with hcash | ⟨rfl, hnone, text, htext, hmentions⟩
  · by_cases hgate : client = .gate
    · subst hgate
      obtain ⟨contract, hcontract, hrow⟩ := symbol_of_gate_funding hfunding
      rw [hcash, Option.some_or, Option.some_inj] at hcontract
      rw [hrow, ← hcontract]
      exact iff_of_true rfl (.inl (by rw [hcash]; rfl))
    · rw [symbol_of_funding hgate hfunding, hcash, Option.map_some, Option.some_inj]
      cases client with
      | gate => exact absurd rfl hgate
      | okx => exact okxSymbol_eq_iff _ hupper name
      | _ => exact iff_of_true rfl trivial
  · rw [if_neg (by decide), symbol_of_text_iff hupper (trim_of_optionalText hfill) hnone htext
      hmentions hfunding]
    unfold BookedWithFills
    rw [hnone]
    exact (or_iff_right (by simp)).symm

end

def gateFundingRow (text : String) : Json :=
  textRow [("id", "31"), ("text", text), ("change", "-0.5"), ("time", "1700000000")]

def gateFillRow (contract : String) : Json :=
  textRow [("contract", contract), ("trade_id", "7"), ("size", "-3"), ("price", "2.5"),
    ("create_time", "1700000000")]

/-- A row of an instrument whose name Gate gives in the text alone. -/
theorem funding_booked_by_text : ∃ trade funding,
    normalizeTrade plain.toUppercase plain.multipliers .gate .derivative (gateFillRow "btc_USDT") =
      .ok trade ∧
    normalizeCash plain.toUppercase .gate .funding (gateFundingRow "btc_USDT:17") = .ok funding ∧
    funding.symbol = some trade.symbol := by
  obtain ⟨trade, htrade, -⟩ : Yields (normalizeTrade plain.toUppercase plain.multipliers .gate
    .derivative (gateFillRow "btc_USDT")) fun _ => True := by decide +kernel
  obtain ⟨funding, hfunding, -⟩ : Yields (normalizeCash plain.toUppercase .gate .funding
    (gateFundingRow "btc_USDT:17")) fun _ => True := by decide +kernel
  have hmentions : Mentions "btc_USDT:17" "btc_USDT" :=
    ⟨[], [':', '1', '7'], by decide, by rintro c ⟨⟩, by rintro c ⟨⟩; decide, by decide, by decide⟩
  have hcash : FundingOf .gate "btc_USDT" (gateFundingRow "btc_USDT:17") :=
    .inr ⟨rfl, by decide +kernel, "btc_USDT:17", by decide +kernel, hmentions⟩
  have hreadable : Readable "btc_USDT" :=
    ⟨[], "btc_USDT".toList, [], by decide, List.all_eq_true.mp (by decide), by decide, by simp,
      by rintro c ⟨⟩, by rintro c ⟨⟩⟩
  exact ⟨trade, funding, htrade, hfunding, ((one_symbol_iff (fun c => List.cons_ne_nil _ _)
    (fun c => congrArg (fun d => [d]) (toUpper_toUpper c)) (by decide +kernel) htrade hcash
    hfunding).mpr (.inr hreadable)).1⟩

def okxFillRow : Json :=
  textRow [("instId", "BTC-USDT-SWAP"), ("tradeId", "7"), ("side", "buy"), ("fillPx", "2.5"),
    ("fillSz", "3"), ("ts", "1700000000000")]

def okxFundingRow : Json :=
  textRow [("billId", "31"), ("instId", "BTC-USDT-SWAP"), ("balChg", "-0.5"),
    ("ts", "1700000000000")]

/-- The symbols under which a fill and a funding row of one instrument are stored. -/
def symbolsOf (client : Client) (fill cash : Json) : Option String × Option String :=
  ((normalizeTrade plain.toUppercase plain.multipliers client .derivative fill).toOption.map
      (·.symbol),
    (normalizeCash plain.toUppercase client .funding cash).toOption.bind (·.symbol))

/-- A swap of OKX, and a contract of Gate whose name is not in ASCII. -/
theorem phantom_symbols :
    symbolsOf .okx okxFillRow okxFundingRow = (some "BTCUSDT", some "BTCUSDTSWAP") ∧
    symbolsOf .gate (gateFillRow "币安人生_USDT") (gateFundingRow "币安人生_USDT") =
      (some "币安人生USDT", some "USDT") := by
  constructor <;> decide +kernel

end CryptoNav.History.Raw
