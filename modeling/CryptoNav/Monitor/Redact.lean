import CryptoNav.History.Fields
import CryptoNav.Lib.Routine
import CryptoNav.Lib.Text

/-!
# Redacting a log message

`redact_and_truncate` rewrites the text that it searches: the queries of URLs first, then what comes
after each of six keys. Both loops find their way through the text by byte positions. They stop
nowhere and come to an end (`redactUrlQueries_gives`, `redactAssignment_gives`), and what they make
of the text is said by two relations on characters.

The loops are written as in the source, over byte positions, and may in principle go on for
ever; that they do not is proved and not built in, since a loop that rewrites the text it
searches is where such a thing would happen. What counts as a secret is the source's list of
keys. Nothing is said of secrets that stand behind no key and in no URL.
-/

set_option autoImplicit false

namespace CryptoNav.Monitor

open CryptoNav.Lib
open CryptoNav.History.Raw (isWhitespace)

def http : List Char := "http://".toList

def https : List Char := "https://".toList

def redacted : List Char := "<redacted>".toList

def endsQuery (c : Char) : Bool := isWhitespace c || [')', ']', '}'].contains c

def endsValue (c : Char) : Bool := isWhitespace c || ['&', ',', ')', ']', '}'].contains c

/-- A turn of the loop of `redact_url_queries`, from the text and the position that it searches. -/
def redactUrlTurn (state : List Char × ℕ) : Except Panic ((List Char × ℕ) ⊕ List Char) := do
  let (output, searchFrom) := state
  let rest ← sliceFrom searchFrom output
  match (find http rest).or (find https rest) with
  | none => return .inr output
  | some relative =>
    let urlStart := searchFrom + relative
    let url ← sliceFrom urlStart output
    match findChar (· = '?') url with
    | none => return .inl (output, urlStart + 7)
    | some queryRelative =>
      let queryStart := urlStart + queryRelative
      let query ← sliceFrom queryStart output
      let queryEnd := ((findChar endsQuery query).map (queryStart + ·)).getD (byteLen output)
      let output ← replaceRange queryStart queryEnd ('?' :: redacted) output
      return .inl (output, queryStart + byteLen ('?' :: redacted))

def redactUrlQueries (value : List Char) : Routine Panic (List Char) :=
  .loop (fun state => .ofExcept (redactUrlTurn state)) (value, 0)

/-- A turn of the loop of `redact_assignment`. -/
def redactAssignmentTurn (key : List Char) (state : List Char × ℕ) :
    Except Panic ((List Char × ℕ) ⊕ List Char) := do
  let (output, searchFrom) := state
  let rest ← sliceFrom searchFrom output
  match find key rest with
  | none => return .inr output
  | some relative =>
    let valueStart := searchFrom + relative + byteLen key
    let value ← sliceFrom valueStart output
    let valueEnd := ((findChar endsValue value).map (valueStart + ·)).getD (byteLen output)
    let output ← replaceRange valueStart valueEnd redacted output
    return .inl (output, valueStart + byteLen redacted)

def redactAssignment (value key : List Char) : Routine Panic (List Char) :=
  .loop (fun state => .ofExcept (redactAssignmentTurn key state)) (value, 0)

def redactedKeys : List (List Char) :=
  ["signature=".toList, "api_key=".toList, "apiKey=".toList, "apikey=".toList, "token=".toList,
    "secret=".toList]

def trimChars (text : List Char) : List Char :=
  (text.dropWhile isWhitespace).rdropWhile isWhitespace

def truncateChars (value : List Char) (maxChars : ℕ) : List Char :=
  if maxChars < value.length then value.take maxChars ++ "...".toList else value

/-- The text of `redact_and_truncate` before it is truncated. -/
def redact (value : List Char) : Routine Panic (List Char) := do
  let output ← redactUrlQueries value
  let output ← redactedKeys.foldlM redactAssignment output
  return trimChars output

def redactAndTruncate (value : List Char) : Routine Panic (List Char) := do
  let output ← redact value
  return truncateChars output 800

/-! ## The loops on characters -/

/-- The URL that is found first: that of an `http://`, or else of an `https://`. It is that of the
    source, not the one that comes first in the text. -/
def FirstUrl (rest before url : List Char) : Prop :=
  (∃ after, splitOnce http rest = some (before, after) ∧ url = http ++ after) ∨
    splitOnce http rest = none ∧
      ∃ after, splitOnce https rest = some (before, after) ∧ url = https ++ after

theorem FirstUrl.split {rest before url : List Char} (h : FirstUrl rest before url) :
    rest = before ++ url := by
  rcases h with ⟨after, h, rfl⟩ | ⟨-, after, h, rfl⟩
  · exact splitOnce_eq_some h
  · exact splitOnce_eq_some h

/-- `redact_url_queries` of the rest of a text. -/
inductive UrlRedacted : List Char → List Char → Prop where
  | noUrl {rest : List Char} (h : splitOnce http rest = none) (h' : splitOnce https rest = none) :
      UrlRedacted rest rest
  | noQuery {rest before url : List Char} (h : FirstUrl rest before url) (hurl : '?' ∉ url) :
      UrlRedacted rest rest
  | query {rest before path query rest' out : List Char}
      (h : FirstUrl rest before (path ++ '?' :: (query ++ rest'))) (hpath : '?' ∉ path)
      (hquery : ∀ c ∈ query, endsQuery c = false) (hend : ∀ c ∈ rest'.head?, endsQuery c)
      (hout : UrlRedacted rest' out) :
      UrlRedacted rest (before ++ (path ++ '?' :: (redacted ++ out)))

/-- `redact_assignment` of the rest of a text. -/
inductive KeyRedacted (key : List Char) : List Char → List Char → Prop where
  | noKey {rest : List Char} (h : splitOnce key rest = none) : KeyRedacted key rest rest
  | value {rest before value rest' out : List Char}
      (h : splitOnce key rest = some (before, value ++ rest'))
      (hvalue : ∀ c ∈ value, endsValue c = false) (hend : ∀ c ∈ rest'.head?, endsValue c)
      (hout : KeyRedacted key rest' out) :
      KeyRedacted key rest (before ++ (key ++ (redacted ++ out)))

/-! ## The loop over the URLs -/

theorem FirstUrl.find {rest before url : List Char} (h : FirstUrl rest before url) :
    (find http rest).or (find https rest) = some (byteLen before) := by
  rcases h with ⟨after, h, -⟩ | ⟨hnone, after, h, -⟩
  · rw [Lib.find, h]
    rfl
  · rw [Lib.find, hnone, Lib.find, h]
    rfl

theorem exists_firstUrl (rest : List Char) :
    (splitOnce http rest = none ∧ splitOnce https rest = none) ∨
      ∃ before url, FirstUrl rest before url := by
  cases hhttp : splitOnce http rest with
  | some found => exact .inr ⟨found.1, _, .inl ⟨found.2, hhttp, rfl⟩⟩
  | none =>
    cases hhttps : splitOnce https rest with
    | some found => exact .inr ⟨found.1, _, .inr ⟨hhttp, found.2, hhttps, rfl⟩⟩
    | none => exact .inl ⟨rfl, rfl⟩

/-- Seven bytes of a URL can be skipped. -/
theorem FirstUrl.skip {rest before url : List Char} (h : FirstUrl rest before url) :
    ∃ skipped left, url = skipped ++ left ∧ skipped ≠ [] ∧ byteLen skipped = 7 := by
  rcases h with ⟨after, -, rfl⟩ | ⟨-, after, -, rfl⟩
  · exact ⟨http, after, rfl, by decide, by decide⟩
  · exact ⟨"https:/".toList, '/' :: after, rfl, by decide, by decide⟩

section Turns

variable {done rest before : List Char}

theorem redactUrlTurn_noUrl (h : splitOnce http rest = none) (h' : splitOnce https rest = none) :
    redactUrlTurn (done ++ rest, byteLen done) = .ok (.inr (done ++ rest)) := by
  refine bind_eq_ok.mpr ⟨rest, sliceFrom_append _ _, ?_⟩
  rw [Lib.find, Lib.find, h, h']
  rfl

theorem redactUrlTurn_noQuery {url : List Char} (h : FirstUrl rest before url) (hurl : '?' ∉ url) :
    redactUrlTurn (done ++ rest, byteLen done)
      = .ok (.inl (done ++ rest, byteLen (done ++ before) + 7)) := by
  refine bind_eq_ok.mpr ⟨rest, sliceFrom_append _ _, ?_⟩
  rw [h.find]
  refine bind_eq_ok.mpr ⟨url, ?_, ?_⟩
  · rw [h.split, ← List.append_assoc, ← byteLen_append]
    exact sliceFrom_append _ _
  · rw [findChar_eq_none (decide_eq_of_not_mem hurl), byteLen_append done before]
    rfl

theorem redactUrlTurn_query {path query rest' : List Char}
    (h : FirstUrl rest before (path ++ '?' :: (query ++ rest'))) (hpath : '?' ∉ path)
    (hquery : ∀ c ∈ query, endsQuery c = false) (hend : ∀ c ∈ rest'.head?, endsQuery c) :
    redactUrlTurn (done ++ rest, byteLen done)
      = .ok (.inl (done ++ before ++ path ++ ('?' :: redacted) ++ rest',
          byteLen (done ++ before ++ path ++ ('?' :: redacted)))) := by
  have hurl : done ++ rest = (done ++ before) ++ (path ++ '?' :: (query ++ rest')) := by
    rw [h.split, List.append_assoc]
  have hstart : done ++ rest
      = (done ++ before ++ path) ++ (('?' :: query) ++ rest') := by
    rw [hurl]
    simp only [List.append_assoc, List.cons_append]
  have hpositions : byteLen done + byteLen before + byteLen path
      = byteLen (done ++ before ++ path) := by
    rw [byteLen_append, byteLen_append]
  refine bind_eq_ok.mpr ⟨rest, sliceFrom_append _ _, ?_⟩
  rw [h.find]
  refine bind_eq_ok.mpr ⟨path ++ '?' :: (query ++ rest'), ?_, ?_⟩
  · rw [hurl, ← byteLen_append]
    exact sliceFrom_append _ _
  rw [findChar_append (decide_eq_of_not_mem hpath) (decide_eq_true rfl)]
  refine bind_eq_ok.mpr ⟨('?' :: query) ++ rest', ?_, ?_⟩
  · rw [hstart, hpositions]
    exact sliceFrom_append _ _
  have hstretch : ∀ c ∈ '?' :: query, endsQuery c = false :=
    List.forall_mem_cons.mpr ⟨by decide, hquery⟩
  have hwhole : byteLen (done ++ rest)
      = byteLen (done ++ before ++ path) + byteLen (('?' :: query) ++ rest') := by
    rw [hstart, byteLen_append]
  simp only [hpositions, stretch_end hstretch hend hwhole]
  refine bind_eq_ok.mpr ⟨done ++ before ++ path ++ ('?' :: redacted) ++ rest', ?_, ?_⟩
  · rw [hstart, List.append_assoc _ _ rest']
    exact replaceRange_append _ _ _ _
  · rw [← byteLen_append]
    rfl

end Turns

/-- From a URL without a query on there is none. -/
theorem UrlRedacted.eq_of_not_mem {rest out : List Char} (h : UrlRedacted rest out)
    (hquery : '?' ∉ rest) : out = rest := by
  cases h with
  | noUrl _ _ => rfl
  | noQuery _ _ => rfl
  | query h _ _ _ _ =>
    rw [h.split] at hquery
    simp at hquery

/-- The loop from any position: what is before it stays. -/
theorem redactUrlQueries_loop (done rest : List Char) : ∃ out, UrlRedacted rest out ∧
    (Routine.loop (fun state => .ofExcept (redactUrlTurn state))
      (done ++ rest, byteLen done)).Gives (.ok (done ++ out)) := by
  induction hn : rest.length using Nat.strongRecOn generalizing done rest with
  | _ n ih =>
    subst hn
    rcases exists_firstUrl rest with ⟨hhttp, hhttps⟩ | ⟨before, url, hurl⟩
    · refine ⟨rest, .noUrl hhttp hhttps, ?_⟩
      rw [Routine.gives_loop_leave (Routine.gives_ofExcept.mpr (redactUrlTurn_noUrl hhttp hhttps))]
    by_cases hquery : '?' ∈ url
    · obtain ⟨path, tail, rfl, hpath⟩ := List.eq_append_cons_of_mem hquery
      obtain ⟨query, rest', rfl, hstretch, hend⟩ := exists_stretch endsQuery tail
      have hlength : rest'.length < rest.length := by
        rw [hurl.split]
        simp only [List.length_append, List.length_cons]
        omega
      obtain ⟨out, hout, hgives⟩ :=
        ih _ hlength (done ++ before ++ path ++ ('?' :: redacted)) rest' rfl
      refine ⟨_, .query hurl hpath hstretch hend hout, ?_⟩
      rw [Routine.gives_loop_next (Routine.gives_ofExcept.mpr
        (redactUrlTurn_query hurl hpath hstretch hend))]
      simpa only [List.append_assoc, List.cons_append] using hgives
    · obtain ⟨skipped, left, rfl, hne, hskipped⟩ := hurl.skip
      have hlength : left.length < rest.length := by
        have hpos := List.length_pos_iff.mpr hne
        rw [hurl.split]
        simp only [List.length_append]
        omega
      obtain ⟨out, hout, hgives⟩ := ih _ hlength (done ++ before ++ skipped) left rfl
      obtain rfl := hout.eq_of_not_mem fun hmem => hquery (List.mem_append_right _ hmem)
      refine ⟨rest, .noQuery hurl hquery, ?_⟩
      rw [Routine.gives_loop_next (Routine.gives_ofExcept.mpr
        (redactUrlTurn_noQuery hurl hquery)), ← hskipped, ← byteLen_append]
      have hsplit : done ++ rest = done ++ before ++ skipped ++ out := by
        rw [hurl.split]
        simp only [List.append_assoc]
      rw [hsplit]
      exact hgives

/-- **The URLs of every text are gone through**, from the first to the last. -/
theorem redactUrlQueries_gives (value : List Char) :
    ∃ out, UrlRedacted value out ∧ (redactUrlQueries value).Gives (.ok out) :=
  redactUrlQueries_loop [] value

/-! ## The loop over the values of a key -/

section Turns

variable {key done rest : List Char}

theorem redactAssignmentTurn_noKey (h : splitOnce key rest = none) :
    redactAssignmentTurn key (done ++ rest, byteLen done) = .ok (.inr (done ++ rest)) := by
  refine bind_eq_ok.mpr ⟨rest, sliceFrom_append _ _, ?_⟩
  rw [Lib.find, h]
  rfl

theorem redactAssignmentTurn_value {before value rest' : List Char}
    (h : splitOnce key rest = some (before, value ++ rest'))
    (hvalue : ∀ c ∈ value, endsValue c = false) (hend : ∀ c ∈ rest'.head?, endsValue c) :
    redactAssignmentTurn key (done ++ rest, byteLen done)
      = .ok (.inl (done ++ before ++ key ++ redacted ++ rest',
          byteLen (done ++ before ++ key ++ redacted))) := by
  have hstart : done ++ rest = (done ++ before ++ key) ++ (value ++ rest') := by
    rw [splitOnce_eq_some h]
    simp only [List.append_assoc]
  have hpositions : byteLen done + byteLen before + byteLen key
      = byteLen (done ++ before ++ key) := by
    rw [byteLen_append, byteLen_append]
  have hwhole : byteLen (done ++ rest)
      = byteLen (done ++ before ++ key) + byteLen (value ++ rest') := by
    rw [hstart, byteLen_append]
  refine bind_eq_ok.mpr ⟨rest, sliceFrom_append _ _, ?_⟩
  rw [Lib.find, h]
  refine bind_eq_ok.mpr ⟨value ++ rest', ?_, ?_⟩
  · rw [hstart, hpositions]
    exact sliceFrom_append _ _
  simp only [hpositions, stretch_end hvalue hend hwhole]
  refine bind_eq_ok.mpr ⟨done ++ before ++ key ++ redacted ++ rest', ?_, ?_⟩
  · rw [hstart, List.append_assoc _ _ rest']
    exact replaceRange_append _ _ _ _
  · rw [← byteLen_append]
    rfl

end Turns

theorem redactAssignment_loop {key : List Char} (hkey : key ≠ []) (done rest : List Char) :
    ∃ out, KeyRedacted key rest out ∧
      (Routine.loop (fun state => .ofExcept (redactAssignmentTurn key state))
        (done ++ rest, byteLen done)).Gives (.ok (done ++ out)) := by
  induction hn : rest.length using Nat.strongRecOn generalizing done rest with
  | _ n ih =>
    subst hn
    cases hfound : splitOnce key rest with
    | none =>
      refine ⟨rest, .noKey hfound, ?_⟩
      rw [Routine.gives_loop_leave (Routine.gives_ofExcept.mpr (redactAssignmentTurn_noKey hfound))]
    | some found =>
      obtain ⟨before, after⟩ := found
      obtain ⟨value, rest', rfl, hstretch, hend⟩ := exists_stretch endsValue after
      have hlength : rest'.length < rest.length := by
        have hpos := List.length_pos_iff.mpr hkey
        rw [splitOnce_eq_some hfound]
        simp only [List.length_append]
        omega
      obtain ⟨out, hout, hgives⟩ := ih _ hlength (done ++ before ++ key ++ redacted) rest' rfl
      refine ⟨_, .value hfound hstretch hend hout, ?_⟩
      rw [Routine.gives_loop_next (Routine.gives_ofExcept.mpr
        (redactAssignmentTurn_value hfound hstretch hend))]
      simpa only [List.append_assoc] using hgives

/-- **Every value of a key is found.** -/
theorem redactAssignment_gives {key : List Char} (hkey : key ≠ []) (value : List Char) :
    ∃ out, KeyRedacted key value out ∧ (redactAssignment value key).Gives (.ok out) :=
  redactAssignment_loop hkey [] value

/-! ## The whole text -/

/-- One key after the other. -/
inductive KeysRedacted : List (List Char) → List Char → List Char → Prop where
  | nil {text : List Char} : KeysRedacted [] text text
  | cons {key text text' out : List Char} {keys : List (List Char)} (h : KeyRedacted key text text')
      (hout : KeysRedacted keys text' out) : KeysRedacted (key :: keys) text out

theorem redactKeys_gives {keys : List (List Char)} (h : ∀ key ∈ keys, key ≠ []) (text : List Char) :
    ∃ out, KeysRedacted keys text out ∧ (keys.foldlM redactAssignment text).Gives (.ok out) := by
  induction keys generalizing text with
  | nil => exact ⟨text, .nil, Routine.gives_pure.mpr rfl⟩
  | cons key keys ih =>
    obtain ⟨hkey, hkeys⟩ := List.forall_mem_cons.mp h
    obtain ⟨text', htext', hgives⟩ := redactAssignment_gives hkey text
    obtain ⟨out, hout, hgives'⟩ := ih hkeys text'
    refine ⟨out, .cons htext' hout, ?_⟩
    rw [List.foldlM_cons, Routine.gives_bind_ok hgives]
    exact hgives'

theorem redactedKeys_ne_nil : ∀ key ∈ redactedKeys, key ≠ [] := by decide

/-- **Redaction comes to its end**, and what it makes of the text. -/
theorem redact_gives (value : List Char) : ∃ text out, UrlRedacted value text ∧
    KeysRedacted redactedKeys text out ∧ (redact value).Gives (.ok (trimChars out)) := by
  obtain ⟨text, htext, hgives⟩ := redactUrlQueries_gives value
  obtain ⟨out, hout, hgives'⟩ := redactKeys_gives redactedKeys_ne_nil text
  refine ⟨text, out, htext, hout, ?_⟩
  rw [redact, Routine.gives_bind_ok hgives, Routine.gives_bind_ok hgives']
  exact Routine.gives_pure.mpr rfl

theorem redactAndTruncate_gives (value : List Char) :
    ∃ out, (redactAndTruncate value).Gives (.ok out) := by
  obtain ⟨-, out, -, -, hgives⟩ := redact_gives value
  exact ⟨_, (Routine.gives_bind_ok hgives).mpr (Routine.gives_pure.mpr rfl)⟩

end CryptoNav.Monitor
