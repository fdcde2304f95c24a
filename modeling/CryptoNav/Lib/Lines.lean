import Mathlib.Data.List.DropRight
import CryptoNav.Lib.Utf8
import Mathlib.Data.Nat.Notation

/-!
# Lines of a text

A text is read as lines, each ended by a newline. A text that arrives in parts is split after its
last newline each time: what comes before is handed out, the rest waits for the next part. What is
handed out over all parts are the lines of the whole (`handOut_eq`), and if the parts were decoded
from pieces of a text, they are the lines of the text just when no piece ends inside a character of
a complete line (`lines_feed_iff`).

`lines` is what an iterator over the lines of a string yields: a carriage return in front of the
newline goes with it, and a last line without a newline is a line too. The second half is about
text that arrives as bytes, so it rests on the decoder of `Lib.Utf8`; a piece may end anywhere,
inside a character or between a return and its newline. A newline is a byte that no other
character contains, so cutting at newlines and decoding can change places; what cannot be
repaired is a character that was decoded in two halves.
-/

set_option autoImplicit false

namespace CryptoNav.Lib

/-- `str::split_inclusive('\n')` -/
def splitInclusive : List Char → List (List Char)
  | [] => []
  | c :: text =>
    if c = '\n' then [c] :: splitInclusive text
    else match splitInclusive text with
      | [] => [[c]]
      | line :: lines => (c :: line) :: lines

def stripSuffix (c : Char) (line : List Char) : Option (List Char) :=
  if line.getLast? = some c then some line.dropLast else none

/-- A line without its end, which is `\n` or `\r\n`. -/
def stripLineEnd (line : List Char) : List Char :=
  match stripSuffix '\n' line with
  | none => line
  | some line => (stripSuffix '\r' line).getD line

/-- `str::lines` -/
def lines (text : List Char) : List (List Char) := (splitInclusive text).map stripLineEnd

/-- A text up to and including its last newline. -/
def complete (text : List Char) : List Char := text.rdropWhile (· ≠ '\n')

/-- The line a text breaks off in. -/
def unfinished (text : List Char) : List Char := text.rtakeWhile (· ≠ '\n')

/-- Nothing comes after the last newline. -/
def Finished (text : List Char) : Prop := ∀ h : text ≠ [], text.getLast h = '\n'

theorem Finished.nil : Finished [] := fun h => absurd rfl h

theorem Finished.append {text text' : List Char} (h : Finished text) (h' : Finished text') :
    Finished (text ++ text') := by
  intro hne
  by_cases hnil : text' = []
  · simp only [hnil, List.append_nil] at hne ⊢
    exact h hne
  · rw [List.getLast_append_of_ne_nil hne hnil]
    exact h' hnil

theorem complete_append_unfinished (text : List Char) : complete text ++ unfinished text = text :=
  List.rdropWhile_append_rtakeWhile

theorem complete_finished (text : List Char) : Finished (complete text) := by
  intro hne
  have hlast := List.rdropWhile_last_not (fun c : Char => decide (c ≠ '\n')) text hne
  exact not_not.mp fun hc => hlast (decide_eq_true hc)

theorem unfinished_no_newline (text : List Char) : '\n' ∉ unfinished text := by
  intro h
  have hall := List.rtakeWhile_eq_self_iff.mp (List.rtakeWhile_idempotent (· ≠ '\n') text)
  simpa using hall '\n' h

/-- A text has only one last newline. -/
theorem complete_eq {text text' : List Char} (h : Finished text) (h' : '\n' ∉ text') :
    complete (text ++ text') = text := by
  induction text' using List.reverseRecOn with
  | nil =>
    rw [List.append_nil]
    exact List.rdropWhile_eq_self_iff.mpr fun hne => by simp [h hne]
  | append_singleton text' c ih =>
    have hc : c ≠ '\n' := by
      rintro rfl
      exact h' (List.mem_append_right _ List.mem_cons_self)
    rw [← List.append_assoc, complete, List.rdropWhile_concat_pos _ _ _ (by simpa using hc)]
    exact ih fun hmem => h' (List.mem_append_left _ hmem)

theorem complete_of_finished {text : List Char} (h : Finished text) : complete text = text := by
  have hcomplete := complete_eq h List.not_mem_nil
  rwa [List.append_nil] at hcomplete

theorem unfinished_eq {text text' : List Char} (h : Finished text) (h' : '\n' ∉ text') :
    unfinished (text ++ text') = text' := by
  have hsplit := complete_append_unfinished (text ++ text')
  rw [complete_eq h h'] at hsplit
  exact List.append_cancel_left hsplit

/-! ## Lines of two parts -/

theorem splitInclusive_ne_nil {text : List Char} (h : text ≠ []) : splitInclusive text ≠ [] := by
  cases text with
  | nil => exact absurd rfl h
  | cons c text =>
    unfold splitInclusive
    split
    · exact List.cons_ne_nil _ _
    · split
      · exact List.cons_ne_nil _ _
      · exact List.cons_ne_nil _ _

theorem splitInclusive_append {text : List Char} (h : Finished text) (text' : List Char) :
    splitInclusive (text ++ text') = splitInclusive text ++ splitInclusive text' := by
  induction text with
  | nil => rfl
  | cons c text ih =>
    have htext : Finished text := fun hne => by
      have hlast := h (List.cons_ne_nil c text)
      rwa [List.getLast_cons hne] at hlast
    rw [List.cons_append, splitInclusive, splitInclusive, ih htext]
    by_cases hc : c = '\n'
    · rw [if_pos hc, if_pos hc]
      rfl
    · rw [if_neg hc, if_neg hc]
      -- The line goes on, so there is more of it.
      have hne : text ≠ [] := by
        rintro rfl
        exact hc (h (List.cons_ne_nil c []))
      obtain ⟨line, rest, hline⟩ := List.exists_cons_of_ne_nil (splitInclusive_ne_nil hne)
      rw [hline]
      rfl

theorem lines_append {text : List Char} (h : Finished text) (text' : List Char) :
    lines (text ++ text') = lines text ++ lines text' := by
  unfold lines
  rw [splitInclusive_append h, List.map_append]

/-! ## Text in front -/

theorem splitInclusive_of_not_mem {line : List Char} (h : '\n' ∉ line) (rest : List Char) :
    splitInclusive (line ++ '\n' :: rest) = (line ++ ['\n']) :: splitInclusive rest := by
  induction line with
  | nil => rfl
  | cons c line ih =>
    obtain ⟨hc, hline⟩ := not_or.mp (mt List.mem_cons.mpr h)
    rw [List.cons_append, splitInclusive, if_neg (Ne.symm hc), ih hline]
    rfl

/-- A line without the `\r` that may stand before its newline. -/
def stripReturn (line : List Char) : List Char := (stripSuffix '\r' line).getD line

theorem lines_of_not_mem {line : List Char} (h : '\n' ∉ line) (rest : List Char) :
    lines (line ++ '\n' :: rest) = stripReturn line :: lines rest := by
  have hend : stripLineEnd (line ++ ['\n']) = stripReturn line := by
    simp [stripLineEnd, stripSuffix, stripReturn]
  rw [lines, splitInclusive_of_not_mem h, List.map_cons, hend, lines]

theorem stripReturn_append_eq_iff {text line : List Char} :
    stripReturn (text ++ line) = stripReturn line ↔ text = [] ∨ text = ['\r'] ∧ line = [] := by
  induction line using List.reverseRecOn with
  | nil =>
    rw [List.append_nil]
    induction text using List.reverseRecOn with
    | nil => simp
    | append_singleton text c _ =>
      by_cases hc : c = '\r'
      · simp [stripReturn, stripSuffix, hc]
      · have hne : text ++ [c] ≠ ['\r'] := fun heq =>
          hc (by simpa using congrArg List.getLast? heq)
        simp [stripReturn, stripSuffix, hc, hne]
  | append_singleton line c _ =>
    rw [← List.append_assoc]
    by_cases hc : c = '\r'
    · simp [stripReturn, stripSuffix, hc]
    · simp [stripReturn, stripSuffix, hc]

/-- Text in front of a line shows, unless it is the `\r` of an empty one. -/
theorem lines_append_eq_iff {text text' : List Char} (h : '\n' ∈ text') :
    lines (text ++ text') = lines text' ↔
      text = [] ∨ text = ['\r'] ∧ text'.head? = some '\n' := by
  obtain ⟨line, rest, rfl, hline⟩ := List.eq_append_cons_of_mem h
  have hwaiting : '\n' ∉ unfinished text ++ line := fun hmem =>
    (List.mem_append.mp hmem).elim (unfinished_no_newline text) hline
  have hhead : (line ++ '\n' :: rest).head? = some '\n' ↔ line = [] := by
    cases line with
    | nil => simp
    | cons c line =>
      have hc : c ≠ '\n' := fun hc => hline (hc ▸ List.mem_cons_self)
      simp [hc]
  have hwhole : lines (text ++ (line ++ '\n' :: rest))
      = lines (complete text) ++ stripReturn (unfinished text ++ line) :: lines rest := by
    conv_lhs => rw [← complete_append_unfinished text]
    rw [List.append_assoc, lines_append (complete_finished text), ← List.append_assoc,
      lines_of_not_mem hwaiting]
  rw [hwhole, lines_of_not_mem hline, hhead]
  constructor
  · intro heq
    -- No line can be handed out before the first one.
    have hcomplete : complete text = [] := by
      by_contra hne
      have hlength := congrArg List.length heq
      have hpos : 0 < (lines (complete text)).length := by
        unfold lines
        rw [List.length_map]
        exact List.length_pos_iff.mpr (splitInclusive_ne_nil hne)
      simp only [List.length_append, List.length_cons] at hlength
      omega
    have htext := complete_append_unfinished text
    rw [hcomplete, List.nil_append] at htext
    rw [hcomplete, htext] at heq
    exact stripReturn_append_eq_iff.mp (List.cons.inj heq).1
  · intro htext
    have hfront : '\n' ∉ text := by
      rcases htext with rfl | ⟨rfl, -⟩
      · exact List.not_mem_nil
      · decide
    have hcomplete := complete_eq .nil hfront
    have hunfinished := unfinished_eq .nil hfront
    rw [List.nil_append] at hcomplete hunfinished
    rw [hcomplete, hunfinished, stripReturn_append_eq_iff.mpr htext]
    rfl

theorem complete_ne_nil {text : List Char} (h : '\n' ∈ text) : complete text ≠ [] := by
  intro hnil
  have hsplit := complete_append_unfinished text
  rw [hnil, List.nil_append] at hsplit
  exact unfinished_no_newline text (hsplit.symm ▸ h)

theorem head?_complete {text : List Char} (h : '\n' ∈ text) :
    (complete text).head? = text.head? := by
  conv_rhs => rw [← complete_append_unfinished text]
  rw [List.head?_append_of_ne_nil _ (complete_ne_nil h)]

/-- A text that contains a newline breaks off in the same line, whatever stands in front. -/
theorem append_complete {text : List Char} (h : '\n' ∈ text) (front : List Char) :
    complete (front ++ text) = front ++ complete text ∧
      unfinished (front ++ text) = unfinished text := by
  have hne := complete_ne_nil h
  have hfinished : Finished (front ++ complete text) := fun happend => by
    rw [List.getLast_append_of_ne_nil happend hne]
    exact complete_finished text hne
  have hsplit : front ++ text = (front ++ complete text) ++ unfinished text := by
    rw [List.append_assoc, complete_append_unfinished]
  rw [hsplit]
  exact ⟨complete_eq hfinished (unfinished_no_newline text),
    unfinished_eq hfinished (unfinished_no_newline text)⟩

/-! ## What lines keep -/

theorem splitInclusive_flatten (text : List Char) : (splitInclusive text).flatten = text := by
  induction text with
  | nil => rfl
  | cons c text ih =>
    unfold splitInclusive
    split
    · rw [List.flatten_cons, ih]
      rfl
    · split
      · rename_i hnil
        rw [hnil] at ih
        rw [← ih]
        rfl
      · rename_i line rest hline
        rw [hline] at ih
        rw [← ih]
        rfl

theorem count_stripSuffix {c c' : Char} {line line' : List Char} (hc : c ≠ c')
    (h : stripSuffix c' line = some line') : line'.count c = line.count c := by
  unfold stripSuffix at h
  split at h
  · rename_i hlast
    cases h
    obtain ⟨hne, hlast⟩ := List.getLast?_eq_some_iff.mp hlast
    rw [hlast]
    simp [hc.symm]
  · cases h

theorem count_stripLineEnd {c : Char} (hnewline : c ≠ '\n') (hreturn : c ≠ '\r') (line : List Char) :
    (stripLineEnd line).count c = line.count c := by
  unfold stripLineEnd
  split
  · rfl
  · rename_i line' h
    rw [← count_stripSuffix hnewline h]
    cases h' : stripSuffix '\r' line' with
    | none => rfl
    | some line'' => exact count_stripSuffix hreturn h'

/-- Splitting a text into lines loses no character but line ends. -/
theorem count_lines {c : Char} (hnewline : c ≠ '\n') (hreturn : c ≠ '\r') (text : List Char) :
    (lines text).flatten.count c = text.count c := by
  unfold lines
  rw [← List.flatMap_def, List.count_flatMap]
  conv_rhs => rw [← splitInclusive_flatten text, List.count_flatten]
  refine congrArg List.sum (List.map_congr_left fun line _ => ?_)
  exact count_stripLineEnd hnewline hreturn line

/-! ## Parts -/

/-- The lines handed out of a text that arrives in parts, the first of which continues `waiting`. -/
def handOut (waiting : List Char) : List (List Char) → List (List Char)
  | [] => []
  | part :: parts =>
    lines (complete (waiting ++ part)) ++ handOut (unfinished (waiting ++ part)) parts

/-- **Parts are handed out as the whole is.** -/
theorem handOut_eq {waiting : List Char} (h : '\n' ∉ waiting) (parts : List (List Char)) :
    handOut waiting parts = lines (complete (waiting ++ parts.flatten)) := by
  induction parts generalizing waiting with
  | nil =>
    rw [List.flatten_nil, List.append_nil, ← List.nil_append waiting, complete_eq .nil h]
    rfl
  | cons part parts ih =>
    have hwaiting := unfinished_no_newline (waiting ++ part)
    have hfinished := complete_finished (waiting ++ part)
    have hwhole : waiting ++ (part :: parts).flatten
        = complete (waiting ++ part) ++ (complete (unfinished (waiting ++ part) ++ parts.flatten)
          ++ unfinished (unfinished (waiting ++ part) ++ parts.flatten)) := by
      rw [complete_append_unfinished, ← List.append_assoc, complete_append_unfinished,
        List.flatten_cons, List.append_assoc]
    rw [handOut, ih hwaiting, ← lines_append hfinished, hwhole, ← List.append_assoc,
      complete_eq (hfinished.append (complete_finished _)) (unfinished_no_newline _)]

/-- Two parts, the second of which ends the last line. -/
theorem lines_two_parts {part part' : List Char} (h : Finished (part ++ part')) :
    lines (complete part) ++ lines (complete (unfinished part ++ part')) = lines (part ++ part') := by
  have hout := handOut_eq List.not_mem_nil [part, part']
  simp only [handOut, List.nil_append, List.append_nil, List.flatten_cons, List.flatten_nil] at hout
  rw [hout, complete_of_finished h]

/-! ## Decoded lines -/

/-- The complete lines among the first `n` bytes of a text. -/
def completeLines (text : List Char) (n : ℕ) : List (List Char) := lines (complete (textWithin n text))

/-- A position within a first part is between two characters of it if it is of the whole. -/
theorem boundary_append {text rest : List Char} {p : ℕ} (hp : p ≤ (encode text).length) :
    Boundary (text ++ rest) p ↔ Boundary text p := by
  constructor
  · rintro ⟨t, ht, rfl⟩
    refine ⟨t, ?_, rfl⟩
    rcases List.prefix_or_prefix_of_prefix ht (List.prefix_append text rest) with h | ⟨u, rfl⟩
    · exact h
    · rw [encode_append, List.length_append] at hp
      have hu : encode u = [] := List.length_eq_zero_iff.mp (by omega)
      cases u with
      | nil => exact (congrArg (· <+: text) (List.append_nil text)).mpr List.prefix_rfl
      | cons c u => exact absurd (List.append_eq_nil_iff.mp hu).1 String.utf8EncodeChar_ne_nil
  · rintro ⟨t, ht, rfl⟩
    exact ⟨t, ht.trans (List.prefix_append text rest), rfl⟩

/-- Bytes are split where a text ends, together with the pieces they came in. -/
theorem exists_split_encode {text : List Char} {events : List (Option UInt8)} {bytes : List UInt8}
    (h : events.reduceOption = encode text ++ bytes) :
    ∃ l l', events = l ++ l' ∧ l.reduceOption = encode text ∧ l'.reduceOption = bytes := by
  by_cases hne : encode text = []
  · exact ⟨[], events, rfl, hne.symm, by rw [h, hne]; rfl⟩
  · obtain ⟨l, b, l', rfl, hl, hl'⟩ := exists_split h hne
    exact ⟨l ++ [some b], l', by simp, hl, hl'⟩

theorem boundary_newline {p : ℕ} (h : p ≤ (encode ['\n']).length) : Boundary ['\n'] p := by
  have hone : (encode ['\n']).length = 1 := rfl
  rcases Nat.le_one_iff_eq_zero_or_eq_one.mp (hone ▸ h) with rfl | rfl
  · exact ⟨[], List.nil_prefix, rfl⟩
  · exact ⟨['\n'], List.prefix_rfl, hone⟩

/-- A newline is one byte and never lost, so that complete lines stay complete. -/
theorem feed_finished {text : List Char} {events : List (Option UInt8)} (hfinished : Finished text)
    (h : events.reduceOption = encode text) (rest : List (Option UInt8)) :
    ((∀ p ∈ cuts events, Boundary text p) ∧
        feed .start (events ++ rest) = text ++ feed .start rest) ∨
      (¬∀ p ∈ cuts events, Boundary text p) ∧ ∃ decoded,
        feed .start (events ++ rest) = decoded ++ feed .start rest ∧ Finished decoded ∧
          decoded.count '\n' = text.count '\n' ∧
          text.count replacement < decoded.count replacement := by
  rcases feed_encode h rest with hwhole | ⟨hbound, -⟩
  · exact .inl hwhole
  refine .inr ⟨hbound, ?_⟩
  have hne : text ≠ [] := by
    rintro rfl
    refine hbound fun p hp => boundary_nil.mpr ?_
    have hle := le_of_mem_cuts hp
    rw [h] at hle
    exact Nat.le_zero.mp hle
  -- The last newline is decoded to itself, whatever comes before.
  obtain ⟨init, rfl⟩ : ∃ init, text = init ++ ['\n'] :=
    ⟨text.dropLast, by rw [← hfinished hne, List.dropLast_append_getLast]⟩
  rw [encode_append] at h
  obtain ⟨l, l', rfl, hl, hl'⟩ := exists_split_encode h
  have hlast : feed .start (l' ++ rest) = ['\n'] ++ feed .start rest := by
    rcases feed_encode hl' rest with ⟨-, hlast⟩ | ⟨hbound', -⟩
    · exact hlast
    · exact absurd (fun p hp => boundary_newline (hl' ▸ le_of_mem_cuts hp)) hbound'
  rw [List.append_assoc]
  rcases feed_encode hl (l' ++ rest) with ⟨hbound', -⟩ | ⟨-, decoded, hfeed, -, hnewline, hcount⟩
  · refine absurd ?_ hbound
    rw [cuts_append, List.forall_mem_append]
    refine ⟨fun p hp => ?_, fun p hp => ?_⟩
    · have hle := le_of_mem_cuts hp
      rw [hl] at hle
      exact (boundary_append hle).mpr (hbound' p hp)
    · obtain ⟨q, hq, rfl⟩ := List.mem_map.mp hp
      obtain ⟨t, ht, hq⟩ := boundary_newline (hl' ▸ le_of_mem_cuts hq)
      refine ⟨init ++ t, (List.prefix_append_right_inj init).mpr ht, ?_⟩
      rw [encode_append, List.length_append, hq, hl, Nat.add_comm]
  · refine ⟨decoded ++ ['\n'], ?_, ?_, ?_, ?_⟩
    · rw [hfeed, hlast, List.append_assoc]
    · intro hne
      exact List.getLast_concat
    · rw [List.count_append, List.count_append, hnewline]
    · rw [List.count_append, List.count_append]
      omega

/-- A finished text has a line for each newline. -/
theorem length_lines {text : List Char} (h : Finished text) :
    (lines text).length = text.count '\n' := by
  unfold lines
  rw [List.length_map]
  induction text with
  | nil => rfl
  | cons c text ih =>
    have htext : Finished text := fun hne => by
      have hlast := h (List.cons_ne_nil c text)
      rwa [List.getLast_cons hne] at hlast
    rw [splitInclusive]
    by_cases hc : c = '\n'
    · rw [if_pos hc, List.length_cons, ih htext, hc, List.count_cons_self]
    · -- The line goes on, so there is more of it.
      have hne : text ≠ [] := by
        rintro rfl
        exact hc (h (List.cons_ne_nil c []))
      obtain ⟨line, rest, hline⟩ := List.exists_cons_of_ne_nil (splitInclusive_ne_nil hne)
      rw [if_neg hc, List.count_cons_of_ne hc, ← ih htext, hline]
      rfl

/-- **Decoded lines** are as many as those of the text, and they are the lines of the text just when
    no piece ends inside a character of one. -/
theorem lines_feed_iff {text : List Char} {events : List (Option UInt8)} {n : ℕ}
    (h : events.reduceOption = (encode text).take n) :
    (lines (complete (feed .start events))).length = (completeLines text n).length ∧
    (lines (complete (feed .start events)) = completeLines text n ↔
      ∀ p ∈ cuts events, p ≤ (encode (complete (textWithin n text))).length →
        Boundary text p) := by
  obtain ⟨rest, htext, hlength, hrest⟩ :=
    exists_of_textWithin (complete_append_unfinished (textWithin n text)).symm
  unfold completeLines
  have hfinished := complete_finished (textWithin n text)
  have hwaiting := unfinished_no_newline (textWithin n text)
  generalize complete (textWithin n text) = done at htext hlength hrest hfinished ⊢
  rw [hrest] at hwaiting
  obtain ⟨t, ht, hpre⟩ := exists_no_newline hwaiting
  -- The pieces up to the end of the last complete line, and the ones after it.
  rw [htext, encode_append, List.take_append, List.take_of_length_le hlength] at h
  obtain ⟨l, l', rfl, hl, hl'⟩ := exists_split_encode h
  have hafter : '\n' ∉ feed .start l' := fun hmem =>
    (mem_feed (hl' ▸ hpre) hmem).elim ht (by decide)
  have hcuts : (∀ p ∈ cuts (l ++ l'), p ≤ (encode done).length → Boundary text p) ↔
      ∀ p ∈ cuts l, Boundary done p := by
    rw [cuts_append, List.forall_mem_append, htext]
    constructor
    · intro hall p hp
      have hle := le_of_mem_cuts hp
      rw [hl] at hle
      exact (boundary_append hle).mp (hall.1 p hp hle)
    · intro hall
      refine ⟨fun p hp hle => (boundary_append hle).mpr (hall p hp), ?_⟩
      intro p hp hle
      obtain ⟨q, -, rfl⟩ := List.mem_map.mp hp
      rw [hl] at hle ⊢
      exact ⟨done, List.prefix_append done rest, by omega⟩
  rw [hcuts]
  rcases feed_finished hfinished hl l' with
    ⟨hbound, hfeed⟩ | ⟨hbound, decoded, hfeed, hdone, hnewline, hcount⟩
  · rw [hfeed, complete_eq hfinished hafter]
    exact ⟨rfl, iff_of_true rfl hbound⟩
  · rw [hfeed, complete_eq hdone hafter]
    refine ⟨by rw [length_lines hdone, length_lines hfinished, hnewline],
      iff_of_false (fun heq => ?_) hbound⟩
    have hsame : decoded.count replacement = done.count replacement := by
      rw [← count_lines (by decide) (by decide), heq, count_lines (by decide) (by decide)]
    omega

end CryptoNav.Lib
