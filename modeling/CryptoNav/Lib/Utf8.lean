import Mathlib.Data.List.ReduceOption
import Mathlib.Data.Nat.Notation

/-!
# UTF-8, decoded in pieces

`fromUtf8Lossy` decodes any bytes: what is not UTF-8 becomes `U+FFFD`, one for the longest part that
could still start a character and one for every other byte. A text that was cut into pieces and is
decoded piece by piece comes back unchanged if no cut is inside a character (`feed_encode`); a
character with a cut inside becomes two replacement characters or more, so that their number shows
it.

The decoder is the lossy one of the standard library, given as a machine that takes one byte at
a time, so that a text arriving in pieces is one run of it, with a `none` among its inputs
wherever a piece ends and the machine is flushed. Decoding strictly (`fromUtf8`) is decoding
lossily something that nothing was lost of. Other encodings, the byte order mark and
normalization are left out.
-/

set_option autoImplicit false

namespace CryptoNav.Lib

/-- `U+FFFD` -/
def replacement : Char := '\uFFFD'

/-- Where decoding stands between two bytes: at the start of a character, or inside one of which
    `need` bytes are missing; the next of these is in `low ..= high`, and `code` is what the bytes so
    far contribute to the code point. -/
inductive Decoder where
  | start
  | pending (need low high code : ℕ)
  deriving DecidableEq

namespace Decoder

/-- The first byte of a character. -/
def first (b : ℕ) : List Char × Decoder :=
  if b ≤ 0x7F then ([Char.ofNat b], start)
  else if 0xC2 ≤ b ∧ b ≤ 0xDF then ([], pending 1 0x80 0xBF (b - 0xC0))
  else if b = 0xE0 then ([], pending 2 0xA0 0xBF 0)
  else if b = 0xED then ([], pending 2 0x80 0x9F 0xD)
  else if 0xE1 ≤ b ∧ b ≤ 0xEF then ([], pending 2 0x80 0xBF (b - 0xE0))
  else if b = 0xF0 then ([], pending 3 0x90 0xBF 0)
  else if b = 0xF4 then ([], pending 3 0x80 0x8F 4)
  else if 0xF1 ≤ b ∧ b ≤ 0xF3 then ([], pending 3 0x80 0xBF (b - 0xF0))
  else ([replacement], start)

/-- The characters that a byte completes, and where decoding stands after it. A byte that cannot
    continue a character breaks it and is looked at again as a first byte. -/
def next : Decoder → UInt8 → List Char × Decoder
  | start, b => first b.toNat
  | pending need low high code, b =>
    if low ≤ b.toNat ∧ b.toNat ≤ high then
      let code := code * 64 + (b.toNat - 0x80)
      if need = 1 then ([Char.ofNat code], start) else ([], pending (need - 1) 0x80 0xBF code)
    else (replacement :: (first b.toNat).1, (first b.toNat).2)

/-- What an end of input leaves of an incomplete character. -/
def flush : Decoder → List Char
  | start => []
  | pending .. => [replacement]

def decode (d : Decoder) : List UInt8 → List Char
  | [] => d.flush
  | b :: bytes => (d.next b).1 ++ (d.next b).2.decode bytes

end Decoder

/-- `String::from_utf8_lossy` -/
def fromUtf8Lossy (bytes : List UInt8) : List Char := Decoder.start.decode bytes

def encode (text : List Char) : List UInt8 := text.flatMap String.utf8EncodeChar

@[simp] theorem encode_nil : encode [] = [] := rfl

@[simp] theorem encode_cons (c : Char) (text : List Char) :
    encode (c :: text) = String.utf8EncodeChar c ++ encode text := rfl

@[simp] theorem encode_append (text text' : List Char) :
    encode (text ++ text') = encode text ++ encode text' := List.flatMap_append

/-! ## One character -/

/-- A byte that is not the first one of a character. -/
def IsTail (b : UInt8) : Prop := 0x80 ≤ b.toNat ∧ b.toNat ≤ 0xBF

/-- From `d` on, the bytes complete `c`, and nothing before the last of them does anything. -/
def Completes (c : Char) : Decoder → List UInt8 → Prop
  | _, [] => False
  | d, [b] => d.next b = ([c], .start)
  | d, b :: bytes => (d.next b).1 = [] ∧ (d.next b).2 ≠ .start ∧ Completes c (d.next b).2 bytes

/-- A byte from the middle of a character is broken on its own. -/
theorem next_start_tail {b : UInt8} (h : IsTail b) : Decoder.start.next b = ([replacement], .start) := by
  obtain ⟨hlow, hhigh⟩ := h
  unfold Decoder.next Decoder.first
  simp only
  repeat rw [if_neg (by omega)]

theorem val_cases (c : Char) : c.val.toNat < 0xD800 ∨ 0xDFFF < c.val.toNat ∧ c.val.toNat < 0x110000 :=
  c.valid

theorem next_pending {need low high code : ℕ} {b : UInt8} (hlow : low ≤ b.toNat)
    (hhigh : b.toNat ≤ high) (hneed : need ≠ 1) :
    (Decoder.pending need low high code).next b
      = ([], .pending (need - 1) 0x80 0xBF (code * 64 + (b.toNat - 0x80))) := by
  unfold Decoder.next
  simp only
  rw [if_pos ⟨hlow, hhigh⟩, if_neg hneed]

theorem next_last {low high code : ℕ} {b : UInt8} (hlow : low ≤ b.toNat) (hhigh : b.toNat ≤ high) :
    (Decoder.pending 1 low high code).next b
      = ([Char.ofNat (code * 64 + (b.toNat - 0x80))], .start) := by
  unfold Decoder.next
  simp only
  rw [if_pos ⟨hlow, hhigh⟩, if_pos trivial]

/-- What the first of two, three or four bytes says about the ones that follow. -/
theorem first_two {b : ℕ} (hlow : 0xC2 ≤ b) (hhigh : b ≤ 0xDF) :
    Decoder.first b = ([], .pending 1 0x80 0xBF (b - 0xC0)) := by
  unfold Decoder.first
  rw [if_neg (by omega), if_pos ⟨hlow, hhigh⟩]

theorem first_three {b : ℕ} (hlow : 0xE0 ≤ b) (hhigh : b ≤ 0xEF) :
    Decoder.first b = ([], .pending 2 (if b = 0xE0 then 0xA0 else 0x80)
      (if b = 0xED then 0x9F else 0xBF) (b - 0xE0)) := by
  unfold Decoder.first
  rw [if_neg (by omega), if_neg (by omega)]
  by_cases hE0 : b = 0xE0
  · simp [hE0]
  · by_cases hED : b = 0xED
    · simp [hED]
    · rw [if_neg hE0, if_neg hED, if_pos (by omega), if_neg hE0, if_neg hED]

theorem first_four {b : ℕ} (hlow : 0xF0 ≤ b) (hhigh : b ≤ 0xF4) :
    Decoder.first b = ([], .pending 3 (if b = 0xF0 then 0x90 else 0x80)
      (if b = 0xF4 then 0x8F else 0xBF) (b - 0xF0)) := by
  unfold Decoder.first
  rw [if_neg (by omega), if_neg (by omega), if_neg (by omega), if_neg (by omega),
    if_neg (by omega)]
  by_cases hF0 : b = 0xF0
  · simp [hF0]
  · by_cases hF4 : b = 0xF4
    · simp [hF4]
    · rw [if_neg hF0, if_neg hF4, if_pos (by omega), if_neg hF0, if_neg hF4]

theorem Completes.cons {c : Char} {d d' : Decoder} {b b' : UInt8} {bytes : List UInt8}
    (hnext : d.next b = ([], d')) (hd : d' ≠ .start) (h : Completes c d' (b' :: bytes)) :
    Completes c d (b :: b' :: bytes) := by
  unfold Completes
  rw [hnext]
  exact ⟨rfl, hd, h⟩

section

variable {c : Char} {v : ℕ} (hc : c = Char.ofNat v)

include hc

theorem completes_two {b₀ b₁ : UInt8} (hlow : 0x7F < v) (hhigh : v ≤ 0x7FF)
    (h₀ : b₀.toNat = v / 64 % 0x20 + 0xC0) (h₁ : b₁.toNat = v % 0x40 + 0x80) :
    Completes c .start [b₀, b₁] := by
  have hfirst : Decoder.start.next b₀ = ([], .pending 1 0x80 0xBF (b₀.toNat - 0xC0)) :=
    first_two (by omega) (by omega)
  refine .cons hfirst nofun ?_
  have hv : (b₀.toNat - 0xC0) * 64 + (b₁.toNat - 0x80) = v := by omega
  exact (next_last (by omega) (by omega)).trans (by rw [hv, hc])

theorem completes_three {b₀ b₁ b₂ : UInt8} (hlow : 0x7FF < v) (hhigh : v ≤ 0xFFFF)
    (hvalid : v < 0xD800 ∨ 0xDFFF < v) (h₀ : b₀.toNat = v / 4096 % 0x10 + 0xE0)
    (h₁ : b₁.toNat = v / 64 % 0x40 + 0x80) (h₂ : b₂.toNat = v % 0x40 + 0x80) :
    Completes c .start [b₀, b₁, b₂] := by
  refine .cons (first_three (b := b₀.toNat) (by omega) (by omega)) nofun ?_
  refine .cons (next_pending ?_ ?_ (by decide)) nofun ?_
  · split <;> omega
  · split <;> omega
  have hv : ((b₀.toNat - 0xE0) * 64 + (b₁.toNat - 0x80)) * 64 + (b₂.toNat - 0x80) = v := by omega
  exact (next_last (by omega) (by omega)).trans (by rw [hv, hc])

theorem completes_four {b₀ b₁ b₂ b₃ : UInt8} (hlow : 0xFFFF < v) (hhigh : v < 0x110000)
    (h₀ : b₀.toNat = v / 262144 % 0x08 + 0xF0) (h₁ : b₁.toNat = v / 4096 % 0x40 + 0x80)
    (h₂ : b₂.toNat = v / 64 % 0x40 + 0x80) (h₃ : b₃.toNat = v % 0x40 + 0x80) :
    Completes c .start [b₀, b₁, b₂, b₃] := by
  refine .cons (first_four (b := b₀.toNat) (by omega) (by omega)) nofun ?_
  refine .cons (next_pending ?_ ?_ (by decide)) nofun ?_
  · split <;> omega
  · split <;> omega
  refine .cons (next_pending (by omega) (by omega) (by decide)) nofun ?_
  have hv : (((b₀.toNat - 0xF0) * 64 + (b₁.toNat - 0x80)) * 64 + (b₂.toNat - 0x80)) * 64
      + (b₃.toNat - 0x80) = v := by omega
  exact (next_last (by omega) (by omega)).trans (by rw [hv, hc])

end

/-- **The bytes of a character** are decoded to it, one state after the other. -/
theorem completes_utf8EncodeChar (c : Char) : Completes c .start (String.utf8EncodeChar c) := by
  have hval := val_cases c
  unfold String.utf8EncodeChar
  simp only
  generalize hv : c.val.toNat = v at *
  have hc : c = Char.ofNat v := by
    rw [← hv]
    exact (Char.ofNat_toNat c).symm
  have hbyte : ∀ n < 256, (UInt8.ofNat n).toNat = n := fun n hn => by
    rw [UInt8.toNat_ofNat', Nat.mod_eq_of_lt hn]
  split
  case isTrue h1 =>
    unfold Completes Decoder.next Decoder.first
    simp only
    rw [hbyte v (by omega), if_pos h1, hc]
  case isFalse h1 =>
    split
    case isTrue h2 =>
      exact completes_two hc (by omega) h2 (hbyte _ (by omega)) (hbyte _ (by omega))
    case isFalse h2 =>
      split
      case isTrue h3 =>
        exact completes_three hc (by omega) h3 (by omega) (hbyte _ (by omega))
          (hbyte _ (by omega)) (hbyte _ (by omega))
      case isFalse h3 =>
        exact completes_four hc (by omega) (by omega) (hbyte _ (by omega)) (hbyte _ (by omega))
          (hbyte _ (by omega)) (hbyte _ (by omega))

theorem tails_utf8EncodeChar (c : Char) : ∀ b ∈ (String.utf8EncodeChar c).tail, IsTail b := by
  have hbyte : ∀ n : ℕ, IsTail (UInt8.ofNat (n % 0x40 + 0x80)) := fun n => by
    unfold IsTail
    rw [UInt8.toNat_ofNat', Nat.mod_eq_of_lt (by omega)]
    omega
  unfold String.utf8EncodeChar
  simp only
  split
  · exact nofun
  split
  · exact List.forall_mem_singleton.mpr (hbyte _)
  split
  · exact List.forall_mem_cons.mpr ⟨hbyte _, List.forall_mem_singleton.mpr (hbyte _)⟩
  · exact List.forall_mem_cons.mpr ⟨hbyte _,
      List.forall_mem_cons.mpr ⟨hbyte _, List.forall_mem_singleton.mpr (hbyte _)⟩⟩

/-! ## A text in pieces -/

/-- Decoding bytes that come in pieces, with `none` where a piece ends. -/
def feed : Decoder → List (Option UInt8) → List Char
  | _, [] => []
  | d, none :: events => d.flush ++ feed .start events
  | d, some b :: events => (d.next b).1 ++ feed (d.next b).2 events

/-- The positions, in bytes, at which a piece ends. -/
def cuts : List (Option UInt8) → List ℕ
  | [] => []
  | none :: events => 0 :: cuts events
  | some _ :: events => (cuts events).map (· + 1)

/-- A position between two characters, or at an end. -/
def Boundary (text : List Char) (p : ℕ) : Prop := ∃ t, t <+: text ∧ (encode t).length = p

theorem reduceOption_map_some (bytes : List UInt8) : (bytes.map some).reduceOption = bytes := by
  simp [List.reduceOption, List.filterMap_map]

theorem cuts_append (events events' : List (Option UInt8)) :
    cuts (events ++ events')
      = cuts events ++ (cuts events').map (· + events.reduceOption.length) := by
  induction events with
  | nil => simp [cuts]
  | cons event events ih =>
    cases event with
    | none => simp [cuts, ih]
    | some b => simp [cuts, ih, Function.comp_def, Nat.add_assoc]

theorem le_of_mem_cuts {events : List (Option UInt8)} {p : ℕ} (h : p ∈ cuts events) :
    p ≤ events.reduceOption.length := by
  induction events generalizing p with
  | nil => cases h
  | cons event events ih =>
    cases event with
    | none =>
      rcases List.mem_cons.mp h with rfl | h
      · exact Nat.zero_le _
      · exact ih h
    | some b =>
      obtain ⟨q, hq, rfl⟩ := List.mem_map.mp h
      exact Nat.succ_le_succ (ih hq)

theorem boundary_nil {p : ℕ} : Boundary [] p ↔ p = 0 := by
  constructor
  · rintro ⟨t, ht, rfl⟩
    rw [List.prefix_nil.mp ht]
    rfl
  · rintro rfl
    exact ⟨[], List.prefix_rfl, rfl⟩

theorem boundary_cons {c : Char} {text : List Char} {p : ℕ} :
    Boundary (c :: text) p ↔
      p = 0 ∨ ∃ q, p = q + (String.utf8EncodeChar c).length ∧ Boundary text q := by
  constructor
  · rintro ⟨t, ht, rfl⟩
    cases t with
    | nil => exact .inl rfl
    | cons c' t =>
      obtain ⟨rfl, hpre⟩ := List.cons_prefix_cons.mp ht
      refine .inr ⟨(encode t).length, ?_, t, hpre, rfl⟩
      rw [encode_cons, List.length_append, Nat.add_comm]
  · rintro (rfl | ⟨q, rfl, t, ht, rfl⟩)
    · exact ⟨[], List.nil_prefix, rfl⟩
    · refine ⟨c :: t, List.cons_prefix_cons.mpr ⟨rfl, ht⟩, ?_⟩
      rw [encode_cons, List.length_append, Nat.add_comm]

/-- Bytes are split where a character ends, together with the pieces they came in; what follows the
    character's last byte is in the second half. -/
theorem exists_split {events : List (Option UInt8)} {bytes bytes' : List UInt8}
    (h : events.reduceOption = bytes ++ bytes') (hne : bytes ≠ []) :
    ∃ l b l', events = l ++ some b :: l' ∧ (l ++ [some b]).reduceOption = bytes ∧
      l'.reduceOption = bytes' := by
  induction events generalizing bytes with
  | nil =>
    exact absurd (List.append_eq_nil_iff.mp h.symm).1 hne
  | cons event events ih =>
    cases event with
    | none =>
      obtain ⟨l, b, l', rfl, hl, hl'⟩ := ih h hne
      exact ⟨none :: l, b, l', rfl, hl, hl'⟩
    | some b =>
      cases bytes with
      | nil => exact absurd rfl hne
      | cons b' bytes =>
        rw [List.reduceOption_cons_of_some, List.cons_append, List.cons.injEq] at h
        obtain ⟨rfl, h⟩ := h
        by_cases hbytes : bytes = []
        · rw [hbytes] at h ⊢
          exact ⟨[], b, events, rfl, rfl, h⟩
        · obtain ⟨l, b', l', rfl, hl, hl'⟩ := ih h hbytes
          refine ⟨some b :: l, b', l', rfl, ?_, hl'⟩
          rw [List.cons_append, List.reduceOption_cons_of_some, hl]

/-- After a cut the rest of a character is broken byte by byte. -/
theorem feed_tails {events rest : List (Option UInt8)}
    (h : ∀ b ∈ events.reduceOption, IsTail b) :
    feed .start (events ++ rest)
      = List.replicate events.reduceOption.length replacement ++ feed .start rest := by
  induction events with
  | nil => rfl
  | cons event events ih =>
    cases event with
    | none => exact ih h
    | some b =>
      rw [List.reduceOption_cons_of_some] at h ⊢
      obtain ⟨hb, hrest⟩ := List.forall_mem_cons.mp h
      rw [List.cons_append, feed, next_start_tail hb, ih hrest]
      rfl

/-- From inside a character: it is completed if there is no cut before its last byte, and becomes
    replacement characters if there is one. -/
theorem feed_inside {c : Char} {b : UInt8} {l rest : List (Option UInt8)} {d : Decoder}
    (hd : d ≠ .start) (hcompletes : Completes c d (l ++ [some b]).reduceOption)
    (htails : ∀ b' ∈ (l ++ [some b]).reduceOption, IsTail b') :
    (cuts l = [] ∧ feed d (l ++ some b :: rest) = c :: feed .start rest) ∨
      cuts l ≠ [] ∧ ∃ k ≥ 2, feed d (l ++ some b :: rest)
        = List.replicate k replacement ++ feed .start rest := by
  induction l generalizing d with
  | nil =>
    refine .inl ⟨rfl, ?_⟩
    have hlast : d.next b = ([c], .start) := hcompletes
    rw [List.nil_append, feed, hlast]
    rfl
  | cons event l ih =>
    cases event with
    | none =>
      refine .inr ⟨List.cons_ne_nil _ _, (l ++ [some b]).reduceOption.length + 1, ?_, ?_⟩
      · rw [List.reduceOption_append, List.length_append]
        simp
      · have hflush : d.flush = [replacement] := by
          cases d with
          | start => exact absurd rfl hd
          | pending => rfl
        have hfeed : feed .start (l ++ [some b] ++ rest)
            = List.replicate (l ++ [some b]).reduceOption.length replacement ++ feed .start rest :=
          feed_tails htails
        rw [List.append_assoc] at hfeed
        rw [List.cons_append, feed, hflush, List.replicate_succ]
        exact congrArg (replacement :: ·) hfeed
    | some b' =>
      rw [List.cons_append, List.reduceOption_cons_of_some] at hcompletes htails
      -- The last byte is still to come.
      obtain ⟨b'', bytes, hbytes⟩ : ∃ b'' bytes, (l ++ [some b]).reduceOption = b'' :: bytes :=
        List.exists_cons_of_ne_nil (by simp [List.reduceOption_append])
      rw [hbytes] at hcompletes
      obtain ⟨hnext, hd', hrest⟩ := hcompletes
      rw [← hbytes] at hrest
      have hfeed : feed d (some b' :: l ++ some b :: rest)
          = feed (d.next b').2 (l ++ some b :: rest) := by
        rw [List.cons_append, feed, hnext, List.nil_append]
      rw [hfeed]
      have hcuts : cuts (some b' :: l) = [] ↔ cuts l = [] := List.map_eq_nil_iff
      rw [Ne, hcuts]
      exact ih hd' hrest fun x hx => htails x (List.mem_cons_of_mem _ hx)

/-- From the start of a character: cuts before its first byte do no harm. -/
theorem feed_char {c : Char} {b : UInt8} {l : List (Option UInt8)}
    (h : (l ++ [some b]).reduceOption = String.utf8EncodeChar c) (rest : List (Option UInt8)) :
    ((∀ p ∈ cuts l, p = 0) ∧ feed .start (l ++ some b :: rest) = c :: feed .start rest) ∨
      (¬∀ p ∈ cuts l, p = 0) ∧ ∃ k ≥ 2, feed .start (l ++ some b :: rest)
        = List.replicate k replacement ++ feed .start rest := by
  have hcompletes := completes_utf8EncodeChar c
  have htails := tails_utf8EncodeChar c
  rw [← h] at hcompletes htails
  induction l with
  | nil =>
    refine .inl ⟨nofun, ?_⟩
    have hlast : Decoder.start.next b = ([c], .start) := hcompletes
    rw [List.nil_append, feed, hlast]
    rfl
  | cons event l ih =>
    cases event with
    | none =>
      have hcuts : (∀ p ∈ cuts (none :: l), p = 0) ↔ ∀ p ∈ cuts l, p = 0 := by simp [cuts]
      rw [hcuts]
      exact ih h hcompletes htails
    | some b' =>
      rw [List.cons_append, List.reduceOption_cons_of_some] at hcompletes htails
      obtain ⟨b'', bytes, hbytes⟩ : ∃ b'' bytes, (l ++ [some b]).reduceOption = b'' :: bytes :=
        List.exists_cons_of_ne_nil (by simp [List.reduceOption_append])
      rw [hbytes] at hcompletes
      obtain ⟨hnext, hd', hrest⟩ := hcompletes
      rw [← hbytes] at hrest
      have hfeed : feed .start (some b' :: l ++ some b :: rest)
          = feed (Decoder.start.next b').2 (l ++ some b :: rest) := by
        rw [List.cons_append, feed, hnext, List.nil_append]
      rw [hfeed]
      have hcuts : (∀ p ∈ cuts (some b' :: l), p = 0) ↔ cuts l = [] := by
        simp [cuts, List.eq_nil_iff_forall_not_mem]
      rw [hcuts]
      exact feed_inside hd' hrest htails

/-- A text is decoded to itself if no piece ends inside a character; if one does some of its
    characters are replaced, by more than one each, but never a newline, which is one byte. -/
theorem feed_encode {text : List Char} {events : List (Option UInt8)}
    (h : events.reduceOption = encode text) (rest : List (Option UInt8)) :
    ((∀ p ∈ cuts events, Boundary text p) ∧
        feed .start (events ++ rest) = text ++ feed .start rest) ∨
      (¬∀ p ∈ cuts events, Boundary text p) ∧ ∃ decoded,
        feed .start (events ++ rest) = decoded ++ feed .start rest ∧
          (∀ c ∈ decoded, c ∈ text ∨ c = replacement) ∧
          decoded.count '\n' = text.count '\n' ∧
          text.count replacement < decoded.count replacement := by
  induction text generalizing events with
  | nil =>
    -- Nothing but cuts.
    refine .inl ⟨fun p hp => ?_, ?_⟩
    · have hle := le_of_mem_cuts hp
      rw [h] at hle
      exact boundary_nil.mpr (Nat.le_zero.mp hle)
    · exact (feed_tails (by rw [h]; exact nofun)).trans (by rw [h]; rfl)
  | cons c text ih =>
    rw [encode_cons] at h
    obtain ⟨l, b, l', rfl, hl, hl'⟩ := exists_split h String.utf8EncodeChar_ne_nil
    have hlength : l.reduceOption.length + 1 = (String.utf8EncodeChar c).length := by
      rw [← hl, List.reduceOption_append, List.length_append]
      rfl
    have hcuts : (∀ p ∈ cuts (l ++ some b :: l'), Boundary (c :: text) p) ↔
        (∀ p ∈ cuts l, p = 0) ∧ ∀ p ∈ cuts l', Boundary text p := by
      rw [cuts_append, List.forall_mem_append]
      refine and_congr ?_ ?_
      · refine forall₂_congr fun p hp => ?_
        have hle := le_of_mem_cuts hp
        rw [boundary_cons]
        exact or_iff_left fun ⟨q, hq, _⟩ => by omega
      · simp only [cuts, List.forall_mem_map]
        refine forall₂_congr fun p hp => ?_
        rw [boundary_cons]
        constructor
        · rintro (hzero | ⟨q, hq, htext⟩)
          · omega
          · exact (by omega : p = q) ▸ htext
        · exact fun htext => .inr ⟨p, by omega, htext⟩
    rw [hcuts, List.append_assoc, List.cons_append]
    rcases feed_char hl (l' ++ rest) with ⟨hzero, hchar⟩ | ⟨hzero, k, hk, hchar⟩
    · rw [hchar]
      rcases ih hl' with ⟨hbound, htext⟩ | ⟨hbound, decoded, htext, hmem, hnewline, hcount⟩
      · exact .inl ⟨⟨hzero, hbound⟩, by rw [htext]; rfl⟩
      · refine .inr ⟨fun hall => hbound hall.2, c :: decoded, by rw [htext]; rfl, ?_, ?_, ?_⟩
        · intro x hx
          rcases List.mem_cons.mp hx with rfl | hx
          · exact .inl List.mem_cons_self
          · exact (hmem x hx).imp_left (List.mem_cons_of_mem c)
        · rw [List.count_cons, List.count_cons, hnewline]
        · rw [List.count_cons, List.count_cons]
          omega
    · refine .inr ⟨fun hall => hzero hall.1, ?_⟩
      have hone : (c :: text).count replacement ≤ text.count replacement + 1 := by
        rw [List.count_cons]
        split <;> omega
      obtain ⟨decoded, htext, hmem, hnewline, hcount⟩ : ∃ decoded,
          feed .start (l' ++ rest) = decoded ++ feed .start rest ∧
            (∀ c ∈ decoded, c ∈ text ∨ c = replacement) ∧
            decoded.count '\n' = text.count '\n' ∧
            text.count replacement ≤ decoded.count replacement := by
        rcases ih hl' with ⟨-, htext⟩ | ⟨-, decoded, htext, hmem, hnewline, hcount⟩
        · exact ⟨text, htext, fun x hx => .inl hx, rfl, Nat.le_refl _⟩
        · exact ⟨decoded, htext, hmem, hnewline, Nat.le_of_lt hcount⟩
      have hc : c ≠ '\n' := by
        rintro rfl
        have hone : (String.utf8EncodeChar '\n').length = 1 := rfl
        exact hzero fun p hp => by
          have hle := le_of_mem_cuts hp
          omega
      refine ⟨List.replicate k replacement ++ decoded, ?_, ?_, ?_, ?_⟩
      · rw [hchar, htext, List.append_assoc]
      · intro x hx
        rcases List.mem_append.mp hx with hx | hx
        · exact .inr (List.eq_of_mem_replicate hx)
        · exact (hmem x hx).imp_left (List.mem_cons_of_mem c)
      · rw [List.count_append, List.count_replicate, if_neg (by decide), hnewline, Nat.zero_add,
          List.count_cons_of_ne hc]
      · rw [List.count_append, List.count_replicate_self]
        omega

/-- Bytes that are still to come change nothing of what has been decoded. -/
theorem feed_before (d : Decoder) (events events' : List (Option UInt8)) :
    feed d events <+: feed d (events ++ events') := by
  induction events generalizing d with
  | nil => exact List.nil_prefix
  | cons event events ih =>
    cases event with
    | none => exact List.prefix_append_right_inj _ |>.mpr (ih .start)
    | some b => exact List.prefix_append_right_inj _ |>.mpr (ih (d.next b).2)

/-- From bytes that begin a text come characters of it and replacement characters. -/
theorem mem_feed {text : List Char} {events : List (Option UInt8)}
    (h : events.reduceOption <+: encode text) {c : Char} (hc : c ∈ feed .start events) :
    c ∈ text ∨ c = replacement := by
  obtain ⟨more, hmore⟩ := h
  have hevents : (events ++ more.map some).reduceOption = encode text := by
    rw [List.reduceOption_append, ← hmore, reduceOption_map_some]
  have hmem := (feed_before .start events (more.map some)).subset hc
  rcases feed_encode hevents [] with ⟨-, hfeed⟩ | ⟨-, decoded, hfeed, hdecoded, -⟩
  · rw [List.append_nil] at hfeed
    rw [hfeed] at hmem
    exact .inl (by simpa [feed] using hmem)
  · rw [List.append_nil] at hfeed
    rw [hfeed] at hmem
    exact hdecoded c (by simpa [feed] using hmem)

/-! ## Pieces -/

/-- Pieces of bytes, their ends marked. -/
def marked (pieces : List (List UInt8)) : List (Option UInt8) :=
  pieces.flatMap fun piece => piece.map some ++ [none]

theorem feed_piece (d : Decoder) (piece : List UInt8) (rest : List (Option UInt8)) :
    feed d (piece.map some ++ none :: rest) = d.decode piece ++ feed .start rest := by
  induction piece generalizing d with
  | nil => rfl
  | cons b piece ih =>
    rw [List.map_cons, List.cons_append, feed, ih, Decoder.decode, List.append_assoc]

/-- Pieces are decoded one by one. -/
theorem feed_marked (pieces : List (List UInt8)) :
    feed .start (marked pieces) = pieces.flatMap fromUtf8Lossy := by
  induction pieces with
  | nil => rfl
  | cons piece pieces ih =>
    rw [marked, List.flatMap_cons, List.append_assoc, List.flatMap_cons, ← ih]
    exact feed_piece .start piece _

theorem reduceOption_marked (pieces : List (List UInt8)) :
    (marked pieces).reduceOption = pieces.flatten := by
  induction pieces with
  | nil => rfl
  | cons piece pieces ih =>
    rw [marked, List.flatMap_cons, List.reduceOption_append, List.reduceOption_append,
      reduceOption_map_some, List.flatten_cons, ← ih]
    simp [marked, List.reduceOption]

/-- Whole texts are decoded to themselves. -/
theorem fromUtf8Lossy_encode (text : List Char) : fromUtf8Lossy (encode text) = text := by
  have hfeed := feed_piece .start (encode text) []
  have hevents : ((encode text).map some).reduceOption = encode text := reduceOption_map_some _
  have hcuts : cuts ((encode text).map some) = [] := by
    generalize encode text = bytes
    induction bytes with
    | nil => rfl
    | cons b bytes ih => simp [cuts, ih]
  rcases feed_encode hevents [none] with ⟨-, htext⟩ | ⟨hbound, -⟩
  · rw [htext] at hfeed
    unfold fromUtf8Lossy
    simpa [feed, Decoder.flush] using hfeed.symm
  · exact absurd (by rw [hcuts]; exact nofun) hbound

/-! ## A text that breaks off -/

/-- The characters of a text that are whole within its first `n` bytes. -/
def textWithin (n : ℕ) : List Char → List Char
  | [] => []
  | c :: text =>
    if (String.utf8EncodeChar c).length ≤ n then
      c :: textWithin (n - (String.utf8EncodeChar c).length) text
    else []

/-- Where a text breaks off has nothing to do with what is whole before. -/
theorem exists_of_textWithin {n : ℕ} {text t u : List Char} (h : textWithin n text = t ++ u) :
    ∃ rest, text = t ++ rest ∧ (encode t).length ≤ n ∧ u = textWithin (n - (encode t).length) rest := by
  induction t generalizing n text with
  | nil => exact ⟨text, rfl, Nat.zero_le n, h.symm⟩
  | cons c t ih =>
    cases text with
    | nil => cases h
    | cons c' text =>
      unfold textWithin at h
      split at h
      · rename_i hle
        rw [List.cons_append, List.cons.injEq] at h
        obtain ⟨rfl, h⟩ := h
        obtain ⟨rest, rfl, hlength, hu⟩ := ih h
        refine ⟨rest, rfl, ?_, ?_⟩
        · rw [encode_cons, List.length_append]
          omega
        · rw [hu, encode_cons, List.length_append, Nat.sub_sub]
      · cases h

/-- The bytes at which a text breaks off begin a text without newline if the whole characters do. -/
theorem exists_no_newline {n : ℕ} {text : List Char} (h : '\n' ∉ textWithin n text) :
    ∃ t, '\n' ∉ t ∧ (encode text).take n <+: encode t := by
  induction text generalizing n with
  | nil => exact ⟨[], List.not_mem_nil, List.take_prefix _ _⟩
  | cons c text ih =>
    unfold textWithin at h
    split at h
    case isTrue hle =>
      obtain ⟨hc, htext⟩ := not_or.mp (mt List.mem_cons.mpr h)
      obtain ⟨t, ht, hpre⟩ := ih htext
      refine ⟨c :: t, fun hmem => (List.mem_cons.mp hmem).elim hc ht, ?_⟩
      rw [encode_cons, encode_cons, List.take_append, List.take_of_length_le hle]
      exact (List.prefix_append_right_inj _).mpr hpre
    case isFalse hlt =>
      by_cases hn : n = 0
      · refine ⟨[], List.not_mem_nil, ?_⟩
        rw [hn, List.take_zero]
        exact List.nil_prefix
      · -- A newline has one byte, so this is another character.
        refine ⟨[c], ?_, ?_⟩
        · intro hmem
          rw [← List.mem_singleton.mp hmem] at hlt
          exact hlt (Nat.one_le_iff_ne_zero.mpr hn)
        · rw [encode_cons, encode_cons, encode_nil, List.append_nil, List.take_append_of_le_length
            (Nat.le_of_not_le hlt)]
          exact List.take_prefix _ _

/-! ## Strict decoding -/

/-- `str::from_utf8`: the text whose encoding the bytes are, if there is one. -/
def fromUtf8 (bytes : List UInt8) : Option (List Char) :=
  if encode (fromUtf8Lossy bytes) = bytes then some (fromUtf8Lossy bytes) else none

theorem fromUtf8_eq_some {bytes : List UInt8} {text : List Char} :
    fromUtf8 bytes = some text ↔ encode text = bytes := by
  constructor
  · intro h
    unfold fromUtf8 at h
    split at h
    · rename_i heq
      cases h
      exact heq
    · cases h
  · rintro rfl
    rw [fromUtf8, fromUtf8Lossy_encode, if_pos rfl]

end CryptoNav.Lib
