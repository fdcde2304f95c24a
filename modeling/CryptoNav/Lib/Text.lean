import Mathlib.Algebra.BigOperators.Group.List.Basic
import Mathlib.Algebra.Ring.Nat
import Mathlib.Data.List.DropRight
import Mathlib.Data.Nat.Notation

/-!
# Texts and byte positions

A text is a list of characters, and a position in it a number of bytes in UTF-8. Searches give
positions; a slice at a position that is not between two characters, or at two that are in the wrong
order, stops the program. A position that a search gave is between two characters (`find_eq_some`),
and what is before and after it can be taken (`sliceFrom_append`, `sliceTo_append`).

Positions are bytes because that is what the searches of the modelled language return and its
slices take, and a program can therefore go wrong by doing arithmetic on them: `+ 1` behind a
character of two bytes lands inside it. `Panic` makes that an outcome. Patterns are texts or
tests of a character; there are no regular expressions and no normal forms, and the only
capitals are those of `Char.toUpper`, which changes the letters of ASCII and leaves every other
character alone.
-/

set_option autoImplicit false

namespace CryptoNav.Lib

/-- The bytes that a text takes. -/
def byteLen (text : List Char) : ℕ := (text.map Char.utf8Size).sum

@[simp] theorem byteLen_nil : byteLen [] = 0 := rfl

@[simp] theorem byteLen_cons (c : Char) (text : List Char) :
    byteLen (c :: text) = c.utf8Size + byteLen text := by
  rw [byteLen, List.map_cons, List.sum_cons, byteLen]

@[simp] theorem byteLen_append (text text' : List Char) :
    byteLen (text ++ text') = byteLen text + byteLen text' := by
  rw [byteLen, List.map_append, List.sum_append, byteLen, byteLen]

/-! ## Capitals -/

/-- Only the ASCII letters have another upper case. -/
theorem toUpper_cases (c : Char) : c.toUpper = c ∨
    (97 ≤ c.toNat ∧ c.toNat ≤ 122) ∧ 65 ≤ c.toUpper.toNat ∧ c.toUpper.toNat ≤ 90 := by
  unfold Char.toUpper
  split
  · right
    rename_i h
    have hlo : 97 ≤ c.toNat := h.1
    have hhi : c.toNat ≤ 122 := h.2
    have hval : (c.val + ('A'.val - 'a'.val)).toNat = c.toNat - 32 := by
      have hshift : ('A'.val - 'a'.val).toNat = 2 ^ 32 - 32 := by decide
      have hc : c.val.toNat = c.toNat := rfl
      rw [UInt32.toNat_add]
      omega
    refine ⟨⟨hlo, hhi⟩, ?_⟩
    rw [Char.toNat, hval]
    omega
  · exact .inl rfl

theorem toUpper_toUpper (c : Char) : c.toUpper.toUpper = c.toUpper := by
  rcases toUpper_cases c with h | ⟨-, -, hhi⟩
  · rw [h, h]
  · rcases toUpper_cases c.toUpper with h | ⟨⟨hlo, -⟩, -⟩
    · exact h
    · omega

/-! ## Searches -/

/-- `str::split_once` -/
def splitOnce (pattern : List Char) : List Char → Option (List Char × List Char)
  | [] => if pattern = [] then some ([], []) else none
  | c :: text =>
    if pattern.isPrefixOf (c :: text) then some ([], (c :: text).drop pattern.length)
    else (splitOnce pattern text).map fun found => (c :: found.1, found.2)

/-- `str::contains` -/
def contains (pattern text : List Char) : Bool := (splitOnce pattern text).isSome

/-- `str::find` of a text -/
def find (pattern text : List Char) : Option ℕ :=
  (splitOnce pattern text).map fun found => byteLen found.1

/-- `str::find` of a character of a kind -/
def findChar (p : Char → Bool) (text : List Char) : Option ℕ :=
  if text.any p then some (byteLen (text.takeWhile fun c => !p c)) else none

/-- `str::rsplit_once` at a character -/
def rsplitOnce (c : Char) (text : List Char) : Option (List Char × List Char) :=
  if c ∈ text then some ((text.rdropWhile (· ≠ c)).dropLast, text.rtakeWhile (· ≠ c)) else none

theorem rsplitOnce_append {c : Char} {after : List Char} (h : c ∉ after) (before : List Char) :
    rsplitOnce c (before ++ c :: after) = some (before, after) := by
  have hafter : ∀ d ∈ after.reverse, decide (d ≠ c) = true :=
    fun d hd => decide_eq_true fun heq => h (heq ▸ List.mem_reverse.mp hd)
  have hreverse : (before ++ c :: after).reverse = after.reverse ++ c :: before.reverse := by simp
  rw [rsplitOnce, if_pos (by simp), List.rdropWhile, List.rtakeWhile, hreverse,
    List.dropWhile_append_of_pos hafter, List.takeWhile_append_of_pos hafter,
    List.dropWhile_cons_of_neg (by simp), List.takeWhile_cons_of_neg (by simp)]
  simp

theorem splitOnce_eq_some {pattern text before after : List Char}
    (h : splitOnce pattern text = some (before, after)) : text = before ++ (pattern ++ after) := by
  induction text generalizing before with
  | nil =>
    unfold splitOnce at h
    split at h
    · cases h
      subst ‹pattern = []›
      rfl
    · cases h
  | cons c text ih =>
    unfold splitOnce at h
    split at h
    · rename_i hpre
      obtain ⟨rest, hrest⟩ := List.isPrefixOf_iff_prefix.mp hpre
      cases h
      rw [← hrest, List.drop_left, List.nil_append]
    · obtain ⟨⟨before', after'⟩, hfound, heq⟩ := Option.map_eq_some_iff.mp h
      cases heq
      rw [List.cons_append, ← ih hfound]

/-- The first place is found. -/
theorem splitOnce_first {pattern text before after : List Char}
    (h : splitOnce pattern text = some (before, after)) {before' after' : List Char}
    (h' : text = before' ++ (pattern ++ after')) : before.length ≤ before'.length := by
  induction text generalizing before before' with
  | nil =>
    rw [(List.append_eq_nil_iff.mp (splitOnce_eq_some h).symm).1]
    exact Nat.zero_le _
  | cons c text ih =>
    unfold splitOnce at h
    split at h
    · cases h
      exact Nat.zero_le _
    · rename_i hpre
      obtain ⟨⟨first, rest⟩, hfound, heq⟩ := Option.map_eq_some_iff.mp h
      cases heq
      cases before' with
      | nil => exact absurd (List.isPrefixOf_iff_prefix.mpr ⟨after', h'.symm⟩) hpre
      | cons c' before' => exact Nat.succ_le_succ (ih hfound (List.cons.inj h').2)

theorem splitOnce_eq_none {pattern text : List Char} (h : splitOnce pattern text = none)
    (before after : List Char) : text ≠ before ++ (pattern ++ after) := by
  induction text generalizing before with
  | nil =>
    intro heq
    obtain ⟨-, hnil⟩ := List.append_eq_nil_iff.mp heq.symm
    unfold splitOnce at h
    rw [if_pos (List.append_eq_nil_iff.mp hnil).1] at h
    cases h
  | cons c text ih =>
    intro heq
    unfold splitOnce at h
    split at h
    · cases h
    · rename_i hpre
      cases before with
      | nil => exact hpre (List.isPrefixOf_iff_prefix.mpr ⟨after, heq.symm⟩)
      | cons c' before => exact ih (Option.map_eq_none_iff.mp h) before (List.cons.inj heq).2

theorem find_eq_some {pattern text : List Char} {n : ℕ} (h : find pattern text = some n) :
    ∃ before after, splitOnce pattern text = some (before, after) ∧ n = byteLen before := by
  obtain ⟨⟨before, after⟩, hfound, rfl⟩ := Option.map_eq_some_iff.mp h
  exact ⟨before, after, hfound, rfl⟩

theorem findChar_append {p : Char → Bool} {before : List Char} (h : ∀ c ∈ before, p c = false)
    {c : Char} (hc : p c) (after : List Char) :
    findChar p (before ++ c :: after) = some (byteLen before) := by
  have hbefore : before.takeWhile (fun c => !p c) = before :=
    List.takeWhile_eq_self_iff.mpr fun d hd => by rw [h d hd]; rfl
  rw [findChar, if_pos (List.any_eq_true.mpr ⟨c, by simp, hc⟩), List.takeWhile_append, hbefore,
    if_pos rfl, List.takeWhile_cons_of_neg (by simp [hc]), List.append_nil]

theorem findChar_eq_none {p : Char → Bool} {text : List Char} (h : ∀ c ∈ text, p c = false) :
    findChar p text = none := by
  rw [findChar, if_neg]
  rw [List.any_eq_true]
  rintro ⟨c, hc, hpc⟩
  rw [h c hc] at hpc
  cases hpc

theorem decide_eq_of_not_mem {c : Char} {text : List Char} (h : c ∉ text) :
    ∀ d ∈ text, decide (d = c) = false := fun _ hd =>
  decide_eq_false (ne_of_mem_of_not_mem hd h)

theorem eq_false_of_any {p : Char → Bool} {text : List Char} (h : text.any p = false) :
    ∀ c ∈ text, p c = false := fun c hc =>
  eq_false_of_ne_true (List.any_eq_false.mp h c hc)

theorem findChar_eq_some {c : Char} {text : List Char} {n : ℕ}
    (h : findChar (· = c) text = some n) :
    ∃ before after, text = before ++ c :: after ∧ c ∉ before ∧ n = byteLen before := by
  by_cases hc : c ∈ text
  · obtain ⟨before, after, rfl, hbefore⟩ := List.eq_append_cons_of_mem hc
    rw [findChar_append (decide_eq_of_not_mem hbefore) (decide_eq_true rfl)] at h
    exact ⟨before, after, rfl, hbefore, (Option.some.inj h).symm⟩
  · rw [findChar_eq_none (decide_eq_of_not_mem hc)] at h
    cases h

/-- A text up to the first character of a kind. -/
theorem exists_stretch (p : Char → Bool) (text : List Char) : ∃ stretch rest,
    text = stretch ++ rest ∧ (∀ c ∈ stretch, p c = false) ∧ ∀ c ∈ rest.head?, p c := by
  refine ⟨text.takeWhile fun c => !p c, text.dropWhile fun c => !p c,
    List.takeWhile_append_dropWhile.symm, ?_, ?_⟩
  · intro c hc
    simpa using List.mem_takeWhile_imp hc
  · intro c hc
    have hhead := List.head?_dropWhile_not (fun c => !p c) text
    rw [hc] at hhead
    simpa using hhead

/-- Where it ends, or else the end of the text. -/
theorem stretch_getD {p : Char → Bool} {stretch rest : List Char}
    (hstretch : ∀ c ∈ stretch, p c = false) (hrest : ∀ c ∈ rest.head?, p c) :
    (findChar p (stretch ++ rest)).getD (byteLen (stretch ++ rest)) = byteLen stretch := by
  cases rest with
  | nil =>
    rw [List.append_nil, findChar_eq_none hstretch]
    rfl
  | cons c rest =>
    rw [findChar_append hstretch (hrest c rfl)]
    rfl

theorem stretch_end {p : Char → Bool} {stretch rest : List Char}
    (hstretch : ∀ c ∈ stretch, p c = false) (hrest : ∀ c ∈ rest.head?, p c) {start whole : ℕ}
    (hwhole : whole = start + byteLen (stretch ++ rest)) :
    ((findChar p (stretch ++ rest)).map (start + ·)).getD whole = start + byteLen stretch := by
  rw [hwhole, ← stretch_getD hstretch hrest, Option.getD_map (start + ·)]

/-- A text taken apart at two characters. -/
theorem split_trichotomy {α : Type*} {a b : α} {x y x' y' : List α}
    (h : x ++ a :: y = x' ++ b :: y') :
    (x = x' ∧ a = b ∧ y = y') ∨ (∃ m, x' = x ++ a :: m ∧ y = m ++ b :: y') ∨
      ∃ m, x = x' ++ b :: m ∧ y' = m ++ a :: y := by
  rcases List.append_eq_append_iff.mp h with ⟨m, hx, hy⟩ | ⟨m, hx, hy⟩
  · cases m with
    | nil =>
      obtain ⟨rfl, rfl⟩ := List.cons.inj hy
      exact .inl ⟨(List.append_nil x).symm.trans hx.symm, rfl, rfl⟩
    | cons c m =>
      obtain ⟨rfl, hm⟩ := List.cons.inj hy
      exact .inr (.inl ⟨m, hx, hm⟩)
  · cases m with
    | nil =>
      obtain ⟨rfl, rfl⟩ := List.cons.inj hy
      exact .inl ⟨hx.trans (List.append_nil x'), rfl, rfl⟩
    | cons c m =>
      obtain ⟨rfl, hm⟩ := List.cons.inj hy
      exact .inr (.inr ⟨m, hx, hm⟩)

/-- A text of two parts taken apart at a character of the one or of the other. -/
theorem split_append {α : Type*} {c : α} {x y u v : List α} (h : x ++ y = u ++ c :: v) :
    (∃ m, x = u ++ c :: m ∧ v = m ++ y) ∨ ∃ m, u = x ++ m ∧ y = m ++ c :: v := by
  rcases List.append_eq_append_iff.mp h with hright | ⟨m, hx, hv⟩
  · exact .inr hright
  · cases m with
    | nil => exact .inr ⟨[], by rw [hx, List.append_nil, List.append_nil], hv.symm⟩
    | cons d m =>
      obtain ⟨rfl, hrest⟩ := List.cons.inj hv
      exact .inl ⟨m, hx, hrest⟩

theorem split_append_left {α : Type*} {c : α} {x y u v : List α} (h : x ++ y = u ++ c :: v)
    (hy : c ∉ y) : ∃ m, x = u ++ c :: m ∧ v = m ++ y := by
  rcases split_append h with hleft | ⟨m, -, rfl⟩
  · exact hleft
  · exact absurd (List.mem_append_right m List.mem_cons_self) hy

theorem split_append_right {α : Type*} {c : α} {x y u v : List α} (h : x ++ y = u ++ c :: v)
    (hx : c ∉ x) : ∃ m, u = x ++ m ∧ y = m ++ c :: v := by
  rcases split_append h with ⟨m, rfl, -⟩ | hright
  · exact absurd (List.mem_append_right u List.mem_cons_self) hx
  · exact hright

/-- A text without a character ends after the last one of it. -/
theorem suffix_of_not_mem {α : Type*} {c : α} {word x y : List α} (h : word <:+ x ++ c :: y)
    (hword : c ∉ word) : word <:+ y := by
  obtain ⟨u, hu⟩ := h
  obtain ⟨m, -, rfl⟩ := split_append_left hu hword
  exact List.suffix_append m word

/-- There is one way to take a text apart where a stretch ends. -/
theorem stretch_unique {p : Char → Bool} {stretch rest stretch' rest' : List Char}
    (h : stretch ++ rest = stretch' ++ rest') (hstretch : ∀ c ∈ stretch, p c = false)
    (hrest : ∀ c ∈ rest.head?, p c) (hstretch' : ∀ c ∈ stretch', p c = false)
    (hrest' : ∀ c ∈ rest'.head?, p c) : stretch = stretch' ∧ rest = rest' := by
  -- Where one stretch is longer, it goes on with the character that ends the other.
  have hlonger : ∀ {m end' : List Char}, (∀ c ∈ m, p c = false) → (∀ c ∈ (m ++ end').head?, p c) →
      m = [] := by
    intro m end' hm hend
    cases m with
    | nil => rfl
    | cons c m =>
      have hc := hm c List.mem_cons_self
      rw [hend c rfl] at hc
      cases hc
  rcases List.append_eq_append_iff.mp h with ⟨m, rfl, rfl⟩ | ⟨m, rfl, rfl⟩
  · obtain rfl := hlonger (fun c hc => hstretch' c (List.mem_append_right _ hc)) hrest
    exact ⟨(List.append_nil _).symm, rfl⟩
  · obtain rfl := hlonger (fun c hc => hstretch c (List.mem_append_right _ hc)) hrest'
    exact ⟨List.append_nil _, rfl⟩

/-! ## Slices -/

inductive Panic where
  | slice
  deriving DecidableEq

/-- A text in two at a position. -/
def cutAt : ℕ → List Char → Except Panic (List Char × List Char)
  | 0, text => .ok ([], text)
  | _ + 1, [] => .error .slice
  | n + 1, c :: text =>
    if c.utf8Size ≤ n + 1 then
      (cutAt (n + 1 - c.utf8Size) text).map fun cut => (c :: cut.1, cut.2)
    else .error .slice

/-- `&text[start..]` -/
def sliceFrom (start : ℕ) (text : List Char) : Except Panic (List Char) :=
  (cutAt start text).map Prod.snd

/-- `&text[..end]` -/
def sliceTo (ending : ℕ) (text : List Char) : Except Panic (List Char) :=
  (cutAt ending text).map Prod.fst

/-- `&text[start..end]` -/
def slice (start ending : ℕ) (text : List Char) : Except Panic (List Char) :=
  if start ≤ ending then sliceFrom start text >>= sliceTo (ending - start) else .error .slice

/-- `String::replace_range` -/
def replaceRange (start ending : ℕ) (replacement text : List Char) : Except Panic (List Char) := do
  let before ← sliceTo start text
  let _ ← slice start ending text
  let after ← sliceFrom ending text
  return before ++ (replacement ++ after)

theorem cutAt_append (before after : List Char) :
    cutAt (byteLen before) (before ++ after) = .ok (before, after) := by
  induction before with
  | nil =>
    rw [byteLen_nil, List.nil_append, cutAt]
  | cons c before ih =>
    have hpos := Char.utf8Size_pos c
    obtain ⟨n, hn⟩ : ∃ n, byteLen (c :: before) = n + 1 :=
      Nat.exists_eq_add_one.mpr (by rw [byteLen_cons]; omega)
    rw [hn, List.cons_append, cutAt, if_pos, ← hn]
    · rw [byteLen_cons, Nat.add_sub_cancel_left, ih]
      rfl
    · rw [← hn, byteLen_cons]
      omega

theorem sliceFrom_append (before after : List Char) :
    sliceFrom (byteLen before) (before ++ after) = .ok after := by
  rw [sliceFrom, cutAt_append]
  rfl

theorem sliceTo_append (before after : List Char) :
    sliceTo (byteLen before) (before ++ after) = .ok before := by
  rw [sliceTo, cutAt_append]
  rfl

theorem slice_append (before text after : List Char) :
    slice (byteLen before) (byteLen before + byteLen text) (before ++ (text ++ after))
      = .ok text := by
  rw [slice, if_pos (Nat.le_add_right _ _), sliceFrom_append, Nat.add_sub_cancel_left]
  exact sliceTo_append text after

/-- Two positions in the wrong order. -/
theorem slice_of_lt {start ending : ℕ} (h : ending < start) (text : List Char) :
    slice start ending text = .error .slice := by
  rw [slice, if_neg (Nat.not_le.mpr h)]

theorem replaceRange_append (before text replacement after : List Char) :
    replaceRange (byteLen before) (byteLen before + byteLen text) replacement
      (before ++ (text ++ after)) = .ok (before ++ (replacement ++ after)) := by
  have hafter : sliceFrom (byteLen before + byteLen text) (before ++ (text ++ after)) = .ok after := by
    rw [← List.append_assoc, ← byteLen_append]
    exact sliceFrom_append _ _
  rw [replaceRange, sliceTo_append, slice_append, hafter]
  rfl

end CryptoNav.Lib
