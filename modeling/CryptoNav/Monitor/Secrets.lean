import CryptoNav.Monitor.Redact

/-!
# What is left of a secret

In the text that `redact_and_truncate` truncates, every key is followed by `<redacted>`, and so is
the `?` of every `http://` URL; of an `https://` URL too, where no `http://` comes after one
(`redaction_covers`). A value ends at a closing bracket, and so does a URL.

A text that is redacted is not changed by redacting it again, unless the search for a `?` goes
beyond a URL.

The two relations of `Redact` say what a text has become; here they are read as what can no
longer be found in it. A value that ends at a bracket is as much a decision of the source as the
list of the keys, and a secret that goes on behind the bracket is not covered. Truncation comes
last and may cut a marker in half, which is why the statement is about the text before it.
-/

set_option autoImplicit false

namespace CryptoNav.Monitor

open CryptoNav.Lib
open CryptoNav.History.Raw (isWhitespace)

/-! ## Redacted values -/

/-- `<redacted>`, and then the end or a character that ends what is redacted. What comes after that
    character is text again. -/
def RedactedUpTo (ends : Char → Bool) (text : List Char) : Prop :=
  ∃ rest, text = redacted ++ rest ∧ ∀ c ∈ rest.head?, ends c

/-- Every value of the key is redacted. The key may occur inside a longer word, which is covered as
    well. -/
def KeyCovered (key text : List Char) : Prop :=
  ∀ before after, text = before ++ (key ++ after) → RedactedUpTo endsValue after

variable {ends : Char → Bool}

theorem head?_append_cons {c : Char} {m x y : List Char} :
    (m ++ c :: x).head? = (m ++ c :: y).head? := by
  cases m with
  | nil => rfl
  | cons d m => rfl

/-- What comes after another character does not matter. -/
theorem RedactedUpTo.congr {c : Char} (hc : c ∉ redacted) {m x : List Char}
    (h : RedactedUpTo ends (m ++ c :: x)) (y : List Char) : RedactedUpTo ends (m ++ c :: y) := by
  obtain ⟨rest, hsplit, hrest⟩ := h
  obtain ⟨m', rfl, rfl⟩ := split_append_right hsplit.symm hc
  refine ⟨m' ++ c :: y, List.append_assoc _ _ _, ?_⟩
  rwa [@head?_append_cons c m' y x]

/-- Nor do spaces at the end. -/
theorem RedactedUpTo.of_append {text spaces : List Char}
    (hspaces : ∀ c ∈ spaces, c ∉ redacted) (h : RedactedUpTo ends (text ++ spaces)) :
    RedactedUpTo ends text := by
  obtain ⟨rest, hsplit, hrest⟩ := h
  rcases List.append_eq_append_iff.mp hsplit with ⟨m, hredacted, rfl⟩ | ⟨m, rfl, rfl⟩
  · cases m with
    | nil => exact ⟨[], by rw [hredacted, List.append_nil, List.append_nil], by simp⟩
    | cons c m =>
      refine absurd ?_ (hspaces c List.mem_cons_self)
      rw [hredacted]
      exact List.mem_append_right _ List.mem_cons_self
  · refine ⟨m, rfl, ?_⟩
    cases m with
    | nil => simp
    | cons c m => exact hrest

/-! ## Keys -/

/-- A text with its only `=` at the end, and nothing that the redaction is recognised by. All keys
    of the source are such, which is what the proofs use of them. -/
structure IsKey (name : List Char) : Prop where
  equals : '=' ∉ name
  closing : '>' ∉ name
  query : '?' ∉ name

theorem redactedKeys_isKey : ∀ key ∈ redactedKeys, ∃ name, key = name ++ ['='] ∧ IsKey name := by
  intro key hkey
  have hshape : ∀ key ∈ redactedKeys, key = key.dropLast ++ ['='] ∧ '=' ∉ key.dropLast ∧
      '>' ∉ key.dropLast ∧ '?' ∉ key.dropLast := by decide
  obtain ⟨hsplit, hequals, hclosing, hquery⟩ := hshape key hkey
  exact ⟨_, hsplit, hequals, hclosing, hquery⟩

/-- Redacting begins as what it redacts does. -/
theorem KeyRedacted.head? {key rest out : List Char} (h : KeyRedacted key rest out)
    (hkey : key ≠ []) : out.head? = rest.head? := by
  cases h with
  | noKey h => rfl
  | @value rest before value rest' out h hvalue hend hout =>
    rw [splitOnce_eq_some h]
    cases before with
    | cons c before => rfl
    | nil =>
      cases key with
      | nil => exact absurd rfl hkey
      | cons c key => rfl

/-- **A key's values are covered** by redacting it, and stay so when other keys are redacted. -/
theorem KeyRedacted.covered {name rest out : List Char} (hname : IsKey name)
    (h : KeyRedacted (name ++ ['=']) rest out) {name' : List Char} (hname' : IsKey name')
    (hk : name' = name ∨ KeyCovered (name' ++ ['=']) rest) :
    KeyCovered (name' ++ ['=']) out := by
  have hequals : '=' ∉ redacted := by decide
  induction h with
  | noKey h =>
    rcases hk with rfl | hcovered
    · exact fun before after heq => absurd heq (splitOnce_eq_none h before after)
    · exact hcovered
  | @value rest before value rest' out h hvalue hend hredacted ih =>
    have hrest := splitOnce_eq_some h
    -- The rest of the text is as well covered as the text.
    have hout : KeyCovered (name' ++ ['=']) out := by
      refine ih (hk.imp_right fun hcovered x y heq => ?_)
      refine hcovered (before ++ (name ++ ['='] ++ (value ++ x))) y ?_
      rw [hrest, heq]
      simp only [List.append_assoc]
    intro x y heq
    have hpivot : before ++ (name ++ '=' :: (redacted ++ out)) = (x ++ name') ++ '=' :: y := by
      simpa only [List.append_assoc, List.singleton_append] using heq
    rcases split_append hpivot with ⟨m, rfl, rfl⟩ | ⟨m, hm, hpivot⟩
    · -- Before the first value that is redacted.
      have hfirst : rest = x ++ (name' ++ ['='] ++ (m ++ (name ++ '=' :: (value ++ rest')))) := by
        rw [hrest]
        simp only [List.append_assoc, List.cons_append, List.nil_append]
      rcases hk with rfl | hcovered
      · have hle := splitOnce_first h hfirst
        simp only [List.length_append, List.length_cons] at hle
        omega
      · have hvalue := hcovered x _ hfirst
        rw [← List.append_assoc] at hvalue ⊢
        exact hvalue.congr hequals _
    rcases split_trichotomy hpivot with ⟨-, -, rfl⟩ | ⟨m', rfl, hbehind⟩ | ⟨m', rfl, -⟩
    · -- The value itself.
      refine ⟨out, rfl, ?_⟩
      rwa [hredacted.head? (by simp)]
    · -- Behind it.
      obtain ⟨m, rfl, rfl⟩ := split_append_right hbehind hequals
      have hsuffix : name' <:+ (before ++ (name ++ '=' :: "<redacted".toList)) ++ '>' :: m := by
        refine ⟨x, hm.trans ?_⟩
        simp only [List.append_assoc, List.cons_append]
        rfl
      obtain ⟨x', rfl⟩ := suffix_of_not_mem hsuffix hname'.closing
      exact hout x' y (by simp only [List.append_assoc, List.singleton_append])
    · exact absurd (List.mem_append_right m List.mem_cons_self) hname.equals

theorem KeysRedacted.covered {keys : List (List Char)} {text out : List Char}
    (h : KeysRedacted keys text out)
    (hkeys : ∀ key ∈ keys, ∃ name, key = name ++ ['='] ∧ IsKey name) {name : List Char}
    (hname : IsKey name) (hk : name ++ ['='] ∈ keys ∨ KeyCovered (name ++ ['=']) text) :
    KeyCovered (name ++ ['=']) out := by
  induction h with
  | nil => exact hk.resolve_left List.not_mem_nil
  | @cons key text text' out keys h hout ih =>
    obtain ⟨⟨name', rfl, hname'⟩, hrest⟩ := List.forall_mem_cons.mp hkeys
    refine ih hrest ?_
    rcases hk with hmem | hcovered
    · rcases List.mem_cons.mp hmem with heq | hmem
      · exact .inr (h.covered hname' hname (.inl (List.append_cancel_right heq)))
      · exact .inl hmem
    · exact .inr (h.covered hname' hname (.inr hcovered))

theorem KeyCovered.of_append {key before text : List Char} (h : KeyCovered key (before ++ text)) :
    KeyCovered key text := by
  intro x y heq
  refine h (before ++ x) y ?_
  rw [heq, List.append_assoc]

/-- The stretch that is redacted once more is the redaction. -/
theorem RedactedUpTo.eq_redacted {stretch rest : List Char}
    (hredacted : ∀ c ∈ redacted, ends c = false) (hstretch : ∀ c ∈ stretch, ends c = false)
    (hrest : ∀ c ∈ rest.head?, ends c) (h : RedactedUpTo ends (stretch ++ rest)) :
    stretch = redacted := by
  obtain ⟨rest', hsplit, hrest'⟩ := h
  exact (stretch_unique hsplit hstretch hrest hredacted hrest').1

theorem KeyRedacted.eq_of_covered {key rest out : List Char} (h : KeyRedacted key rest out)
    (hcovered : KeyCovered key rest) : out = rest := by
  induction h with
  | noKey h => rfl
  | @value rest before value rest' out h hvalue hend hout ih =>
    have hrest := splitOnce_eq_some h
    have hvalue := (hcovered before _ hrest).eq_redacted (eq_false_of_any (by decide)) hvalue hend
    have hsame : out = rest' := by
      refine ih (@KeyCovered.of_append key (before ++ (key ++ value)) rest' ?_)
      rw [hrest] at hcovered
      simpa only [List.append_assoc] using hcovered
    rw [hrest, hvalue, hsame]

theorem KeysRedacted.eq_of_covered {keys : List (List Char)} {text out : List Char}
    (h : KeysRedacted keys text out) (hcovered : ∀ key ∈ keys, KeyCovered key text) :
    out = text := by
  induction h with
  | nil => rfl
  | cons h hout ih =>
    obtain ⟨hkey, hkeys⟩ := List.forall_mem_cons.mp hcovered
    obtain rfl := h.eq_of_covered hkey
    exact ih hkeys

/-! ## URLs -/

/-- The text ends in a URL: after its scheme comes nothing that ends it. A `?` that follows begins
    its query. -/
def InUrl (scheme before : List Char) : Prop :=
  ∃ path, scheme ++ path <:+ before ∧ ∀ c ∈ path, endsQuery c = false

/-- No `http://` comes after an `https://`. Else the search for `http://` passes over the other,
    whose query then stays. -/
def HttpFirst (value : List Char) : Prop :=
  ∀ before after, value = before ++ (https ++ after) → ¬http <:+: after

def schemes : List (List Char) := [http, https]

/-- From `before` to `before'` stretches without an end are redacted. -/
inductive Covered : List Char → List Char → Prop where
  | same (before : List Char) : Covered before before
  | stretch {first stretch before before' : List Char}
      (hstretch : ∀ c ∈ stretch, endsQuery c = false) (h : Covered before before') :
      Covered (first ++ (stretch ++ before)) (first ++ (redacted ++ before'))

theorem Covered.no_end {before before' : List Char} (h : Covered before before')
    (hends : ∀ c ∈ before', endsQuery c = false) : ∀ c ∈ before, endsQuery c = false := by
  induction h with
  | same before => exact hends
  | stretch hstretch h ih =>
    simp only [List.forall_mem_append] at hends ⊢
    exact ⟨hends.1, hstretch, ih hends.2.2⟩

/-- What a scheme consists of. -/
theorem schemes_shape : ∀ scheme ∈ schemes, scheme = scheme.dropLast ++ ['/'] ∧ '>' ∉ scheme ∧
    '?' ∉ scheme ∧ scheme.any endsQuery = false := by decide

/-- A scheme in what is left was there before. -/
theorem Covered.scheme {before before' : List Char} (h : Covered before before')
    {scheme : List Char} (hscheme : scheme ∈ schemes) {path' : List Char}
    (hpath : scheme ++ path' <:+ before') :
    ∃ path, scheme ++ path <:+ before ∧ Covered path path' := by
  induction h with
  | same before => exact ⟨path', hpath, .same path'⟩
  | @stretch first stretch before before' hstretch h ih =>
    obtain ⟨hslash, hclosing, -, -⟩ := schemes_shape scheme hscheme
    obtain ⟨x, hx⟩ := hpath
    have hsplit : x ++ (scheme ++ path') = (first ++ "<redacted".toList) ++ '>' :: before' := by
      rw [hx, List.append_assoc]
      rfl
    rcases split_append hsplit with ⟨m, -, rfl⟩ | ⟨m, hfirst, hm⟩
    · -- The scheme comes after what is redacted.
      obtain ⟨path, hsuffix, hpath⟩ := ih (List.suffix_append _ _)
      refine ⟨path, hsuffix.trans ?_, hpath⟩
      rw [← List.append_assoc]
      exact List.suffix_append _ _
    · obtain ⟨m, rfl, rfl⟩ := split_append_right hm hclosing
      obtain ⟨word, rfl⟩ : ∃ word, scheme = word ++ ['/'] := ⟨_, hslash⟩
      rw [List.append_assoc, ← List.append_assoc x, List.singleton_append] at hfirst
      obtain ⟨m, rfl, rfl⟩ := split_append_left hfirst (by decide)
      refine ⟨m ++ (stretch ++ before), ⟨x, ?_⟩, ?_⟩
      · simp only [List.append_assoc, List.cons_append, List.nil_append]
      · rw [List.append_assoc]
        exact .stretch hstretch h

/-- No URL goes on in `before'`, or has begun there, that does not, or has not, in `before`. -/
def NoNewUrl (before before' : List Char) : Prop :=
  ∀ scheme ∈ schemes, (InUrl scheme before' → InUrl scheme before) ∧
    (scheme <:+: before' → scheme <:+: before)

theorem NoNewUrl.trans {before before' before'' : List Char} (h : NoNewUrl before before')
    (h' : NoNewUrl before' before'') : NoNewUrl before before'' := fun scheme hscheme =>
  ⟨fun hin => (h scheme hscheme).1 ((h' scheme hscheme).1 hin),
    fun hin => (h scheme hscheme).2 ((h' scheme hscheme).2 hin)⟩

theorem noNewUrl_append (before text : List Char) : NoNewUrl (before ++ text) text := by
  intro scheme _
  constructor
  · rintro ⟨path, hsuffix, hpath⟩
    exact ⟨path, hsuffix.trans (List.suffix_append _ _), hpath⟩
  · exact fun hinfix => hinfix.trans (List.suffix_append _ _).isInfix

theorem Covered.noNewUrl {before before' : List Char} (h : Covered before before') :
    NoNewUrl before before' := by
  intro scheme hscheme
  constructor
  · rintro ⟨path', hsuffix, hends⟩
    obtain ⟨path, hsuffix, hpath⟩ := h.scheme hscheme hsuffix
    exact ⟨path, hsuffix, hpath.no_end hends⟩
  · rintro ⟨x, path', heq⟩
    obtain ⟨path, hsuffix, -⟩ := h.scheme hscheme ⟨x, (List.append_assoc _ _ _).symm.trans heq⟩
    exact (List.prefix_append _ _).isInfix.trans hsuffix.isInfix

theorem InUrl.begun {scheme before : List Char} (h : InUrl scheme before) : scheme <:+: before := by
  obtain ⟨path, hsuffix, -⟩ := h
  exact (List.prefix_append _ _).isInfix.trans hsuffix.isInfix

/-- Over its end no URL goes on. -/
theorem InUrl.of_end {scheme x y : List Char} {c : Char} (hscheme : scheme ∈ schemes)
    (hc : endsQuery c) (h : InUrl scheme (x ++ c :: y)) : InUrl scheme y := by
  obtain ⟨path, hsuffix, hpath⟩ := h
  refine ⟨path, suffix_of_not_mem hsuffix fun hmem => ?_, hpath⟩
  have hno : endsQuery c = false := by
    rcases List.mem_append.mp hmem with hmem | hmem
    · exact eq_false_of_any (schemes_shape scheme hscheme).2.2.2 c hmem
    · exact hpath c hmem
  rw [hc] at hno
  cases hno

theorem HttpFirst.of_append {x y : List Char} (h : HttpFirst (x ++ y)) : HttpFirst y := by
  intro before after heq
  refine h (x ++ before) after ?_
  rw [heq, List.append_assoc]

/-- Before the first URL none has begun. -/
theorem FirstUrl.not_begun {rest first url before m : List Char} (h : FirstUrl rest first url)
    (hfirst : first = before ++ '?' :: m) :
    ¬http <:+: before ∧ (HttpFirst rest → ¬https <:+: before) := by
  have hearlier : ∀ {word after : List Char}, splitOnce word rest = some (first, after) →
      ¬word <:+: before := by
    rintro word after hfound ⟨x, y, rfl⟩
    have hrest : rest = x ++ (word ++ (y ++ '?' :: m ++ (word ++ after))) := by
      rw [splitOnce_eq_some hfound, hfirst]
      simp only [List.append_assoc]
    have hle := splitOnce_first hfound hrest
    rw [hfirst] at hle
    simp only [List.length_append, List.length_cons] at hle
    omega
  rcases h with ⟨after, hhttp, -⟩ | ⟨hnone, after, hhttps, -⟩
  · refine ⟨hearlier hhttp, ?_⟩
    rintro hfirstHttp ⟨x, y, rfl⟩
    refine hfirstHttp x (y ++ '?' :: m ++ (http ++ after)) ?_ ⟨y ++ '?' :: m, after, ?_⟩
    · rw [splitOnce_eq_some hhttp, hfirst]
      simp only [List.append_assoc]
    · simp only [List.append_assoc]
  · refine ⟨?_, fun _ => hearlier hhttps⟩
    rintro ⟨x, y, rfl⟩
    refine splitOnce_eq_none hnone x (y ++ '?' :: m ++ (https ++ after)) ?_
    rw [splitOnce_eq_some hhttps, hfirst]
    simp only [List.append_assoc]

theorem UrlRedacted.head? {rest out : List Char} (h : UrlRedacted rest out) :
    out.head? = rest.head? := by
  cases h with
  | noUrl h h' => rfl
  | noQuery h hurl => rfl
  | query h hpath hquery hend hout =>
    rw [h.split, ← List.append_assoc, ← List.append_assoc]
    exact head?_append_cons

/-- **A `?` that is left** by the redaction of URLs: its query is redacted, or it stands in none. -/
theorem UrlRedacted.asked {rest out : List Char} (h : UrlRedacted rest out)
    {before' after' : List Char} (heq : out = before' ++ '?' :: after') :
    RedactedUpTo endsQuery after' ∨
      ∃ before after, rest = before ++ '?' :: after ∧ Covered before before' ∧
        ¬InUrl http before ∧ (HttpFirst rest → ¬InUrl https before) := by
  induction h generalizing before' with
  | @noUrl rest hhttp hhttps =>
    have hnone : ∀ {scheme : List Char}, splitOnce scheme rest = none → ¬InUrl scheme before' := by
      intro scheme hscheme hin
      obtain ⟨x, y, rfl⟩ := hin.begun
      refine splitOnce_eq_none hscheme x (y ++ '?' :: after') ?_
      rw [heq]
      simp only [List.append_assoc]
    exact .inr ⟨before', after', heq, .same _, hnone hhttp, fun _ => hnone hhttps⟩
  | @noQuery rest first url h hurl =>
    obtain ⟨m, hfirst, -⟩ := split_append_left (h.split.symm.trans heq) hurl
    obtain ⟨hhttp, hhttps⟩ := h.not_begun hfirst
    exact .inr ⟨before', after', heq, .same _, fun hin => hhttp hin.begun,
      fun hfirst hin => hhttps hfirst hin.begun⟩
  | @query rest first path query rest' out h hpath hquery hend hout ih =>
    rcases split_append heq with ⟨m, hfirst, rfl⟩ | ⟨m, rfl, hurl⟩
    · -- Before the URL.
      obtain ⟨hhttp, hhttps⟩ := h.not_begun hfirst
      refine .inr ⟨before', m ++ (path ++ '?' :: (query ++ rest')), ?_, .same _,
        fun hin => hhttp hin.begun, fun hfirst hin => hhttps hfirst hin.begun⟩
      rw [h.split, hfirst]
      simp only [List.append_assoc, List.cons_append]
    rcases split_trichotomy hurl with ⟨-, -, rfl⟩ | ⟨m, rfl, hbehind⟩ | ⟨m, rfl, -⟩
    · -- Its own.
      refine .inl ⟨out, rfl, ?_⟩
      rwa [hout.head?]
    · -- Behind its query.
      obtain ⟨m, rfl, rfl⟩ := split_append_right hbehind (by decide)
      refine (ih rfl).imp_right ?_
      rintro ⟨before, after, rfl, hcovered, hhttp, hhttps⟩
      have hrest : rest = (first ++ (path ++ '?' :: query)) ++ (before ++ '?' :: after) := by
        rw [h.split]
        simp only [List.append_assoc, List.cons_append]
      have hin : ∀ scheme ∈ schemes, InUrl scheme (first ++ (path ++ '?' :: query) ++ before) →
          InUrl scheme before := by
        intro scheme hscheme hin
        cases before with
        | nil => cases hend '?' rfl
        | cons c before =>
          obtain ⟨path, hsuffix, hpath⟩ := hin.of_end hscheme (hend c rfl)
          exact ⟨path, hsuffix.trans (List.suffix_cons _ _), hpath⟩
      refine ⟨first ++ (path ++ '?' :: query) ++ before, after, ?_, ?_, ?_, ?_⟩
      · rw [hrest, List.append_assoc _ before]
      · have hstretch := @Covered.stretch (first ++ (path ++ ['?'])) query before m hquery hcovered
        simpa only [List.append_assoc, List.cons_append, List.nil_append] using hstretch
      · exact fun h => hhttp (hin http (by decide) h)
      · intro hfirst h
        rw [hrest] at hfirst
        exact hhttps hfirst.of_append (hin https (by decide) h)
    · exact absurd (List.mem_append_right _ List.mem_cons_self) hpath

theorem endsQuery_eq_false {c : Char} (h : endsValue c = false) : endsQuery c = false := by
  unfold endsValue at h
  unfold endsQuery
  simp_all

/-- The redaction of a key leaves no new `?`, and redacted what was redacted. -/
theorem KeyRedacted.asked {name rest out : List Char} (hname : IsKey name)
    (h : KeyRedacted (name ++ ['=']) rest out) {before' after' : List Char}
    (heq : out = before' ++ '?' :: after') :
    ∃ before after, rest = before ++ '?' :: after ∧ Covered before before' ∧
      (RedactedUpTo endsQuery after → RedactedUpTo endsQuery after') := by
  induction h generalizing before' with
  | noKey h => exact ⟨before', after', heq, .same _, id⟩
  | @value rest first value rest' out h hvalue hend hout ih =>
    have hrest := splitOnce_eq_some h
    rcases split_append heq with ⟨m, hfirst, rfl⟩ | ⟨m, rfl, hkey⟩
    · -- Before the first value.
      refine ⟨before', m ++ (name ++ ['='] ++ (value ++ rest')), ?_, .same _, fun hredacted => ?_⟩
      · rw [hrest, hfirst]
        simp only [List.append_assoc, List.cons_append]
      · have hpivot : RedactedUpTo endsQuery ((m ++ name) ++ '=' :: (value ++ rest')) := by
          simpa only [List.append_assoc, List.singleton_append] using hredacted
        have hsame := hpivot.congr (by decide) (redacted ++ out)
        simpa only [List.append_assoc, List.singleton_append] using hsame
    · -- Behind it: neither the key nor the redaction has a `?`.
      have hquery : '?' ∉ name ++ ['='] := by
        rw [List.mem_append, not_or]
        exact ⟨hname.query, by decide⟩
      obtain ⟨m, rfl, hbehind⟩ := split_append_right hkey hquery
      obtain ⟨m, rfl, rfl⟩ := split_append_right hbehind (by decide)
      obtain ⟨before, after, rfl, hcovered, hredacted⟩ := ih rfl
      refine ⟨first ++ (name ++ ['='] ++ (value ++ before)), after, ?_, ?_, hredacted⟩
      · rw [hrest]
        simp only [List.append_assoc]
      · have hstretch := @Covered.stretch (first ++ (name ++ ['='])) value before m
          (fun c hc => endsQuery_eq_false (hvalue c hc)) hcovered
        simpa only [List.append_assoc] using hstretch

theorem KeysRedacted.asked {keys : List (List Char)} {text out : List Char}
    (h : KeysRedacted keys text out)
    (hkeys : ∀ key ∈ keys, ∃ name, key = name ++ ['='] ∧ IsKey name) {before' after' : List Char}
    (heq : out = before' ++ '?' :: after') :
    ∃ before after, text = before ++ '?' :: after ∧ NoNewUrl before before' ∧
      (RedactedUpTo endsQuery after → RedactedUpTo endsQuery after') := by
  induction h with
  | nil => exact ⟨before', after', heq, (Covered.same _).noNewUrl, id⟩
  | @cons key text text' out keys h hout ih =>
    obtain ⟨⟨name, rfl, hname⟩, hrest⟩ := List.forall_mem_cons.mp hkeys
    obtain ⟨before, after, rfl, hnew, hredacted⟩ := ih hrest heq
    obtain ⟨first, last, rfl, hcovered, hredacted'⟩ := h.asked hname rfl
    exact ⟨first, last, rfl, hcovered.noNewUrl.trans hnew, fun hlast => hredacted (hredacted' hlast)⟩

/-- Every `?` after the beginning of a URL is redacted: then so are all URLs. -/
theorem UrlRedacted.eq_of_asked {rest out : List Char} (h : UrlRedacted rest out)
    (hasked : ∀ before after, rest = before ++ '?' :: after →
      (∃ scheme ∈ schemes, scheme <:+: before) → RedactedUpTo endsQuery after) : out = rest := by
  induction h with
  | noUrl h h' => rfl
  | noQuery h hurl => rfl
  | @query rest first path query rest' out h hpath hquery hend hout ih =>
    obtain ⟨scheme, hscheme, m, rfl⟩ : ∃ scheme ∈ schemes, ∃ m, path = scheme ++ m := by
      rcases h with ⟨after, -, hurl⟩ | ⟨-, after, -, hurl⟩
      · obtain ⟨m, hm, -⟩ := split_append_right hurl.symm (by decide)
        exact ⟨http, by decide, m, hm⟩
      · obtain ⟨m, hm, -⟩ := split_append_right hurl.symm (by decide)
        exact ⟨https, by decide, m, hm⟩
    have hsplit : rest = (first ++ (scheme ++ m)) ++ '?' :: (query ++ rest') := by
      rw [h.split]
      simp only [List.append_assoc]
    have hbegun : scheme <:+: first ++ (scheme ++ m) := ⟨first, m, List.append_assoc _ _ _⟩
    have hredacted := hasked _ _ hsplit ⟨scheme, hscheme, hbegun⟩
    obtain rfl := hredacted.eq_redacted (eq_false_of_any (by decide)) hquery hend
    have hsame : out = rest' := by
      refine ih fun before after heq _ => ?_
      refine hasked (first ++ (scheme ++ m) ++ '?' :: (redacted ++ before)) after ?_
        ⟨scheme, hscheme, hbegun.trans (List.prefix_append _ _).isInfix⟩
      rw [hsplit, heq]
      simp only [List.append_assoc, List.cons_append]
    rw [hsame, h.split]

/-! ## The text before it is truncated -/

theorem exists_trim (text : List Char) :
    ∃ x y, text = x ++ (trimChars text ++ y) ∧ ∀ c ∈ y, isWhitespace c := by
  refine ⟨text.takeWhile isWhitespace, (text.dropWhile isWhitespace).rtakeWhile isWhitespace, ?_,
    fun c hc => List.mem_rtakeWhile_imp hc⟩
  rw [trimChars, List.rdropWhile_append_rtakeWhile, List.takeWhile_append_dropWhile]

theorem trimChars_trimChars (text : List Char) : trimChars (trimChars text) = trimChars text := by
  have hstart : (trimChars text).dropWhile isWhitespace = trimChars text := by
    have hhead := List.head?_dropWhile_not isWhitespace text
    obtain ⟨rest, hrest⟩ := List.rdropWhile_prefix isWhitespace (text.dropWhile isWhitespace)
    rw [← hrest] at hhead
    unfold trimChars
    cases hdrop : (text.dropWhile isWhitespace).rdropWhile isWhitespace with
    | nil => rfl
    | cons c trimmed =>
      rw [hdrop] at hhead
      exact List.dropWhile_cons_of_neg (by simpa using hhead)
  rw [trimChars, hstart, trimChars, List.rdropWhile_idempotent]

theorem not_mem_redacted {c : Char} (h : isWhitespace c) : c ∉ redacted := by
  have hno : redacted.any isWhitespace = false := by decide
  intro hmem
  rw [eq_false_of_any hno c hmem] at h
  cases h

theorem KeyCovered.trim {key text : List Char} (h : KeyCovered key text) :
    KeyCovered key (trimChars text) := by
  intro before after heq
  obtain ⟨x, y, hsplit, hspaces⟩ := exists_trim text
  refine RedactedUpTo.of_append (fun c hc => not_mem_redacted (hspaces c hc)) (h (x ++ before) _ ?_)
  rw [hsplit, heq]
  simp only [List.append_assoc]

/-- **A `?` in the redacted text** has its query redacted, or it stands in no URL of the message. -/
theorem redact_asked {value text out : List Char} (h : UrlRedacted value text)
    (h' : KeysRedacted redactedKeys text out) {before' after' : List Char}
    (heq : trimChars out = before' ++ '?' :: after') : RedactedUpTo endsQuery after' ∨
      ∃ before after, value = before ++ '?' :: after ∧ NoNewUrl before before' ∧
        ¬InUrl http before ∧ (HttpFirst value → ¬InUrl https before) := by
  obtain ⟨x, y, hsplit, hspaces⟩ := exists_trim out
  have hout : out = (x ++ before') ++ '?' :: (after' ++ y) := by
    rw [hsplit, heq]
    simp only [List.append_assoc, List.cons_append]
  obtain ⟨before, after, htext, hnew, hredacted⟩ := h'.asked redactedKeys_isKey hout
  rcases h.asked htext with hdone | ⟨first, last, hvalue, hcovered, hnone⟩
  · exact .inl ((hredacted hdone).of_append fun c hc => not_mem_redacted (hspaces c hc))
  · exact .inr ⟨first, last, hvalue,
      hcovered.noNewUrl.trans (hnew.trans (noNewUrl_append x before')), hnone⟩

/-- Every URL with the scheme has its query redacted, up to its end. A URL without a query has
    nothing to cover. -/
def UrlsCovered (scheme text : List Char) : Prop :=
  ∀ before after, text = before ++ '?' :: after → InUrl scheme before →
    RedactedUpTo endsQuery after

/-- From the first URL on, every `?` stands in one. The search for a `?` does not stop where a URL
    ends, so that it may find one in the text behind it. -/
def QueriesInUrls (value : List Char) : Prop :=
  ∀ before after, value = before ++ '?' :: after → (∃ scheme ∈ schemes, scheme <:+: before) →
    ∃ scheme ∈ schemes, InUrl scheme before

/-- **Redaction leaves no secrets**: it comes to an end, and the text that is truncated has every
    key and every URL covered, and is its own redaction. Covered is what the source means by it, up
    to the character that ends a value or a URL. -/
theorem redaction_covers (value : List Char) :
    ∃ text, (redact value).Gives (.ok text) ∧
      (redactAndTruncate value).Gives (.ok (truncateChars text 800)) ∧
      (∀ key ∈ redactedKeys, KeyCovered key text) ∧ UrlsCovered http text ∧
      (HttpFirst value → UrlsCovered https text ∧
        (QueriesInUrls value → (redact text).Gives (.ok text))) := by
  obtain ⟨text, out, htext, hout, hgives⟩ := redact_gives value
  have hkeys : ∀ key ∈ redactedKeys, KeyCovered key (trimChars out) := by
    intro key hkey
    obtain ⟨name, rfl, hname⟩ := redactedKeys_isKey key hkey
    exact (hout.covered redactedKeys_isKey hname (.inl hkey)).trim
  refine ⟨trimChars out, hgives, ?_, hkeys, ?_, fun hfirst => ⟨?_, fun hqueries => ?_⟩⟩
  · exact (Routine.gives_bind_ok hgives).mpr (Routine.gives_pure.mpr rfl)
  · intro before' after' heq hin
    rcases redact_asked htext hout heq with hdone | ⟨before, after, -, hnew, hhttp, -⟩
    · exact hdone
    · exact absurd ((hnew http (by decide)).1 hin) hhttp
  · intro before' after' heq hin
    rcases redact_asked htext hout heq with hdone | ⟨before, after, -, hnew, -, hhttps⟩
    · exact hdone
    · exact absurd ((hnew https (by decide)).1 hin) (hhttps hfirst)
  · -- Redacted again, the text stays: every `?` behind a URL has its query redacted.
    obtain ⟨text', out', htext', hout', hgives'⟩ := redact_gives (trimChars out)
    have hurls : text' = trimChars out := by
      refine htext'.eq_of_asked fun before' after' heq hbegun => ?_
      rcases redact_asked htext hout heq with hdone | ⟨before, after, hvalue, hnew, hhttp, hhttps⟩
      · exact hdone
      obtain ⟨scheme, hscheme, hinfix⟩ := hbegun
      obtain ⟨scheme', hscheme', hin⟩ :=
        hqueries before after hvalue ⟨scheme, hscheme, (hnew scheme hscheme).2 hinfix⟩
      rcases List.mem_cons.mp hscheme' with rfl | hscheme'
      · exact absurd hin hhttp
      · rw [List.mem_singleton.mp hscheme'] at hin
        exact absurd hin (hhttps hfirst)
    rw [hurls] at hout'
    rw [hout'.eq_of_covered hkeys, trimChars_trimChars] at hgives'
    exact hgives'

/-- A URL ends at a bracket, also where the message goes on without a space. -/
theorem bracket_ends_url :
    (redact "GET http://h/p?a=(1)b".toList).Gives
      (.ok ("GET http://h/p".toList ++ '?' :: "<redacted>)b".toList)) ∧
    InUrl http "GET http://h/p".toList ∧ ¬RedactedUpTo isWhitespace "<redacted>)b".toList := by
  refine ⟨⟨3, by decide +kernel⟩, ⟨"h/p".toList, ⟨"GET ".toList, rfl⟩, ?_⟩, ?_⟩
  · exact eq_false_of_any (by decide)
  rintro ⟨rest, hsplit, hrest⟩
  have hbracket : ")b".toList = rest := @List.append_cancel_left _ redacted _ _ hsplit
  rw [← hbracket] at hrest
  exact absurd (hrest ')' rfl) (by decide)

def signedRequest : List Char :=
  "url=https://example.test/order?timestamp=1&signature=secret signature=secret".toList

/-- A warning about a request, with one URL. -/
theorem signedRequest_redacted : ∃ text, (redact signedRequest).Gives (.ok text) ∧
    UrlsCovered https text ∧ (redact text).Gives (.ok text) := by
  obtain ⟨text, hgives, -, -, -, hrest⟩ := redaction_covers signedRequest
  have hfirst : HttpFirst signedRequest := by
    rintro before after hsplit ⟨x, y, rfl⟩
    have hnone : splitOnce http signedRequest = none := by decide +kernel
    refine splitOnce_eq_none hnone (before ++ (https ++ x)) y ?_
    rw [hsplit]
    simp only [List.append_assoc]
  have hqueries : QueriesInUrls signedRequest := by
    intro before after hsplit _
    have hquery : "url=https://example.test/order".toList
        ++ '?' :: "timestamp=1&signature=secret signature=secret".toList = signedRequest := rfl
    rcases split_trichotomy (hquery.trans hsplit) with ⟨rfl, -, -⟩ | ⟨m, -, hlast⟩ | ⟨m, hurl, -⟩
    · exact ⟨https, by decide, "example.test/order".toList, ⟨"url=".toList, rfl⟩,
        eq_false_of_any (by decide)⟩
    · have hmem := List.mem_append_right m (List.mem_cons_self (a := '?') (l := after))
      rw [← hlast] at hmem
      exact absurd hmem (by decide)
    · have hmem := List.mem_append_right before (List.mem_cons_self (a := '?') (l := m))
      rw [← hurl] at hmem
      exact absurd hmem (by decide)
  exact ⟨text, hgives, (hrest hfirst).1, (hrest hfirst).2 hqueries⟩

end CryptoNav.Monitor
