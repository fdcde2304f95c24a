import CryptoNav.Exchange.Client
import CryptoNav.Lib.Trail

/-!
# Pages that name their successor

Seven loops of the clients read a chunk page by page: a response may carry a cursor, which is sent
along with the next request. They differ in the names of the cursor, in whether a short page ends
them, in what else does, and in which cursors they do not follow again. With finitely many cursors a
chunk is read to its end or to an error unless a loop that only knows its last cursor is led back to
an older one (`walk_total`); then it goes on for ever (`walk_never`).

The loop is a structure whose fields are the points in which the functions differ, so that the
turn of each of them is an instance of one definition and not a copy of it. Cursors are texts
that mean nothing to the client. What the server answers to a request is a function of the
cursor: a server that answers the same request differently at different times is left out, and
with it the one way in which a loop that is led in a circle could still get out.
-/

set_option autoImplicit false

namespace CryptoNav.Exchange

open CryptoNav.Lib
open CryptoNav.History (i64Max)
open CryptoNav.History.Raw (TimeRange)

/-! ## Cursors -/

def cursorText : Json → Option String
  | .string text => if text = "" then none else some text
  | _ => none

/-- The cursor in the first of the fields that is present, whatever that holds. -/
def nextCursor (fields : List String) (holder : Json) : Option String :=
  (fields.findSome? holder.get).bind cursorText

/-- Some field holds a cursor. -/
def Carries (fields : List String) (holder : Json) : Prop :=
  ∃ field ∈ fields, ((holder.get field).bind cursorText).isSome

/-- With one name for the cursor it cannot be overlooked. -/
theorem nextCursor_of_carries {fields : List String} {holder : Json} (hone : fields.length ≤ 1)
    (h : Carries fields holder) : (nextCursor fields holder).isSome := by
  obtain ⟨name, hname, hsome⟩ := h
  match fields, hname with
  | [field], hname =>
    obtain rfl := List.mem_singleton.mp hname
    rw [nextCursor, List.findSome?_singleton]
    exact hsome
  | _ :: _ :: _, _ => exact absurd hone (by simp)

/-! ## One chunk -/

/-- What a loop takes from a response. -/
structure Answer where
  page : List Json
  /-- The rows of the page that are kept. -/
  kept : List Json
  /-- What the cursor is a field of. -/
  holder : Json
  /-- The page reaches back to before the range. -/
  past : Bool

/-- What a request answers after a cursor. -/
abbrev Asked := Option String → Except ExchangeError Answer

/-- The cursors a loop knows: the last one only, or all that it has followed. -/
inductive Guard where
  | previous
  | seen

def Guard.knows : Guard → Option String → List String → String → Bool
  | previous, cursor, _, next => some next = cursor
  | seen, _, followed, next => next ∈ followed

@[simp] theorem Guard.knows_previous {cursor : Option String} {followed : List String}
    {next : String} : Guard.previous.knows cursor followed next = true ↔ some next = cursor :=
  decide_eq_true_iff

@[simp] theorem Guard.knows_seen {cursor : Option String} {followed : List String} {next : String} :
    Guard.seen.knows cursor followed next = true ↔ next ∈ followed :=
  decide_eq_true_iff

/-- What distinguishes the loops. -/
structure CursorLoop where
  fields : List String
  limit : ℕ
  /-- A page that is shorter than the limit is the last. -/
  stopsShort : Bool
  guard : Guard
  /-- The error for a cursor that is known, if it is one. -/
  repeated : Option ExchangeError

structure Position where
  cursor : Option String
  seen : List String
  rows : List Json

/-- The rows of a chunk, and the answer they end with. -/
structure Walk where
  rows : List Json
  last : Answer

namespace CursorLoop

def leaves (loop : CursorLoop) (answer : Answer) : Bool :=
  (loop.stopsShort && answer.page.length < loop.limit) || answer.past

/-- A turn of the `loop` over the pages of a chunk. -/
def turn (loop : CursorLoop) (ask : Asked) :
    Position → Routine ExchangeError (Position ⊕ Walk)
  | ⟨cursor, seen, rows⟩ => do
    let answer ← .ofExcept (ask cursor)
    let rows := rows ++ answer.kept
    if loop.leaves answer then pure (.inr ⟨rows, answer⟩)
    else
      match nextCursor loop.fields answer.holder with
      | none => pure (.inr ⟨rows, answer⟩)
      | some next =>
        if loop.guard.knows cursor seen next then
          match loop.repeated with
          | some error => .ofExcept (.error error)
          | none => pure (.inr ⟨rows, answer⟩)
        else pure (.inl ⟨some next, next :: seen, rows⟩)

def walk (loop : CursorLoop) (ask : Asked) : Routine ExchangeError Walk :=
  Routine.loop (loop.turn ask) ⟨none, [], []⟩

/-! ### The exchange -/

/-- The cursor that an answer leads to. -/
def next (loop : CursorLoop) (ask : Asked) (cursor : Option String) : Option String :=
  match ask cursor with
  | .error _ => none
  | .ok answer => if loop.leaves answer then none else nextCursor loop.fields answer.holder

/-- An exchange that uses finitely many cursors. Without this a server could lead a loop on for ever
    with cursors that are always new. -/
def FinitelyMany (loop : CursorLoop) (ask : Asked) : Prop :=
  ∃ cursors : List String, ∀ cursor answer next, ask cursor = .ok answer →
    nextCursor loop.fields answer.holder = some next → next ∈ cursors

/-- No answer leads a loop that knows its last cursor only back to an older one. A loop that knows
    all its cursors does not mind, and neither does one that is led back to its last. -/
def NeverBack (loop : CursorLoop) (ask : Asked) : Prop :=
  loop.guard = .previous → ∀ trail cursor, Trail (loop.next ask) trail →
    loop.next ask trail.head? = some cursor → cursor ∈ trail → trail.head? = some cursor

/-- No answer leads to a cursor that has been followed. -/
def NeverRepeats (loop : CursorLoop) (ask : Asked) : Prop :=
  ∀ trail cursor, Trail (loop.next ask) trail → loop.next ask trail.head? = some cursor →
    cursor ∉ trail

/-- No answer that the loop could go on after holds a cursor that is overlooked. A cursor is
    overlooked when an earlier one of the fields is present and holds none. -/
def Shows (loop : CursorLoop) (ask : Asked) : Prop :=
  ∀ trail answer, Trail (loop.next ask) trail → ask trail.head? = .ok answer →
    loop.leaves answer = false → Carries loop.fields answer.holder →
    (nextCursor loop.fields answer.holder).isSome

/-- The page is the last one there is: it is short, or none of the fields holds a cursor. -/
def Last (loop : CursorLoop) (answer : Answer) : Prop :=
  answer.page.length < loop.limit ∨ ¬Carries loop.fields answer.holder

/-- What a chunk is read to: the last page, or one that reaches back to before the range. It is where
    no cursor is repeated, or that is an error, and none is overlooked, or there is but one name. -/
def Read (loop : CursorLoop) (ask : Asked) (walk : Walk) : Prop :=
  (loop.repeated = none → loop.NeverRepeats ask) →
    (1 < loop.fields.length → loop.Shows ask) →
    loop.Last walk.last ∨ walk.last.past = true

/-! ### A turn -/

variable {loop : CursorLoop} {ask : Asked} {cursor : Option String} {seen : List String}
  {rows : List Json} {answer : Answer} {trail : List String}

theorem turn_error {e : ExchangeError} (h : ask cursor = .error e) :
    (loop.turn ask ⟨cursor, seen, rows⟩).Gives (.error e) := by
  rw [turn, h, Routine.ofExcept_error_bind]
  exact Routine.gives_ofExcept.mpr rfl

theorem next_eq (h : ask cursor = .ok answer) : loop.next ask cursor =
    if loop.leaves answer then none else nextCursor loop.fields answer.holder := by
  rw [next, h]

/-- A turn that leads nowhere is the last. -/
theorem turn_leaves (h : ask cursor = .ok answer) (hnext : loop.next ask cursor = none) :
    (loop.turn ask ⟨cursor, seen, rows⟩).Gives (.ok (.inr ⟨rows ++ answer.kept, answer⟩)) := by
  rw [next_eq h] at hnext
  rw [turn, h, Routine.ofExcept_ok_bind]
  by_cases hleaves : loop.leaves answer = true
  · rw [if_pos hleaves]
    exact Routine.gives_pure.mpr rfl
  · rw [if_neg hleaves] at hnext ⊢
    rw [hnext]
    exact Routine.gives_pure.mpr rfl

theorem exists_answer {next : String} (hnext : loop.next ask cursor = some next) :
    ∃ answer, ask cursor = .ok answer ∧ loop.leaves answer = false ∧
      nextCursor loop.fields answer.holder = some next := by
  cases hask : ask cursor with
  | error e => simp only [CursorLoop.next, hask] at hnext; cases hnext
  | ok answer =>
    rw [next_eq hask] at hnext
    obtain ⟨hleaves, hcursor⟩ := Option.ite_none_left_eq_some.mp hnext
    exact ⟨answer, rfl, Bool.eq_false_iff.mpr hleaves, hcursor⟩

/-- A cursor that the loop does not know is followed. -/
theorem turn_follows (rows : List Json) {next : String} (hnext : loop.next ask cursor = some next)
    (hnew : loop.guard.knows cursor seen next = false) : ∃ rows',
      (loop.turn ask ⟨cursor, seen, rows⟩).Gives (.ok (.inl ⟨some next, next :: seen, rows'⟩)) := by
  obtain ⟨answer, hask, hleaves, hcursor⟩ := exists_answer hnext
  refine ⟨rows ++ answer.kept, ?_⟩
  simp only [turn, hask, Routine.ofExcept_ok_bind, hleaves, Bool.false_eq_true, if_false, hcursor,
    hnew]
  exact Routine.gives_pure.mpr rfl

/-- One that it knows is an error or the end. -/
theorem turn_known (rows : List Json) {next : String} (hnext : loop.next ask cursor = some next)
    (hknown : loop.guard.knows cursor seen next = true) :
    (∃ e, (loop.turn ask ⟨cursor, seen, rows⟩).Gives (.error e)) ∨
      loop.repeated = none ∧ ∃ walk, (loop.turn ask ⟨cursor, seen, rows⟩).Gives (.ok (.inr walk)) := by
  obtain ⟨answer, hask, hleaves, hcursor⟩ := exists_answer hnext
  simp only [turn, hask, Routine.ofExcept_ok_bind, hleaves, Bool.false_eq_true, if_false, hcursor,
    hknown, if_true]
  cases loop.repeated with
  | none => exact .inr ⟨rfl, _, Routine.gives_pure.mpr rfl⟩
  | some e => exact .inl ⟨e, Routine.gives_ofExcept.mpr rfl⟩

theorem knows_of_new (guard : Guard) {cursor : String} (h : cursor ∉ trail) :
    guard.knows trail.head? trail cursor = false := by
  rw [Bool.eq_false_iff]
  intro hknown
  cases guard with
  | previous => exact h (List.mem_of_head? (Guard.knows_previous.mp hknown).symm)
  | seen => exact h (Guard.knows_seen.mp hknown)

/-! ### A chunk -/

/-- **The loop follows the trail.** -/
theorem walk_follows (h : Trail (loop.next ask) trail) : ∃ rows, ∀ r,
    (loop.walk ask).Gives r ↔
      (Routine.loop (loop.turn ask) ⟨trail.head?, trail, rows⟩).Gives r := by
  induction h with
  | nil => exact ⟨[], fun _ => Iff.rfl⟩
  | @cons trail cursor _ hnext hnew ih =>
    obtain ⟨rows, hwalk⟩ := ih
    obtain ⟨rows', hturn⟩ := turn_follows rows hnext (knows_of_new loop.guard hnew)
    exact ⟨rows', fun r => (hwalk r).trans (Routine.gives_loop_next hturn)⟩

/-- A first page that leads nowhere is all of the chunk. -/
theorem walk_first (h : ask none = .ok answer) (hnext : loop.next ask none = none) :
    (loop.walk ask).Gives (.ok ⟨answer.kept, answer⟩) :=
  (Routine.gives_loop_leave (turn_leaves h hnext)).mpr rfl

theorem next_none_or_mem (h : Whole (loop.next ask) trail) : loop.next ask trail.head? = none ∨
    ∃ cursor ∈ trail, loop.next ask trail.head? = some cursor := by
  cases hnext : loop.next ask trail.head? with
  | none => exact .inl rfl
  | some cursor => exact .inr ⟨cursor, h.old cursor hnext, rfl⟩

/-- An answer that leads nowhere is the last there is, or reaches back to before the range. -/
theorem read_of_next_none (htrail : Trail (loop.next ask) trail) (hask : ask trail.head? = .ok answer)
    (hnext : loop.next ask trail.head? = none) (rows : List Json) : loop.Read ask ⟨rows, answer⟩ := by
  intro _ hshows
  rw [next_eq hask] at hnext
  by_cases hleaves : loop.leaves answer = true
  · rcases (Bool.or_eq_true _ _).mp hleaves with hshort | hpast
    · exact .inl (.inl (of_decide_eq_true ((Bool.and_eq_true _ _).mp hshort).2))
    · exact .inr hpast
  · rw [if_neg hleaves] at hnext
    refine .inl (.inr fun hcarries => ?_)
    have hsome : (nextCursor loop.fields answer.holder).isSome := by
      rcases Nat.lt_or_ge 1 loop.fields.length with hmany | hone
      · exact hshows hmany trail answer htrail hask (Bool.eq_false_iff.mpr hleaves) hcarries
      · exact nextCursor_of_carries hone hcarries
    rw [hnext] at hsome
    cases hsome

/-- **A chunk is read to its end, or to an error.** -/
theorem walk_total (hfinite : loop.FinitelyMany ask) (hback : loop.NeverBack ask) :
    ∃ r, (loop.walk ask).Gives r ∧ Routine.Meets (fun _ => True) (loop.Read ask) r := by
  obtain ⟨cursors, hcursors⟩ := hfinite
  have hfinite : ∀ c d, loop.next ask c = some d → d ∈ cursors := by
    intro c d hnext
    obtain ⟨answer, hask, -, hcursor⟩ := exists_answer hnext
    exact hcursors c answer d hask hcursor
  obtain ⟨trail, hwhole⟩ := exists_whole hfinite
  obtain ⟨rows, hwalk⟩ := walk_follows hwhole.isTrail
  -- What is left is the turn at the end of the trail.
  rcases next_none_or_mem hwhole with hnext | ⟨cursor, hmem, hnext⟩
  · cases hask : ask trail.head? with
    | error e =>
      exact ⟨.error e, (hwalk _).mpr ((Routine.gives_loop_error (turn_error hask)).mpr rfl), trivial⟩
    | ok answer =>
      exact ⟨_, (hwalk _).mpr ((Routine.gives_loop_leave (turn_leaves hask hnext)).mpr rfl),
        read_of_next_none hwhole.isTrail hask hnext _⟩
  · have hknown : loop.guard.knows trail.head? trail cursor = true := by
      cases hguard : loop.guard with
      | previous =>
        exact Guard.knows_previous.mpr (hback hguard trail cursor hwhole.isTrail hnext hmem).symm
      | seen => exact Guard.knows_seen.mpr hmem
    rcases turn_known rows hnext hknown with ⟨e, he⟩ | ⟨hsilent, walk, hleave⟩
    · exact ⟨.error e, (hwalk _).mpr ((Routine.gives_loop_error he).mpr rfl), trivial⟩
    · refine ⟨.ok walk, (hwalk _).mpr ((Routine.gives_loop_leave hleave).mpr rfl), ?_⟩
      exact fun hrepeats => absurd hmem (hrepeats hsilent trail cursor hwhole.isTrail hnext)

/-- **A loop that is led back to an older cursor than its last, and knows only that, never ends.** -/
theorem walk_never (hback : ¬loop.NeverBack ask) : ¬(loop.walk ask).Ends := by
  rw [NeverBack] at hback
  push Not at hback
  obtain ⟨hguard, trail, cursor, h, hnext, hmem, hback⟩ := hback
  obtain ⟨rows, hwalk⟩ := walk_follows h
  rintro ⟨r, hr⟩
  let P : Position → Prop := fun s => ∃ c ∈ trail, s.cursor = some c
  have hturn : ∀ s, P s → ∃ t, (loop.turn ask s).Gives (.ok (.inl t)) ∧ P t := by
    rintro ⟨_, seen, rows⟩ ⟨c, hc, rfl⟩
    -- What follows a cursor of the trail is another one of the trail.
    obtain ⟨d, hd, hstep, hne⟩ : ∃ d ∈ trail, loop.next ask (some c) = some d ∧ d ≠ c := by
      rcases h.next_of_mem hc with hhead | hlater
      · exact ⟨cursor, hmem, hhead ▸ hnext, fun heq => hback (heq ▸ hhead)⟩
      · exact hlater
    have hnew : loop.guard.knows (some c) seen d = false := by
      rw [hguard, Bool.eq_false_iff]
      exact fun hknown => hne (Option.some.inj (Guard.knows_previous.mp hknown))
    obtain ⟨rows', hgives⟩ := turn_follows rows hstep hnew
    exact ⟨_, hgives, d, hd, rfl⟩
  obtain ⟨c, hc⟩ : ∃ c, trail.head? = some c := by
    cases trail with
    | nil => cases hmem
    | cons c trail => exact ⟨c, rfl⟩
  exact Routine.loop_never hturn ⟨c, List.mem_of_head? hc, hc⟩ ⟨r, (hwalk r).mp hr⟩

end CursorLoop

/-! ## All chunks -/

/-- A function of a client that reads its chunks with a loop. -/
structure Scan extends CursorLoop where
  check : TimeRange → Except ExchangeError TimeRange
  /-- The span of a chunk, if the range is cut into chunks. -/
  span : Option ℤ
  /-- What a request answers, of the range, the chunk and the cursor. -/
  ask : TimeRange → TimeRange → Asked
  /-- What is done with the rows in the end. -/
  finish : List Json → List Json

namespace Scan

def windows (scan : Scan) (range : TimeRange) : Routine ExchangeError (List TimeRange) :=
  match scan.span with
  | some span => chunks range span
  | none => pure [range]

/-- The `for` over the chunks. -/
def walks (scan : Scan) (range : TimeRange) : Routine ExchangeError (List Walk) := do
  let range ← .ofExcept (scan.check range)
  let windows ← scan.windows range
  Routine.each (fun chunk => scan.walk (scan.ask range chunk)) windows

def rows (scan : Scan) (range : TimeRange) : Routine ExchangeError (List Json) := do
  let walks ← scan.walks range
  pure (scan.finish (walks.flatMap (·.rows)))

/-- A chunk that is read: those before it have come to an end. -/
def Reaches (scan : Scan) (range chunk : TimeRange) : Prop :=
  ∃ past rest, (scan.windows range).Gives (.ok (past ++ chunk :: rest)) ∧
    ∀ before ∈ past, ∃ walk, (scan.walk (scan.ask range before)).Gives (.ok walk)

/-- Every chunk is read. -/
def ReadAll (scan : Scan) (range : TimeRange) : Prop :=
  ∃ windows walks, (scan.windows range).Gives (.ok windows) ∧
    (scan.walks range).Gives (.ok walks) ∧
    windows.Forall₂ (fun chunk => scan.Read (scan.ask range chunk)) walks

variable {scan : Scan} {range : TimeRange}

theorem windows_gives (hspan : ∀ span ∈ scan.span, 0 < span)
    (hrange : scan.span = none ∨ range.endMs < i64Max ∨ range.endMs < range.startMs) :
    ∃ windows, (scan.windows range).Gives (.ok windows) := by
  unfold windows
  cases hcut : scan.span with
  | none => exact ⟨[range], Routine.gives_pure.mpr rfl⟩
  | some span =>
    obtain ⟨windows, hgives, -⟩ :=
      chunks_gives (hspan span hcut) (hrange.resolve_left (by rw [hcut]; exact nofun))
    exact ⟨windows, hgives⟩

/-- A range that is not cut into chunks. -/
theorem walks_single {walk : Walk} (hcheck : scan.check range = .ok range) (hspan : scan.span = none)
    (hwalk : (scan.walk (scan.ask range range)).Gives (.ok walk)) :
    (scan.walks range).Gives (.ok [walk]) := by
  rw [walks, hcheck, Routine.ofExcept_ok_bind, windows, hspan]
  refine (Routine.gives_bind_ok (Routine.gives_pure.mpr rfl)).mpr ?_
  exact Routine.gives_each_cons.mpr (.inr ⟨walk, hwalk, .inr ⟨[], Routine.gives_pure.mpr rfl, rfl⟩⟩)

/-- **Every chunk is read to its end, or one to an error.** -/
theorem walks_total (hspan : ∀ span ∈ scan.span, 0 < span)
    (hcheck : ∀ checked, scan.check range = .ok checked → checked = range)
    (hrange : scan.span = none ∨ range.endMs < i64Max ∨ range.endMs < range.startMs)
    (hfinite : ∀ chunk, scan.FinitelyMany (scan.ask range chunk))
    (hback : ∀ chunk, scan.Reaches range chunk → scan.NeverBack (scan.ask range chunk)) :
    ∃ r, (scan.walks range).Gives r ∧
      Routine.Meets (fun _ => True) (fun _ => scan.ReadAll range) r := by
  cases hchecked : scan.check range with
  | error e =>
    refine ⟨.error e, ?_, trivial⟩
    rw [walks, hchecked, Routine.ofExcept_error_bind]
    exact Routine.gives_ofExcept.mpr rfl
  | ok checked =>
    obtain rfl := hcheck checked hchecked
    obtain ⟨windows, hwindows⟩ := windows_gives hspan hrange
    obtain ⟨r, hr, hmeets⟩ : ∃ r,
        (Routine.each (fun chunk => scan.walk (scan.ask checked chunk)) windows).Gives r ∧
        Routine.Meets (fun _ => True)
          (windows.Forall₂ fun chunk => scan.Read (scan.ask checked chunk)) r :=
      Routine.each_total fun past chunk rest hl hpast => CursorLoop.walk_total (hfinite chunk)
        (hback chunk ⟨past, rest, hl ▸ hwindows, hpast⟩)
    have hwalks : (scan.walks checked).Gives r := by
      rw [walks, hchecked, Routine.ofExcept_ok_bind]
      exact (Routine.gives_bind_ok hwindows).mpr hr
    refine ⟨r, hwalks, ?_⟩
    cases r with
    | error e => trivial
    | ok walks => exact ⟨windows, walks, hwindows, hwalks, hmeets⟩

/-- **So does the function that reads them.** -/
theorem rows_total {good : Prop}
    (h : ∃ r, (scan.walks range).Gives r ∧ Routine.Meets (fun _ => True) (fun _ => good) r) :
    (scan.rows range).Ends ∧ ∀ rows, (scan.rows range).Gives (.ok rows) → good := by
  obtain ⟨r, hr, hmeets⟩ := h
  cases r with
  | error e =>
    refine ⟨⟨.error e, (Routine.gives_bind_error hr).mpr rfl⟩, fun rows hrows => ?_⟩
    cases (Routine.gives_bind_error hr).mp hrows
  | ok walks =>
    exact ⟨⟨_, (Routine.gives_bind_ok hr).mpr (Routine.gives_pure.mpr rfl)⟩, fun _ _ => hmeets⟩

/-- **It never ends** where a chunk that is read does not. -/
theorem rows_never {chunk : TimeRange} (hcheck : scan.check range = .ok range)
    (hreach : scan.Reaches range chunk) (h : ¬(scan.walk (scan.ask range chunk)).Ends) :
    ¬(scan.rows range).Ends := by
  obtain ⟨past, rest, hwindows, hpast⟩ := hreach
  refine Routine.not_ends_bind ?_ _
  rintro ⟨r, hr⟩
  rw [walks, hcheck, Routine.ofExcept_ok_bind, Routine.gives_bind_ok hwindows] at hr
  exact Routine.not_ends_each hpast h ⟨r, hr⟩

end Scan

end CryptoNav.Exchange
