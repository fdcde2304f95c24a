import CryptoNav.Lib.Lines
import CryptoNav.Lib.Utf8

/-!
# Tailing the logs

`LogMonitor::scan` reads what a log file has grown by, hands its lines to the parsers and keeps the
line it breaks off in for the next scan. It keeps it as text: a scan that ends inside a character
has already decoded one half of it, and the next scan decodes the other half on its own. So the
lines of all scans are the lines of the file just when no scan ends inside a character of a line
that is completed later, and no line before the last one stops the monitor (`lines_once_iff`).

## What the parsers are here

What the parsers make of a line is a parameter, and so is which lines stop them (a slice out of
bounds panics). `LogMonitor.scan` is a scan whose lines all return. `LogMonitor.refresh` is a scan
behind the monitor's lock: a line that stops the parsers ends it, and the lock is poisoned, so that
no scan of any log comes after it.
-/

set_option autoImplicit false

namespace CryptoNav.Monitor

open CryptoNav.Lib

def initialLogBytes : ℕ := 512 * 1024

def maxLogReadBytes : ℕ := 2 * 1024 * 1024

def maxEventsPerComponent : ℕ := 2000

inductive ComponentRole where
  | tradeSignal
  | preTrade
  | accountMonitor
  | tradeEngine
  | persistManager
  | vizServer
  deriving DecidableEq

/-- `partialLine` is the text after the last newline read. -/
structure LogCursor where
  inode : ℕ := 0
  offset : ℕ := 0
  partialLine : List Char := []
  deriving DecidableEq

/-- What the lines are handed to. `Trading` is the state that `observe_trading_line` updates. -/
structure Parsers (Trading Event : Type) where
  observeTradingLine : Trading → String → List Char → ℤ → ℤ → Trading
  pruneTradingState : Trading → ℤ → ℤ → Trading
  isWhitelistedMaxPositionRejection : List Char → Bool
  parseLogEvent : List Char → ℤ → ℤ → Option Event
  atMs : Event → ℤ

structure LogMonitor (Trading Event : Type) where
  cursors : String → Option LogCursor := fun _ => none
  events : String × ComponentRole → Option (List Event) := fun _ => none
  truncated : String × ComponentRole → Bool := fun _ => false
  trading : Trading

/-- What a scan finds at its path: the inode and the length of the file, and, later, its bytes. Each
    is missing where the system call fails. -/
structure FileView where
  metadata : Option (ℕ × ℕ)
  content : Option (List UInt8)

structure Scan where
  slug : String
  role : ComponentRole
  path : String
  view : FileView
  nowMs : ℤ
  windowMs : ℤ

/-- A list up to and including the first item of a kind. -/
def upTo {α : Type} (p : α → Bool) : List α → List α
  | [] => []
  | a :: l => a :: if p a then [] else upTo p l

namespace LogMonitor

variable {Trading Event : Type}

/-- Lines are handed over one by one. -/
def observe (parsers : Parsers Trading Event) (scan : Scan) (lines : List (List Char))
    (m : LogMonitor Trading Event) : LogMonitor Trading Event :=
  let key := (scan.slug, scan.role)
  let trading := lines.foldl (fun trading line =>
    parsers.observeTradingLine trading scan.slug line scan.nowMs scan.windowMs) m.trading
  let parsedEvents := (lines.filter fun line =>
    !parsers.isWhitelistedMaxPositionRejection line).filterMap fun line =>
      parsers.parseLogEvent line scan.nowMs scan.windowMs
  let queue := ((m.events key).getD [] ++ parsedEvents).dropWhile fun event =>
    scan.nowMs - parsers.atMs event > scan.windowMs
  let removeCount := queue.length - maxEventsPerComponent
  { m with
    events := Function.update m.events key (some (queue.drop removeCount))
    truncated := if removeCount = 0 then m.truncated else Function.update m.truncated key true
    trading }

/-- `LogMonitor::scan` when no line stops the parsers, and the lines that it hands to them. -/
def scan (parsers : Parsers Trading Event) (m : LogMonitor Trading Event) (scan : Scan) :
    LogMonitor Trading Event × List (List Char) :=
  match scan.view.metadata with
  | none => (m, [])
  | some (inode, fileLen) =>
    let cursor := (m.cursors scan.path).getD {}
    let reset := decide (cursor.inode ≠ inode) || decide (fileLen < cursor.offset)
    let tail := if cursor.inode = 0 ∨ reset then fileLen - initialLogBytes else cursor.offset
    let tooLong := decide (fileLen - tail > maxLogReadBytes)
    let start := if tooLong then fileLen - maxLogReadBytes else tail
    let m := { m with
      truncated :=
        if tooLong then Function.update m.truncated (scan.slug, scan.role) true else m.truncated }
    match scan.view.content with
    | none => (m, [])
    | some content =>
      let bytes := (content.drop start).take maxLogReadBytes
      let startsMidFile := decide (start > 0) &&
        (decide (cursor.inode = 0) || reset || decide (start ≠ cursor.offset))
      let text :=
        if startsMidFile then ((fromUtf8Lossy bytes).dropWhile (· ≠ '\n')).drop 1
        else cursor.partialLine ++ fromUtf8Lossy bytes
      let m := m.observe parsers scan (lines (complete text))
      let offset := start + bytes.length
      ({ m with
          cursors := Function.update m.cursors scan.path
            (some { inode, offset, partialLine := unfinished text })
          trading := parsers.pruneTradingState m.trading scan.nowMs scan.windowMs },
        lines (complete text))

/-- The lines that are handed over of the file at `path` when none of them stops the parsers. -/
def handed (parsers : Parsers Trading Event) (path : String) :
    LogMonitor Trading Event → List Scan → List (List Char)
  | _, [] => []
  | m, scan :: scans =>
    (if scan.path = path then (m.scan parsers scan).2 else [])
      ++ handed parsers path (m.scan parsers scan).1 scans

/-- A scan behind the lock, which is `none` once it is poisoned. -/
def refresh (parsers : Parsers Trading Event) (stops : List Char → Bool)
    (lock : Option (LogMonitor Trading Event)) (scan : Scan) :
    Option (LogMonitor Trading Event) × List (List Char) :=
  match lock with
  | none => (none, [])
  | some m =>
    let (m, lines) := m.scan parsers scan
    if lines.any stops then (none, upTo stops lines) else (some m, lines)

/-- The lines that are handed over of the file at `path`. -/
def handedOver (parsers : Parsers Trading Event) (stops : List Char → Bool) (path : String) :
    Option (LogMonitor Trading Event) → List Scan → List (List Char)
  | _, [] => []
  | lock, scan :: scans =>
    (if scan.path = path then (refresh parsers stops lock scan).2 else [])
      ++ handedOver parsers stops path (refresh parsers stops lock scan).1 scans

/-- The lines that the scans come to, each with the path of its log, if none stops the parsers. -/
def trace (parsers : Parsers Trading Event) :
    LogMonitor Trading Event → List Scan → List (String × List Char)
  | _, [] => []
  | m, scan :: scans =>
    (m.scan parsers scan).2.map (scan.path, ·) ++ trace parsers (m.scan parsers scan).1 scans

end LogMonitor

/-! ## A file that grows -/

/-- A scan that reads the file: its inode, its length at first and its bytes a little later. -/
structure Read where
  inode : ℕ
  fileLen : ℕ
  content : List UInt8

def Scan.read (path : String) (scan : Scan) : Option Read :=
  if scan.path = path then
    match scan.view.metadata, scan.view.content with
    | some (inode, fileLen), some content => some { inode, fileLen, content }
    | _, _ => none
  else none

/-- From `offset` on, every read finds the file grown, by what one read can take. As a whole it is
    the text. -/
def Grows (text : List Char) : ℕ → List Read → Prop
  | _, [] => True
  | offset, read :: reads =>
    offset ≤ read.fileLen ∧ read.fileLen ≤ read.content.length ∧
      read.content.length ≤ offset + maxLogReadBytes ∧ read.content <+: encode text ∧
      Grows text read.content.length reads

/-- A log file that is never replaced, and is short at the first read. Of a longer one the monitor
    never sees the beginning. -/
structure Tailed (inode : ℕ) (text : List Char) (reads : List Read) : Prop where
  inode_ne_zero : inode ≠ 0
  same : ∀ read ∈ reads, read.inode = inode
  short : ∀ read ∈ reads.head?, read.fileLen ≤ initialLogBytes
  grows : Grows text 0 reads

/-- How much of the file has been read. -/
def readThrough : ℕ → List Read → ℕ
  | offset, [] => offset
  | _, read :: reads => readThrough read.content.length reads

/-- The bytes that each read adds. -/
def pieces : ℕ → List Read → List (List UInt8)
  | _, [] => []
  | offset, read :: reads => read.content.drop offset :: pieces read.content.length reads

/-- The pieces make up what has been read. -/
theorem Grows.pieces_flatten {text : List Char} {offset : ℕ} {reads : List Read}
    (h : Grows text offset reads) :
    (encode text).take offset ++ (pieces offset reads).flatten
      = (encode text).take (readThrough offset reads) := by
  induction reads generalizing offset with
  | nil => exact List.append_nil _
  | cons read reads ih =>
    obtain ⟨hoffset, hlen, -, hpre, hrest⟩ := h
    have hcontent := List.prefix_iff_eq_take.mp hpre
    have htake : (encode text).take offset = read.content.take offset := by
      rw [hcontent, List.take_take, Nat.min_eq_left (hoffset.trans hlen)]
    rw [readThrough, ← ih hrest, pieces, List.flatten_cons, ← List.append_assoc, htake,
      List.take_append_drop, ← hcontent]

/-- A piece ends where a read does. -/
theorem Grows.cuts_pieces {text : List Char} {offset : ℕ} {reads : List Read}
    (h : Grows text offset reads) :
    (cuts (marked (pieces offset reads))).map (· + offset)
      = reads.map fun read => read.content.length := by
  induction reads generalizing offset with
  | nil => rfl
  | cons read reads ih =>
    obtain ⟨hoffset, hlen, -, -, hrest⟩ := h
    have hpiece : ∀ bytes : List UInt8, cuts (bytes.map some ++ [none]) = [bytes.length] := by
      intro bytes
      induction bytes with
      | nil => rfl
      | cons b bytes ih => simp [cuts, ih]
    rw [pieces, marked, List.flatMap_cons, cuts_append, hpiece, List.map_append, List.map_map]
    have hsum : (fun p => p + offset) ∘ (fun p => p
        + ((read.content.drop offset).map some ++ [none]).reduceOption.length)
        = fun p => p + read.content.length := by
      funext p
      rw [List.reduceOption_append, reduceOption_map_some]
      simp
      omega
    rw [hsum]
    have hhead : (read.content.drop offset).length + offset = read.content.length := by
      rw [List.length_drop]
      omega
    rw [List.map_singleton, List.map_cons, ← ih hrest, hhead]
    rfl

namespace LogMonitor

variable {Trading Event : Type} (parsers : Parsers Trading Event) {path : String}

/-- Where the monitor stands in the file: before the first read, or after one that ended at
    `offset`, inside a line that begins with `waiting`. -/
def Stands (m : LogMonitor Trading Event) (path : String) (inode offset : ℕ)
    (waiting : List Char) : Prop :=
  (m.cursors path = none ∧ offset = 0 ∧ waiting = []) ∨
    m.cursors path = some { inode, offset, partialLine := waiting }

theorem observe_cursors (scan : Scan) (ls : List (List Char)) (m : LogMonitor Trading Event) :
    (m.observe parsers scan ls).cursors = m.cursors := rfl

/-- A scan of another file, or one that fails, leaves the file's cursor alone. -/
theorem scan_of_not_read {m : LogMonitor Trading Event} {scan : Scan}
    (h : scan.read path = none) :
    (m.scan parsers scan).1.cursors path = m.cursors path ∧
      (scan.path = path → (m.scan parsers scan).2 = []) := by
  unfold LogMonitor.scan
  cases hmeta : scan.view.metadata with
  | none => exact ⟨rfl, fun _ => rfl⟩
  | some found =>
    cases hcontent : scan.view.content with
    | none =>
      exact ⟨rfl, fun _ => rfl⟩
    | some content =>
      -- Only a scan of another file gets here.
      have hpath : scan.path ≠ path := by
        intro hpath
        rw [Scan.read, if_pos hpath, hmeta, hcontent] at h
        cases h
      refine ⟨?_, fun hsame => absurd hsame hpath⟩
      dsimp only
      rw [Function.update_of_ne hpath.symm, observe_cursors]

/-- A scan that reads takes up where the last one ended. -/
theorem scan_of_read {m : LogMonitor Trading Event} {scan : Scan} {read : Read} {offset : ℕ}
    {waiting : List Char} (h : scan.read path = some read) (hinode : read.inode ≠ 0)
    (hstands : m.Stands path read.inode offset waiting) (hoffset : offset ≤ read.fileLen)
    (hlen : read.fileLen ≤ read.content.length)
    (hmax : read.content.length ≤ offset + maxLogReadBytes)
    (hfirst : m.cursors path = none → read.fileLen ≤ initialLogBytes) :
    scan.path = path ∧
      (m.scan parsers scan).2
        = lines (complete (waiting ++ fromUtf8Lossy (read.content.drop offset))) ∧
      (m.scan parsers scan).1.cursors path = some
        { inode := read.inode, offset := read.content.length
          partialLine := unfinished (waiting ++ fromUtf8Lossy (read.content.drop offset)) } := by
  unfold Scan.read at h
  split at h
  case isFalse => cases h
  case isTrue hpath =>
    split at h
    case h_2 => cases h
    case h_1 inode fileLen content hmeta hcontent =>
      cases h
      simp only at *
      refine ⟨hpath, ?_⟩
      -- The read starts at `offset`, in the middle of the file only where the last one ended.
      obtain ⟨cursor, hcursor, hwaiting, htail, hmid⟩ : ∃ cursor : LogCursor,
          (m.cursors path).getD {} = cursor ∧ cursor.partialLine = waiting ∧
          (let reset := decide (cursor.inode ≠ inode) || decide (fileLen < cursor.offset)
          (if cursor.inode = 0 ∨ reset then fileLen - initialLogBytes else cursor.offset) = offset ∧
            (decide (offset > 0) &&
              (decide (cursor.inode = 0) || reset || decide (offset ≠ cursor.offset))) = false) := by
        rcases hstands with ⟨hnone, rfl, rfl⟩ | hsome
        · refine ⟨{}, by rw [hnone]; rfl, rfl, ?_, rfl⟩
          rw [if_pos (.inl rfl)]
          exact Nat.sub_eq_zero_of_le (hfirst hnone)
        · refine ⟨{ inode, offset, partialLine := waiting }, by rw [hsome]; rfl, rfl, ?_⟩
          simp [hinode, Nat.not_lt.mpr hoffset]
      have hlong : ¬fileLen - offset > maxLogReadBytes := by omega
      unfold LogMonitor.scan
      rw [hmeta, hcontent, hpath]
      simp only [hcursor]
      have hbytes : (content.drop offset).take maxLogReadBytes = content.drop offset :=
        List.take_of_length_le (by rw [List.length_drop]; omega)
      simp only [htail, decide_eq_false hlong, Bool.false_eq_true, if_false, hmid, hwaiting, hbytes]
      refine ⟨trivial, ?_⟩
      have hend : offset + (content.drop offset).length = content.length := by
        rw [List.length_drop]
        omega
      rw [Function.update_self, hend]

/-- **A run hands over** what the pieces are decoded to, line by line. -/
theorem handed_eq {inode offset : ℕ} {text waiting : List Char} {scans : List Scan}
    (hinode : inode ≠ 0) {m : LogMonitor Trading Event}
    (hstands : m.Stands path inode offset waiting)
    (hsame : ∀ read ∈ scans.filterMap (Scan.read path), read.inode = inode)
    (hshort : m.cursors path = none →
      ∀ read ∈ (scans.filterMap (Scan.read path)).head?, read.fileLen ≤ initialLogBytes)
    (hgrows : Grows text offset (scans.filterMap (Scan.read path))) :
    m.handed parsers path scans
      = handOut waiting ((pieces offset (scans.filterMap (Scan.read path))).map fromUtf8Lossy) := by
  induction scans generalizing m offset waiting with
  | nil => rfl
  | cons scan scans ih =>
    cases hread : scan.read path with
    | none =>
      obtain ⟨hcursors, hlines⟩ := @scan_of_not_read _ _ parsers path m scan hread
      rw [List.filterMap_cons_none hread] at hsame hshort hgrows ⊢
      have hnone : (if scan.path = path then (m.scan parsers scan).2 else []) = [] := by
        split
        · exact hlines ‹_›
        · rfl
      rw [handed, hnone, List.nil_append]
      refine ih ?_ hsame ?_ hgrows
      · unfold Stands at hstands ⊢
        rwa [hcursors]
      · rwa [hcursors]
    | some read =>
      rw [List.filterMap_cons_some hread] at hsame hshort hgrows ⊢
      obtain ⟨rfl, hsame⟩ := List.forall_mem_cons.mp hsame
      obtain ⟨hoffset, hlen, hmax, -, hgrows⟩ := hgrows
      obtain ⟨hpath, hlines, hcursor⟩ := scan_of_read parsers hread hinode hstands hoffset hlen hmax
        fun hnone => hshort hnone read rfl
      rw [handed, if_pos hpath, hlines, pieces, List.map_cons, handOut]
      refine congrArg _ (ih (.inr hcursor) hsame (fun hnone => ?_) hgrows)
      rw [hcursor] at hnone
      cases hnone

end LogMonitor

/-- The lines of a file that grows are as many as the file has, and they are the file's just when no
    read ends inside a character of one of them. -/
theorem handed_iff {Trading Event : Type} {parsers : Parsers Trading Event}
    {m : LogMonitor Trading Event} {path : String} {inode : ℕ} {text : List Char}
    {scans : List Scan} (hnew : m.cursors path = none)
    (htailed : Tailed inode text (scans.filterMap (Scan.read path))) :
    (m.handed parsers path scans).length
        = (completeLines text (readThrough 0 (scans.filterMap (Scan.read path)))).length ∧
    (m.handed parsers path scans
        = completeLines text (readThrough 0 (scans.filterMap (Scan.read path))) ↔
      ∀ read ∈ scans.filterMap (Scan.read path),
        read.content.length ≤ (encode (complete (textWithin
          (readThrough 0 (scans.filterMap (Scan.read path))) text))).length →
        Boundary text read.content.length) := by
  rw [LogMonitor.handed_eq parsers htailed.inode_ne_zero (.inl ⟨hnew, rfl, rfl⟩) htailed.same
    (fun _ => htailed.short) htailed.grows, handOut_eq List.not_mem_nil, List.nil_append,
    ← List.flatMap_def, ← feed_marked]
  have hgrows := htailed.grows
  generalize scans.filterMap (Scan.read path) = reads at hgrows ⊢
  have hbytes := hgrows.pieces_flatten
  rw [List.take_zero, List.nil_append, ← reduceOption_marked] at hbytes
  obtain ⟨hlength, hlines⟩ := lines_feed_iff hbytes
  refine ⟨hlength, hlines.trans ?_⟩
  have hcuts := hgrows.cuts_pieces
  simp only [Nat.add_zero, List.map_id'] at hcuts
  rw [hcuts]
  exact List.forall_mem_map

/-! ## Lines that stop the monitor -/

section

variable {α : Type} {p : α → Bool}

theorem upTo_initial (l : List α) : upTo p l <+: l := by
  induction l with
  | nil => exact List.prefix_rfl
  | cons a l ih =>
    rw [upTo, List.cons_prefix_cons]
    refine ⟨rfl, ?_⟩
    split
    · exact List.nil_prefix
    · exact ih

theorem upTo_append (l l' : List α) :
    upTo p (l ++ l') = if l.any p then upTo p l else l ++ upTo p l' := by
  induction l with
  | nil => rfl
  | cons a l ih =>
    rw [List.cons_append, upTo, upTo, List.any_cons, ih]
    cases p a with
    | true => rfl
    | false =>
      simp only [Bool.false_or, Bool.false_eq_true, if_false]
      split
      · rfl
      · rfl

theorem upTo_map {β : Type} (f : β → α) (l : List β) :
    upTo p (l.map f) = (upTo (p ∘ f) l).map f := by
  induction l with
  | nil => rfl
  | cons a l ih =>
    rw [List.map_cons, upTo, upTo, List.map_cons, ih, Function.comp_apply]
    split
    · rfl
    · rfl

/-- Of a kind of items none is left out just when none comes after the end. -/
theorem length_filter_upTo_iff (q : α → Bool) (l : List α) :
    ((upTo p l).filter q).length = (l.filter q).length ↔
      ∀ before a after, l = before ++ a :: after → p a = true → ∀ b ∈ after, q b = false := by
  induction l with
  | nil => exact iff_of_true rfl fun before a after h => by simp at h
  | cons a l ih =>
    rw [upTo]
    by_cases ha : p a = true
    · rw [if_pos ha, List.filter_cons, List.filter_cons]
      have hnil : (l.filter q).length = 0 ↔ ∀ b ∈ l, q b = false := by
        rw [List.length_eq_zero_iff, List.filter_eq_nil_iff]
        simp only [Bool.not_eq_true]
      have hlater : (∀ before a' after, a :: l = before ++ a' :: after → p a' = true →
          ∀ b ∈ after, q b = false) ↔ ∀ b ∈ l, q b = false := by
        constructor
        · exact fun hall => hall [] a l rfl ha
        · intro hall before a' after h _ b hb
          cases before with
          | nil => exact hall b ((List.cons.inj h).2 ▸ hb)
          | cons c before =>
            have hl := (List.cons.inj h).2
            exact hall b (hl ▸ List.mem_append_right _ (List.mem_cons_of_mem _ hb))
      rw [hlater, ← hnil]
      split
      · simp only [List.filter_nil, List.length_cons, List.length_nil]
        omega
      · simp only [List.filter_nil, List.length_nil]
        omega
    · have hrest : (∀ before a' after, a :: l = before ++ a' :: after → p a' = true →
          ∀ b ∈ after, q b = false) ↔ ∀ before a' after, l = before ++ a' :: after →
            p a' = true → ∀ b ∈ after, q b = false := by
        constructor
        · exact fun hall before a' after h => hall (a :: before) a' after (congrArg (a :: ·) h)
        · intro hall before a' after h hstops
          cases before with
          | nil => exact absurd ((List.cons.inj h).1 ▸ hstops) ha
          | cons c before => exact hall before a' after (List.cons.inj h).2 hstops
      rw [if_neg ha, hrest, ← ih, List.filter_cons, List.filter_cons]
      split
      · rw [List.length_cons, List.length_cons, Nat.succ_inj]
      · rfl

end

namespace LogMonitor

variable {Trading Event : Type} (parsers : Parsers Trading Event) (stops : List Char → Bool)
  (path : String)

theorem handedOver_none (scans : List Scan) : handedOver parsers stops path none scans = [] := by
  induction scans with
  | nil => rfl
  | cons scan scans ih =>
    rw [handedOver, refresh, ih, ite_self]
    rfl

theorem filter_lines_of (p : String) (ls : List (List Char)) :
    ((ls.map (p, ·)).filter (·.1 = path)).map Prod.snd = if p = path then ls else [] := by
  rw [List.filter_map, List.map_map]
  by_cases h : p = path
  · simp [h, Function.comp_def]
  · simp [h, Function.comp_def]

theorem handed_eq_trace (m : LogMonitor Trading Event) (scans : List Scan) :
    m.handed parsers path scans
      = ((m.trace parsers scans).filter (·.1 = path)).map Prod.snd := by
  induction scans generalizing m with
  | nil => rfl
  | cons scan scans ih =>
    rw [handed, trace, List.filter_append, List.map_append, filter_lines_of, ih]

/-- What is handed over ends with the first line that stops the parsers. -/
theorem handedOver_eq_trace (m : LogMonitor Trading Event) (scans : List Scan) :
    handedOver parsers stops path (some m) scans
      = ((upTo (stops ∘ Prod.snd) (m.trace parsers scans)).filter (·.1 = path)).map Prod.snd := by
  induction scans generalizing m with
  | nil => rfl
  | cons scan scans ih =>
    have hany : ((m.scan parsers scan).2.map (scan.path, ·)).any (stops ∘ Prod.snd)
        = (m.scan parsers scan).2.any stops := List.any_map ..
    rw [handedOver, trace, upTo_append, hany, refresh]
    simp only
    by_cases hstops : (m.scan parsers scan).2.any stops = true
    · simp only [if_pos hstops]
      rw [handedOver_none, List.append_nil, upTo_map, filter_lines_of]
      rfl
    · simp only [if_neg hstops]
      rw [ih, List.filter_append, List.map_append, filter_lines_of]

end LogMonitor

/-- **Each line once**: over all scans of a file that grows, the parsers get the complete lines of
    what has been read, in order and unchanged, just when no read ends inside a character of one of
    them, and no line of the file comes after one, of this log or another, that stops them. -/
theorem lines_once_iff {Trading Event : Type} {parsers : Parsers Trading Event}
    {stops : List Char → Bool} {m : LogMonitor Trading Event} {path : String} {inode : ℕ}
    {text : List Char} {scans : List Scan} (hnew : m.cursors path = none)
    (htailed : Tailed inode text (scans.filterMap (Scan.read path))) :
    LogMonitor.handedOver parsers stops path (some m) scans
        = completeLines text (readThrough 0 (scans.filterMap (Scan.read path))) ↔
      (∀ read ∈ scans.filterMap (Scan.read path),
        read.content.length ≤ (encode (complete (textWithin
          (readThrough 0 (scans.filterMap (Scan.read path))) text))).length →
        Boundary text read.content.length) ∧
      ∀ before line after, m.trace parsers scans = before ++ line :: after → stops line.2 →
        ∀ later ∈ after, later.1 ≠ path := by
  obtain ⟨hlength, hlines⟩ := @handed_iff _ _ parsers _ _ _ _ _ hnew htailed
  rw [← hlines]
  have hinitial : LogMonitor.handedOver parsers stops path (some m) scans
      <+: m.handed parsers path scans := by
    rw [LogMonitor.handedOver_eq_trace, LogMonitor.handed_eq_trace]
    exact ((upTo_initial _).filter _).map _
  have hall : (LogMonitor.handedOver parsers stops path (some m) scans).length
      = (m.handed parsers path scans).length ↔
        ∀ before line after, m.trace parsers scans = before ++ line :: after → stops line.2 →
          ∀ later ∈ after, later.1 ≠ path := by
    rw [LogMonitor.handedOver_eq_trace, LogMonitor.handed_eq_trace, List.length_map,
      List.length_map, length_filter_upTo_iff]
    simp only [Function.comp_apply, decide_eq_false_iff_not, ne_eq]
  rw [← hall]
  constructor
  · intro heq
    have hsame := (congrArg List.length heq).trans hlength.symm
    exact ⟨(hinitial.eq_of_length hsame).symm.trans heq, hsame⟩
  · rintro ⟨heq, hsame⟩
    exact (hinitial.eq_of_length hsame).trans heq

/-! ## A character read in two halves -/

/-- Every line is an event. -/
def everyLine : Parsers Unit (List Char) where
  observeTradingLine := fun _ _ _ _ _ => ()
  pruneTradingState := fun _ _ _ => ()
  isWhitelistedMaxPositionRejection := fun _ => false
  parseLogEvent := fun line _ _ => some line
  atMs := fun _ => 0

/-- A scan that finds the first `n` bytes of a log. -/
def scanAt (log : List Char) (n : ℕ) : Scan where
  slug := "binance-intra-arb01"
  role := .preTrade
  path := "/home/ubuntu/pre_trade.log"
  view := { metadata := some (7, n), content := some ((encode log).take n) }
  nowMs := 0
  windowMs := 900000

def chineseLog : List Char := "下单失败\nok\n".toList

theorem chineseLog_tailed {n n' : ℕ} (h : n ≤ n') (h' : n' ≤ 16) : Tailed 7 chineseLog
    ([scanAt chineseLog n, scanAt chineseLog n'].filterMap
      (Scan.read "/home/ubuntu/pre_trade.log")) := by
  have hlength : (encode chineseLog).length = 16 := by decide +kernel
  have hreads : [scanAt chineseLog n, scanAt chineseLog n'].filterMap
      (Scan.read "/home/ubuntu/pre_trade.log")
      = [⟨7, n, (encode chineseLog).take n⟩, ⟨7, n', (encode chineseLog).take n'⟩] := rfl
  have hsmall : 16 ≤ initialLogBytes ∧ 16 ≤ maxLogReadBytes := by decide
  obtain ⟨hinitial, hmax⟩ := hsmall
  have htake : ∀ k ≤ 16, ((encode chineseLog).take k).length = k := by
    intro k hk
    rw [List.length_take, hlength]
    omega
  rw [hreads]
  constructor
  · decide
  · simp
  · simp only [List.head?_cons, Option.mem_some_iff, forall_eq']
    omega
  · simp only [Grows, htake n (by omega), htake n' h']
    refine ⟨by omega, by omega, by omega, List.take_prefix _ _, by omega, by omega, by omega,
      List.take_prefix _ _, trivial⟩

/-- A `Z` before the first `[` stops the parsers. -/
def zoneFirst (line : List Char) : Bool :=
  line.contains '[' && decide (line.findIdx (· = 'Z') < line.findIdx (· = '['))

/-- The first scan ends after the first byte of `下`. -/
theorem half_character_lost :
    Tailed 7 chineseLog ([scanAt chineseLog 1, scanAt chineseLog 16].filterMap
      (Scan.read "/home/ubuntu/pre_trade.log")) ∧
    LogMonitor.handedOver everyLine zoneFirst "/home/ubuntu/pre_trade.log" (some { trading := () })
        [scanAt chineseLog 1, scanAt chineseLog 16]
      = ["\uFFFD\uFFFD\uFFFD单失败".toList, "ok".toList] ∧
    completeLines chineseLog 16 = ["下单失败".toList, "ok".toList] :=
  ⟨chineseLog_tailed (by decide) (by decide), by decide +kernel, by decide +kernel⟩

/-- A scan may end between two characters, or anywhere in a line that is not complete yet. -/
theorem lines_once_between_characters :
    LogMonitor.handedOver everyLine zoneFirst "/home/ubuntu/pre_trade.log" (some { trading := () })
        [scanAt chineseLog 3, scanAt chineseLog 14]
      = completeLines chineseLog 14 := by
  refine (@lines_once_iff _ _ everyLine zoneFirst { trading := () } _ 7 chineseLog _ rfl
    (chineseLog_tailed (by decide) (by decide))).mpr ⟨?_, fun before line after htrace hstops => ?_⟩
  swap
  · have hnone : ∀ entry ∈ LogMonitor.trace everyLine { trading := () }
        [scanAt chineseLog 3, scanAt chineseLog 14], zoneFirst entry.2 = false := by
      decide +kernel
    have hline := hnone line (htrace ▸ List.mem_append_right _ List.mem_cons_self)
    exact absurd hstops (by rw [hline]; exact Bool.false_ne_true)
  intro read hread hle
  rcases List.mem_cons.mp hread with rfl | hread
  · exact ⟨['下'], by decide +kernel, by decide +kernel⟩
  · rw [List.mem_singleton.mp hread] at hle
    exact absurd hle (by decide +kernel)

end CryptoNav.Monitor
