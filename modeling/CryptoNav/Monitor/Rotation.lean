import CryptoNav.Monitor.Logs

/-!
# A log that is replaced

A scan that finds another file at its path, or a shorter one, reads it from its last
`initialLogBytes` on. The text that waits for the end of its line is only dropped if that leaves
something out: a new file that is read from its first byte goes on in the last line of the old one.
So the new file is parsed on its own just when nothing waits, or it is longer than the first read
reaches, or what waits is a `\r` that the new file gives its newline (`rotation_isolated_iff`).

The files are given by what a scan reads of them: length, identity and bytes. A file that is
replaced and has grown beyond the length of the old one by the time of the scan is told apart by
its identity; what the operating system does with identities is left out. Lines that stop the
parsers are left out, too, as they cut both of the compared runs alike.
-/

set_option autoImplicit false

namespace CryptoNav.Monitor

open CryptoNav.Lib

namespace LogMonitor

variable {Trading Event : Type}

/-- The monitor as if it had never read the file at `path`. -/
def forget (m : LogMonitor Trading Event) (path : String) : LogMonitor Trading Event :=
  { m with cursors := Function.update m.cursors path none }

end LogMonitor

/-- The file at the cursor's path is another one, or shorter than what has been read of it, or has
    not been read at all. -/
def LogCursor.StartsAnew (cursor : LogCursor) (read : Read) : Prop :=
  cursor.inode = 0 ∨ cursor.inode ≠ read.inode ∨ read.fileLen < cursor.offset

/-- What a scan reads of such a file. -/
def Read.bytes (read : Read) : List UInt8 :=
  (read.content.drop (read.fileLen - initialLogBytes)).take maxLogReadBytes

/-- What it makes of it, where `waiting` is left over. -/
def Read.takenUp (read : Read) (waiting : List Char) : List Char :=
  if initialLogBytes < read.fileLen then
    ((fromUtf8Lossy read.bytes).dropWhile (· ≠ '\n')).drop 1
  else waiting ++ fromUtf8Lossy read.bytes

/-- A scan that reads so. -/
def Read.scan (read : Read) (path : String) : Scan where
  slug := "binance-intra-arb01"
  role := .preTrade
  path
  view := { metadata := some (read.inode, read.fileLen), content := some read.content }
  nowMs := 0
  windowMs := 900000

/-- The file a little later, when its last line has been ended. A file with inode 0 would be read
    from its first byte again. -/
def Read.ended (read : Read) : Read :=
  if read.inode = 0 then { inode := 0, fileLen := 0, content := encode ['a', '\n'] }
  else
    { inode := read.inode
      fileLen := read.bytes.length
      content := read.bytes ++ encode ['a', '\n'] }

theorem Read.read_scan (read : Read) (path : String) : (read.scan path).read path = some read :=
  if_pos rfl

/-- A file that the first read reaches all of is taken up in what is left over. -/
theorem Read.takenUp_of_short {read : Read} (h : read.fileLen ≤ initialLogBytes)
    (waiting : List Char) : read.takenUp waiting = waiting ++ fromUtf8Lossy read.bytes := by
  rw [Read.takenUp, if_neg (Nat.not_lt.mpr h)]

theorem Read.bytes_of_short {read : Read} (h : read.fileLen ≤ initialLogBytes) :
    read.bytes = read.content.take maxLogReadBytes := by
  rw [Read.bytes, Nat.sub_eq_zero_of_le h, List.drop_zero]

namespace LogMonitor

variable {Trading Event : Type} (parsers : Parsers Trading Event) {path : String}

theorem scan_anew {m : LogMonitor Trading Event} {scan : Scan} {read : Read} {cursor : LogCursor}
    (h : scan.read path = some read) (hcursor : (m.cursors path).getD {} = cursor)
    (hanew : cursor.StartsAnew read) :
    scan.path = path ∧
      (m.scan parsers scan).2 = lines (complete (read.takenUp cursor.partialLine)) ∧
      (m.scan parsers scan).1.cursors path = some
        { inode := read.inode
          offset := read.fileLen - initialLogBytes + read.bytes.length
          partialLine := unfinished (read.takenUp cursor.partialLine) } := by
  unfold Scan.read at h
  split at h
  case isFalse => cases h
  case isTrue hpath =>
    split at h
    case h_2 => cases h
    case h_1 inode fileLen content hmeta hcontent =>
      cases h
      refine ⟨hpath, ?_⟩
      have hreset : cursor.inode = 0 ∨ (decide (cursor.inode ≠ inode)
          || decide (fileLen < cursor.offset)) = true := by
        simpa [LogCursor.StartsAnew] using hanew
      -- One read takes more than the first one reaches back.
      have hshort : ¬fileLen - (fileLen - initialLogBytes) > maxLogReadBytes := by
        have hle : initialLogBytes ≤ maxLogReadBytes := by decide
        omega
      have hmid : (decide (fileLen - initialLogBytes > 0) &&
          (decide (cursor.inode = 0) || (decide (cursor.inode ≠ inode)
            || decide (fileLen < cursor.offset)) ||
            decide (fileLen - initialLogBytes ≠ cursor.offset)))
          = decide (initialLogBytes < fileLen) := by
        have hor : (decide (cursor.inode = 0) || (decide (cursor.inode ≠ inode)
            || decide (fileLen < cursor.offset))) = true := by
          rcases hreset with h | h
          · rw [decide_eq_true h, Bool.true_or]
          · rw [h, Bool.or_true]
        rw [hor, Bool.true_or, Bool.and_true, decide_eq_decide]
        exact Nat.sub_pos_iff_lt
      unfold LogMonitor.scan
      rw [hmeta, hcontent, hpath]
      simp only [hcursor, if_pos hreset, decide_eq_false hshort, Bool.false_eq_true, if_false, hmid,
        decide_eq_true_eq]
      refine ⟨rfl, ?_⟩
      rw [Function.update_self]
      rfl

/-- What a scan hands over of a file, and where it stands in it afterwards, depend on where it stood
    in this file only. -/
theorem scan_congr {m m' : LogMonitor Trading Event} (h : m.cursors path = m'.cursors path)
    (scan : Scan) :
    (m.scan parsers scan).1.cursors path = (m'.scan parsers scan).1.cursors path ∧
      (scan.path = path → (m.scan parsers scan).2 = (m'.scan parsers scan).2) := by
  by_cases hpath : scan.path = path
  · subst hpath
    unfold LogMonitor.scan
    rw [h]
    split
    · exact ⟨h, fun _ => rfl⟩
    · dsimp only
      split
      · exact ⟨h, fun _ => rfl⟩
      · dsimp only
        refine ⟨?_, fun _ => rfl⟩
        rw [Function.update_self, Function.update_self]
  · have hread : scan.read path = none := if_neg hpath
    obtain ⟨hm, -⟩ := @scan_of_not_read _ _ parsers path m scan hread
    obtain ⟨hm', -⟩ := @scan_of_not_read _ _ parsers path m' scan hread
    exact ⟨by rw [hm, hm', h], fun hsame => absurd hsame hpath⟩

theorem handed_congr {m m' : LogMonitor Trading Event} (h : m.cursors path = m'.cursors path)
    (scans : List Scan) : m.handed parsers path scans = m'.handed parsers path scans := by
  induction scans generalizing m m' with
  | nil => rfl
  | cons scan scans ih =>
    obtain ⟨hcursors, hlines⟩ := scan_congr parsers h scan
    rw [handed, handed, ih hcursors]
    split
    · rw [hlines ‹_›]
    · rfl

/-- Two leftovers that make the same of the new file are never told apart. -/
theorem handed_anew {m m' : LogMonitor Trading Event} {read : Read} {cursor cursor' : LogCursor}
    (hcursor : (m.cursors path).getD {} = cursor) (hcursor' : (m'.cursors path).getD {} = cursor')
    (hanew : cursor.StartsAnew read) (hanew' : cursor'.StartsAnew read)
    (hcomplete : lines (complete (read.takenUp cursor.partialLine))
      = lines (complete (read.takenUp cursor'.partialLine)))
    (hunfinished : unfinished (read.takenUp cursor.partialLine)
      = unfinished (read.takenUp cursor'.partialLine))
    {scans : List Scan} (h : (scans.filterMap (Scan.read path)).head? = some read) :
    m.handed parsers path scans = m'.handed parsers path scans := by
  induction scans generalizing m m' with
  | nil => cases h
  | cons scan scans ih =>
    cases hread : scan.read path with
    | none =>
      rw [List.filterMap_cons_none hread] at h
      obtain ⟨hm, hlines⟩ := @scan_of_not_read _ _ parsers path m scan hread
      obtain ⟨hm', hlines'⟩ := @scan_of_not_read _ _ parsers path m' scan hread
      rw [handed, handed, ih (by rwa [hm]) (by rwa [hm']) h]
      split
      · rw [hlines ‹_›, hlines' ‹_›]
      · rfl
    | some found =>
      rw [List.filterMap_cons_some hread] at h
      obtain rfl := Option.some.inj h
      obtain ⟨hpath, hlines, hm⟩ := scan_anew parsers hread hcursor hanew
      obtain ⟨-, hlines', hm'⟩ := scan_anew parsers hread hcursor' hanew'
      rw [handed, handed, if_pos hpath, if_pos hpath, hlines, hlines', hcomplete]
      exact congrArg _ (handed_congr parsers (by rw [hm, hm', hunfinished]) scans)

theorem handed_scan (m : LogMonitor Trading Event) (read : Read) (scans : List Scan) :
    m.handed parsers path (read.scan path :: scans)
      = (m.scan parsers (read.scan path)).2
        ++ (m.scan parsers (read.scan path)).1.handed parsers path scans := by
  have hpath : (read.scan path).path = path := rfl
  rw [handed, if_pos hpath]

/-- A file that has grown, later. -/
theorem scan_more {m : LogMonitor Trading Event} {inode offset : ℕ} {waiting : List Char}
    {before added : List UInt8} (hinode : inode ≠ 0)
    (hcursor : m.cursors path = some { inode, offset, partialLine := waiting })
    (hbefore : before.length = offset) (hadded : added.length ≤ maxLogReadBytes) :
    (m.scan parsers (Read.scan { inode, fileLen := offset, content := before ++ added } path)).2
      = lines (complete (waiting ++ fromUtf8Lossy added)) := by
  have hread := Read.read_scan { inode, fileLen := offset, content := before ++ added } path
  have hlength := @List.length_append _ before added
  have hlen : offset ≤ (before ++ added).length := by omega
  have hmax : (before ++ added).length ≤ offset + maxLogReadBytes := by omega
  have hstands : m.Stands path inode offset waiting := .inr hcursor
  obtain ⟨-, hlines, -⟩ := scan_of_read parsers hread hinode hstands (Nat.le_refl offset) hlen hmax
    fun hnone => by rw [hcursor] at hnone; cases hnone
  rw [hlines, List.drop_left' hbefore]

/-- Where the first read goes on in `waiting`, so does the line that is ended. -/
theorem handed_ended {m : LogMonitor Trading Event} {read : Read} {cursor : LogCursor}
    (hcursor : (m.cursors path).getD {} = cursor) (hanew : cursor.StartsAnew read)
    (hshort : read.fileLen ≤ initialLogBytes) :
    m.handed parsers path [read.scan path, read.ended.scan path]
      = lines (cursor.partialLine ++ (fromUtf8Lossy read.bytes ++ ['a', '\n'])) := by
  obtain ⟨-, hlines, hm⟩ := scan_anew parsers (read.read_scan path) hcursor hanew
  have hadded := fromUtf8Lossy_encode ['a', '\n']
  rw [Read.takenUp_of_short hshort, Nat.sub_eq_zero_of_le hshort, Nat.zero_add] at hm
  rw [Read.takenUp_of_short hshort] at hlines
  have hended : ((m.scan parsers (read.scan path)).1.scan parsers (read.ended.scan path)).2
      = lines (complete (unfinished (cursor.partialLine ++ fromUtf8Lossy read.bytes)
          ++ ['a', '\n'])) := by
    by_cases hinode : read.inode = 0
    · obtain ⟨-, hlines', -⟩ := scan_anew parsers (read.ended.read_scan path)
        (by rw [hm, Option.getD_some]) (.inl hinode)
      have hread : read.ended = { inode := 0, fileLen := 0, content := encode ['a', '\n'] } :=
        if_pos hinode
      have hempty : read.ended.fileLen ≤ initialLogBytes := by
        rw [hread]
        exact Nat.zero_le _
      have hroom : (encode ['a', '\n']).length ≤ maxLogReadBytes := by decide
      rw [hlines', Read.takenUp_of_short hempty, Read.bytes_of_short hempty, hread,
        List.take_of_length_le hroom, hadded]
    · have hread : read.ended
          = { inode := read.inode
              fileLen := read.bytes.length
              content := read.bytes ++ encode ['a', '\n'] } := if_neg hinode
      rw [hread, scan_more parsers hinode hm rfl (by decide), hadded]
  rw [handed_scan, handed_scan, hlines, hended, handed, List.append_nil, lines_two_parts ?_,
    List.append_assoc]
  intro hne
  simp

end LogMonitor

/-- **A new file is parsed on its own**, whatever comes later, just when no text waits for it, or
    it is longer than the first read reaches, or the text is a `\r` and the file begins with `\n`. -/
theorem rotation_isolated_iff {Trading Event : Type} {parsers : Parsers Trading Event}
    {m : LogMonitor Trading Event} {path : String} {cursor : LogCursor} {read : Read}
    (hcursor : m.cursors path = some cursor)
    (hrotated : cursor.inode ≠ read.inode ∨ read.fileLen < cursor.offset) :
    (∀ scans : List Scan, (scans.filterMap (Scan.read path)).head? = some read →
        m.handed parsers path scans = (m.forget path).handed parsers path scans) ↔
      cursor.partialLine = [] ∨ initialLogBytes < read.fileLen ∨
        cursor.partialLine = ['\r'] ∧
          (fromUtf8Lossy (read.content.take maxLogReadBytes)).head? = some '\n' := by
  have hgetD : (m.cursors path).getD {} = cursor := by rw [hcursor]; rfl
  have hforget : ((m.forget path).cursors path).getD {} = {} := by
    simp only [LogMonitor.forget, Function.update_self]
    rfl
  have hanew : cursor.StartsAnew read := .inr hrotated
  have hnew : LogCursor.StartsAnew {} read := .inl rfl
  by_cases hlong : initialLogBytes < read.fileLen
  · refine iff_of_true (fun scans hscans => ?_) (.inr (.inl hlong))
    have htext : ∀ waiting, read.takenUp waiting = read.takenUp [] := fun waiting => by
      rw [Read.takenUp, Read.takenUp, if_pos hlong, if_pos hlong]
    refine LogMonitor.handed_anew parsers hgetD hforget hanew hnew ?_ ?_ hscans
    · rw [htext]
    · rw [htext]
  have hshort := Nat.not_lt.mp hlong
  have htext := Read.takenUp_of_short hshort
  simp only [hlong, false_or, ← Read.bytes_of_short hshort]
  constructor
  · intro hall
    have heq := hall [read.scan path, read.ended.scan path]
      (by rw [List.filterMap_cons_some (read.read_scan path), List.head?_cons])
    rw [LogMonitor.handed_ended parsers hgetD hanew hshort,
      LogMonitor.handed_ended parsers hforget hnew hshort, List.nil_append] at heq
    refine ((lines_append_eq_iff (by simp)).mp heq).imp_right (And.imp_right fun hhead => ?_)
    cases hx : fromUtf8Lossy read.bytes with
    | nil =>
      rw [hx] at hhead
      cases hhead
    | cons c x =>
      rw [hx] at hhead
      exact hhead
  · rintro (hempty | ⟨hreturn, hhead⟩) scans hscans
    · refine LogMonitor.handed_anew parsers hgetD hforget hanew hnew ?_ ?_ hscans
      · rw [hempty]
      · rw [hempty]
    · -- The newline ends an empty line either way.
      have hnewline : '\n' ∈ fromUtf8Lossy read.bytes := List.mem_of_head? hhead
      obtain ⟨hcomplete, hunfinished⟩ := append_complete hnewline ['\r']
      have hsame : lines (['\r'] ++ complete (fromUtf8Lossy read.bytes))
          = lines (complete (fromUtf8Lossy read.bytes)) :=
        (lines_append_eq_iff (List.mem_of_head? ((head?_complete hnewline).trans hhead))).mpr
          (.inr ⟨rfl, (head?_complete hnewline).trans hhead⟩)
      have htext' := htext []
      rw [List.nil_append] at htext'
      refine LogMonitor.handed_anew parsers hgetD hforget hanew hnew ?_ ?_ hscans
      · rw [htext, hreturn, htext', hcomplete, hsame]
      · rw [htext, hreturn, htext', hunfinished]

/-! ## A half line before a restart -/

def newLog : Read where
  inode := 8
  fileLen := 3
  content := encode "ok\n".toList

/-- The monitor after a scan of the first `n` bytes of the old log. -/
def readUpTo (n : ℕ) : LogMonitor Unit (List Char) :=
  (LogMonitor.scan everyLine { trading := () } (scanAt chineseLog n)).1

/-- The old log ends in the middle of its first line. -/
theorem half_line_goes_on :
    (readUpTo 3).cursors "/home/ubuntu/pre_trade.log"
        = some { inode := 7, offset := 3, partialLine := ['下'] } ∧
      (readUpTo 3).handed everyLine "/home/ubuntu/pre_trade.log"
        [newLog.scan "/home/ubuntu/pre_trade.log"] = ["下ok".toList] ∧
      ((readUpTo 3).forget "/home/ubuntu/pre_trade.log").handed everyLine
        "/home/ubuntu/pre_trade.log" [newLog.scan "/home/ubuntu/pre_trade.log"] = ["ok".toList] := by
  decide +kernel

/-- The old log ends with its first line. -/
theorem whole_line_isolated :
    (readUpTo 13).cursors "/home/ubuntu/pre_trade.log" = some { inode := 7, offset := 13 } ∧
      ∀ scans : List Scan,
        (scans.filterMap (Scan.read "/home/ubuntu/pre_trade.log")).head? = some newLog →
        (readUpTo 13).handed everyLine "/home/ubuntu/pre_trade.log" scans
          = ((readUpTo 13).forget "/home/ubuntu/pre_trade.log").handed everyLine
              "/home/ubuntu/pre_trade.log" scans := by
  have hcursor : (readUpTo 13).cursors "/home/ubuntu/pre_trade.log"
      = some { inode := 7, offset := 13 } := by decide +kernel
  exact ⟨hcursor, (rotation_isolated_iff hcursor (.inl (by decide))).mpr (.inl rfl)⟩

end CryptoNav.Monitor
