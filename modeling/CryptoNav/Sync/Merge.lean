import Mathlib.Tactic.Ring
import CryptoNav.Sync.Lifecycle

/-!
# Merging lifecycles across runs

A run folds the rows it read and merges the result into the stored lifecycle by the
`ON CONFLICT` rule of `upsert_lifecycles`. Most fields merge exactly (`unsummed`): first events,
counts and maxima are associative, in Rust and in SQL alike. The others need not. The describing
columns are those of the last part, where the fold keeps the row with the latest update; the
terminal local time misses the rows of a part whose own first terminal event is another one; and
the two sums are rounded after every addition, so that adding them part by part can round to
something else than adding them row by row. `merge_eq_fold_iff` says exactly when none of this
matters.
-/

set_option autoImplicit false

namespace CryptoNav.Sync

open CryptoNav.Lib

/-! ## The `ON CONFLICT` rule -/

/-- `EXCLUDED.source IS NOT NULL AND (stored.source IS NULL OR EXCLUDED.source < stored.source)` -/
def replacesFirst : Option ℤ → Option ℤ → Bool
  | _, none => false
  | none, some _ => true
  | some stored, some excluded => excluded < stored

/-- `CASE WHEN .. THEN EXCLUDED.value ELSE stored.value END`, for a value of a first event. -/
def firstEvent {α : Type} (storedSource excludedSource : Option ℤ) (stored excluded : α) : α :=
  if replacesFirst storedSource excludedSource then excluded else stored

/-- The `CASE` of `create_ts_us`. -/
def mergeCreate (stored excluded : ℤ) : ℤ :=
  if stored ≤ 0 ∧ 0 < excluded then excluded
  else if excluded ≤ 0 then stored
  else min stored excluded

/-- The `CASE` of `terminal_ts_local_us`; `=` is not true of nulls. -/
def mergeTerminalLocal (stored excluded : Lifecycle) : Option ℤ :=
  if replacesFirst stored.terminalSourceTsUs excluded.terminalSourceTsUs then
    excluded.terminalTsLocalUs
  else if stored.terminalTsUs.isSome ∧ stored.terminalTsUs = excluded.terminalTsUs then
    earliestOptionalTimestamp stored.terminalTsLocalUs excluded.terminalTsLocalUs
  else stored.terminalTsLocalUs

def Lifecycle.merge [Rounding] (stored excluded : Lifecycle) : Lifecycle where
  toDescriptor := excluded.toDescriptor
  venue := stored.venue
  clientOrderId := stored.clientOrderId
  firstSourceTsUs := min stored.firstSourceTsUs excluded.firstSourceTsUs
  lastSourceTsUs := max stored.lastSourceTsUs excluded.lastSourceTsUs
  mktTsUs := firstEvent stored.mktSourceTsUs excluded.mktSourceTsUs stored.mktTsUs excluded.mktTsUs
  mktSourceTsUs := firstEvent stored.mktSourceTsUs excluded.mktSourceTsUs stored.mktSourceTsUs
    excluded.mktSourceTsUs
  createTsUs := mergeCreate stored.createTsUs excluded.createTsUs
  newTsUs := firstEvent stored.newSourceTsUs excluded.newSourceTsUs stored.newTsUs excluded.newTsUs
  newSourceTsUs := firstEvent stored.newSourceTsUs excluded.newSourceTsUs stored.newSourceTsUs
    excluded.newSourceTsUs
  updateTsUs := max stored.updateTsUs excluded.updateTsUs
  terminalTsUs := firstEvent stored.terminalSourceTsUs excluded.terminalSourceTsUs
    stored.terminalTsUs excluded.terminalTsUs
  terminalTsLocalUs := mergeTerminalLocal stored excluded
  terminalSourceTsUs := firstEvent stored.terminalSourceTsUs excluded.terminalSourceTsUs
    stored.terminalSourceTsUs excluded.terminalSourceTsUs
  lastFillUpdateTsUs :=
    latestOptionalTimestamp stored.lastFillUpdateTsUs excluded.lastFillUpdateTsUs
  filledAmount := Rounding.fl (stored.filledAmount + excluded.filledAmount)
  fillNotional := Rounding.fl (stored.fillNotional + excluded.fillNotional)
  eventCount := stored.eventCount + excluded.eventCount
  terminal := stored.terminal || excluded.terminal

section

variable [Rounding]

/-- `INSERT .. ON CONFLICT DO UPDATE`, for one key. -/
def upsertLifecycle : Option Lifecycle → Option Lifecycle → Option Lifecycle
  | none, excluded => excluded
  | some stored, none => some stored
  | some stored, some excluded => some (stored.merge excluded)

def upsertLifecycles (stored : Lifecycles) (rows : List Lifecycle) : Lifecycles :=
  rows.foldl (Table.upsert Lifecycle.merge) stored

/-- An order's rows, folded part by part and merged. -/
def foldParts (parts : List (List OrderRow)) : Except String (Option Lifecycle) :=
  parts.foldlM (fun stored part => (foldRows part).map (upsertLifecycle stored)) none

end

/-! ## Rows without nulls -/

namespace OrderRow

/-- The describing columns of a row that has them. -/
def desc (r : OrderRow) : Descriptor := r.descriptor.toOption.getD default

/-- No describing column is null. The fold then takes over a descriptor whenever it wants to. -/
def Complete (r : OrderRow) : Prop := r.descriptor = .ok r.desc

end OrderRow

section

variable [Rounding]

/-- `foldRow` on a complete row. -/
def step (stored : Option Lifecycle) (r : OrderRow) : Lifecycle :=
  match stored with
  | none => .first r r.desc
  | some l => if l.isLatest r then (l.absorb r).describe r r.desc else l.absorb r

def fold (rows : List OrderRow) : Option Lifecycle :=
  rows.foldl (fun stored r => some (step stored r)) none

def merged (parts : List (List OrderRow)) : Option Lifecycle :=
  parts.foldl (fun stored part => upsertLifecycle stored (fold part)) none

theorem foldRow_complete {r : OrderRow} (h : r.Complete) (stored : Option Lifecycle) :
    foldRow stored r = .ok (step stored r) := by
  unfold OrderRow.Complete at h
  cases stored with
  | none =>
    show r.descriptor.map _ = _
    rw [h]
    rfl
  | some l =>
    show (if l.isLatest r then r.descriptor.map _ else _) = Except.ok (if l.isLatest r then _ else _)
    split
    · rw [h]
      rfl
    · rfl

theorem foldRows_complete {rows : List OrderRow} (h : ∀ r ∈ rows, r.Complete) :
    foldRows rows = .ok (fold rows) := by
  unfold foldRows fold
  generalize (none : Option Lifecycle) = stored
  induction rows generalizing stored with
  | nil => rfl
  | cons r rest ih =>
    obtain ⟨hr, hrest⟩ := List.forall_mem_cons.mp h
    rw [List.foldlM_cons, foldRow_complete hr]
    exact ih hrest _

theorem foldParts_complete {parts : List (List OrderRow)}
    (h : ∀ r ∈ parts.flatten, r.Complete) : foldParts parts = .ok (merged parts) := by
  unfold foldParts merged
  generalize (none : Option Lifecycle) = stored
  induction parts generalizing stored with
  | nil => rfl
  | cons part rest ih =>
    rw [List.flatten_cons] at h
    have hpart := foldRows_complete fun r hr => h r (List.mem_append_left _ hr)
    rw [List.foldlM_cons, hpart]
    exact ih (fun r hr => h r (List.mem_append_right _ hr)) _

theorem fold_append_single (rows : List OrderRow) (r : OrderRow) :
    fold (rows ++ [r]) = some (step (fold rows) r) := by
  unfold fold
  rw [List.foldl_append]
  rfl

theorem merged_append_single (parts : List (List OrderRow)) (part : List OrderRow) :
    merged (parts ++ [part]) = upsertLifecycle (merged parts) (fold part) := by
  unfold merged
  rw [List.foldl_append]
  rfl

end

/-! ## What merges exactly -/

namespace Lifecycle

/-- A lifecycle without the describing columns and the terminal local time. -/
def steady (l : Lifecycle) : Lifecycle :=
  { l with toDescriptor := default, terminalTsLocalUs := none }

/-- The same without the two sums. -/
def unsummed (l : Lifecycle) : Lifecycle := { l.steady with filledAmount := 0, fillNotional := 0 }

theorem eq_iff {l l' : Lifecycle} : l = l' ↔ l.steady = l'.steady ∧
    l.toDescriptor = l'.toDescriptor ∧ l.terminalTsLocalUs = l'.terminalTsLocalUs := by
  constructor
  · rintro rfl
    exact ⟨rfl, rfl, rfl⟩
  · rintro ⟨hs, hd, hl⟩
    cases l
    cases l'
    simp only [steady, Lifecycle.mk.injEq] at hs hd hl ⊢
    simp_all

theorem steady_iff {l l' : Lifecycle} : l.steady = l'.steady ↔ l.unsummed = l'.unsummed ∧
    l.filledAmount = l'.filledAmount ∧ l.fillNotional = l'.fillNotional := by
  constructor
  · intro h
    have hu : l.steady.unsummed = l'.steady.unsummed := congrArg unsummed h
    have ha : l.steady.filledAmount = l'.steady.filledAmount := congrArg filledAmount h
    have hn : l.steady.fillNotional = l'.steady.fillNotional := congrArg fillNotional h
    exact ⟨hu, ha, hn⟩
  · rintro ⟨hu, ha, hn⟩
    cases l
    cases l'
    simp only [unsummed, steady, Lifecycle.mk.injEq] at hu ha hn ⊢
    simp_all

end Lifecycle

theorem firstEvent_assoc {α : Type} (a b c : Option ℤ) (x y z : α) :
    firstEvent (firstEvent a b a b) c (firstEvent a b x y) z
      = firstEvent a (firstEvent b c b c) x (firstEvent b c y z) := by
  cases a with
  | none =>
    cases b with
    | none => cases c <;> simp [firstEvent, replacesFirst]
    | some b =>
      cases c with
      | none => simp [firstEvent, replacesFirst]
      | some c => by_cases h : c < b <;> simp [firstEvent, replacesFirst, h]
  | some a =>
    cases b with
    | none => cases c <;> simp [firstEvent, replacesFirst]
    | some b =>
      cases c with
      | none => by_cases h : b < a <;> simp [firstEvent, replacesFirst, h]
      | some c =>
        by_cases hba : b < a
        · by_cases hcb : c < b
          · simp [firstEvent, replacesFirst, hba, hcb, hcb.trans hba]
          · simp [firstEvent, replacesFirst, hba, hcb]
        · by_cases hcb : c < b
          · simp [firstEvent, replacesFirst, hba, hcb]
          · have hca : ¬c < a := fun h => hba (lt_of_le_of_lt (not_lt.mp hcb) h)
            simp [firstEvent, replacesFirst, hba, hcb, hca]

theorem mergeCreate_eq (a b : ℤ) : mergeCreate a b = firstPositiveTimestamp a b := by
  unfold mergeCreate firstPositiveTimestamp
  split_ifs <;> omega

theorem mergeCreate_assoc (a b c : ℤ) :
    mergeCreate (mergeCreate a b) c = mergeCreate a (mergeCreate b c) := by
  unfold mergeCreate
  split_ifs <;> omega

theorem latestOptionalTimestamp_assoc (a b c : Option ℤ) :
    latestOptionalTimestamp (latestOptionalTimestamp a b) c
      = latestOptionalTimestamp a (latestOptionalTimestamp b c) := by
  cases a <;> cases b <;> cases c <;> simp [latestOptionalTimestamp, max_assoc]

theorem firstEvent_row {α : Type} (storedSource : Option ℤ) (event : Option ℤ) (source : ℤ)
    (stored excluded : α) : firstEvent storedSource (event.map fun _ => source) stored excluded
      = if event.isSome && shouldReplaceFirstEvent storedSource source then excluded else stored := by
  unfold firstEvent
  cases event with
  | none => simp [replacesFirst]
  | some e => cases storedSource <;> simp [replacesFirst, shouldReplaceFirstEvent]

theorem firstSource_row (event stored : Option ℤ) (replace : Bool) (source : ℤ) :
    (if event.isSome && replace then some source else stored)
      = if event.isSome && replace then event.map fun _ => source else stored := by
  cases event with
  | none => rfl
  | some _ => rfl

section

variable [Rounding]

/-- A merge is associative but for the describing columns, the terminal local time and the sums. -/
theorem merge_assoc (a b c : Lifecycle) :
    ((a.merge b).merge c).unsummed = (a.merge (b.merge c)).unsummed := by
  simp only [Lifecycle.merge, Lifecycle.unsummed, Lifecycle.steady, firstEvent_assoc,
    mergeCreate_assoc, latestOptionalTimestamp_assoc, min_assoc, max_assoc, add_assoc,
    Bool.or_assoc]

theorem merge_congr {a a' b b' : Lifecycle} (ha : a.steady = a'.steady)
    (hb : b.steady = b'.steady) : (a.merge b).steady = (a'.merge b').steady := by
  have hmerge : ∀ a b : Lifecycle, (a.steady.merge b.steady).steady = (a.merge b).steady :=
    fun _ _ => rfl
  rw [← hmerge a b, ← hmerge a' b', ha, hb]

theorem merge_unsummed_congr {a a' b b' : Lifecycle} (ha : a.unsummed = a'.unsummed)
    (hb : b.unsummed = b'.unsummed) : (a.merge b).unsummed = (a'.merge b').unsummed := by
  have hmerge : ∀ a b : Lifecycle, (a.unsummed.merge b.unsummed).unsummed = (a.merge b).unsummed :=
    fun _ _ => rfl
  rw [← hmerge a b, ← hmerge a' b', ha, hb]

theorem step_latest {l : Lifecycle} {r : OrderRow} (h : l.isLatest r = true) :
    step (some l) r = (l.absorb r).describe r r.desc := if_pos h

theorem step_not_latest {l : Lifecycle} {r : OrderRow} (h : ¬l.isLatest r = true) :
    step (some l) r = l.absorb r := if_neg h

/-- Only a row at least as late as the latest one so far moves `update_ts_us`. -/
theorem step_update (l : Lifecycle) (r : OrderRow) :
    (step (some l) r).updateTsUs = max l.updateTsUs r.update := by
  by_cases h : l.isLatest r
  · have hle := of_decide_eq_true h
    rw [Prod.Lex.toLex_le_toLex] at hle
    rw [step_latest h, max_eq_right (by omega)]
    rfl
  · have hle := of_decide_eq_false (Bool.eq_false_of_not_eq_true h)
    rw [Prod.Lex.toLex_le_toLex] at hle
    rw [step_not_latest h, max_eq_left (by omega)]
    rfl

/-- Folding a row in is merging its own lifecycle, as far as the steady part goes. -/
theorem step_steady (l : Lifecycle) (r : OrderRow) :
    (step (some l) r).steady = (l.merge (.first r r.desc)).steady := by
  have habsorb : (step (some l) r).steady
      = { (l.absorb r).steady with updateTsUs := (step (some l) r).updateTsUs } := by
    by_cases h : l.isLatest r
    · rw [step_latest h]
      rfl
    · rw [step_not_latest h]
      rfl
  rw [habsorb, step_update]
  simp only [Lifecycle.merge, Lifecycle.steady, Lifecycle.absorb, Lifecycle.first, firstEvent_row,
    mergeCreate_eq]
  simp only [Lifecycle.mk.injEq, true_and, and_true]
  exact ⟨firstSource_row _ _ _ _, firstSource_row _ _ _ _, firstSource_row _ _ _ _⟩

theorem upsertLifecycle_none (stored : Option Lifecycle) : upsertLifecycle stored none = stored := by
  cases stored with
  | none => rfl
  | some _ => rfl

/-- What a merge keeps of the stored lifecycle, an upsert keeps. -/
theorem upsertLifecycle_congr {α : Type} {f : Lifecycle → α}
    (hf : ∀ a a' b : Lifecycle, f a = f a' → f (a.merge b) = f (a'.merge b))
    {s s' e : Option Lifecycle} (h : s.map f = s'.map f) :
    (upsertLifecycle s e).map f = (upsertLifecycle s' e).map f := by
  cases s with
  | none =>
    cases s' with
    | none => rfl
    | some _ => cases h
  | some l =>
    cases s' with
    | none => cases h
    | some l' =>
      cases e with
      | none => exact h
      | some m => exact congrArg some (hf l l' m (Option.some.inj h))

theorem fold_eq_none {rows : List OrderRow} : fold rows = none ↔ rows = [] := by
  cases rows using List.reverseRecOn with
  | nil => simp [fold]
  | append_singleton rows r => simp [fold_append_single]

theorem step_unsummed (l : Lifecycle) (r : OrderRow) :
    (step (some l) r).unsummed = (l.merge (.first r r.desc)).unsummed :=
  (Lifecycle.steady_iff.mp (step_steady l r)).1

/-- **Two folds merge to that of the whole**, but for the three kinds of fields. -/
theorem fold_append_unsummed (a b : List OrderRow) :
    (upsertLifecycle (fold a) (fold b)).map Lifecycle.unsummed
      = (fold (a ++ b)).map Lifecycle.unsummed := by
  induction b using List.reverseRecOn with
  | nil => rw [List.append_nil, show fold [] = none from rfl, upsertLifecycle_none]
  | append_singleton b r ih =>
    rw [← List.append_assoc, fold_append_single, fold_append_single]
    cases ha : fold a with
    | none =>
      rw [fold_eq_none.mp ha, List.nil_append]
      rfl
    | some l =>
      rw [ha] at ih
      cases hb : fold b with
      | none =>
        rw [fold_eq_none.mp hb, List.append_nil, ha]
        exact congrArg some (step_unsummed l r).symm
      | some m =>
        rw [hb] at ih
        obtain ⟨n, hn, hmn⟩ := Option.map_eq_some_iff.mp ih.symm
        rw [hn]
        refine congrArg some ?_
        calc (l.merge (step (some m) r)).unsummed
            = (l.merge (m.merge (.first r r.desc))).unsummed :=
              merge_unsummed_congr rfl (step_unsummed m r)
          _ = ((l.merge m).merge (.first r r.desc)).unsummed := (merge_assoc _ _ _).symm
          _ = (n.merge (.first r r.desc)).unsummed := merge_unsummed_congr hmn.symm rfl
          _ = (step (some n) r).unsummed := (step_unsummed n r).symm

theorem merged_unsummed (parts : List (List OrderRow)) :
    (merged parts).map Lifecycle.unsummed = (fold parts.flatten).map Lifecycle.unsummed := by
  induction parts using List.reverseRecOn with
  | nil => rfl
  | append_singleton parts part ih =>
    rw [merged_append_single, upsertLifecycle_congr (fun _ _ _ h => merge_unsummed_congr h rfl) ih,
      fold_append_unsummed]
    simp

theorem merged_eq_none {parts : List (List OrderRow)} (h : merged parts = none)
    (hne : ∀ part ∈ parts, part ≠ []) : parts = [] := by
  have hfold := merged_unsummed parts
  rw [h] at hfold
  have hflatten := fold_eq_none.mp (Option.map_eq_none_iff.mp hfold.symm)
  refine List.eq_nil_iff_forall_not_mem.mpr fun part hpart => hne part hpart ?_
  exact List.flatten_eq_nil_iff.mp hflatten part hpart

/-! ## The sums -/

/-- The filled amount of some rows, added up row by row. -/
def filled (rows : List OrderRow) : ℚ := runningSum (rows.map OrderRow.fill)

def notionals (rows : List OrderRow) : ℚ := runningSum (rows.map OrderRow.notional)

theorem fold_sums {rows : List OrderRow} {l : Lifecycle} (h : fold rows = some l) :
    l.filledAmount = filled rows ∧ l.fillNotional = notionals rows := by
  unfold filled notionals
  induction rows using List.reverseRecOn generalizing l with
  | nil => cases h
  | append_singleton rows r ih =>
    rw [fold_append_single] at h
    cases h
    cases hrows : fold rows with
    | none =>
      rw [fold_eq_none.mp hrows]
      exact ⟨rfl, rfl⟩
    | some m =>
      obtain ⟨hfilled, hnotional⟩ := ih hrows
      have hne : rows ≠ [] := fun hnil => by
        rw [fold_eq_none.mpr hnil] at hrows
        cases hrows
      rw [List.map_append, List.map_append, List.map_singleton, List.map_singleton,
        runningSum_append_single (by simpa using hne), runningSum_append_single (by simpa using hne),
        ← hfilled, ← hnotional]
      exact ⟨congrArg Lifecycle.filledAmount (step_steady m r),
        congrArg Lifecycle.fillNotional (step_steady m r)⟩

/-- A merge adds up what the parts add up to. -/
theorem merged_sums {parts : List (List OrderRow)} (hne : ∀ part ∈ parts, part ≠ [])
    {l : Lifecycle} (h : merged parts = some l) : l.filledAmount = runningSum (parts.map filled) ∧
      l.fillNotional = runningSum (parts.map notionals) := by
  induction parts using List.reverseRecOn generalizing l with
  | nil => cases h
  | append_singleton parts part ih =>
    have hparts : ∀ part ∈ parts, part ≠ [] := fun x hx => hne x (List.mem_append_left _ hx)
    obtain ⟨m, hm⟩ : ∃ m, fold part = some m :=
      Option.ne_none_iff_exists'.mp fun hn => hne part (by simp) (fold_eq_none.mp hn)
    obtain ⟨hfilled, hnotional⟩ := fold_sums hm
    rw [merged_append_single, hm] at h
    rw [List.map_append, List.map_append, List.map_singleton, List.map_singleton]
    cases hs : merged parts with
    | none =>
      rw [hs] at h
      cases h
      rw [merged_eq_none hs hparts]
      exact ⟨hfilled, hnotional⟩
    | some k =>
      rw [hs] at h
      cases h
      obtain ⟨hkfilled, hknotional⟩ := ih hparts hs
      have hparts' : parts ≠ [] := fun hnil => by
        rw [hnil] at hs
        cases hs
      rw [runningSum_append_single (by simpa using hparts'),
        runningSum_append_single (by simpa using hparts'), ← hkfilled, ← hknotional, ← hfilled,
        ← hnotional]
      exact ⟨rfl, rfl⟩

end

/-! ## The describing columns -/

/-- The row with the latest update, the last one among equals. -/
def latest (rows : List OrderRow) : Option OrderRow :=
  rows.foldl (fun best r => some (best.elim r fun b => if b.update ≤ r.update then r else b)) none

theorem latest_append_single (rows : List OrderRow) (r : OrderRow) :
    latest (rows ++ [r])
      = some ((latest rows).elim r fun b => if b.update ≤ r.update then r else b) := by
  unfold latest
  rw [List.foldl_append]
  rfl

/-- The rows of an order as they are delivered. Within one source time any order will do. -/
def Sorted (rows : List OrderRow) : Prop := rows.Pairwise fun a b => a.source ≤ b.source

theorem Sorted.append_single {rows : List OrderRow} {r : OrderRow} (h : Sorted (rows ++ [r])) :
    Sorted rows ∧ ∀ a ∈ rows, a.source ≤ r.source := by
  obtain ⟨hrows, -, hr⟩ := List.pairwise_append.mp h
  exact ⟨hrows, fun a ha => hr a ha r List.mem_cons_self⟩

/-- The latest source time is that of a row. -/
theorem fold_lastSource [Rounding] {rows : List OrderRow} {l : Lifecycle} (h : fold rows = some l) :
    ∃ r ∈ rows, l.lastSourceTsUs = r.source := by
  induction rows using List.reverseRecOn generalizing l with
  | nil => cases h
  | append_singleton rows r ih =>
    rw [fold_append_single] at h
    cases h
    cases hrows : fold rows with
    | none => exact ⟨r, by simp, rfl⟩
    | some m =>
      obtain ⟨a, ha, hlast⟩ := ih hrows
      have hstep : (step (some m) r).lastSourceTsUs = max m.lastSourceTsUs r.source :=
        congrArg Lifecycle.lastSourceTsUs (step_steady m r)
      rcases max_choice m.lastSourceTsUs r.source with hm | hm
      · exact ⟨a, List.mem_append_left _ ha, by rw [hstep, hm, hlast]⟩
      · exact ⟨r, by simp, by rw [hstep, hm]⟩

/-- A fold in source order describes the order by the latest row. -/
theorem fold_describe [Rounding] {rows : List OrderRow} (h : Sorted rows) :
    (fold rows).map (fun l => (l.toDescriptor, l.updateTsUs))
      = (latest rows).map fun r => (r.desc, r.update) := by
  induction rows using List.reverseRecOn with
  | nil => rfl
  | append_singleton rows r ih =>
    obtain ⟨hrows, hle⟩ := h.append_single
    have ih := ih hrows
    rw [fold_append_single, latest_append_single]
    cases hfold : fold rows with
    | none =>
      rw [hfold] at ih
      rw [Option.map_eq_none_iff.mp ih.symm]
      rfl
    | some l =>
      rw [hfold] at ih
      obtain ⟨b, hb, hdesc⟩ := Option.map_eq_some_iff.mp ih.symm
      have hu : b.update = l.updateTsUs := congrArg Prod.snd hdesc
      obtain ⟨a, ha, hlast⟩ := fold_lastSource hfold
      have hsource : l.lastSourceTsUs ≤ r.source := hlast ▸ hle a ha
      have hlatest : l.isLatest r = true ↔ b.update ≤ r.update := by
        unfold Lifecycle.isLatest
        rw [decide_eq_true_iff, Prod.Lex.toLex_le_toLex, ← hu]
        omega
      rw [hb]
      refine congrArg some ?_
      rw [Option.elim_some]
      by_cases hlr : b.update ≤ r.update
      · rw [if_pos hlr, step_latest (hlatest.mpr hlr)]
        rfl
      · rw [if_neg hlr, step_not_latest (mt hlatest.mp hlr)]
        exact hdesc.symm

/-! ## The terminal local time -/

/-- The time of the first terminal event. -/
def firstTerminal (rows : List OrderRow) : Option ℤ := rows.findSome? OrderRow.terminalEvent

/-- The local times of the terminal events at `u`. -/
def localsAt (u : ℤ) (rows : List OrderRow) : List ℤ :=
  rows.filterMap fun r => if r.terminalEvent = some u then r.terminalLocal else none

theorem firstTerminal_append (a b : List OrderRow) :
    firstTerminal (a ++ b) = (firstTerminal a).or (firstTerminal b) := List.findSome?_append

theorem localsAt_append (u : ℤ) (a b : List OrderRow) :
    localsAt u (a ++ b) = localsAt u a ++ localsAt u b := List.filterMap_append

theorem localsAt_eq_nil {rows : List OrderRow} (h : firstTerminal rows = none) (u : ℤ) :
    localsAt u rows = [] := by
  refine List.filterMap_eq_nil_iff.mpr fun r hr => ?_
  rw [List.findSome?_eq_none_iff.mp h r hr]
  rfl

theorem earliest_min? (a b : List ℤ) :
    earliestOptionalTimestamp a.min? b.min? = (a ++ b).min? := by
  induction a with
  | nil => cases h : b.min? <;> simp [earliestOptionalTimestamp, h]
  | cons x a ih =>
    rw [List.cons_append, List.min?_cons, List.min?_cons, ← ih]
    cases a.min? <;> cases b.min? <;> simp [earliestOptionalTimestamp, min_assoc]

theorem localsAt_single (u : ℤ) (r : OrderRow) :
    localsAt u [r] = if r.terminalEvent = some u then r.terminalLocal.toList else [] := by
  unfold localsAt
  split
  · rename_i h
    cases hlocal : r.terminalLocal <;> simp [h, hlocal]
  · rename_i h
    simp [h]

theorem min?_toList (t : Option ℤ) : t.toList.min? = t := by
  cases t <;> simp

/-- A later event does not replace an earlier one. -/
theorem not_shouldReplace {a s : ℤ} (h : a ≤ s) : shouldReplaceFirstEvent (some a) s = false :=
  decide_eq_false (not_lt.mpr h)

/-- What a lifecycle knows of the terminal events of `rows`. The local time is left out, as it is
    not a matter of the rows' own times alone. -/
structure TerminalOf (rows : List OrderRow) (l : Lifecycle) : Prop where
  ts : l.terminalTsUs = firstTerminal rows
  source_none : l.terminalSourceTsUs = none ↔ firstTerminal rows = none
  source_mem : ∀ s, l.terminalSourceTsUs = some s → ∃ r ∈ rows, r.source = s

/-- A fold in source order keeps the first terminal event, and the least local time of those at
    its time. -/
theorem fold_terminal [Rounding] {rows : List OrderRow} (h : Sorted rows) {l : Lifecycle}
    (hfold : fold rows = some l) : TerminalOf rows l ∧
      l.terminalTsLocalUs = (firstTerminal rows).bind fun u => (localsAt u rows).min? := by
  induction rows using List.reverseRecOn generalizing l with
  | nil => cases hfold
  | append_singleton rows r ih =>
    obtain ⟨hrows, hle⟩ := h.append_single
    rw [fold_append_single] at hfold
    cases hfold
    have hfirst : firstTerminal (rows ++ [r]) = (firstTerminal rows).or r.terminalEvent := by
      rw [firstTerminal_append]
      simp [firstTerminal]
    cases hprev : fold rows with
    | none =>
      rw [fold_eq_none.mp hprev] at hfirst ⊢
      replace hfirst : firstTerminal ([] ++ [r]) = r.terminalEvent := hfirst
      refine ⟨⟨hfirst.symm, ?_, ?_⟩, ?_⟩
      · rw [hfirst]
        exact Option.map_eq_none_iff
      · intro s hs
        obtain ⟨_, _, rfl⟩ := Option.map_eq_some_iff.mp hs
        exact ⟨r, by simp, rfl⟩
      · rw [hfirst]
        show r.terminalLocal = _
        cases hevent : r.terminalEvent with
        | none => rw [OrderRow.terminalLocal, hevent]; rfl
        | some u =>
          show r.terminalLocal = (localsAt u [r]).min?
          rw [localsAt_single, if_pos hevent, min?_toList]
    | some m =>
      obtain ⟨⟨hts, hnone, hmem⟩, hlocal⟩ := ih hrows hprev
      have hstepTs : (step (some m) r).terminalTsUs
          = firstEvent m.terminalSourceTsUs (r.terminalEvent.map fun _ => r.source)
              m.terminalTsUs r.terminalEvent :=
        congrArg Lifecycle.terminalTsUs (step_steady m r)
      have hstepSource : (step (some m) r).terminalSourceTsUs
          = firstEvent m.terminalSourceTsUs (r.terminalEvent.map fun _ => r.source)
              m.terminalSourceTsUs (r.terminalEvent.map fun _ => r.source) :=
        congrArg Lifecycle.terminalSourceTsUs (step_steady m r)
      have hstepLocal : (step (some m) r).terminalTsLocalUs = m.addTerminalLocal r := by
        by_cases hl : m.isLatest r
        · rw [step_latest hl]
          rfl
        · rw [step_not_latest hl]
          rfl
      rw [firstEvent_row] at hstepTs hstepSource
      unfold Lifecycle.addTerminalLocal at hstepLocal
      have hold : ∀ s, m.terminalSourceTsUs = some s → ∃ x ∈ rows ++ [r], x.source = s := by
        intro s hs
        obtain ⟨x, hx, hxs⟩ := hmem s hs
        exact ⟨x, List.mem_append_left _ hx, hxs⟩
      cases hevent : r.terminalEvent with
      | none =>
        rw [hevent, Option.or_none] at hfirst
        simp only [hevent, Option.isSome_none, Bool.false_and, Bool.false_eq_true, if_false]
          at hstepTs hstepSource hstepLocal
        refine ⟨⟨?_, ?_, ?_⟩, ?_⟩
        · rw [hstepTs, hts, hfirst]
        · rw [hstepSource, hnone, hfirst]
        · rw [hstepSource]
          exact hold
        · rw [hstepLocal, hlocal, hfirst]
          refine congrArg _ (funext fun u => ?_)
          rw [localsAt_append, localsAt_single, if_neg (by simp [hevent]), List.append_nil]
      | some v =>
        rw [hevent] at hfirst
        simp only [hevent, Option.isSome_some, Bool.true_and] at hstepTs hstepSource hstepLocal
        cases hsource : m.terminalSourceTsUs with
        | none =>
          -- The first terminal event.
          have hfirstNone := hnone.mp hsource
          rw [hfirstNone, Option.none_or] at hfirst
          rw [hsource, show shouldReplaceFirstEvent none r.source = true from rfl]
            at hstepTs hstepSource hstepLocal
          simp only [if_true] at hstepTs hstepSource hstepLocal
          refine ⟨⟨?_, ?_, ?_⟩, ?_⟩
          · rw [hstepTs, hfirst]
          · rw [hstepSource, hfirst]
            simp
          · rw [hstepSource]
            intro s hs
            exact ⟨r, by simp, Option.some.inj hs⟩
          · rw [hstepLocal, hfirst]
            show r.terminalLocal = (localsAt v (rows ++ [r])).min?
            rw [localsAt_append, localsAt_eq_nil hfirstNone, List.nil_append, localsAt_single,
              if_pos hevent, min?_toList]
        | some a =>
          -- A later one: at the same time it can lower the local time.
          obtain ⟨x, hx, hxa⟩ := hmem a hsource
          obtain ⟨u, hu⟩ : ∃ u, firstTerminal rows = some u := by
            refine Option.ne_none_iff_exists'.mp fun hn => ?_
            rw [hnone.mpr hn] at hsource
            cases hsource
          rw [hu, Option.some_or] at hfirst
          rw [hu] at hts hlocal
          replace hlocal : m.terminalTsLocalUs = (localsAt u rows).min? := hlocal
          rw [hsource, not_shouldReplace (hxa ▸ hle x hx)] at hstepTs hstepSource hstepLocal
          simp only [Bool.false_eq_true, if_false] at hstepTs hstepSource hstepLocal
          refine ⟨⟨?_, ?_, ?_⟩, ?_⟩
          · rw [hstepTs, hts, hfirst]
          · rw [hstepSource, hfirst]
            simp
          · rw [hstepSource, ← hsource]
            exact hold
          · rw [hstepLocal, hfirst, hts, hlocal]
            show _ = (localsAt u (rows ++ [r])).min?
            rw [localsAt_append, localsAt_single, hevent]
            by_cases huv : u = v
            · rw [if_pos (congrArg some huv), if_pos (congrArg some huv.symm), ← earliest_min?,
                min?_toList]
            · rw [if_neg fun h => huv (Option.some.inj h),
                if_neg fun h => huv (Option.some.inj h).symm, List.append_nil]

theorem TerminalOf.congr {rows : List OrderRow} {l l' : Lifecycle} (h : TerminalOf rows l)
    (hs : l'.unsummed = l.unsummed) : TerminalOf rows l' := by
  have hts : l'.unsummed.terminalTsUs = l.unsummed.terminalTsUs := by rw [hs]
  have hsource : l'.unsummed.terminalSourceTsUs = l.unsummed.terminalSourceTsUs := by rw [hs]
  replace hts : l'.terminalTsUs = l.terminalTsUs := hts
  replace hsource : l'.terminalSourceTsUs = l.terminalSourceTsUs := hsource
  refine ⟨hts.trans h.ts, ?_, ?_⟩
  · rw [hsource]
    exact h.source_none
  · rw [hsource]
    exact h.source_mem

/-- A merged lifecycle knows the same of the terminal events as the fold of the whole, but for
    the local time. -/
theorem merged_terminal [Rounding] {parts : List (List OrderRow)} (h : Sorted parts.flatten)
    {l : Lifecycle}
    (hl : merged parts = some l) : TerminalOf parts.flatten l := by
  have hrest := merged_unsummed parts
  rw [hl] at hrest
  obtain ⟨n, hn, hs⟩ := Option.map_eq_some_iff.mp hrest.symm
  exact (fold_terminal h hn).1.congr hs.symm

/-- The local times at `u` in the parts whose own first terminal event is at `u`. -/
def ownLocals (u : ℤ) (parts : List (List OrderRow)) : List ℤ :=
  (parts.filter fun part => firstTerminal part = some u).flatMap (localsAt u)

theorem ownLocals_append_single (u : ℤ) (parts : List (List OrderRow)) (part : List OrderRow) :
    ownLocals u (parts ++ [part])
      = ownLocals u parts ++ if firstTerminal part = some u then localsAt u part else [] := by
  unfold ownLocals
  rw [List.filter_append, List.flatMap_append]
  congr 1
  by_cases h : firstTerminal part = some u <;> simp [h]

theorem mem_ownLocals {u t : ℤ} {parts : List (List OrderRow)} : t ∈ ownLocals u parts ↔
    ∃ part ∈ parts, firstTerminal part = some u ∧ t ∈ localsAt u part := by
  simp only [ownLocals, List.mem_flatMap, List.mem_filter, decide_eq_true_eq, and_assoc]

theorem ownLocals_eq_nil {parts : List (List OrderRow)} (h : firstTerminal parts.flatten = none)
    (u : ℤ) : ownLocals u parts = [] := by
  refine List.eq_nil_iff_forall_not_mem.mpr fun t ht => ?_
  obtain ⟨part, hpart, hfirst, -⟩ := mem_ownLocals.mp ht
  obtain ⟨r, hr, hevent⟩ := List.exists_of_findSome?_eq_some hfirst
  have := List.findSome?_eq_none_iff.mp h r (List.mem_flatten.mpr ⟨part, hpart, hr⟩)
  rw [hevent] at this
  cases this

theorem ownLocals_subset (u : ℤ) (parts : List (List OrderRow)) :
    ∀ t ∈ ownLocals u parts, t ∈ localsAt u parts.flatten := by
  intro t ht
  obtain ⟨part, hpart, -, hmem⟩ := mem_ownLocals.mp ht
  obtain ⟨r, hr, hlocal⟩ := List.mem_filterMap.mp hmem
  exact List.mem_filterMap.mpr ⟨r, List.mem_flatten.mpr ⟨part, hpart, hr⟩, hlocal⟩

/-- A merge keeps the least local time of those parts only. -/
theorem merged_local [Rounding] {parts : List (List OrderRow)} (h : Sorted parts.flatten)
    {l : Lifecycle}
    (hl : merged parts = some l) : l.terminalTsLocalUs
      = (firstTerminal parts.flatten).bind fun u => (ownLocals u parts).min? := by
  induction parts using List.reverseRecOn generalizing l with
  | nil => cases hl
  | append_singleton parts part ih =>
    have hflatten : (parts ++ [part]).flatten = parts.flatten ++ part := by simp
    rw [hflatten] at h ⊢
    obtain ⟨hparts, hpart, hle⟩ := List.pairwise_append.mp h
    rw [merged_append_single] at hl
    rw [firstTerminal_append]
    simp only [ownLocals_append_single]
    cases hm : fold part with
    | none =>
      rw [hm, upsertLifecycle_none] at hl
      rw [fold_eq_none.mp hm, ih hparts hl]
      simp [firstTerminal]
    | some m =>
      obtain ⟨⟨hmts, hmnone, hmmem⟩, hmlocal⟩ := fold_terminal hpart hm
      rw [hm] at hl
      cases hs : merged parts with
      | none =>
        rw [hs] at hl
        cases hl
        have hempty : fold parts.flatten = none := by
          have := merged_unsummed parts
          rw [hs] at this
          exact Option.map_eq_none_iff.mp this.symm
        have hnone : firstTerminal parts.flatten = none := by
          rw [fold_eq_none.mp hempty]
          rfl
        rw [hmlocal, hnone, Option.none_or]
        cases hv : firstTerminal part with
        | none => rfl
        | some v =>
          show _ = (ownLocals v parts ++ if some v = some v then localsAt v part else []).min?
          rw [ownLocals_eq_nil hnone, if_pos rfl, List.nil_append]
          rfl
      | some k =>
        obtain ⟨hkts, hknone, hkmem⟩ := merged_terminal hparts hs
        have hklocal := ih hparts hs
        rw [hs] at hl
        cases hl
        show mergeTerminalLocal k m = _
        unfold mergeTerminalLocal
        cases hv : firstTerminal part with
        | none =>
          -- The part has no terminal event.
          rw [hmnone.mpr hv, show replacesFirst k.terminalSourceTsUs none = false from by
            cases k.terminalSourceTsUs <;> rfl, hmts, hv, Option.or_none, hklocal]
          rw [if_neg (by decide), if_neg fun hc => by simp [hc.2] at hc]
          simp
        | some v =>
          rw [hv] at hmts hmlocal
          replace hmlocal : m.terminalTsLocalUs = (localsAt v part).min? := hmlocal
          obtain ⟨b, hb⟩ : ∃ b, m.terminalSourceTsUs = some b := by
            refine Option.ne_none_iff_exists'.mp fun hn => ?_
            rw [hmnone.mp hn] at hv
            cases hv
          cases hu : firstTerminal parts.flatten with
          | none =>
            rw [hknone.mpr hu, hb]
            show m.terminalTsLocalUs
              = (ownLocals v parts ++ if some v = some v then localsAt v part else []).min?
            rw [ownLocals_eq_nil hu, if_pos rfl, List.nil_append, hmlocal]
          | some u =>
            obtain ⟨a, ha⟩ : ∃ a, k.terminalSourceTsUs = some a := by
              refine Option.ne_none_iff_exists'.mp fun hn => ?_
              rw [hknone.mp hn] at hu
              cases hu
            obtain ⟨x, hx, hxa⟩ := hkmem a ha
            obtain ⟨y, hy, hyb⟩ := hmmem b hb
            have hab : a ≤ b := hxa ▸ hyb ▸ hle x hx y hy
            rw [hu] at hkts hklocal
            replace hklocal : k.terminalTsLocalUs = (ownLocals u parts).min? := hklocal
            rw [ha, hb, show replacesFirst (some a) (some b) = false from
              decide_eq_false (not_lt.mpr hab), if_neg (by decide), hkts, hmts, hklocal, hmlocal,
              Option.some_or]
            show _ = (ownLocals u parts ++ if some v = some u then localsAt u part else []).min?
            by_cases huv : u = v
            · rw [if_pos ⟨rfl, congrArg some huv⟩, if_pos (congrArg some huv.symm), ← earliest_min?,
                huv]
            · rw [if_neg fun hc => huv (Option.some.inj hc.2),
                if_neg fun hc => huv (Option.some.inj hc).symm, List.append_nil]

/-- Two lists, one within the other, have one minimum if the smaller reaches as low. -/
theorem min?_eq_iff {a b : List ℤ} (h : ∀ t ∈ b, t ∈ a) :
    a.min? = b.min? ↔ ∀ t ∈ a, ∃ t' ∈ b, t' ≤ t := by
  constructor
  · intro hmin t ht
    cases ha : a.min? with
    | none =>
      rw [List.min?_eq_none_iff.mp ha] at ht
      cases ht
    | some m =>
      rw [ha] at hmin
      obtain ⟨hb, -⟩ := List.min?_eq_some_iff.mp hmin.symm
      obtain ⟨-, hle⟩ := List.min?_eq_some_iff.mp ha
      exact ⟨m, hb, hle t ht⟩
  · intro hlow
    cases ha : a.min? with
    | none =>
      have hnil : b = [] := by
        refine List.eq_nil_iff_forall_not_mem.mpr fun t ht => ?_
        have hta := h t ht
        rw [List.min?_eq_none_iff.mp ha] at hta
        cases hta
      rw [hnil]
      rfl
    | some m =>
      obtain ⟨hm, hle⟩ := List.min?_eq_some_iff.mp ha
      obtain ⟨t, ht, htm⟩ := hlow m hm
      have htm' : t = m := le_antisymm htm (hle t (h t ht))
      refine (List.min?_eq_some_iff.mpr ⟨htm' ▸ ht, fun x hx => hle x (h x hx)⟩).symm

/-! ## When merging is folding -/

/-- The part read last has a latest row that describes the order as the latest row of all does;
    of the terminal events at the first terminal time, the earliest by local time is in a
    part whose own first terminal event is at that time; and the two sums, taken part by part and
    then added, round to what they are when taken row by row. -/
structure MergesExactly [Rounding] (parts : List (List OrderRow)) : Prop where
  described : ∀ part, parts.getLast? = some part →
    (latest part).map OrderRow.desc = (latest parts.flatten).map OrderRow.desc
  terminal : ∀ u, firstTerminal parts.flatten = some u → ∀ t ∈ localsAt u parts.flatten,
    ∃ part ∈ parts, firstTerminal part = some u ∧ ∃ t' ∈ localsAt u part, t' ≤ t
  filled : runningSum (parts.map Sync.filled) = Sync.filled parts.flatten
  notionals : runningSum (parts.map Sync.notionals) = Sync.notionals parts.flatten

/-- **When merging is folding.** For rows in source order and without nulls, in nonempty parts, the
    merged lifecycle is the folded one exactly if `MergesExactly` holds of the parts. It holds over
    every rounding: what the rounding decides is whether the sums of the parts add up to the sum of
    the rows. -/
theorem merge_eq_fold_iff [Rounding] {parts : List (List OrderRow)}
    (hne : ∀ part ∈ parts, part ≠ [])
    (hsorted : Sorted parts.flatten) (hcomplete : ∀ r ∈ parts.flatten, r.Complete) :
    foldParts parts = foldRows parts.flatten ↔ MergesExactly parts := by
  rw [foldParts_complete hcomplete, foldRows_complete hcomplete]
  cases parts using List.reverseRecOn with
  | nil =>
    constructor
    · intro _
      refine ⟨?_, ?_, rfl, rfl⟩
      · intro part h
        cases h
      · intro u h
        cases h
    · intro _
      rfl
  | append_singleton parts part =>
    set all := parts ++ [part] with hall
    obtain ⟨m, hm⟩ : ∃ m, fold part = some m := by
      refine Option.ne_none_iff_exists'.mp fun hn => ?_
      exact hne part (by simp [hall]) (fold_eq_none.mp hn)
    obtain ⟨l, hl⟩ : ∃ l, merged all = some l := by
      rw [hall, merged_append_single, hm]
      cases merged parts with
      | none => exact ⟨m, rfl⟩
      | some k => exact ⟨k.merge m, rfl⟩
    have hrest := merged_unsummed all
    rw [hl] at hrest
    obtain ⟨n, hn, hs⟩ := Option.map_eq_some_iff.mp hrest.symm
    obtain ⟨hfilled, hnotionals⟩ := merged_sums hne hl
    obtain ⟨hfilled', hnotionals'⟩ := fold_sums hn
    have hdesc : l.toDescriptor = m.toDescriptor := by
      rw [hall, merged_append_single, hm] at hl
      cases hk : merged parts with
      | none =>
        rw [hk] at hl
        cases hl
        rfl
      | some k =>
        rw [hk] at hl
        cases hl
        rfl
    have hsortedPart : Sorted part := by
      rw [hall, List.flatten_append, List.flatten_singleton] at hsorted
      exact (List.pairwise_append.mp hsorted).2.1
    obtain ⟨b, hb, hbm⟩ := Option.map_eq_some_iff.mp
      ((fold_describe hsortedPart).symm.trans (congrArg _ hm))
    obtain ⟨c, hc, hcn⟩ := Option.map_eq_some_iff.mp
      ((fold_describe hsorted).symm.trans (congrArg _ hn))
    have hbm' : b.desc = m.toDescriptor := congrArg Prod.fst hbm
    have hcn' : c.desc = n.toDescriptor := congrArg Prod.fst hcn
    have hlast : all.getLast? = some part := by
      rw [hall, List.getLast?_append]
      rfl
    rw [hl, hn]
    constructor
    · intro heq
      obtain ⟨hsteady, hd, hlocal⟩ :=
        Lifecycle.eq_iff.mp (Option.some.inj (Except.ok.inj heq))
      obtain ⟨-, hamount, hnotional⟩ := Lifecycle.steady_iff.mp hsteady
      refine ⟨?_, ?_, ?_, ?_⟩
      · intro part' hpart'
        rw [hlast] at hpart'
        cases hpart'
        rw [hb, hc, Option.map_some, Option.map_some, hbm', hcn', ← hdesc, hd]
      · intro u hu t ht
        rw [merged_local hsorted hl, (fold_terminal hsorted hn).2, hu] at hlocal
        obtain ⟨t', ht', hle⟩ := (min?_eq_iff (ownLocals_subset u all)).mp hlocal.symm t ht
        obtain ⟨part', hpart', hfirst, hmem⟩ := mem_ownLocals.mp ht'
        exact ⟨part', hpart', hfirst, t', hmem, hle⟩
      · rw [← hfilled, ← hfilled', hamount]
      · rw [← hnotionals, ← hnotionals', hnotional]
    · rintro ⟨hdescribed, hterminal, hsum, hsum'⟩
      have hsteady : l.steady = n.steady := by
        refine Lifecycle.steady_iff.mpr ⟨hs.symm, ?_, ?_⟩
        · rw [hfilled, hfilled', hsum]
        · rw [hnotionals, hnotionals', hsum']
      refine congrArg (Except.ok ∘ some) (Lifecycle.eq_iff.mpr ⟨hsteady, ?_, ?_⟩)
      · have := hdescribed part hlast
        rw [hb, hc] at this
        rw [hdesc, ← hbm', ← hcn']
        exact Option.some.inj this
      · rw [merged_local hsorted hl, (fold_terminal hsorted hn).2]
        cases hu : firstTerminal all.flatten with
        | none => rfl
        | some u =>
          refine ((min?_eq_iff (ownLocals_subset u all)).mpr fun t ht => ?_).symm
          obtain ⟨part', hpart', hfirst, t', ht', hle⟩ := hterminal u hu t ht
          exact ⟨t', mem_ownLocals.mpr ⟨part', hpart', hfirst, ht'⟩, hle⟩

/-- Exact sums can be taken in parts. -/
theorem sums_unrounded (parts : List (List OrderRow)) :
    runningSum (parts.map filled) = filled parts.flatten ∧
      runningSum (parts.map notionals) = notionals parts.flatten := by
  have hsum : ∀ f : OrderRow → ℚ, runningSum (parts.map fun rows => runningSum (rows.map f))
      = runningSum (parts.flatten.map f) := by
    intro f
    rw [runningSum_unrounded, runningSum_unrounded, List.map_flatten, List.sum_flatten,
      List.map_map]
    exact congrArg List.sum (List.map_congr_left fun rows _ => runningSum_unrounded _)
  exact ⟨hsum _, hsum _⟩

/-- A row of one Margin order, with an update and a status of its own. -/
def sampleRow (source update : ℤ) (status : String) (fill : ℚ) : OrderRow where
  venue := "BinanceMargin"
  clientOrderId := 7
  source := source
  market := some 5
  create := 5
  update := update
  localTs := source
  status := status
  fill := fill
  price := 100
  descriptor := .ok ⟨"BTCUSDT", "buy", 100, 0, 2, status, ""⟩

/-- A `NEW` and a `FILLED` event, read in two runs. -/
def inOrder : List (List OrderRow) := [[sampleRow 10 9 "NEW" 0], [sampleRow 20 19 "FILLED" 2]]

theorem merge_eq_fold_in_order : foldParts inOrder = foldRows inOrder.flatten := by
  refine (merge_eq_fold_iff ?_ ?_ ?_).mpr ⟨?_, ?_, (sums_unrounded inOrder).1,
    (sums_unrounded inOrder).2⟩
  · intro part hpart
    rcases List.mem_cons.mp hpart with rfl | hpart
    · exact List.cons_ne_nil _ _
    · rw [List.mem_singleton.mp hpart]
      exact List.cons_ne_nil _ _
  · show List.Pairwise _ _
    decide +kernel
  · intro r hr
    rcases List.mem_cons.mp hr with rfl | hr
    · rfl
    · rw [List.mem_singleton.mp hr]
      rfl
  · intro part hpart
    cases hpart
    decide +kernel
  · intro u hu t ht
    have hfirst : firstTerminal inOrder.flatten = some 19 := by decide +kernel
    cases hfirst.symm.trans hu
    exact ⟨[sampleRow 20 19 "FILLED" 2], by simp [inOrder], by decide +kernel, 20,
      by decide +kernel, by
        have hlocals : localsAt 19 inOrder.flatten = [20] := by decide +kernel
        rw [hlocals] at ht
        exact (List.mem_singleton.mp ht).ge⟩

/-- The `NEW` event is read a run after the partial fill that it precedes: the fold keeps the
    status of the fill, the merge takes that of the `NEW` event. -/
def lateNew : List (List OrderRow) :=
  [[sampleRow 10 9 "PARTIALLY_FILLED" 1], [sampleRow 20 8 "NEW" 0]]

theorem merge_differs_late_new : (∀ part ∈ lateNew, part ≠ []) ∧ Sorted lateNew.flatten ∧
    (∀ r ∈ lateNew.flatten, r.Complete) ∧ foldParts lateNew ≠ foldRows lateNew.flatten := by
  refine ⟨?_, ?_, ?_, ?_⟩
  · intro part hpart
    rcases List.mem_cons.mp hpart with rfl | hpart
    · exact List.cons_ne_nil _ _
    · rw [List.mem_singleton.mp hpart]
      exact List.cons_ne_nil _ _
  · show List.Pairwise _ _
    decide +kernel
  · intro r hr
    rcases List.mem_cons.mp hr with rfl | hr
    · rfl
    · rw [List.mem_singleton.mp hr]
      rfl
  · intro heq
    have hmerged : Yields (foldParts lateNew) fun l => l.map (·.status) = some "NEW" := by
      decide +kernel
    have hfolded : Yields (foldRows lateNew.flatten) fun l =>
        l.map (·.status) = some "PARTIALLY_FILLED" := by
      decide +kernel
    obtain ⟨l, hl, hnew⟩ := hmerged
    obtain ⟨l', hl', hfill⟩ := hfolded
    rw [hl, hl'] at heq
    cases heq
    rw [hnew] at hfill
    exact absurd hfill (by decide)

end CryptoNav.Sync
