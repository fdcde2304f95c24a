import CryptoNav.Intra.Conservation

/-!
# What the closes leave behind

The statistics of every symbol, the running totals and the recent matches are folds over the
closed matches of the run, each of its own part of them (`Recorded`), and a curve ends with the
point of its totals. The response is then read from these folds.

Each of the folds reads a close and its own state and nothing of the lots, which is why they can
be taken apart here and put together at the end. Steps that close nothing, funding and interest
among them, leave all of them alone.
-/

set_option autoImplicit false

namespace CryptoNav.Intra

open CryptoNav.Lib

/-! ## Recording -/

section

variable {settings : Settings}

theorem foldl_record_curves (w : Walk) (closings : List Closing) :
    (closings.foldl (Walk.record settings) w).curves =
      (closings.filter (·.order.symbol ∈ settings.selected)).foldl
        (Curves.record settings.maxMatches) w.curves := by
  induction closings generalizing w with
  | nil => rfl
  | cons c closings ih =>
    rw [List.foldl_cons, ih]
    by_cases hselected : c.order.symbol ∈ settings.selected
    · rw [List.filter_cons_of_pos (by simpa using hselected), List.foldl_cons]
      simp only [Walk.record, if_pos hselected]
    · rw [List.filter_cons_of_neg (by simpa using hselected)]
      simp only [Walk.record, if_neg hselected]

/-- The curves after a step. -/
theorem take_curves (w : Walk) (a : Taken) :
    (w.take settings a).curves =
      ((closes settings (w, a)).filter (·.order.symbol ∈ settings.selected)).foldl
        (Curves.record settings.maxMatches) w.curves := by
  cases a with
  | funding event =>
    show (Walk.take settings w (.funding event)).curves = w.curves
    unfold Walk.take
    simp only
    split
    · split <;> rfl
    · rfl
  | interest event =>
    show (Walk.take settings w (.interest event)).curves = w.curves
    unfold Walk.take
    simp only
    split <;> rfl
  | order order => exact foldl_record_curves w _

/-- What `record_match` makes of closes. -/
def recordAll (stats : SummaryAccumulator) (closings : List Closing) : SummaryAccumulator :=
  closings.foldl (fun stats c => stats.recordMatch c.row c.matchedNotional) stats

theorem stats_settle (state : SymbolState) (order : IntraAnalysisOrder) (closed : Closed) :
    (state.settle order closed).stats = state.stats := by
  unfold SymbolState.settle SymbolState.setLots
  simp only
  split <;> cases order.direction <;> rfl

/-- The statistics of a symbol after a step. -/
theorem take_stats (hnodup : settings.available.Nodup) (w : Walk) (a : Taken) (symbol : String) :
    ((w.take settings a).states symbol).stats =
      recordAll (w.states symbol).stats
        ((closes settings (w, a)).filter (·.order.symbol = symbol)) := by
  cases a with
  | funding event => exact (w.take_funding_sameLots settings event symbol).2
  | interest event => exact (w.take_interest_sameLots settings hnodup event symbol).2
  | order order =>
    rw [Walk.take_order_states]
    simp only [closes]
    by_cases he : order.symbol = symbol
    · subst he
      rw [Function.update_self, stats_settle, List.filter_eq_self.mpr fun c hc => by
        rw [(mem_closings hc).2]; exact decide_eq_true rfl]
      rfl
    · rw [Function.update_of_ne (Ne.symm he), List.filter_eq_nil_iff.mpr fun c hc => by
        rw [(mem_closings hc).2]; simpa using he]
      rfl

/-- **The records of a run** are folds over its closed matches. -/
theorem run_curves (w : Walk) (l : List Taken) :
    (l.foldl (Walk.take settings) w).curves =
      ((closedMatches settings w l).filter (·.order.symbol ∈ settings.selected)).foldl
        (Curves.record settings.maxMatches) w.curves := by
  induction l generalizing w with
  | nil => rfl
  | cons a l ih =>
    rw [List.foldl_cons, ih, take_curves, ← List.foldl_append, ← List.filter_append]
    rfl

theorem run_stats (hnodup : settings.available.Nodup) (w : Walk) (l : List Taken)
    (symbol : String) :
    ((l.foldl (Walk.take settings) w).states symbol).stats =
      recordAll (w.states symbol).stats
        ((closedMatches settings w l).filter (·.order.symbol = symbol)) := by
  induction l generalizing w with
  | nil => rfl
  | cons a l ih =>
    rw [List.foldl_cons, ih, take_stats hnodup]
    unfold recordAll
    rw [← List.foldl_append, ← List.filter_append]
    rfl

/-- Every closed match closes a lot of the other direction. -/
theorem closedMatches_opposite (settings : Settings) (hnodup : settings.available.Nodup) {w : Walk}
    (hw : SoundStates w.states) (l : List Taken) :
    ∀ c ∈ closedMatches settings w l, c.lot.direction = c.order.direction.opposite := by
  intro c hc
  obtain ⟨⟨w', a⟩, hentry, hmem⟩ := List.mem_flatMap.mp hc
  have hsound := (steps_invariant (P := fun w : Walk => SoundStates w.states)
    (fun a _ w h => h.take hnodup a) hw _ hentry).1
  cases a with
  | funding event => cases hmem
  | interest event => cases hmem
  | order order =>
    obtain ⟨hlot, horder⟩ := mem_closings hmem
    rw [horder]
    exact ((hsound order.symbol).lots _ c.lot hlot).1

end

/-! ## The ends of the curves -/

theorem getLast?_pushOrReplacePoint (points : List IntraAnalysisPoint)
    (point : IntraAnalysisPoint) : (pushOrReplacePoint points point).getLast? = some point := by
  unfold pushOrReplacePoint
  split <;> exact List.getLast?_concat ..

theorem getLast?_ensureFinalPoint {points : List IntraAnalysisPoint} {last : IntraAnalysisPoint}
    (h : points.getLast? = some last) (endMs : ℤ) :
    (ensureFinalPoint points endMs).getLast? = some { last with ts := endMs } := by
  unfold ensureFinalPoint
  rw [h]
  split
  · rename_i hts
    rw [h, ← Option.some.inj hts]
  · exact getLast?_pushOrReplacePoint _ _

/-- Downsampling keeps the last point. -/
theorem getLast?_downsamplePoints {points : List IntraAnalysisPoint} {maxPoints : ℕ}
    (hmax : 0 < maxPoints) : (downsamplePoints points maxPoints).getLast? = points.getLast? := by
  unfold downsamplePoints
  split
  · rfl
  · rename_i hlong
    simp only
    obtain ⟨slots, rfl⟩ : ∃ slots, maxPoints = slots + 1 := ⟨maxPoints - 1, by omega⟩
    rw [List.range_succ, List.map_append, List.map_singleton, List.getLast?_concat,
      if_pos (by omega), List.getLast?_eq_getElem?, List.getD_eq_getElem?_getD,
      List.getElem?_eq_getElem (by omega)]
    rfl

/-- A curve ends with the point of its totals, whenever that was. Points of one time replace each
    other, and the last one stays. -/
structure Ends (curves : Curves) : Prop where
  points : ∃ ts, curves.points.getLast? = some (curves.totals.point ts)
  symbolPoints : ∀ symbol, ∃ ts,
    (curves.symbolPoints symbol).getLast? = some { curves.symbolTotals symbol with ts := ts }

theorem point_zero (ts : ℤ) : PointTotals.point {} ts = { ts } := by
  simp [PointTotals.point, cleanZero]

theorem ends_start (request : IntraAnalysisRequest) : Ends (Walk.start request).curves where
  points := ⟨request.startMs, congrArg some (point_zero _).symm⟩
  symbolPoints _ := ⟨request.startMs, rfl⟩

theorem Ends.record {curves : Curves} (h : Ends curves) (maxMatches : ℕ) (c : Closing) :
    Ends (curves.record maxMatches c) := by
  constructor
  · exact ⟨c.order.completedAtMs, getLast?_pushOrReplacePoint _ _⟩
  · intro symbol
    simp only [Curves.record]
    by_cases he : symbol = c.order.symbol
    · subst he
      rw [Function.update_self, Function.update_self, getLast?_pushOrReplacePoint]
      exact ⟨_, rfl⟩
    · rw [Function.update_of_ne he, Function.update_of_ne he]
      exact h.symbolPoints symbol

section

variable (maxMatches : ℕ) (closings : List Closing) (curves : Curves)

theorem foldl_record_totals :
    (closings.foldl (Curves.record maxMatches) curves).totals =
      closings.foldl PointTotals.add curves.totals := by
  induction closings generalizing curves with
  | nil => rfl
  | cons c closings ih => exact ih _

theorem foldl_record_symbolTotals (symbol : String) :
    (closings.foldl (Curves.record maxMatches) curves).symbolTotals symbol =
      (closings.filter (·.order.symbol = symbol)).foldl IntraAnalysisPoint.addClose
        (curves.symbolTotals symbol) := by
  induction closings generalizing curves with
  | nil => rfl
  | cons c closings ih =>
    rw [List.foldl_cons, ih]
    simp only [Curves.record]
    by_cases he : c.order.symbol = symbol
    · rw [List.filter_cons_of_pos (by simpa using he), List.foldl_cons, he, Function.update_self]
    · rw [List.filter_cons_of_neg (by simpa using he), Function.update_of_ne (Ne.symm he)]

/-- With room for all of them the recent matches are all matches. -/
theorem foldl_record_recentMatches {closings : List Closing} {curves : Curves}
    (h : curves.recentMatches.length + closings.length ≤ maxMatches) :
    (closings.foldl (Curves.record maxMatches) curves).recentMatches =
      curves.recentMatches ++ closings.map Closing.row := by
  induction closings generalizing curves with
  | nil => exact (List.append_nil _).symm
  | cons c closings ih =>
    rw [List.length_cons] at h
    have hrecent : (curves.record maxMatches c).recentMatches = curves.recentMatches ++ [c.row] := by
      simp only [Curves.record]
      rw [if_pos (by omega), List.length_append, List.length_singleton,
        show curves.recentMatches.length + 1 - maxMatches = 0 by omega, List.drop_zero]
    rw [List.foldl_cons, ih (by rw [hrecent, List.length_append, List.length_singleton]; omega),
      hrecent, List.append_assoc, List.map_cons]
    rfl

/-- Every recent match is the row of a close. -/
theorem mem_recentMatches {row : IntraClosedMatch}
    (h : row ∈ (closings.foldl (Curves.record maxMatches) curves).recentMatches) :
    row ∈ curves.recentMatches ∨ ∃ c ∈ closings, c.row = row := by
  induction closings generalizing curves with
  | nil => exact .inl h
  | cons c closings ih =>
    rcases ih _ h with hrecent | ⟨c', hc', hrow⟩
    · simp only [Curves.record] at hrecent
      split at hrecent
      · rcases List.mem_append.mp (List.mem_of_mem_drop hrecent) with hold | hnew
        · exact .inl hold
        · exact .inr ⟨c, List.mem_cons_self, (List.mem_singleton.mp hnew).symm⟩
      · exact .inl hrecent
    · exact .inr ⟨c', List.mem_cons_of_mem _ hc', hrow⟩

theorem Ends.foldl {curves : Curves} (h : Ends curves) :
    Ends (closings.foldl (Curves.record maxMatches) curves) :=
  fold_invariant (fun c _ _ hcurves => hcurves.record maxMatches c) h

end

end CryptoNav.Intra
