import Mathlib.Data.List.MinMax
import CryptoNav.Sync.Deltas

/-!
# Rows in another order

`fold_frame` compares timestamps so that an order's rows can arrive in any order, and most fields
of a lifecycle do come out the same (`settled`). The others do not always. `create_ts_us` keeps the
first row's value when none is positive. `previous_latest` pairs the greatest update time with the
greatest source time of all rows so far, which may be another row's, so that the latest row can be
taken for an older one. The terminal local time is reset when a terminal row turns out to be first,
while it collects those of equal time that come after. And the two sums are rounded after every
addition, so they depend on the order of what they add. `foldsInAnyOrder_iff` says exactly when none
of this shows.
-/

set_option autoImplicit false

namespace CryptoNav.Sync

open CryptoNav.Lib

/-! ## What no order changes -/

/-- A lifecycle without the fields that can depend on the order of the rows. -/
def Lifecycle.settled (l : Lifecycle) : Lifecycle := { l.unsummed with createTsUs := 0 }

theorem Lifecycle.eq_of_settled {l l' : Lifecycle} (hsettled : l.settled = l'.settled)
    (hcreate : l.createTsUs = l'.createTsUs) (hdesc : l.toDescriptor = l'.toDescriptor)
    (hlocal : l.terminalTsLocalUs = l'.terminalTsLocalUs)
    (hfilled : l.filledAmount = l'.filledAmount) (hnotional : l.fillNotional = l'.fillNotional) :
    l = l' := by
  refine Lifecycle.eq_iff.mpr ⟨Lifecycle.steady_iff.mpr ⟨?_, hfilled, hnotional⟩, hdesc, hlocal⟩
  cases l
  cases l'
  simp only [settled, unsummed, steady, Lifecycle.mk.injEq] at hsettled hcreate ⊢
  simp_all

theorem firstEvent_comm {α : Type} {a b : Option ℤ} (x y : α)
    (h : ∀ s ∈ a, ∀ t ∈ b, s ≠ t) (hnone : a = none → b = none → x = y) :
    firstEvent a b x y = firstEvent b a y x := by
  cases a with
  | none =>
    cases b with
    | none => exact hnone rfl rfl
    | some b => rfl
  | some a =>
    cases b with
    | none => rfl
    | some b =>
      have hne : a ≠ b := h a rfl b rfl
      unfold firstEvent replacesFirst
      by_cases hlt : b < a
      · simp [hlt, not_lt.mpr hlt.le]
      · simp [hlt, lt_of_le_of_ne (not_lt.mp hlt) hne]

theorem latestOptionalTimestamp_comm (a b : Option ℤ) :
    latestOptionalTimestamp a b = latestOptionalTimestamp b a := by
  cases a <;> cases b <;> simp [latestOptionalTimestamp, max_comm]

/-- The lifecycles of two rows of an order, with source times of their own, merge alike in both
    orders. -/
theorem merge_first_comm [Rounding] {r q : OrderRow} (hkey : r.key = q.key)
    (hne : r.source ≠ q.source) :
    ((Lifecycle.first r r.desc).merge (.first q q.desc)).settled
      = ((Lifecycle.first q q.desc).merge (.first r r.desc)).settled := by
  obtain ⟨hvenue, hid⟩ := Prod.mk.inj (toLex_inj.mp hkey)
  have hsources : ∀ e f : Option ℤ, ∀ s ∈ e.map fun _ => r.source,
      ∀ t ∈ f.map fun _ => q.source, s ≠ t := by
    intro e f s hs t ht
    obtain ⟨-, -, rfl⟩ := Option.map_eq_some_iff.mp hs
    obtain ⟨-, -, rfl⟩ := Option.map_eq_some_iff.mp ht
    exact hne
  have hevent : ∀ e f : Option ℤ, e.map (fun _ => r.source) = none →
      f.map (fun _ => q.source) = none → e = f := by
    intro e f he hf
    rw [Option.map_eq_none_iff.mp he, Option.map_eq_none_iff.mp hf]
  have hboth : ∀ e f : Option ℤ, e.map (fun _ => r.source) = none →
      f.map (fun _ => q.source) = none → e.map (fun _ => r.source) = f.map fun _ => q.source :=
    fun e f he hf => he.trans hf.symm
  simp only [Lifecycle.settled, Lifecycle.unsummed, Lifecycle.steady, Lifecycle.merge,
    Lifecycle.first, hvenue, hid, min_comm, max_comm, Bool.or_comm, latestOptionalTimestamp_comm,
    firstEvent_comm _ _ (hsources _ _) (hevent _ _), firstEvent_comm _ _ (hsources _ _) (hboth _ _)]

theorem settled_of_unsummed {l l' : Lifecycle} (h : l.unsummed = l'.unsummed) :
    l.settled = l'.settled :=
  congrArg (fun l : Lifecycle => { l with createTsUs := 0 }) h

section

variable [Rounding]

theorem merge_settled (a b : Lifecycle) : (a.settled.merge b).settled = (a.merge b).settled := rfl

theorem merge_settled_congr {a b b' : Lifecycle} (h : b.settled = b'.settled) :
    (a.merge b).settled = (a.merge b').settled := by
  have hright : ∀ c : Lifecycle, (a.merge c.settled).settled = (a.merge c).settled := fun _ => rfl
  rw [← hright b, ← hright b', h]

/-- The settled part of a lifecycle after a row. -/
def settle (stored : Option Lifecycle) (r : OrderRow) : Option Lifecycle :=
  some (stored.elim (Lifecycle.first r r.desc) (·.merge (.first r r.desc))).settled

theorem fold_settled (rows : List OrderRow) :
    (fold rows).map Lifecycle.settled = rows.foldl settle none := by
  induction rows using List.reverseRecOn with
  | nil => rfl
  | append_singleton rows r ih =>
    rw [fold_append_single, List.foldl_append, ← ih]
    refine congrArg some ?_
    cases fold rows with
    | none => rfl
    | some l => exact (settled_of_unsummed (step_unsummed l r)).trans (merge_settled l _).symm

theorem settle_comm {r q : OrderRow} (hkey : r.key = q.key) (hne : r.source ≠ q.source)
    (stored : Option Lifecycle) : settle (settle stored r) q = settle (settle stored q) r := by
  refine congrArg some ?_
  cases stored with
  | none => exact merge_first_comm hkey hne
  | some l =>
    calc ((l.merge (.first r r.desc)).merge (.first q q.desc)).settled
        = (l.merge ((Lifecycle.first r r.desc).merge (.first q q.desc))).settled :=
          settled_of_unsummed (merge_assoc _ _ _)
      _ = (l.merge ((Lifecycle.first q q.desc).merge (.first r r.desc))).settled :=
          merge_settled_congr (merge_first_comm hkey hne)
      _ = ((l.merge (.first q q.desc)).merge (.first r r.desc)).settled :=
          (settled_of_unsummed (merge_assoc _ _ _)).symm

/-- **The settled part is the same in any order.** -/
theorem fold_settled_perm {rows rows' : List OrderRow} {key : OrderKey}
    (hkey : ∀ r ∈ rows, r.key = key) (hsources : (rows.map OrderRow.source).Nodup)
    (hperm : rows'.Perm rows) :
    (fold rows').map Lifecycle.settled = (fold rows).map Lifecycle.settled := by
  rw [fold_settled, fold_settled]
  refine (hperm.symm.foldl_eq' (fun r hr q hq stored => ?_) none).symm
  by_cases hsame : r.source = q.source
  · rw [List.inj_on_of_nodup_map hsources hr hq hsame]
  · exact settle_comm ((hkey r hr).trans (hkey q hq).symm) hsame stored

end

/-! ## The sums -/

/-- In every order the fills add up to the same, and so do the notionals. Exact sums do so always,
    and rounded ones where they need no rounding. -/
def SumsAgree [Rounding] (rows : List OrderRow) : Prop :=
  ∀ rows', rows'.Perm rows → filled rows' = filled rows ∧ notionals rows' = notionals rows

/-- Exact sums do not depend on the order. -/
theorem sumsAgree_unrounded (rows : List OrderRow) : SumsAgree rows := by
  intro rows' hperm
  unfold filled notionals
  simp only [runningSum_unrounded]
  exact ⟨(hperm.map _).sum_eq, (hperm.map _).sum_eq⟩

/-! ## The creation time -/

/-- The creation time after a row. -/
theorem step_create [Rounding] (l : Lifecycle) (r : OrderRow) :
    (step (some l) r).createTsUs = firstPositiveTimestamp l.createTsUs r.create :=
  (congrArg Lifecycle.createTsUs (step_steady l r)).trans (mergeCreate_eq _ _)

/-- The least positive value, or the first row's if there is none. -/
structure CreateOf (rows : List OrderRow) (create : ℤ) : Prop where
  first : (∀ r ∈ rows, r.create ≤ 0) → rows.head?.map OrderRow.create = some create
  least : ∀ r ∈ rows, 0 < r.create → 0 < create ∧ create ≤ r.create
  mem : ∃ r ∈ rows, r.create = create

theorem fold_create [Rounding] {rows : List OrderRow} {l : Lifecycle} (h : fold rows = some l) :
    CreateOf rows l.createTsUs := by
  induction rows using List.reverseRecOn generalizing l with
  | nil => cases h
  | append_singleton rows r ih =>
    rw [fold_append_single] at h
    cases h
    cases hrows : fold rows with
    | none =>
      rw [fold_eq_none.mp hrows]
      refine ⟨fun _ => rfl, fun q hq hpos => ?_, r, List.mem_singleton.mpr rfl, rfl⟩
      rw [List.mem_singleton.mp hq] at hpos ⊢
      exact ⟨hpos, le_rfl⟩
    | some m =>
      obtain ⟨hfirst, hleast, q, hq, hmem⟩ := ih hrows
      rw [step_create]
      generalize m.createTsUs = create at hfirst hleast hmem
      refine ⟨fun hnone => ?_, fun x hx hpos => ?_, ?_⟩
      · have hlast := hnone r (List.mem_append_right _ (List.mem_singleton.mpr rfl))
        have hhead := hfirst fun x hx => hnone x (List.mem_append_left _ hx)
        rw [List.head?_append, Option.map_or, hhead, Option.some_or, firstPositiveTimestamp,
          if_neg (fun hboth => absurd hboth.2 (not_lt.mpr hlast)), if_neg (not_lt.mpr hlast)]
      · unfold firstPositiveTimestamp
        rcases List.mem_append.mp hx with hx | hx
        · have := hleast x hx hpos
          split_ifs <;> omega
        · rw [List.mem_singleton.mp hx] at hpos ⊢
          split_ifs <;> omega
      · have hchoice : firstPositiveTimestamp create r.create = create ∨
            firstPositiveTimestamp create r.create = r.create := by
          unfold firstPositiveTimestamp
          split_ifs <;> omega
        rcases hchoice with hc | hc
        · exact ⟨q, List.mem_append_left _ hq, hmem.trans hc.symm⟩
        · exact ⟨r, List.mem_append_right _ (List.mem_singleton.mpr rfl), hc.symm⟩

/-- Some row has a creation time, or all say the same. Values that are not positive stand for a time
    that is not known. -/
def CreateAgrees (rows : List OrderRow) : Prop :=
  (∃ r ∈ rows, 0 < r.create) ∨ ∀ r ∈ rows, ∀ q ∈ rows, r.create = q.create

theorem CreateOf.unique {rows rows' : List OrderRow} {a b : ℤ} (hperm : rows'.Perm rows)
    (hagrees : CreateAgrees rows) (ha : CreateOf rows' a) (hb : CreateOf rows b) : a = b := by
  obtain ⟨r, hr, rfl⟩ := ha.mem
  obtain ⟨q, hq, rfl⟩ := hb.mem
  rcases hagrees with ⟨x, hx, hpos⟩ | hsame
  · have hrpos := (ha.least x (hperm.mem_iff.mpr hx) hpos).1
    have hqpos := (hb.least x hx hpos).1
    exact le_antisymm (ha.least q (hperm.mem_iff.mpr hq) hqpos).2
      (hb.least r (hperm.mem_iff.mp hr) hrpos).2
  · exact hsame r (hperm.mem_iff.mp hr) q hq

/-! ## The describing columns -/

/-- A row of the greatest update time, and of the greatest source time among those. There may be
    several such rows, with different descriptions. -/
def IsLatest (rows : List OrderRow) (k : OrderRow) : Prop :=
  k ∈ rows ∧ ∀ r ∈ rows, r.update < k.update ∨ r.update = k.update ∧ r.source ≤ k.source

/-- The latest row is also the last, or those of its update time describe the order alike. If it is
    the last, no other row can be taken for a later one. -/
def DescribedAlike (rows : List OrderRow) : Prop :=
  ∀ k, IsLatest rows k → (∀ r ∈ rows, r.source ≤ k.source) ∨
    ∀ r ∈ rows, r.update = k.update → r.desc = k.desc

/-- In any order the order is described by a row of the greatest update time. -/
theorem fold_described [Rounding] {rows : List OrderRow} {l : Lifecycle} (h : fold rows = some l) :
    (∃ r ∈ rows, r.update = l.updateTsUs ∧ r.desc = l.toDescriptor) ∧
      ∀ r ∈ rows, r.update ≤ l.updateTsUs := by
  induction rows using List.reverseRecOn generalizing l with
  | nil => cases h
  | append_singleton rows r ih =>
    rw [fold_append_single] at h
    cases h
    cases hrows : fold rows with
    | none =>
      rw [fold_eq_none.mp hrows]
      exact ⟨⟨r, List.mem_singleton.mpr rfl, rfl, rfl⟩, fun q hq => by
        rw [List.mem_singleton.mp hq]
        exact le_rfl⟩
    | some m =>
      obtain ⟨⟨q, hq, hupdate, hdesc⟩, hle⟩ := ih hrows
      rw [step_update]
      refine ⟨?_, fun x hx => ?_⟩
      · by_cases hlatest : m.isLatest r
        · have hmr := of_decide_eq_true hlatest
          rw [Prod.Lex.toLex_le_toLex] at hmr
          rw [step_latest hlatest]
          exact ⟨r, by simp, (max_eq_right (by omega)).symm, rfl⟩
        · have hmr := of_decide_eq_false (Bool.eq_false_of_not_eq_true hlatest)
          rw [Prod.Lex.toLex_le_toLex] at hmr
          rw [step_not_latest hlatest]
          exact ⟨q, List.mem_append_left _ hq, hupdate.trans (max_eq_left (by omega)).symm, hdesc⟩
      · rcases List.mem_append.mp hx with hx | hx
        · exact (hle x hx).trans (le_max_left _ _)
        · rw [List.mem_singleton.mp hx]
          exact le_max_right _ _

theorem isLatest_iff {l : Lifecycle} {r : OrderRow} : l.isLatest r = true ↔
    l.updateTsUs < r.update ∨ l.updateTsUs = r.update ∧ l.lastSourceTsUs ≤ r.source := by
  rw [Lifecycle.isLatest, decide_eq_true_iff, Prod.Lex.toLex_le_toLex]

/-- A latest row that is also the last is never taken for an older one. -/
theorem fold_describes_last [Rounding] {rows : List OrderRow} {k : OrderRow} {l : Lifecycle}
    (hsources : (rows.map OrderRow.source).Nodup) (hk : IsLatest rows k)
    (hlast : ∀ r ∈ rows, r.source ≤ k.source) (h : fold rows = some l) :
    l.toDescriptor = k.desc := by
  induction rows using List.reverseRecOn generalizing l with
  | nil => cases h
  | append_singleton rows r ih =>
    rw [fold_append_single] at h
    cases h
    obtain ⟨hmem, hmax⟩ := hk
    have hr : r ∈ rows ++ [r] := List.mem_append_right _ (List.mem_singleton.mpr rfl)
    cases hrows : fold rows with
    | none =>
      rw [fold_eq_none.mp hrows] at hmem
      rw [List.mem_singleton.mp hmem]
      rfl
    | some m =>
      obtain ⟨⟨q, hq, hupdate, -⟩, hle⟩ := fold_described hrows
      obtain ⟨-, ⟨x, hx, hlastSource⟩, hbetween⟩ := fold_sources hrows
      have hqk := hmax q (List.mem_append_left _ hq)
      rcases List.mem_append.mp hmem with hold | hnew
      · -- The row was there before: what comes now is older.
        have hne : r.source ≠ k.source := by
          rw [List.map_append, List.nodup_append] at hsources
          exact fun heq => hsources.2.2 k.source (List.mem_map_of_mem hold) r.source
            (List.mem_singleton.mpr rfl) heq.symm
        have hnot : ¬m.isLatest r = true := by
          rw [isLatest_iff]
          have := hmax r hr
          have := hle k hold
          have := (hbetween k hold).2
          have := hlast r hr
          omega
        rw [step_not_latest hnot]
        show m.toDescriptor = k.desc
        exact ih (List.nodup_append.mp (List.map_append ▸ hsources)).1
          ⟨hold, fun y hy => hmax y (List.mem_append_left _ hy)⟩
          (fun y hy => hlast y (List.mem_append_left _ hy)) hrows
      · obtain rfl := List.mem_singleton.mp hnew
        have hlatest : m.isLatest k = true := by
          rw [isLatest_iff]
          have := hlast x (List.mem_append_left _ hx)
          omega
        rw [step_latest hlatest]
        rfl

/-- A row of the greatest update time that is read first, and next one with a later source time
    than any of that update time has: the first goes on describing the order. -/
theorem fold_pinned [Rounding] {r x : OrderRow} {rest : List OrderRow} {l : Lifecycle}
    (hx : x.update < r.update) (hmax : ∀ q ∈ rest, q.update ≤ r.update)
    (hbefore : ∀ q ∈ rest, q.update = r.update → q.source < x.source)
    (h : fold (r :: x :: rest) = some l) : l.toDescriptor = r.desc := by
  induction rest using List.reverseRecOn generalizing l with
  | nil =>
    replace h : some (step (some (.first r r.desc)) x) = some l := h
    cases h
    have hnot : ¬(Lifecycle.first r r.desc).isLatest x = true := by
      rw [isLatest_iff]
      show ¬(r.update < x.update ∨ r.update = x.update ∧ _)
      omega
    rw [step_not_latest hnot]
    rfl
  | append_singleton rest q ih =>
    have hq : q ∈ rest ++ [q] := List.mem_append_right _ (List.mem_singleton.mpr rfl)
    rw [← List.cons_append, ← List.cons_append, fold_append_single] at h
    cases h
    cases hrest : fold (r :: x :: rest) with
    | none => exact absurd (fold_eq_none.mp hrest) (List.cons_ne_nil _ _)
    | some m =>
      have hupdate := (fold_described hrest).2 r List.mem_cons_self
      have hsource := ((fold_sources hrest).2.2 x (List.mem_cons_of_mem _ List.mem_cons_self)).2
      have hnot : ¬m.isLatest q = true := by
        rw [isLatest_iff]
        have := hmax q hq
        have := hbefore q hq
        omega
      rw [step_not_latest hnot]
      show m.toDescriptor = r.desc
      exact ih (fun y hy => hmax y (List.mem_append_left _ hy))
        (fun y hy => hbefore y (List.mem_append_left _ hy)) hrest

/-! ## The terminal local time -/

theorem step_terminalTs [Rounding] (l : Lifecycle) (r : OrderRow) : (step (some l) r).terminalTsUs
    = if r.terminalEvent.isSome && shouldReplaceFirstEvent l.terminalSourceTsUs r.source then
        r.terminalEvent else l.terminalTsUs :=
  (congrArg Lifecycle.terminalTsUs (step_steady l r)).trans (firstEvent_row _ _ _ _ _)

theorem step_terminalSource [Rounding] (l : Lifecycle) (r : OrderRow) :
    (step (some l) r).terminalSourceTsUs
      = if r.terminalEvent.isSome && shouldReplaceFirstEvent l.terminalSourceTsUs r.source then
          r.terminalEvent.map fun _ => r.source else l.terminalSourceTsUs :=
  (congrArg Lifecycle.terminalSourceTsUs (step_steady l r)).trans (firstEvent_row _ _ _ _ _)

theorem step_terminalLocal [Rounding] (l : Lifecycle) (r : OrderRow) :
    (step (some l) r).terminalTsLocalUs = l.addTerminalLocal r := by
  by_cases h : l.isLatest r
  · rw [step_latest h]
    rfl
  · rw [step_not_latest h]
    rfl

theorem terminalLocal_eq_none {r : OrderRow} (h : r.terminalEvent = none) :
    r.terminalLocal = none := by
  rw [OrderRow.terminalLocal, h]
  rfl

/-- The source time of the first terminal event is that of a terminal row. -/
theorem fold_terminalSource [Rounding] {rows : List OrderRow} {l : Lifecycle}
    (h : fold rows = some l) :
    ∀ s ∈ l.terminalSourceTsUs, ∃ r ∈ rows, r.terminalEvent.isSome ∧ r.source = s := by
  induction rows using List.reverseRecOn generalizing l with
  | nil => cases h
  | append_singleton rows r ih =>
    rw [fold_append_single] at h
    cases h
    have hr : r ∈ rows ++ [r] := List.mem_append_right _ (List.mem_singleton.mpr rfl)
    have hown : ∀ s ∈ r.terminalEvent.map fun _ => r.source,
        ∃ q ∈ rows ++ [r], q.terminalEvent.isSome ∧ q.source = s := by
      intro s hs
      obtain ⟨v, hv, rfl⟩ := Option.map_eq_some_iff.mp hs
      exact ⟨r, hr, by rw [hv]; rfl, rfl⟩
    cases hrows : fold rows with
    | none => exact hown
    | some m =>
      rw [step_terminalSource]
      intro s hs
      split at hs
      · exact hown s hs
      · obtain ⟨q, hq, hqs⟩ := ih hrows s hs
        exact ⟨q, List.mem_append_left _ hq, hqs⟩

/-- Without a terminal row there is no terminal local time. -/
theorem fold_noTerminal [Rounding] {rows : List OrderRow} {l : Lifecycle} (h : fold rows = some l)
    (hnone : ∀ r ∈ rows, r.terminalEvent = none) : l.terminalTsLocalUs = none := by
  induction rows using List.reverseRecOn generalizing l with
  | nil => cases h
  | append_singleton rows r ih =>
    rw [fold_append_single] at h
    cases h
    have hr := hnone r (List.mem_append_right _ (List.mem_singleton.mpr rfl))
    cases hrows : fold rows with
    | none => exact terminalLocal_eq_none hr
    | some m =>
      rw [step_terminalLocal, Lifecycle.addTerminalLocal, hr]
      exact ih hrows fun q hq => hnone q (List.mem_append_left _ hq)

/-- What a later row does to the local time of the first terminal event. -/
def gather (t : OrderRow) (current : Option ℤ) (r : OrderRow) : Option ℤ :=
  if r.terminalEvent = t.terminalEvent then earliestOptionalTimestamp current r.terminalLocal
  else current

/-- A terminal row of the fold that has an earlier source time than all others. -/
structure FirstTerminal (t : OrderRow) (rows : List OrderRow) : Prop where
  terminal : t.terminalEvent.isSome
  first : ∀ r ∈ rows, r.terminalEvent.isSome → t.source < r.source

/-- **The local time starts over at the first terminal event**, whatever was read before it. -/
theorem fold_terminalLocal [Rounding] {before after : List OrderRow} {t : OrderRow} {l : Lifecycle}
    (ht : FirstTerminal t (before ++ after)) (h : fold (before ++ t :: after) = some l) :
    l.terminalSourceTsUs = some t.source ∧ l.terminalTsUs = t.terminalEvent ∧
      l.terminalTsLocalUs = after.foldl (gather t) t.terminalLocal := by
  obtain ⟨v, hv⟩ := Option.isSome_iff_exists.mp ht.terminal
  induction after using List.reverseRecOn generalizing l with
  | nil =>
    rw [fold_append_single] at h
    cases h
    cases hbefore : fold before with
    | none => exact ⟨by rw [step, Lifecycle.first, hv]; rfl, rfl, rfl⟩
    | some m =>
      have hreplace : shouldReplaceFirstEvent m.terminalSourceTsUs t.source = true := by
        cases hs : m.terminalSourceTsUs with
        | none => rfl
        | some s =>
          obtain ⟨r, hr, hterminal, rfl⟩ := fold_terminalSource hbefore s hs
          exact decide_eq_true (ht.first r (List.mem_append_left _ hr) hterminal)
      rw [step_terminalSource, step_terminalTs, step_terminalLocal, Lifecycle.addTerminalLocal,
        hreplace, hv]
      exact ⟨rfl, rfl, rfl⟩
  | append_singleton after q ih =>
    have hq : q ∈ before ++ (after ++ [q]) :=
      List.mem_append_right _ (List.mem_append_right _ (List.mem_singleton.mpr rfl))
    rw [← List.cons_append, ← List.append_assoc, fold_append_single] at h
    cases h
    cases hprev : fold (before ++ t :: after) with
    | none => exact absurd (fold_eq_none.mp hprev) (by simp)
    | some m =>
      obtain ⟨hsource, hts, hlocal⟩ := ih ⟨ht.terminal, fun r hr => ht.first r (by
        rw [← List.append_assoc]
        exact List.mem_append_left _ hr)⟩ hprev
      rw [step_terminalSource, step_terminalTs, step_terminalLocal, Lifecycle.addTerminalLocal,
        List.foldl_append, hsource, hts, hlocal, List.foldl_cons, List.foldl_nil, gather]
      cases hevent : q.terminalEvent with
      | none => simp [hv]
      | some u =>
        have hlater := ht.first q hq (by rw [hevent]; rfl)
        rw [not_shouldReplace hlater.le, hv]
        simp [eq_comm]

/-- The first terminal event has the earliest local time of those at its time. Others at its time
    only count when they come after it. -/
def LocalAgrees (rows : List OrderRow) : Prop :=
  ∀ t ∈ rows, t.terminalEvent.isSome →
    (∀ r ∈ rows, r.terminalEvent.isSome → t.source ≤ r.source) →
      ∀ r ∈ rows, r.terminalEvent = t.terminalEvent →
        earliestOptionalTimestamp t.terminalLocal r.terminalLocal = t.terminalLocal

/-! ## Any order -/

theorem exists_latest {rows : List OrderRow} (h : rows ≠ []) : ∃ k, IsLatest rows k := by
  cases hk : rows.argmax (fun r => toLex (r.update, r.source)) with
  | none => exact absurd (List.argmax_eq_none.mp hk) h
  | some k =>
    refine ⟨k, List.argmax_mem hk, fun r hr => ?_⟩
    have hle := List.le_of_mem_argmax hr hk
    rwa [Prod.Lex.toLex_le_toLex] at hle

theorem IsLatest.perm {rows rows' : List OrderRow} {k : OrderRow} (h : IsLatest rows k)
    (hperm : rows'.Perm rows) : IsLatest rows' k :=
  ⟨hperm.mem_iff.mpr h.1, fun r hr => h.2 r (hperm.mem_iff.mp hr)⟩

theorem fold_latest [Rounding] {rows : List OrderRow} {k : OrderRow} {l : Lifecycle}
    (hsources : (rows.map OrderRow.source).Nodup) (hk : IsLatest rows k)
    (halike : (∀ r ∈ rows, r.source ≤ k.source) ∨ ∀ r ∈ rows, r.update = k.update → r.desc = k.desc)
    (h : fold rows = some l) : l.toDescriptor = k.desc := by
  rcases halike with hlast | hsame
  · exact fold_describes_last hsources hk hlast h
  · obtain ⟨⟨r, hr, hupdate, hdesc⟩, hmax⟩ := fold_described h
    rw [← hdesc]
    refine hsame r hr (le_antisymm ?_ ?_)
    · rcases hk.2 r hr with hlt | ⟨heq, -⟩
      · exact hlt.le
      · exact heq.le
    · exact hupdate ▸ hmax k hk.1

/-- The first terminal row of a list that has one. -/
theorem exists_firstTerminal {rows : List OrderRow} {r : OrderRow} (hr : r ∈ rows)
    (hterminal : r.terminalEvent.isSome) : ∃ t ∈ rows, t.terminalEvent.isSome ∧
      ∀ q ∈ rows, q.terminalEvent.isSome → t.source ≤ q.source := by
  have hbest := best_head? OrderRow.source (rows.filter (·.terminalEvent.isSome))
  cases ht : (sortByKey OrderRow.source (rows.filter (·.terminalEvent.isSome))).head? with
  | none =>
    rw [ht] at hbest
    exact absurd hterminal (List.filter_eq_nil_iff.mp hbest r hr)
  | some t =>
    rw [ht] at hbest
    obtain ⟨hmem, hleast⟩ := hbest
    obtain ⟨hmem, hterminal⟩ := List.mem_filter.mp hmem
    exact ⟨t, hmem, hterminal, fun q hq hqt => hleast q (List.mem_filter.mpr ⟨hq, hqt⟩)⟩

/-- Another row of a fold with source times of their own is later if it is not earlier. -/
theorem firstTerminal_of_perm {rows others : List OrderRow} {t : OrderRow}
    (hsources : (rows.map OrderRow.source).Nodup) (hperm : (t :: others).Perm rows)
    (hterminal : t.terminalEvent.isSome)
    (hfirst : ∀ r ∈ rows, r.terminalEvent.isSome → t.source ≤ r.source) :
    FirstTerminal t others where
  terminal := hterminal
  first := by
    intro r hr hrt
    have hnodup := (hperm.map OrderRow.source).nodup_iff.mpr hsources
    refine lt_of_le_of_ne (hfirst r (hperm.mem_iff.mp (List.mem_cons_of_mem _ hr)) hrt) fun heq => ?_
    exact (List.nodup_cons.mp hnodup).1 (heq ▸ List.mem_map_of_mem hr)

/-- The local time of a fold whose rows agree on it. -/
theorem fold_local [Rounding] {rows : List OrderRow} {l : Lifecycle} {t : OrderRow}
    (hsources : (rows.map OrderRow.source).Nodup) (hagrees : LocalAgrees rows) (ht : t ∈ rows)
    (hterminal : t.terminalEvent.isSome)
    (hfirst : ∀ r ∈ rows, r.terminalEvent.isSome → t.source ≤ r.source)
    (h : fold rows = some l) : l.terminalTsLocalUs = t.terminalLocal := by
  obtain ⟨before, after, rfl⟩ := List.append_of_mem ht
  have hperm : (t :: (before ++ after)).Perm (before ++ t :: after) := List.perm_middle.symm
  rw [(fold_terminalLocal (firstTerminal_of_perm hsources hperm hterminal hfirst) h).2.2]
  have hall : ∀ r ∈ after, gather t t.terminalLocal r = t.terminalLocal := by
    intro r hr
    unfold gather
    split
    · rename_i hevent
      exact hagrees t ht hterminal hfirst r
        (List.mem_append_right _ (List.mem_cons_of_mem _ hr)) hevent
    · rfl
  clear h hperm hsources hagrees ht hfirst
  induction after with
  | nil => rfl
  | cons r after ih =>
    obtain ⟨hr, hrest⟩ := List.forall_mem_cons.mp hall
    rw [List.foldl_cons, hr]
    exact ih hrest

/-- **Any order**: what a fold should be. The same lifecycle whatever the order, and one that is
    described by a latest row. -/
structure FoldsInAnyOrder [Rounding] (rows : List OrderRow) : Prop where
  same : ∀ rows', rows'.Perm rows → foldRows rows' = foldRows rows
  described : ∀ k, IsLatest rows k → ∀ l, foldRows rows = .ok (some l) → l.toDescriptor = k.desc

/-- The four conditions are enough. -/
theorem foldsInAnyOrder_of_agrees [Rounding] {rows : List OrderRow} {key : OrderKey}
    (hkey : ∀ r ∈ rows, r.key = key) (hsources : (rows.map OrderRow.source).Nodup)
    (hcomplete : ∀ r ∈ rows, r.Complete) (hcreate : CreateAgrees rows)
    (halike : DescribedAlike rows) (hlocal : LocalAgrees rows) (hsums : SumsAgree rows) :
    FoldsInAnyOrder rows := by
  have hdescribed : ∀ k, IsLatest rows k → ∀ rows' l, rows'.Perm rows → fold rows' = some l →
      l.toDescriptor = k.desc := by
    intro k hk rows' l hperm h
    refine fold_latest ((hperm.map _).nodup_iff.mpr hsources) (hk.perm hperm) ?_ h
    exact (halike k hk).imp (fun hlast r hr => hlast r (hperm.mem_iff.mp hr))
      fun hsame r hr => hsame r (hperm.mem_iff.mp hr)
  constructor
  · intro rows' hperm
    rw [foldRows_complete hcomplete,
      foldRows_complete fun r hr => hcomplete r (hperm.mem_iff.mp hr)]
    refine congrArg Except.ok ?_
    have hsettled := fold_settled_perm hkey hsources hperm
    cases h : fold rows with
    | none =>
      rw [fold_eq_none.mp h] at hperm
      rw [hperm.eq_nil]
      rfl
    | some l =>
      rw [h] at hsettled
      obtain ⟨l', h', hsettled⟩ := Option.map_eq_some_iff.mp hsettled
      rw [h']
      obtain ⟨k, hk⟩ : ∃ k, IsLatest rows k :=
        exists_latest fun hnil => by rw [fold_eq_none.mpr hnil] at h; cases h
      obtain ⟨hfilled, hnotional⟩ := fold_sums h
      obtain ⟨hfilled', hnotional'⟩ := fold_sums h'
      obtain ⟨hsum, hsum'⟩ := hsums rows' hperm
      refine congrArg some (Lifecycle.eq_of_settled hsettled ?_ ?_ ?_
        (by rw [hfilled, hfilled', hsum]) (by rw [hnotional, hnotional', hsum']))
      · exact (fold_create h').unique hperm hcreate (fold_create h)
      · exact (hdescribed k hk rows' l' hperm h').trans (hdescribed k hk rows l (.refl _) h).symm
      · by_cases hany : ∃ r ∈ rows, r.terminalEvent.isSome
        · obtain ⟨r, hr, hrt⟩ := hany
          obtain ⟨t, ht, hterminal, hfirst⟩ := exists_firstTerminal hr hrt
          rw [fold_local hsources hlocal ht hterminal hfirst h]
          refine fold_local ((hperm.map _).nodup_iff.mpr hsources) ?_ (hperm.mem_iff.mpr ht)
            hterminal (fun q hq => hfirst q (hperm.mem_iff.mp hq)) h'
          exact fun q hq hqt hqf x hx => hlocal q (hperm.mem_iff.mp hq) hqt
            (fun y hy => hqf y (hperm.mem_iff.mpr hy)) x (hperm.mem_iff.mp hx)
        · have hnone : ∀ r ∈ rows, r.terminalEvent = none := fun r hr =>
            Option.not_isSome_iff_eq_none.mp fun hrt => hany ⟨r, hr, hrt⟩
          rw [fold_noTerminal h hnone,
            fold_noTerminal h' fun r hr => hnone r (hperm.mem_iff.mp hr)]
  · intro k hk l h
    rw [foldRows_complete hcomplete] at h
    exact hdescribed k hk rows l (.refl _) (Except.ok.inj h)

/-! ### The orders that tell -/

theorem exists_perm_cons {α : Type*} {a : α} {l : List α} (h : a ∈ l) :
    ∃ rest, (a :: rest).Perm l := by
  obtain ⟨before, after, rfl⟩ := List.append_of_mem h
  exact ⟨before ++ after, List.perm_middle.symm⟩

theorem exists_perm_pair {α : Type*} {a b : α} {l : List α} (ha : a ∈ l) (hb : b ∈ l)
    (hne : a ≠ b) : ∃ rest, (a :: b :: rest).Perm l := by
  obtain ⟨others, hothers⟩ := exists_perm_cons ha
  rcases List.mem_cons.mp (hothers.mem_iff.mpr hb) with heq | hb
  · exact absurd heq.symm hne
  · obtain ⟨rest, hrest⟩ := exists_perm_cons hb
    exact ⟨rest, (hrest.cons a).trans hothers⟩

/-- All orders of the rows have one fold. -/
def OneFold [Rounding] (rows : List OrderRow) (l : Lifecycle) : Prop :=
  ∀ rows', rows'.Perm rows → fold rows' = some l

/-- Either of two rows can be read first. -/
theorem OneFold.createAgrees [Rounding] {rows : List OrderRow} {l : Lifecycle}
    (h : OneFold rows l) :
    CreateAgrees rows := by
  by_cases hpos : ∃ r ∈ rows, 0 < r.create
  · exact .inl hpos
  · have hfirst : ∀ r ∈ rows, r.create = l.createTsUs := by
      intro r hr
      obtain ⟨rest, hperm⟩ := exists_perm_cons hr
      have hcreate := (fold_create (h _ hperm)).first fun q hq =>
        not_lt.mp fun hq' => hpos ⟨q, hperm.mem_iff.mp hq, hq'⟩
      exact Option.some.inj hcreate
    exact .inr fun r hr q hq => (hfirst r hr).trans (hfirst q hq).symm

/-- Any row of the greatest update time can be read first, and a later one of another next. -/
theorem OneFold.describedAlike [Rounding] {rows : List OrderRow} {l : Lifecycle}
    (h : OneFold rows l) :
    DescribedAlike rows := by
  intro k hk
  by_cases hlast : ∀ r ∈ rows, r.source ≤ k.source
  · exact .inl hlast
  · obtain ⟨x, hx, hkx⟩ : ∃ x ∈ rows, k.source < x.source := by
      push Not at hlast
      exact hlast
    have hxupdate : x.update < k.update := by
      have := hk.2 x hx
      omega
    have hpinned : ∀ r ∈ rows, r.update = k.update → l.toDescriptor = r.desc := by
      intro r hr hupdate
      have hne : r ≠ x := fun heq => by
        rw [heq] at hupdate
        omega
      obtain ⟨rest, hperm⟩ := exists_perm_pair hr hx hne
      have hmem : ∀ q ∈ rest, q ∈ rows := fun q hq =>
        hperm.mem_iff.mp (List.mem_cons_of_mem _ (List.mem_cons_of_mem _ hq))
      refine fold_pinned (hupdate ▸ hxupdate) (fun q hq => ?_) (fun q hq hqr => ?_) (h _ hperm)
      · have := hk.2 q (hmem q hq)
        omega
      · have := hk.2 q (hmem q hq)
        omega
    exact .inr fun r hr hupdate => (hpinned r hr hupdate).symm.trans (hpinned k hk.1 rfl)

/-- The first terminal event can be read last, or just before another. -/
theorem OneFold.localAgrees [Rounding] {rows : List OrderRow} {l : Lifecycle}
    (hsources : (rows.map OrderRow.source).Nodup) (h : OneFold rows l) : LocalAgrees rows := by
  intro t ht hterminal hfirst r hr hevent
  by_cases heq : t = r
  · rw [heq]
    cases r.terminalLocal with
    | none => rfl
    | some v => exact congrArg some (min_self v)
  · obtain ⟨rest, hperm⟩ := exists_perm_pair ht hr heq
    have hthen : (rest ++ t :: [r]).Perm rows :=
      (List.perm_append_comm.trans (.refl _)).trans hperm
    have hlast : ((rest ++ [r]) ++ t :: []).Perm rows := by
      rw [List.append_assoc]
      exact (List.perm_append_comm.trans (.swap t r rest)).trans hperm
    have hfirstThen : FirstTerminal t (rest ++ [r]) :=
      firstTerminal_of_perm hsources (List.perm_middle.symm.trans hthen) hterminal hfirst
    have hfirstLast : FirstTerminal t ((rest ++ [r]) ++ []) := by
      rw [List.append_nil]
      exact hfirstThen
    have hown := (fold_terminalLocal hfirstLast (h _ hlast)).2.2
    have hboth := (fold_terminalLocal hfirstThen (h _ hthen)).2.2
    rw [List.foldl_nil] at hown
    rw [List.foldl_cons, List.foldl_nil, gather, if_pos hevent, hown] at hboth
    exact hboth.symm

theorem OneFold.sumsAgree [Rounding] {rows : List OrderRow} {l : Lifecycle} (h : OneFold rows l) :
    SumsAgree rows := by
  intro rows' hperm
  obtain ⟨hfilled, hnotional⟩ := fold_sums (h rows (.refl _))
  obtain ⟨hfilled', hnotional'⟩ := fold_sums (h rows' hperm)
  exact ⟨hfilled'.symm.trans hfilled, hnotional'.symm.trans hnotional⟩

/-- **When the order does not matter.** The rows of an order, without nulls and with source times of
    their own, fold alike in every order, and are described by the latest, exactly if some row has a
    positive creation time or all have the same, the latest row is the last by source time or those
    of its update time describe the order alike, no terminal row at the time of the first has an
    earlier local time, and the fills and the notionals add up to the same in every order. -/
theorem foldsInAnyOrder_iff [Rounding] {rows : List OrderRow} {key : OrderKey}
    (hkey : ∀ r ∈ rows, r.key = key) (hsources : (rows.map OrderRow.source).Nodup)
    (hcomplete : ∀ r ∈ rows, r.Complete) : FoldsInAnyOrder rows ↔
      CreateAgrees rows ∧ DescribedAlike rows ∧ LocalAgrees rows ∧ SumsAgree rows := by
  constructor
  · intro h
    cases hfold : fold rows with
    | none =>
      rw [fold_eq_none.mp hfold]
      refine ⟨.inr fun _ hr => (by cases hr), fun k hk => (by cases hk.1),
        fun _ ht => (by cases ht), fun rows' hperm => ?_⟩
      rw [hperm.eq_nil]
      exact ⟨rfl, rfl⟩
    | some l =>
      have hone : OneFold rows l := by
        intro rows' hperm
        have hsame := h.same rows' hperm
        rw [foldRows_complete hcomplete,
          foldRows_complete fun r hr => hcomplete r (hperm.mem_iff.mp hr), hfold] at hsame
        exact Except.ok.inj hsame
      exact ⟨hone.createAgrees, hone.describedAlike, hone.localAgrees hsources, hone.sumsAgree⟩
  · rintro ⟨hcreate, halike, hlocal, hsums⟩
    exact foldsInAnyOrder_of_agrees hkey hsources hcomplete hcreate halike hlocal hsums

/-- A `NEW` event delivered between the two fills that came after it: `previous_latest` pairs the
    update time of the first fill with its source time, and the second fill looks older. -/
def newBetweenFills : List OrderRow :=
  [sampleRow 300 40 "PARTIALLY_FILLED" 1, sampleRow 500 35 "NEW" 0, sampleRow 400 40 "FILLED" 1]

/-- Two terminal events of one time, of which the later one has the earlier local time. -/
def twoTerminals : List OrderRow :=
  [{ sampleRow 300 40 "FILLED" 1 with localTs := 45 },
    { sampleRow 400 40 "FILLED" 0 with localTs := 43 }]

/-- The order keeps the status `PARTIALLY_FILLED` in the one, and in the other the terminal local time
    depends on which event is read first. -/
theorem fold_depends_on_order :
    (∀ rows ∈ [newBetweenFills, twoTerminals], (∀ r ∈ rows, r.key = toLex ("BinanceMargin", 7)) ∧
      (rows.map OrderRow.source).Nodup ∧ ∀ r ∈ rows, r.Complete) ∧
    ¬FoldsInAnyOrder newBetweenFills ∧ ¬FoldsInAnyOrder twoTerminals := by
  refine ⟨?_, fun h => ?_, fun h => ?_⟩
  · intro rows hrows
    simp only [List.mem_cons, List.not_mem_nil, or_false] at hrows
    rcases hrows with rfl | rfl
    · refine ⟨by decide +kernel, by decide +kernel, ?_⟩
      simp [newBetweenFills, OrderRow.Complete, OrderRow.desc, sampleRow, Except.toOption]
    · refine ⟨by decide +kernel, by decide +kernel, ?_⟩
      simp [twoTerminals, OrderRow.Complete, OrderRow.desc, sampleRow, Except.toOption]
  · have hsame := h.same newBetweenFills.reverse (List.reverse_perm _)
    have hstatus := congrArg (fun e => e.toOption.join.map fun l : Lifecycle => l.status) hsame
    exact absurd hstatus (by decide +kernel)
  · have hsame := h.same twoTerminals.reverse (List.reverse_perm _)
    have hlocal := congrArg (fun e => e.toOption.join.map fun l : Lifecycle => l.terminalTsLocalUs)
      hsame
    exact absurd hlocal (by decide +kernel)

/-- A `NEW` and a `FILLED` event fold alike either way. -/
theorem foldsInAnyOrder_two : FoldsInAnyOrder inOrder.flatten := by
  have hkey : ∀ r ∈ inOrder.flatten, r.key = toLex ("BinanceMargin", 7) := by decide +kernel
  have hcomplete : ∀ r ∈ inOrder.flatten, r.Complete := by
    simp [inOrder, OrderRow.Complete, OrderRow.desc, sampleRow, Except.toOption]
  have hmem : ∀ {r}, r ∈ inOrder.flatten → r = sampleRow 10 9 "NEW" 0 ∨
      r = sampleRow 20 19 "FILLED" 2 := by
    intro r hr
    simpa [inOrder] using hr
  refine (foldsInAnyOrder_iff hkey (by decide +kernel) hcomplete).mpr
    ⟨?_, ?_, ?_, sumsAgree_unrounded _⟩
  · exact .inl (by decide +kernel)
  · rintro k ⟨hk, hmax⟩
    rcases hmem hk with rfl | rfl
    · exact absurd (hmax (sampleRow 20 19 "FILLED" 2) (by simp [inOrder])) (by decide)
    · exact .inl (by decide +kernel)
  · intro t ht hterminal _ r hr hevent
    rcases hmem ht with rfl | rfl
    · exact absurd hterminal (by decide +kernel)
    · rcases hmem hr with rfl | rfl
      · exact absurd hevent (by decide +kernel)
      · decide +kernel

end CryptoNav.Sync
