import Mathlib.Algebra.BigOperators.Ring.List
import Mathlib.Algebra.Order.Field.Basic
import Mathlib.Algebra.Order.Group.Abs
import Mathlib.Data.List.Nodup
import Mathlib.Logic.Function.Basic
import Mathlib.Tactic.Abel
import Mathlib.Tactic.Ring

/-!
# Accounts that balance along a run

A run is a fold of a step over its inputs, and `steps` are the pairs of a state and the input
taken there. If every step changes a total by what it credits, up to its own tolerance, a run
changes it by the sum of the credits, up to the sum of the tolerances (`run_balance`). Beside it
stand the two sums such credits are made of: the shares of an amount divided over weights, and a
sum over keys one of which is updated; and that what a fold adds up over two disjoint parts of its
inputs adds up (`foldl_filter_disjoint`).

Nothing is said of the order in which a sum is taken: totals and credits lie in an ordered
commutative group, or in a field where something is divided, and are exact. A program that
rounds needs its own account of what a sum is; what carries over from here is which terms there
are. The tolerance is a number for each step, not for the run, because programs tolerate
something only in the steps that settle an account.
-/

set_option autoImplicit false

namespace CryptoNav.Lib

section Steps

variable {σ α : Type*}

/-- The states of a run, each with the input taken there. -/
def steps (step : σ → α → σ) : σ → List α → List (σ × α)
  | _, [] => []
  | s, a :: l => (s, a) :: steps step (step s a) l

theorem steps_snd (step : σ → α → σ) (s : σ) (l : List α) :
    (steps step s l).map Prod.snd = l := by
  induction l generalizing s with
  | nil => rfl
  | cons a l ih => rw [steps, List.map_cons, ih]

theorem fold_invariant {step : σ → α → σ} {P : σ → Prop} {l : List α}
    (keep : ∀ a ∈ l, ∀ s, P s → P (step s a)) {s : σ} (hs : P s) : P (l.foldl step s) := by
  induction l generalizing s with
  | nil => exact hs
  | cons a l ih =>
    exact ih (fun b hb => keep b (List.mem_cons_of_mem _ hb)) (keep a List.mem_cons_self s hs)

theorem steps_invariant {step : σ → α → σ} {P : σ → Prop} {l : List α}
    (keep : ∀ a ∈ l, ∀ s, P s → P (step s a)) {s : σ} (hs : P s) :
    ∀ entry ∈ steps step s l, P entry.1 ∧ entry.2 ∈ l := by
  induction l generalizing s with
  | nil =>
    intro entry hentry
    cases hentry
  | cons a l ih =>
    have hnext := ih (fun b hb => keep b (List.mem_cons_of_mem _ hb))
      (keep a List.mem_cons_self s hs)
    refine List.forall_mem_cons.mpr ⟨⟨hs, List.mem_cons_self⟩, fun entry hentry => ?_⟩
    exact ⟨(hnext entry hentry).1, List.mem_cons_of_mem _ (hnext entry hentry).2⟩

/-- What every guarded step keeps holds before and after every step of a guarded run. -/
theorem steps_keep {step : σ → α → σ} {Q : σ → Prop} {G : σ → α → Prop}
    (keep : ∀ s a, Q s → G s a → Q (step s a)) {s : σ} (hs : Q s) {l : List α}
    (h : ∀ entry ∈ steps step s l, G entry.1 entry.2) :
    ∀ entry ∈ steps step s l, Q entry.1 ∧ Q (step entry.1 entry.2) := by
  induction l generalizing s with
  | nil =>
    intro entry hentry
    cases hentry
  | cons a l ih =>
    obtain ⟨hfirst, hrest⟩ := List.forall_mem_cons.mp h
    have hnext := keep s a hs hfirst
    exact List.forall_mem_cons.mpr ⟨⟨hs, hnext⟩, ih hnext hrest⟩

/-- **The guard rule.** Where `Q` holds a step is good just when it is guarded, and a good step keeps
    `Q`; so all steps of a run are good just when all are guarded. -/
theorem steps_iff {step : σ → α → σ} {Q : σ → Prop} {good guarded : σ → α → Prop} {l : List α}
    (h : ∀ a ∈ l, ∀ s, Q s → (good s a ↔ guarded s a))
    (keep : ∀ a ∈ l, ∀ s, Q s → good s a → Q (step s a)) {s : σ} (hs : Q s) :
    (∀ entry ∈ steps step s l, good entry.1 entry.2) ↔
      ∀ entry ∈ steps step s l, guarded entry.1 entry.2 := by
  induction l generalizing s with
  | nil => simp [steps]
  | cons a l ih =>
    rw [steps, List.forall_mem_cons, List.forall_mem_cons, h a List.mem_cons_self s hs]
    refine and_congr_right fun hguarded => ?_
    have hgood := (h a List.mem_cons_self s hs).mpr hguarded
    exact ih (fun b hb => h b (List.mem_cons_of_mem _ hb))
      (fun b hb => keep b (List.mem_cons_of_mem _ hb)) (keep a List.mem_cons_self s hs hgood)

variable {G : Type*} [AddCommGroup G] [LinearOrder G] [IsOrderedAddMonoid G]

/-- **The balance rule.** -/
theorem run_balance (step : σ → α → σ) {P : σ → Prop} (total : σ → G) (credit tolerance : σ × α → G)
    {l : List α} (keep : ∀ a ∈ l, ∀ s, P s → P (step s a))
    (balance : ∀ a ∈ l, ∀ s, P s →
      |total (step s a) - total s - credit (s, a)| ≤ tolerance (s, a))
    {s : σ} (hs : P s) :
    |total (l.foldl step s) - total s - ((steps step s l).map credit).sum| ≤
      ((steps step s l).map tolerance).sum := by
  induction l generalizing s with
  | nil =>
    rw [List.foldl_nil, sub_self, zero_sub, abs_neg]
    simp [steps]
  | cons a l ih =>
    have hstep := balance a List.mem_cons_self s hs
    have hrest := ih (fun b hb => keep b (List.mem_cons_of_mem _ hb))
      (fun b hb => balance b (List.mem_cons_of_mem _ hb)) (keep a List.mem_cons_self s hs)
    rw [List.foldl_cons, steps, List.map_cons, List.sum_cons, List.map_cons, List.sum_cons]
    have hsplit : total (l.foldl step (step s a)) - total s -
        (credit (s, a) + ((steps step (step s a) l).map credit).sum) =
          (total (step s a) - total s - credit (s, a)) +
            (total (l.foldl step (step s a)) - total (step s a) -
              ((steps step (step s a) l).map credit).sum) := by
      abel
    rw [hsplit]
    exact (abs_add_le _ _).trans (add_le_add hstep hrest)

end Steps

section Sums

variable {α ι : Type*} {K : Type*} [Field K]

/-- The shares of an amount make up the amount. -/
theorem sum_shares {weight : α → K} {l : List α} (h : (l.map weight).sum ≠ 0) (amount : K) :
    (l.map fun a => amount * weight a / (l.map weight).sum).sum = amount := by
  have hfactor : (l.map fun a => amount * weight a / (l.map weight).sum) =
      l.map fun a => amount / (l.map weight).sum * weight a :=
    List.map_congr_left fun a _ => by ring
  rw [hfactor, List.sum_map_mul_left, div_mul_cancel₀ _ h]

theorem sum_flatMap_map {β : Type*} (f : α → List β) (value : β → K) (l : List α) :
    ((l.flatMap f).map value).sum = (l.map fun a => ((f a).map value).sum).sum := by
  induction l with
  | nil => rfl
  | cons a l ih =>
    rw [List.flatMap_cons, List.map_append, List.sum_append, ih, List.map_cons, List.sum_cons]

theorem sum_map_sub (f g : α → K) (l : List α) :
    (l.map fun a => f a - g a).sum = (l.map f).sum - (l.map g).sum := by
  induction l with
  | nil => exact (sub_zero 0).symm
  | cons a l ih =>
    rw [List.map_cons, List.sum_cons, ih, List.map_cons, List.sum_cons, List.map_cons, List.sum_cons]
    ring

theorem length_flatMap_eq {β : Type*} (f : α → List β) (l : List α) :
    ((l.flatMap f).length : K) = (l.map fun a => ((f a).length : K)).sum := by
  induction l with
  | nil => exact Nat.cast_zero
  | cons a l ih =>
    rw [List.flatMap_cons, List.length_append, Nat.cast_add, ih, List.map_cons, List.sum_cons]

/-- A fold that adds adds up. -/
theorem foldl_sum {β : Type*} {step : β → α → β} {f : β → K} {g : α → K}
    (h : ∀ b a, f (step b a) = f b + g a) (b : β) (l : List α) :
    f (l.foldl step b) = f b + (l.map g).sum := by
  induction l generalizing b with
  | nil => exact (add_zero _).symm
  | cons a l ih => rw [List.foldl_cons, ih, h, List.map_cons, List.sum_cons, add_assoc]

/-- Sums of values within `ε` of each other. -/
theorem sum_within [LinearOrder K] [IsStrictOrderedRing K] {f g : α → K} {ε : K} {l : List α}
    (h : ∀ a ∈ l, |f a - g a| ≤ ε) : |(l.map f).sum - (l.map g).sum| ≤ l.length * ε := by
  induction l with
  | nil => simp
  | cons a l ih =>
    obtain ⟨ha, hl⟩ := List.forall_mem_cons.mp h
    rw [List.map_cons, List.sum_cons, List.map_cons, List.sum_cons, List.length_cons, Nat.cast_add,
      Nat.cast_one, add_mul, one_mul, add_sub_add_comm, add_comm (_ * ε)]
    exact (abs_add_le _ _).trans (add_le_add ha (ih hl))

/-- Summed key by key, every element counts at its own key. -/
theorem sum_fibers [DecidableEq ι] (key : α → ι) (value : α → K) {keys : List ι}
    (hnodup : keys.Nodup) (l : List α) :
    (keys.map fun k => ((l.filter (key · = k)).map value).sum).sum =
      ((l.filter (key · ∈ keys)).map value).sum := by
  have hone : ∀ a : α, (keys.map fun k => if key a = k then value a else 0).sum =
      if key a ∈ keys then value a else 0 := by
    intro a
    induction keys with
    | nil => rfl
    | cons k keys ih =>
      obtain ⟨hk, hkeys⟩ := List.nodup_cons.mp hnodup
      rw [List.map_cons, List.sum_cons, ih hkeys]
      by_cases he : key a = k
      · rw [if_pos he, if_neg (he ▸ hk), if_pos (he ▸ List.mem_cons_self), add_zero]
      · rw [if_neg he, zero_add]
        simp only [List.mem_cons, he, false_or]
  induction l with
  | nil => simp
  | cons a l ih =>
    have hsplit : ∀ p : α → Bool, (((a :: l).filter p).map value).sum =
        (if p a then value a else 0) + ((l.filter p).map value).sum := by
      intro p
      cases hp : p a <;> simp [hp]
    simp only [hsplit, List.sum_map_add, ih, decide_eq_true_eq, hone]

theorem sum_update_of_notMem [DecidableEq ι] (f : α → K) (s : ι → α) {k : ι} (v : α) {l : List ι}
    (h : k ∉ l) : (l.map fun i => f (Function.update s k v i)).sum = (l.map fun i => f (s i)).sum := by
  congr 1
  refine List.map_congr_left fun i hi => ?_
  have hne : i ≠ k := fun he => h (he ▸ hi)
  rw [Function.update_of_ne hne]

/-- Updating one key moves the sum by what it moves there. -/
theorem sum_update [DecidableEq ι] (f : α → K) (s : ι → α) {k : ι} (v : α) {l : List ι}
    (hnodup : l.Nodup) (hmem : k ∈ l) :
    (l.map fun i => f (Function.update s k v i)).sum =
      (l.map fun i => f (s i)).sum + (f v - f (s k)) := by
  induction l with
  | nil => cases hmem
  | cons i l ih =>
    obtain ⟨hi, hl⟩ := List.nodup_cons.mp hnodup
    rw [List.map_cons, List.sum_cons, List.map_cons, List.sum_cons]
    by_cases he : k = i
    · subst he
      rw [Function.update_self, sum_update_of_notMem f s v hi]
      ring
    · rcases List.mem_cons.mp hmem with h | h
      · exact absurd h he
      · rw [Function.update_of_ne fun h => he h.symm, ih hl h]
        ring

end Sums

/-- What a fold makes of two disjoint parts of a list, it makes of them together, where what it
adds up can be added: `add` moves every step past itself. -/
theorem foldl_filter_disjoint {α β : Type*} {step : β → α → β} {add : β → β → β}
    (hleft : ∀ a b x, add (step a x) b = step (add a b) x)
    (hright : ∀ a b x, add a (step b x) = step (add a b) x) {p q r : α → Bool} {l : List α}
    (hr : ∀ x ∈ l, r x = (p x || q x)) (hdisjoint : ∀ x ∈ l, p x → ¬ q x) {a b c : β}
    (hc : add a b = c) : (l.filter r).foldl step c =
      add ((l.filter p).foldl step a) ((l.filter q).foldl step b) := by
  induction l generalizing a b c with
  | nil => exact hc.symm
  | cons x l ih =>
    obtain ⟨hrx, hr⟩ := List.forall_mem_cons.mp hr
    obtain ⟨hx, hdisjoint⟩ := List.forall_mem_cons.mp hdisjoint
    by_cases hp : p x
    · rw [List.filter_cons_of_pos (hrx.trans (by simp [hp])), List.filter_cons_of_pos hp,
        List.filter_cons_of_neg (hx hp), List.foldl_cons, List.foldl_cons,
        ih hr hdisjoint ((hleft a b x).trans (congrArg (step · x) hc))]
    · rw [List.filter_cons_of_neg hp]
      by_cases hq : q x
      · rw [List.filter_cons_of_pos (hrx.trans (by simp [hq])), List.filter_cons_of_pos hq,
          List.foldl_cons, List.foldl_cons,
          ih hr hdisjoint ((hright a b x).trans (congrArg (step · x) hc))]
      · rw [List.filter_cons_of_neg (by simp [hrx, hp, hq]), List.filter_cons_of_neg hq,
          ih hr hdisjoint hc]

/-- A list taken apart by keys that cover it, and put together key by key. -/
theorem flatMap_fiber_perm {α ι : Type*} [DecidableEq ι] {key : α → ι} {keys : List ι}
    (hnodup : keys.Nodup) {l : List α} (hcover : ∀ a ∈ l, key a ∈ keys) :
    (keys.flatMap fun i => l.filter (key · = i)).Perm l := by
  induction keys generalizing l with
  | nil =>
    cases l with
    | nil => exact .refl _
    | cons a l => cases hcover a List.mem_cons_self
  | cons i keys ih =>
    obtain ⟨hi, hnodup⟩ := List.nodup_cons.mp hnodup
    have hrest := @ih hnodup (l.filter fun a => !decide (key a = i)) fun a ha => by
      obtain ⟨ha, hne⟩ := List.mem_filter.mp ha
      exact (List.mem_cons.mp (hcover a ha)).resolve_left (by simpa using hne)
    have hsame : (keys.flatMap fun j => (l.filter fun a => !decide (key a = i)).filter (key · = j)) =
        keys.flatMap fun j => l.filter (key · = j) := by
      refine List.flatMap_congr fun j hj => ?_
      rw [List.filter_filter]
      refine List.filter_congr fun a _ => ?_
      by_cases hj' : key a = j
      · have hne : j ≠ i := fun h => hi (h ▸ hj)
        simp [hj', hne]
      · simp [hj']
    rw [List.flatMap_cons, ← hsame]
    exact (hrest.append_left _).trans (List.filter_append_perm (fun a => decide (key a = i)) l)

/-- Of what is listed key by key, a key has its own. -/
theorem filter_flatMap_fiber {α ι : Type*} [DecidableEq ι] {key : α → ι} {f : ι → List α}
    (hkey : ∀ i, ∀ a ∈ f i, key a = i) {keys : List ι} (hnodup : keys.Nodup) {i : ι}
    (hi : i ∈ keys) : (keys.flatMap f).filter (key · = i) = f i := by
  have hown : ∀ j, (f j).filter (key · = i) = if j = i then f i else [] := by
    intro j
    split
    · rename_i hj
      subst hj
      exact List.filter_eq_self.mpr fun a ha => decide_eq_true (hkey j a ha)
    · rename_i hj
      exact List.filter_eq_nil_iff.mpr fun a ha => by simpa [hkey j a ha] using hj
  induction keys with
  | nil => cases hi
  | cons j keys ih =>
    obtain ⟨hj, hrest⟩ := List.nodup_cons.mp hnodup
    rw [List.flatMap_cons, List.filter_append, hown]
    rcases List.mem_cons.mp hi with hij | hi
    · rw [if_pos hij.symm, List.filter_flatMap, List.flatMap_eq_nil_iff.mpr, List.append_nil]
      intro k hk
      have hki : k ≠ i := fun he => hj (hij ▸ he ▸ hk)
      rw [hown, if_neg hki]
    · have hji : j ≠ i := fun he => hj (he ▸ hi)
      rw [if_neg hji, ih hrest hi, List.nil_append]

end CryptoNav.Lib
