import Mathlib.Data.List.Basic

/-!
# Runs of a fallible step

A system that consumes a list of inputs one by one and may refuse any of them is a step
function into `Except ε`, and a run of it is `List.foldlM`. The rules here are the ones every
such run obeys: what one accepted step keeps, an accepted run keeps — said of a predicate
(`run_invariant`), also where every step meets a condition of its own (`run_throughout`), of a
predicate that sees the inputs so far (`run_prefix`), and of two systems stepping in parallel
(`run_simulation`).

A refused input ends the run, and the state it would have led to is gone: this is a program that
returns early, not one that skips what it cannot take. For the latter the step has to say so, by
keeping the state. Rules about every state on the way use `Throughout`, which looks at the state
before each step; a property of the last state alone follows from `run_invariant`.

The lemmas about `mapM` are here because such a run is often preceded by a conversion of the
whole list that may fail, and core has little about it for `Except`.
-/

set_option autoImplicit false

namespace CryptoNav.Lib

universe u

variable {ε δ σ τ α : Type*}

/-- An accepted sequence is an accepted first part and an accepted rest. -/
theorem bind_eq_ok {β γ : Type u} {x : Except ε β} {f : β → Except ε γ} {b : γ} :
    (x >>= f) = .ok b ↔ ∃ a, x = .ok a ∧ f a = .ok b := by
  cases x with
  | error e => exact ⟨fun h => absurd h (by simp [bind, Except.bind]), fun ⟨_, h, _⟩ => by simp at h⟩
  | ok a =>
    constructor
    · intro h; exact ⟨a, rfl, h⟩
    · rintro ⟨a', ha, h⟩
      cases ha
      exact h

theorem map_eq_ok {β γ : Type*} {x : Except ε β} {f : β → γ} {b : γ} :
    x.map f = .ok b ↔ ∃ a, x = .ok a ∧ f a = b := by
  cases x <;> simp [Except.map]

theorem pure_eq_ok {a b : α} : (pure a : Except ε α) = .ok b ↔ a = b := by
  simp [pure, Except.pure]

theorem eq_ok_of_join {x : Except ε (Option α)} {a : α} (h : x.toOption.join = some a) :
    x = .ok (some a) := by
  cases x with
  | error e => cases h
  | ok o => exact congrArg Except.ok h

@[simp] theorem run_nil {step : σ → α → Except ε σ} {s s' : σ} :
    List.foldlM step s [] = .ok s' ↔ s = s' := pure_eq_ok

/-- A run of `a :: l` is a step on `a` and a run of `l`. -/
theorem run_cons {step : σ → α → Except ε σ} {s s' : σ} {a : α} {l : List α} :
    List.foldlM step s (a :: l) = .ok s' ↔
      ∃ t, step s a = .ok t ∧ List.foldlM step t l = .ok s' := by
  rw [List.foldlM_cons]
  exact bind_eq_ok

theorem run_append {step : σ → α → Except ε σ} {s s' : σ} {l l' : List α} :
    List.foldlM step s (l ++ l') = .ok s' ↔
      ∃ t, List.foldlM step s l = .ok t ∧ List.foldlM step t l' = .ok s' := by
  rw [List.foldlM_append]
  exact bind_eq_ok

theorem run_flatMap {α' : Type*} {step : σ → α → Except ε σ} {f : α' → List α} (l : List α') (s : σ) :
    (l.flatMap f).foldlM step s = l.foldlM (fun s a => (f a).foldlM step s) s := by
  induction l generalizing s with
  | nil => rfl
  | cons a l ih =>
    rw [List.flatMap_cons, List.foldlM_append, List.foldlM_cons]
    exact congrArg ((f a).foldlM step s >>= ·) (funext ih)

theorem run_congr {step step' : σ → α → Except ε σ} {l : List α}
    (h : ∀ a ∈ l, ∀ s, step s a = step' s a) (s : σ) : l.foldlM step s = l.foldlM step' s := by
  induction l generalizing s with
  | nil => rfl
  | cons a l ih =>
    rw [List.foldlM_cons, List.foldlM_cons, h a List.mem_cons_self]
    exact congrArg (step' s a >>= ·) (funext (ih fun b hb => h b (List.mem_cons_of_mem _ hb)))

/-- **The invariant rule.** -/
theorem run_invariant {step : σ → α → Except ε σ} {P : σ → Prop} {l : List α}
    (keep : ∀ a ∈ l, ∀ s t, P s → step s a = .ok t → P t) {s s' : σ} (hs : P s)
    (hrun : l.foldlM step s = .ok s') : P s' := by
  induction l generalizing s with
  | nil => exact run_nil.mp hrun ▸ hs
  | cons a l ih =>
    obtain ⟨t, ht, hrest⟩ := run_cons.mp hrun
    exact ih (fun b hb => keep b (List.mem_cons_of_mem _ hb)) (keep a List.mem_cons_self s t hs ht)
      hrest

/-- **The prefix rule**: `P` sees the inputs accepted so far, and a step what comes after. -/
theorem run_prefix {step : σ → α → Except ε σ} {P : List α → σ → Prop} {l : List α}
    (keep : ∀ past a rest, l = past ++ a :: rest → ∀ s t, P past s → step s a = .ok t →
      P (past ++ [a]) t) {s s' : σ} (hs : P [] s) (hrun : l.foldlM step s = .ok s') : P l s' := by
  -- The induction is on what is still to come.
  have hgo : ∀ rest past s, l = past ++ rest → P past s → rest.foldlM step s = .ok s' → P l s' := by
    intro rest
    induction rest with
    | nil =>
      intro past s hl hs hrun
      rw [hl, List.append_nil, ← run_nil.mp hrun]
      exact hs
    | cons a rest ih =>
      intro past s hl hs hrun
      obtain ⟨t, ht, hrest⟩ := run_cons.mp hrun
      exact ih (past ++ [a]) t (hl.trans (List.append_cons ..)) (keep past a rest hl s t hs ht) hrest
  exact hgo l [] s rfl hs hrun

/-- **The progress rule**: a run is accepted if each step is, after what an accepted run keeps. -/
theorem run_progress {step : σ → α → Except ε σ} {P : List α → σ → Prop} {l : List α}
    (keep : ∀ past a rest, l = past ++ a :: rest → ∀ s, P past s → ∃ t, step s a = .ok t ∧
      P (past ++ [a]) t) {s : σ} (hs : P [] s) : ∃ s', l.foldlM step s = .ok s' := by
  have hgo : ∀ rest past s, l = past ++ rest → P past s → ∃ s', rest.foldlM step s = .ok s' := by
    intro rest
    induction rest with
    | nil => exact fun _ s _ _ => ⟨s, rfl⟩
    | cons a rest ih =>
      intro past s hl hs
      obtain ⟨t, ht, hkept⟩ := keep past a rest hl s hs
      obtain ⟨s', hs'⟩ := ih (past ++ [a]) t (hl.trans (List.append_cons ..)) hkept
      exact ⟨s', run_cons.mpr ⟨t, ht, hs'⟩⟩
  exact hgo l [] s rfl hs

theorem mem_of_mapM {β : Type u} {α : Type u} {f : α → Except ε β} {l : List α} {bs : List β}
    (h : l.mapM f = .ok bs) {b : β} (hb : b ∈ bs) : ∃ a ∈ l, f a = .ok b := by
  induction l generalizing bs with
  | nil =>
    cases pure_eq_ok.mp h
    cases hb
  | cons c l ih =>
    rw [List.mapM_cons] at h
    obtain ⟨d, hd, h⟩ := bind_eq_ok.mp h
    obtain ⟨rest, hrest, h⟩ := bind_eq_ok.mp h
    cases pure_eq_ok.mp h
    rcases List.mem_cons.mp hb with rfl | hb
    · exact ⟨c, List.mem_cons_self, hd⟩
    · obtain ⟨a, ha, hab⟩ := ih hrest hb
      exact ⟨a, List.mem_cons_of_mem _ ha, hab⟩

theorem eq_map_of_mapM {β : Type u} {α : Type u} {f : α → Except ε β} {g : α → β}
    (hf : ∀ a b, f a = .ok b → b = g a) {l : List α} {bs : List β} (h : l.mapM f = .ok bs) :
    bs = l.map g := by
  induction l generalizing bs with
  | nil => exact (pure_eq_ok.mp h).symm
  | cons a l ih =>
    rw [List.mapM_cons] at h
    obtain ⟨b, hb, h⟩ := bind_eq_ok.mp h
    obtain ⟨rest, hrest, h⟩ := bind_eq_ok.mp h
    rw [← pure_eq_ok.mp h, hf a b hb, ih hrest, List.map_cons]

theorem exists_of_mapM {β : Type u} {α : Type u} {f : α → Except ε β} {l : List α} {bs : List β}
    (h : l.mapM f = .ok bs) {a : α} (ha : a ∈ l) : ∃ b ∈ bs, f a = .ok b := by
  induction l generalizing bs with
  | nil => cases ha
  | cons c l ih =>
    rw [List.mapM_cons] at h
    obtain ⟨b, hb, h⟩ := bind_eq_ok.mp h
    obtain ⟨rest, hrest, h⟩ := bind_eq_ok.mp h
    cases pure_eq_ok.mp h
    rcases List.mem_cons.mp ha with rfl | ha
    · exact ⟨b, List.mem_cons_self, hb⟩
    · obtain ⟨b', hmem, hb'⟩ := ih hrest ha
      exact ⟨b', List.mem_cons_of_mem _ hmem, hb'⟩

theorem length_of_mapM {β : Type u} {α : Type u} {f : α → Except ε β} {l : List α} {bs : List β}
    (h : l.mapM f = .ok bs) : bs.length = l.length := by
  induction l generalizing bs with
  | nil => exact congrArg List.length (pure_eq_ok.mp h).symm
  | cons a l ih =>
    rw [List.mapM_cons] at h
    obtain ⟨b, -, h⟩ := bind_eq_ok.mp h
    obtain ⟨rest, hrest, h⟩ := bind_eq_ok.mp h
    rw [← pure_eq_ok.mp h, List.length_cons, List.length_cons, ih hrest]

theorem mem_of_mapM_some {β : Type u} {α : Type u} {f : α → Option β} {l : List α} {bs : List β}
    (h : l.mapM f = some bs) {b : β} (hb : b ∈ bs) : ∃ a ∈ l, f a = some b := by
  induction l generalizing bs with
  | nil =>
    cases Option.some.inj h
    cases hb
  | cons c l ih =>
    rw [List.mapM_cons] at h
    obtain ⟨d, hd, h⟩ := Option.bind_eq_some_iff.mp h
    obtain ⟨rest, hrest, h⟩ := Option.bind_eq_some_iff.mp h
    cases Option.some.inj h
    rcases List.mem_cons.mp hb with rfl | hb
    · exact ⟨c, List.mem_cons_self, hd⟩
    · obtain ⟨a, ha, hab⟩ := ih hrest hb
      exact ⟨a, List.mem_cons_of_mem _ ha, hab⟩

/-- Every step of the run meets `P`, a condition on the state before it and on its input. -/
def Throughout (step : σ → α → Except ε σ) (P : σ → α → Prop) : σ → List α → Prop
  | _, [] => True
  | s, a :: l => P s a ∧ ∀ t, step s a = .ok t → Throughout step P t l

instance (step : σ → α → Except ε σ) (P : σ → α → Prop) [∀ s a, Decidable (P s a)] :
    (s : σ) → (l : List α) → Decidable (Throughout step P s l)
  | _, [] => isTrue trivial
  | s, a :: l =>
    match h : step s a with
    | .error _ => decidable_of_iff (P s a)
        ⟨fun hp => ⟨hp, fun _ ht => by cases h.symm.trans ht⟩, fun hp => hp.1⟩
    | .ok t =>
      have := instDecidableThroughout step P t l
      decidable_of_iff (P s a ∧ Throughout step P t l)
        ⟨fun ⟨hp, hl⟩ => ⟨hp, fun _ ht => Except.ok.inj (h.symm.trans ht) ▸ hl⟩,
          fun ⟨hp, hl⟩ => ⟨hp, hl t h⟩⟩

/-- **The guarded invariant rule.** -/
theorem run_throughout {step : σ → α → Except ε σ} {P : σ → α → Prop} {Q : σ → Prop} {l : List α}
    (keep : ∀ a s t, Q s → P s a → step s a = .ok t → Q t) {s s' : σ} (hs : Q s)
    (hP : Throughout step P s l) (hrun : l.foldlM step s = .ok s') : Q s' := by
  induction l generalizing s with
  | nil => exact run_nil.mp hrun ▸ hs
  | cons a l ih =>
    obtain ⟨t, ht, hrest⟩ := run_cons.mp hrun
    exact ih (keep a s t hs hP.1 ht) (hP.2 t ht) hrest

/-- A condition on the inputs alone is met throughout if every input meets it. -/
theorem throughout_of_forall {step : σ → α → Except ε σ} {P : σ → α → Prop} {l : List α}
    (h : ∀ a ∈ l, ∀ s, P s a) (s : σ) : Throughout step P s l := by
  induction l generalizing s with
  | nil => trivial
  | cons a l ih =>
    exact ⟨h a List.mem_cons_self s, fun t _ => ih (fun b hb => h b (List.mem_cons_of_mem _ hb)) t⟩

theorem Throughout.and {step : σ → α → Except ε σ} {P Q : σ → α → Prop} {s : σ} {l : List α}
    (hP : Throughout step P s l) (hQ : Throughout step Q s l) :
    Throughout step (fun s a => P s a ∧ Q s a) s l := by
  induction l generalizing s with
  | nil => trivial
  | cons a l ih => exact ⟨⟨hP.1, hQ.1⟩, fun t ht => ih (hP.2 t ht) (hQ.2 t ht)⟩

/-- What holds throughout a run holds throughout its parts. -/
theorem throughout_append {step : σ → α → Except ε σ} {P : σ → α → Prop} {s t : σ} {l l' : List α}
    (hrun : l.foldlM step s = .ok t) :
    Throughout step P s (l ++ l') ↔ Throughout step P s l ∧ Throughout step P t l' := by
  induction l generalizing s with
  | nil =>
    rw [run_nil.mp hrun]
    simp only [List.nil_append, Throughout, true_and]
  | cons a l ih =>
    obtain ⟨u, hu, hrest⟩ := run_cons.mp hrun
    have hnext : ∀ Q : σ → Prop, (∀ v, step s a = .ok v → Q v) ↔ Q u := fun Q =>
      ⟨fun h => h u hu, fun h v hv => Except.ok.inj (hu.symm.trans hv) ▸ h⟩
    simp only [List.cons_append, Throughout, hnext, ih hrest, and_assoc]

/-- **The exact rule.** If a step meets `P` just when it keeps the record `R` clean, then a run does
    so throughout just when the record is clean at its end. -/
theorem throughout_iff {step : σ → α → Except ε σ} {P : σ → α → Prop} {Q R : σ → Prop} {l : List α}
    (keep : ∀ a ∈ l, ∀ s t, Q s → step s a = .ok t → Q t ∧ (R t ↔ R s ∧ P s a)) {s s' : σ}
    (hs : Q s) (hrun : l.foldlM step s = .ok s') : R s' ↔ R s ∧ Throughout step P s l := by
  induction l generalizing s with
  | nil =>
    rw [← run_nil.mp hrun]
    exact (and_iff_left trivial).symm
  | cons a l ih =>
    obtain ⟨t, ht, hrest⟩ := run_cons.mp hrun
    obtain ⟨hQ, hR⟩ := keep a List.mem_cons_self s t hs ht
    rw [ih (fun b hb => keep b (List.mem_cons_of_mem _ hb)) hQ hrest, hR, and_assoc]
    have hrest : Throughout step P s (a :: l) ↔ P s a ∧ Throughout step P t l :=
      and_congr_right fun _ => ⟨fun h => h t ht, fun h u hu => Except.ok.inj (ht.symm.trans hu) ▸ h⟩
    rw [hrest]

/-- **The exact guard.** Where a step from a good state reaches a good state just when it is guarded,
    all states of a run are good just when all its steps are guarded. `Q` is what good runs keep. -/
theorem throughout_good_iff {step : σ → α → Except ε σ} {Q good : σ → Prop} {guarded : σ → α → Prop}
    (keep : ∀ a s t, Q s → good s → step s a = .ok t → (good t ↔ guarded s a) ∧ (good t → Q t))
    (refused : ∀ a s e, step s a = .error e → guarded s a) {l : List α} {s : σ} (hQ : Q s)
    (hs : good s) : Throughout step (fun s a => ∀ t, step s a = .ok t → good t) s l ↔
      Throughout step guarded s l := by
  induction l generalizing s with
  | nil => exact Iff.rfl
  | cons a l ih =>
    rw [Throughout, Throughout]
    cases h : step s a with
    | error e =>
      exact ⟨fun _ => ⟨refused a s e h, fun _ ht => by cases ht⟩,
        fun _ => ⟨fun _ ht => (by cases ht), fun _ ht => by cases ht⟩⟩
    | ok t =>
      obtain ⟨hgood, hnext⟩ := keep a s t hQ hs h
      simp only [Except.ok.injEq, forall_eq', hgood]
      exact and_congr_right fun hguarded => ih (hnext (hgood.mpr hguarded)) (hgood.mpr hguarded)

/-- **The simulation rule.** Every accepted step of the first system is matched by an accepted
    step of the second that keeps `R`; so is every accepted run. -/
theorem run_simulation {step : σ → α → Except ε σ} {step' : τ → α → Except δ τ}
    {R : σ → τ → Prop} {l : List α}
    (keep : ∀ a ∈ l, ∀ s t u, R s u → step s a = .ok t → ∃ v, step' u a = .ok v ∧ R t v)
    {s s' : σ} {u : τ} (hs : R s u) (hrun : l.foldlM step s = .ok s') :
    ∃ u', l.foldlM step' u = .ok u' ∧ R s' u' := by
  induction l generalizing s u with
  | nil => exact ⟨u, rfl, run_nil.mp hrun ▸ hs⟩
  | cons a l ih =>
    obtain ⟨t, ht, hrest⟩ := run_cons.mp hrun
    obtain ⟨v, hv, hR⟩ := keep a List.mem_cons_self s t u hs ht
    obtain ⟨u', hu', hR'⟩ := ih (fun b hb => keep b (List.mem_cons_of_mem _ hb)) hR hrest
    exact ⟨u', run_cons.mpr ⟨v, hv, hu'⟩, hR'⟩

/-- **The projection rule.** A run of the projected system is the projection of a run. -/
theorem run_map {step : σ → α → Except ε σ} {step' : τ → α → Except ε τ} {π : σ → τ}
    (h : ∀ s a, step' (π s) a = (step s a).map π) (s : σ) (l : List α) :
    l.foldlM step' (π s) = (l.foldlM step s).map π := by
  induction l generalizing s with
  | nil => rfl
  | cons a l ih =>
    rw [List.foldlM_cons, List.foldlM_cons, h]
    cases step s a with
    | error e => rfl
    | ok t => exact ih t

/-- **The stuttering rule.** The second run makes only the steps of `p`; the others keep the
    relation on their own. -/
theorem run_filter {step : σ → α → Except ε σ} {step' : τ → α → Except ε τ} {R : σ → τ → Prop}
    {p : α → Bool}
    (keep : ∀ a s s' t, p a → R s t → step s a = .ok s' → ∃ t', step' t a = .ok t' ∧ R s' t')
    (skip : ∀ a s s' t, ¬ p a → R s t → step s a = .ok s' → R s' t) {l : List α} {s s' : σ} {t : τ}
    (h : R s t) (hrun : l.foldlM step s = .ok s') :
    ∃ t', (l.filter p).foldlM step' t = .ok t' ∧ R s' t' := by
  induction l generalizing s t with
  | nil => exact ⟨t, rfl, run_nil.mp hrun ▸ h⟩
  | cons a l ih =>
    obtain ⟨s₁, hs₁, hrest⟩ := run_cons.mp hrun
    by_cases hpa : p a
    · obtain ⟨t₁, ht₁, hR⟩ := keep a s s₁ t hpa h hs₁
      obtain ⟨t', ht', hR'⟩ := ih hR hrest
      exact ⟨t', by rw [List.filter_cons_of_pos hpa]; exact run_cons.mpr ⟨t₁, ht₁, ht'⟩, hR'⟩
    · rw [List.filter_cons_of_neg hpa]
      exact ih (skip a s s₁ t hpa h hs₁) hrest

/-- Two outcomes that agree: the same refusal, or results in the relation. -/
inductive Alike (R : σ → τ → Prop) : Except ε σ → Except ε τ → Prop where
  | error (e : ε) : Alike R (.error e) (.error e)
  | ok {s : σ} {t : τ} (h : R s t) : Alike R (.ok s) (.ok t)

theorem Alike.left {R : σ → τ → Prop} {x : Except ε σ} {y : Except ε τ} (h : Alike R x y) {s : σ}
    (hx : x = .ok s) : ∃ t, y = .ok t ∧ R s t := by
  cases h with
  | error e => cases hx
  | ok h =>
    cases hx
    exact ⟨_, rfl, h⟩

theorem Alike.right {R : σ → τ → Prop} {x : Except ε σ} {y : Except ε τ} (h : Alike R x y) {t : τ}
    (hy : y = .ok t) : ∃ s, x = .ok s ∧ R s t := by
  cases h with
  | error e => cases hy
  | ok h =>
    cases hy
    exact ⟨_, rfl, h⟩

theorem Alike.and_right {R : σ → τ → Prop} {Q : τ → Prop} {x : Except ε σ} {y : Except ε τ}
    (h : Alike R x y) (hQ : ∀ t, y = .ok t → Q t) : Alike (fun s t => R s t ∧ Q t) x y := by
  cases h with
  | error e => exact .error e
  | ok h => exact .ok ⟨h, hQ _ rfl⟩

/-- **The bisimulation rule.** The relation may depend on the inputs still to come. -/
theorem run_alike {step : σ → α → Except ε σ} {step' : τ → α → Except ε τ}
    {R : List α → σ → τ → Prop}
    (keep : ∀ a l s t, R (a :: l) s t → Alike (R l) (step s a) (step' t a)) {l : List α} {s : σ}
    {t : τ} (h : R l s t) : Alike (R []) (l.foldlM step s) (l.foldlM step' t) := by
  induction l generalizing s t with
  | nil => exact .ok h
  | cons a l ih =>
    rw [List.foldlM_cons, List.foldlM_cons]
    generalize hx : step s a = x
    generalize hy : step' t a = y
    have hstep : Alike (R l) x y := hx ▸ hy ▸ keep a l s t h
    cases hstep with
    | error e => exact .error e
    | ok h => exact ih h

/-- An outcome that is accepted and satisfies `P`; decidable, so that a concrete run can be
    evaluated. -/
def Yields (x : Except ε α) (P : α → Prop) : Prop := ∃ a, x = .ok a ∧ P a

instance {x : Except ε α} {P : α → Prop} [DecidablePred P] : Decidable (Yields x P) :=
  match x with
  | .error _ => isFalse fun ⟨_, h, _⟩ => by cases h
  | .ok a => decidable_of_iff (P a) ⟨fun h => ⟨a, rfl, h⟩, fun ⟨_, h, hp⟩ => by cases h; exact hp⟩

end CryptoNav.Lib
