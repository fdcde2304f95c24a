import Mathlib.Algebra.Order.Group.Nat
import Mathlib.Data.List.Basic
import Mathlib.Data.Nat.Find

/-!
# Routines that may not end

A routine returns, fails or goes on for ever. `run` is what it does when each of its loops may take
a given number of turns, and a routine `Gives` a result when it does so for some number: more turns
do not change it (`mono`), so that there is at most one. The rules are those of a sequence
(`gives_bind`), of a `for` over a list (`foldlM_total`) and of a loop, which is unrolled once
(`gives_loop`), ends where a measure decreases (`loop_total`) and does not where it always goes on
(`loop_never`).

The amount of turns is shared by nested loops and is never part of a result: `Gives` and `Ends`
hide it, and no theorem about a program should mention it. Two routines that never end are the
same as far as `Gives` goes; what a routine does on the way, such as requests it sends, has to
be in its state or in its result to be seen. Early exits from a loop are the right half of the
sum a turn returns.
-/

set_option autoImplicit false

namespace CryptoNav.Lib

structure Routine (ε α : Type) where
  run : ℕ → Option (Except ε α)
  mono : ∀ n r, run n = some r → run (n + 1) = some r

namespace Routine

variable {ε α β σ : Type}

theorem run_le (x : Routine ε α) {n m : ℕ} (h : n ≤ m) {r : Except ε α} (hr : x.run n = some r) :
    x.run m = some r := by
  induction h with
  | refl => exact hr
  | step _ ih => exact x.mono _ _ ih

/-- A result that is there at once. -/
def ofExcept (x : Except ε α) : Routine ε α := ⟨fun _ => some x, fun _ _ h => h⟩

/-- One routine after the other; an error is the end. -/
def andThen (x : Routine ε α) (f : α → Routine ε β) : Routine ε β where
  run n :=
    match x.run n with
    | none => none
    | some (.error e) => some (.error e)
    | some (.ok a) => (f a).run n
  mono n r h := by
    cases hx : x.run n with
    | none => simp only [hx] at h; cases h
    | some result =>
      rw [x.mono n _ hx]
      cases result with
      | error e => simpa only [hx] using h
      | ok a =>
        simp only [hx] at h
        exact (f a).mono n r h

instance : Monad (Routine ε) where
  pure a := ofExcept (.ok a)
  bind := andThen

@[simp] theorem ofExcept_ok_bind (a : α) (f : α → Routine ε β) : (ofExcept (.ok a) >>= f) = f a := rfl

@[simp] theorem ofExcept_error_bind (e : ε) (f : α → Routine ε β) :
    (ofExcept (.error e) >>= f) = ofExcept (.error e) := rfl

/-- At most `turns` turns of a loop, each with fuel for its own loops. -/
def turnsOf (turn : σ → Routine ε (σ ⊕ α)) (fuel : ℕ) : ℕ → σ → Option (Except ε α)
  | 0, _ => none
  | turns + 1, s =>
    match (turn s).run fuel with
    | none => none
    | some (.error e) => some (.error e)
    | some (.ok (.inl t)) => turnsOf turn fuel turns t
    | some (.ok (.inr a)) => some (.ok a)

theorem turnsOf_mono (turn : σ → Routine ε (σ ⊕ α)) {fuel turns : ℕ} {s : σ} {r : Except ε α}
    (h : turnsOf turn fuel turns s = some r) :
    turnsOf turn fuel (turns + 1) s = some r ∧ turnsOf turn (fuel + 1) turns s = some r := by
  induction turns generalizing s with
  | zero => cases h
  | succ turns ih =>
    rw [turnsOf] at h
    rw [turnsOf.eq_2 turn fuel s (turns + 1), turnsOf.eq_2 turn (fuel + 1) s turns]
    cases hturn : (turn s).run fuel with
    | none => simp only [hturn] at h; cases h
    | some result =>
      rw [(turn s).mono fuel _ hturn]
      simp only [hturn] at h
      match result, h with
      | .error e, h => exact ⟨h, h⟩
      | .ok (.inl t), h => exact ih h
      | .ok (.inr a), h => exact ⟨h, h⟩

/-- `loop`: a turn goes on with a state or leaves with a value. -/
def loop (turn : σ → Routine ε (σ ⊕ α)) (s : σ) : Routine ε α where
  run n := turnsOf turn n n s
  mono _ _ h := (turnsOf_mono turn (turnsOf_mono turn h).1).2

/-! ## Results -/

def Gives (x : Routine ε α) (r : Except ε α) : Prop := ∃ n, x.run n = some r

/-- The routine ends, one way or the other. -/
def Ends (x : Routine ε α) : Prop := ∃ r, x.Gives r

theorem Gives.unique {x : Routine ε α} {r r' : Except ε α} (h : x.Gives r) (h' : x.Gives r') :
    r = r' := by
  obtain ⟨n, hn⟩ := h
  obtain ⟨m, hm⟩ := h'
  have hn' := x.run_le (le_max_left n m) hn
  rw [x.run_le (le_max_right n m) hm] at hn'
  exact (Option.some.inj hn').symm

theorem Ends.exists_run {x : Routine ε α} (h : x.Ends) : ∃ n, (x.run n).isSome := by
  obtain ⟨r, n, hn⟩ := h
  exact ⟨n, by rw [hn]; rfl⟩

/-- What a routine gives that ends. -/
def result (x : Routine ε α) (h : x.Ends) : Except ε α :=
  (x.run (Nat.find h.exists_run)).get (Nat.find_spec h.exists_run)

theorem Gives.result_eq {x : Routine ε α} {r : Except ε α} (hr : x.Gives r) (h : x.Ends) :
    x.result h = r :=
  Gives.unique ⟨_, (Option.some_get _).symm⟩ hr

theorem gives_iff_eq {x : Routine ε α} {r r' : Except ε α} (h : x.Gives r) : x.Gives r' ↔ r = r' :=
  ⟨h.unique, fun heq => heq ▸ h⟩

@[simp] theorem gives_ofExcept {x r : Except ε α} : (ofExcept x).Gives r ↔ x = r :=
  ⟨fun ⟨_, h⟩ => Option.some.inj h, fun h => ⟨0, congrArg some h⟩⟩

@[simp] theorem gives_pure {a : α} {r : Except ε α} : (pure a : Routine ε α).Gives r ↔ .ok a = r :=
  gives_ofExcept

theorem gives_bind {x : Routine ε α} {f : α → Routine ε β} {r : Except ε β} :
    (x >>= f).Gives r ↔
      (∃ e, x.Gives (.error e) ∧ r = .error e) ∨ ∃ a, x.Gives (.ok a) ∧ (f a).Gives r := by
  constructor
  · rintro ⟨n, hn⟩
    change (x.andThen f).run n = some r at hn
    simp only [andThen] at hn
    cases hx : x.run n with
    | none => simp only [hx] at hn; cases hn
    | some result =>
      simp only [hx] at hn
      cases result with
      | error e => exact .inl ⟨e, ⟨n, hx⟩, (Option.some.inj hn).symm⟩
      | ok a => exact .inr ⟨a, ⟨n, hx⟩, n, hn⟩
  · rintro (⟨e, ⟨n, hn⟩, rfl⟩ | ⟨a, ⟨n, hn⟩, m, hm⟩)
    · exact ⟨n, by change (x.andThen f).run n = _; simp only [andThen, hn]⟩
    · refine ⟨max n m, ?_⟩
      change (x.andThen f).run (max n m) = _
      simp only [andThen, x.run_le (le_max_left n m) hn]
      exact (f a).run_le (le_max_right n m) hm

theorem gives_bind_ok {x : Routine ε α} {f : α → Routine ε β} {a : α} {r : Except ε β}
    (h : x.Gives (.ok a)) : (x >>= f).Gives r ↔ (f a).Gives r := by
  rw [gives_bind]
  constructor
  · rintro (⟨e, he, -⟩ | ⟨a', ha', hr⟩)
    · cases h.unique he
    · cases h.unique ha'
      exact hr
  · exact fun hr => .inr ⟨a, h, hr⟩

theorem gives_bind_error {x : Routine ε α} {f : α → Routine ε β} {e : ε} {r : Except ε β}
    (h : x.Gives (.error e)) : (x >>= f).Gives r ↔ r = .error e := by
  rw [gives_bind]
  constructor
  · rintro (⟨e', he', hr⟩ | ⟨a, ha, -⟩)
    · cases h.unique he'
      exact hr
    · cases h.unique ha
  · exact fun hr => .inl ⟨e, h, hr⟩

/-- A sequence whose first part never ends does not end. -/
theorem not_ends_bind {x : Routine ε α} (h : ¬x.Ends) (f : α → Routine ε β) : ¬(x >>= f).Ends := by
  rintro ⟨r, hr⟩
  rcases gives_bind.mp hr with ⟨e, he, -⟩ | ⟨a, ha, -⟩
  · exact h ⟨_, he⟩
  · exact h ⟨_, ha⟩

/-! ## Loops -/

/-- **A loop is its first turn and, if that goes on, the loop from there.** -/
theorem gives_loop {turn : σ → Routine ε (σ ⊕ α)} {s : σ} {r : Except ε α} :
    (loop turn s).Gives r ↔ (turn s >>= fun next => next.elim (loop turn) pure).Gives r := by
  rw [gives_bind]
  constructor
  · rintro ⟨n, hn⟩
    change turnsOf turn n n s = some r at hn
    cases n with
    | zero => cases hn
    | succ n =>
      rw [turnsOf] at hn
      cases hturn : (turn s).run (n + 1) with
      | none => simp only [hturn] at hn; cases hn
      | some result =>
        simp only [hturn] at hn
        match result, hturn, hn with
        | .error e, hturn, hn => exact .inl ⟨e, ⟨_, hturn⟩, (Option.some.inj hn).symm⟩
        | .ok (.inl t), hturn, hn => exact .inr ⟨.inl t, ⟨_, hturn⟩, n + 1, (turnsOf_mono turn hn).1⟩
        | .ok (.inr a), hturn, hn => exact .inr ⟨.inr a, ⟨_, hturn⟩, 0, hn⟩
  · rintro (⟨e, ⟨n, hn⟩, rfl⟩ | ⟨next, ⟨n, hn⟩, m, hm⟩)
    · refine ⟨n + 1, ?_⟩
      change turnsOf turn (n + 1) (n + 1) s = _
      rw [turnsOf, (turn s).mono n _ hn]
    · refine ⟨max n m + 1, ?_⟩
      change turnsOf turn (max n m + 1) (max n m + 1) s = _
      rw [turnsOf, (turn s).run_le ((le_max_left n m).trans (Nat.le_succ _)) hn]
      cases next with
      | inl t => exact (turnsOf_mono turn ((loop turn t).run_le (le_max_right n m) hm)).2
      | inr a => exact hm

theorem gives_loop_next {turn : σ → Routine ε (σ ⊕ α)} {s t : σ} {r : Except ε α}
    (h : (turn s).Gives (.ok (.inl t))) : (loop turn s).Gives r ↔ (loop turn t).Gives r := by
  rw [gives_loop, gives_bind_ok h]
  rfl

theorem gives_loop_leave {turn : σ → Routine ε (σ ⊕ α)} {s : σ} {a : α} {r : Except ε α}
    (h : (turn s).Gives (.ok (.inr a))) : (loop turn s).Gives r ↔ .ok a = r := by
  rw [gives_loop, gives_bind_ok h]
  exact gives_pure

theorem gives_loop_error {turn : σ → Routine ε (σ ⊕ α)} {s : σ} {e : ε} {r : Except ε α}
    (h : (turn s).Gives (.error e)) : (loop turn s).Gives r ↔ r = .error e := by
  rw [gives_loop, gives_bind_error h]

/-- What a turn may give in a loop that keeps `P`, ends with `Q` and is measured by `μ`. -/
def Turns (P : σ → Prop) (Q : Except ε α → Prop) (μ : σ → ℕ) (s : σ) : Except ε (σ ⊕ α) → Prop
  | .error e => Q (.error e)
  | .ok (.inl t) => P t ∧ μ t < μ s
  | .ok (.inr a) => Q (.ok a)

/-- **Total correctness of a loop**: an invariant, and a measure that goes down with every turn. -/
theorem loop_total {turn : σ → Routine ε (σ ⊕ α)} {P : σ → Prop} {Q : Except ε α → Prop}
    (μ : σ → ℕ) (h : ∀ s, P s → ∃ r, (turn s).Gives r ∧ Turns P Q μ s r) {s : σ} (hs : P s) :
    ∃ r, (loop turn s).Gives r ∧ Q r := by
  induction hn : μ s using Nat.strongRecOn generalizing s with
  | _ n ih =>
    obtain ⟨r, hr, hturns⟩ := h s hs
    match r, hr, hturns with
    | .error e, hr, hQ => exact ⟨.error e, (gives_loop_error hr).mpr rfl, hQ⟩
    | .ok (.inl t), hr, ⟨hP, hlt⟩ =>
      obtain ⟨r, hloop, hQ⟩ := ih (μ t) (hn ▸ hlt) hP rfl
      exact ⟨r, (gives_loop_next hr).mpr hloop, hQ⟩
    | .ok (.inr a), hr, hQ => exact ⟨.ok a, (gives_loop_leave hr).mpr rfl, hQ⟩

/-- **Partial correctness of a loop**: what its turns keep, and what they leave with. -/
theorem loop_keeps {turn : σ → Routine ε (σ ⊕ α)} {P : σ → Prop} {Q : α → Prop}
    (keep : ∀ s t, P s → (turn s).Gives (.ok (.inl t)) → P t)
    (leave : ∀ s a, P s → (turn s).Gives (.ok (.inr a)) → Q a) {s : σ} {a : α} (hs : P s)
    (h : (loop turn s).Gives (.ok a)) : Q a := by
  obtain ⟨n, hn⟩ := h
  change turnsOf turn n n s = some (.ok a) at hn
  -- The induction is on the turns left; the fuel of a single turn stays what it is.
  have hgo : ∀ turns s, P s → turnsOf turn n turns s = some (.ok a) → Q a := by
    intro turns
    induction turns with
    | zero => exact fun _ _ h => by cases h
    | succ turns ih =>
      intro s hs hrun
      rw [turnsOf] at hrun
      cases hturn : (turn s).run n with
      | none => simp only [hturn] at hrun; cases hrun
      | some result =>
        simp only [hturn] at hrun
        match result, hturn, hrun with
        | .ok (.inl t), hturn, hrun => exact ih t (keep s t hs ⟨n, hturn⟩) hrun
        | .ok (.inr b), hturn, hrun =>
          cases Option.some.inj hrun
          exact leave s _ hs ⟨n, hturn⟩
  exact hgo n s hs hn

/-- **A loop that always goes on does not end.** -/
theorem loop_never {turn : σ → Routine ε (σ ⊕ α)} {P : σ → Prop}
    (h : ∀ s, P s → ∃ t, (turn s).Gives (.ok (.inl t)) ∧ P t) {s : σ} (hs : P s) :
    ¬(loop turn s).Ends := by
  rintro ⟨r, n, hn⟩
  change turnsOf turn n n s = some r at hn
  -- The induction is on the turns left; the fuel of a single turn stays what it is.
  have hgo : ∀ turns s, P s → turnsOf turn n turns s ≠ some r := by
    intro turns
    induction turns with
    | zero => exact fun _ _ h => by cases h
    | succ turns ih =>
      intro s hs hrun
      obtain ⟨t, ht, hP⟩ := h s hs
      rw [turnsOf] at hrun
      cases hturn : (turn s).run n with
      | none => simp only [hturn] at hrun; cases hrun
      | some result =>
        cases ht.unique ⟨n, hturn⟩
        simp only [hturn] at hrun
        exact ih t hP hrun
  exact hgo n s hs hn

/-! ## Lists -/

theorem gives_foldlM_cons {step : σ → α → Routine ε σ} {a : α} {l : List α} {s : σ}
    {r : Except ε σ} :
    ((a :: l).foldlM step s).Gives r ↔
      (∃ e, (step s a).Gives (.error e) ∧ r = .error e) ∨
        ∃ t, (step s a).Gives (.ok t) ∧ (l.foldlM step t).Gives r := by
  rw [List.foldlM_cons]
  exact gives_bind

/-- **A `for` does not end** when one of its steps never ends and no step fails. -/
theorem not_ends_foldlM {f : σ → α → Routine ε σ} {l : List α} {a : α} (ha : a ∈ l)
    (hnever : ∀ s, ¬(f s a).Ends) (hok : ∀ s b e, ¬(f s b).Gives (.error e)) (s : σ) :
    ¬(l.foldlM f s).Ends := by
  induction l generalizing s with
  | nil => cases ha
  | cons b l ih =>
    rintro ⟨r, hr⟩
    rcases gives_foldlM_cons.mp hr with ⟨e, he, -⟩ | ⟨t, ht, hrest⟩
    · exact hok s b e he
    · rcases List.mem_cons.mp ha with rfl | ha
      · exact hnever s ⟨_, ht⟩
      · exact ih ha t ⟨_, hrest⟩

/-- What is asked of an error, or of a value. -/
def Meets (Q : ε → Prop) (P : α → Prop) : Except ε α → Prop
  | .error e => Q e
  | .ok a => P a

/-- **Total correctness of a `for`**: `P` sees the items so far, and a step what comes after. -/
theorem foldlM_total {f : σ → α → Routine ε σ} {P : List α → σ → Prop} {Q : ε → Prop} {l : List α}
    (h : ∀ past a rest, l = past ++ a :: rest → ∀ s, P past s →
      ∃ r, (f s a).Gives r ∧ Meets Q (P (past ++ [a])) r) {s : σ} (hs : P [] s) :
    ∃ r, (l.foldlM f s).Gives r ∧ Meets Q (P l) r := by
  -- The induction is on what is still to come.
  have hgo : ∀ rest past s, l = past ++ rest → P past s →
      ∃ r, (rest.foldlM f s).Gives r ∧ Meets Q (P l) r := by
    intro rest
    induction rest with
    | nil =>
      intro past s hl hs
      rw [List.append_nil] at hl
      exact ⟨.ok s, gives_pure.mpr rfl, hl ▸ hs⟩
    | cons a rest ih =>
      intro past s hl hs
      obtain ⟨r, hr, hmeets⟩ := h past a rest hl s hs
      match r, hr, hmeets with
      | .error e, hr, hQ => exact ⟨.error e, gives_foldlM_cons.mpr (.inl ⟨e, hr, rfl⟩), hQ⟩
      | .ok t, hr, hP =>
        obtain ⟨r, hrest, hmeets⟩ := ih (past ++ [a]) t (hl.trans (List.append_cons ..)) hP
        exact ⟨r, gives_foldlM_cons.mpr (.inr ⟨t, hr, hrest⟩), hmeets⟩
  exact hgo l [] s rfl hs

/-- One routine for each item of a list, and their values. -/
def each (x : α → Routine ε β) : List α → Routine ε (List β)
  | [] => pure []
  | a :: l => do
    let b ← x a
    let values ← each x l
    pure (b :: values)

theorem gives_each_cons {x : α → Routine ε β} {a : α} {l : List α} {r : Except ε (List β)} :
    (each x (a :: l)).Gives r ↔ (∃ e, (x a).Gives (.error e) ∧ r = .error e) ∨
      ∃ b, (x a).Gives (.ok b) ∧ ((∃ e, (each x l).Gives (.error e) ∧ r = .error e) ∨
        ∃ values, (each x l).Gives (.ok values) ∧ .ok (b :: values) = r) := by
  rw [each, gives_bind]
  simp only [gives_bind, gives_pure]

/-- **Total correctness of a list of routines**: an item is done where those before it were. -/
theorem each_total {x : α → Routine ε β} {good : α → β → Prop} {Q : ε → Prop} {l : List α}
    (h : ∀ past a rest, l = past ++ a :: rest → (∀ b ∈ past, ∃ value, (x b).Gives (.ok value)) →
      ∃ r, (x a).Gives r ∧ Meets Q (good a) r) :
    ∃ r, (each x l).Gives r ∧ Meets Q (List.Forall₂ good l) r := by
  induction l with
  | nil => exact ⟨.ok [], gives_pure.mpr rfl, .nil⟩
  | cons a l ih =>
    obtain ⟨r, hr, hmeets⟩ := h [] a l rfl (by simp)
    match r, hr, hmeets with
    | .error e, hr, hQ => exact ⟨.error e, gives_each_cons.mpr (.inl ⟨e, hr, rfl⟩), hQ⟩
    | .ok b, hr, hgood =>
      have hrest : ∀ past a' rest, l = past ++ a' :: rest →
          (∀ b ∈ past, ∃ value, (x b).Gives (.ok value)) →
          ∃ r, (x a').Gives r ∧ Meets Q (good a') r := by
        intro past a' rest hl hpast
        refine h (a :: past) a' rest (by rw [hl]; rfl) ?_
        exact List.forall_mem_cons.mpr ⟨⟨b, hr⟩, hpast⟩
      obtain ⟨r, hl, hmeets⟩ := ih hrest
      match r, hl, hmeets with
      | .error e, hl, hQ =>
        exact ⟨.error e, gives_each_cons.mpr (.inr ⟨b, hr, .inl ⟨e, hl, rfl⟩⟩), hQ⟩
      | .ok values, hl, hgoods =>
        exact ⟨.ok (b :: values), gives_each_cons.mpr (.inr ⟨b, hr, .inr ⟨values, hl, rfl⟩⟩),
          .cons hgood hgoods⟩

/-- **It does not end** where an item never does and those before it are done. -/
theorem not_ends_each {x : α → Routine ε β} {past rest : List α} {a : α}
    (hpast : ∀ b ∈ past, ∃ value, (x b).Gives (.ok value)) (h : ¬(x a).Ends) :
    ¬(each x (past ++ a :: rest)).Ends := by
  induction past with
  | nil => exact not_ends_bind h _
  | cons b past ih =>
    obtain ⟨⟨value, hvalue⟩, hpast⟩ := List.forall_mem_cons.mp hpast
    rintro ⟨r, hr⟩
    rw [List.cons_append, each, gives_bind_ok hvalue] at hr
    exact not_ends_bind (ih hpast) _ ⟨r, hr⟩

end Routine

end CryptoNav.Lib
