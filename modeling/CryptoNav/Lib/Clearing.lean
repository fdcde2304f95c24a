import Mathlib.Algebra.BigOperators.Group.List.Basic
import Mathlib.Algebra.Order.Field.Basic
import Mathlib.Algebra.Order.Group.Abs
import Mathlib.Tactic.Linarith
import Mathlib.Tactic.Ring

/-!
# Clearing a queue up to a tolerance

An incoming amount is matched against a queue from its front, and every difference of at most
`ε` is dropped to zero as soon as it appears. A bite takes the smaller of what is left and what
the front holds, so after it one of the two is used up: either the front leaves the queue, or
the clearing is over. Dust is therefore dropped from the incoming amount once at most, and from
every entry once at most.

How an amount is made less is part of what is cleared, and need not be subtraction: a program may
round. What is said of the amounts themselves is therefore said of amounts in a set `G`, which may
hold all of them, where the two agree (`Bite.Lawful`).
-/

set_option autoImplicit false

namespace CryptoNav.Lib

variable {α β ι K : Type*} [Field K] [LinearOrder K]

def clampZero (value ε : K) : K := if |value| ≤ ε then 0 else value

theorem clampZero_self_sub [IsStrictOrderedRing K] (a ε : K) (h : 0 ≤ ε) : clampZero (a - a) ε = 0 := by
  unfold clampZero
  rw [sub_self, abs_zero, if_pos h]

/-- Clamping keeps a nonnegative value nonnegative. -/
theorem clampZero_nonneg {value ε : K} (h : 0 ≤ value) : 0 ≤ clampZero value ε := by
  unfold clampZero
  split
  · exact le_rfl
  · exact h

/-- A clamped value is the value, or it is zero and the value was dust. -/
theorem clampZero_cases (value ε : K) :
    clampZero value ε = value ∨ (clampZero value ε = 0 ∧ |value| ≤ ε) := by
  unfold clampZero
  split
  · rename_i h
    exact .inr ⟨rfl, h⟩
  · exact .inl rfl

theorem clampZero_le {value ε : K} (h : 0 ≤ value) : clampZero value ε ≤ value := by
  rcases clampZero_cases value ε with hc | hc
  · exact hc.le
  · exact hc.1 ▸ h

/-- What is dust once it is clamped was dust before. -/
theorem le_of_clampZero_le [IsStrictOrderedRing K] {value ε : K} (h : clampZero value ε ≤ ε) :
    value ≤ ε := by
  rcases clampZero_cases value ε with hc | hc
  · rwa [hc] at h
  · exact (le_abs_self _).trans hc.2

/-- What is no dust once it is clamped has not been changed. -/
theorem clampZero_eq_of_lt {value ε : K} (hε : 0 ≤ ε) (h : ε < clampZero value ε) :
    clampZero value ε = value := by
  rcases clampZero_cases value ε with hc | hc
  · exact hc
  · exact absurd (hc.1 ▸ h) hε.not_gt

/-- What is matched: how much an entry still holds, an entry after a bite, and what a bite leaves of
    the incoming amount. -/
structure Bite (α K : Type*) where
  size : α → K
  take : α → K → α
  less : K → K → K

structure Cleared (α K : Type*) where
  left : K
  /-- What was taken, bite by bite. -/
  bites : List K
  /-- Entries used up, in the order they left the queue. -/
  closed : List α
  /-- Entries that were bitten, closed or not. -/
  touched : List α
  queue : List α
  deriving DecidableEq

def Cleared.taken (c : Cleared α K) : K := c.bites.sum

namespace Bite

variable (b : Bite α K) (ε : K)

def clear : K → List α → Cleared α K
  | left, [] => ⟨left, [], [], [], []⟩
  | left, a :: rest =>
    if left ≤ ε then ⟨left, [], [], [], a :: rest⟩
    else
      let quantity := min left (b.size a)
      let bitten := b.take a quantity
      let left := clampZero (b.less left quantity) ε
      if b.size bitten ≤ ε then
        let r := clear left rest
        ⟨r.left, quantity :: r.bites, bitten :: r.closed, bitten :: r.touched, r.queue⟩
      else ⟨left, [quantity], [], [bitten], bitten :: rest⟩

variable {b ε}

theorem clear_of_le {left : K} {a : α} {rest : List α} (h : left ≤ ε) :
    b.clear ε left (a :: rest) = ⟨left, [], [], [], a :: rest⟩ := by
  rw [clear, if_pos h]

theorem clear_of_pop {left : K} {a : α} {rest : List α} (h : ¬left ≤ ε)
    (hpop : b.size (b.take a (min left (b.size a))) ≤ ε) :
    b.clear ε left (a :: rest) =
      let r := b.clear ε (clampZero (b.less left (min left (b.size a))) ε) rest
      ⟨r.left, min left (b.size a) :: r.bites, b.take a (min left (b.size a)) :: r.closed,
        b.take a (min left (b.size a)) :: r.touched, r.queue⟩ := by
  rw [clear, if_neg h]
  simp only [if_pos hpop]

theorem clear_of_stop {left : K} {a : α} {rest : List α} (h : ¬left ≤ ε)
    (hstop : ¬b.size (b.take a (min left (b.size a))) ≤ ε) :
    b.clear ε left (a :: rest) =
      ⟨clampZero (b.less left (min left (b.size a))) ε, [min left (b.size a)], [],
        [b.take a (min left (b.size a))], b.take a (min left (b.size a)) :: rest⟩ := by
  rw [clear, if_neg h]
  simp only [if_neg hstop]

/-- An amount within the tolerance is not matched at all. -/
theorem clear_dust {left : K} (h : left ≤ ε) (lots : List α) :
    b.clear ε left lots = ⟨left, [], [], [], lots⟩ := by
  cases lots with
  | nil => rfl
  | cons a rest => exact clear_of_le h

/-- The induction rule of `clear`: the queue is empty, the amount is used up, the front closes
    and the clearing goes on, or the front survives and the clearing ends. -/
theorem clear_induction {P : K → List α → Cleared α K → Prop}
    (nil : ∀ left, P left [] ⟨left, [], [], [], []⟩)
    (done : ∀ left a rest, left ≤ ε → P left (a :: rest) ⟨left, [], [], [], a :: rest⟩)
    (pop : ∀ left a rest r, ε < left → b.size (b.take a (min left (b.size a))) ≤ ε →
      P (clampZero (b.less left (min left (b.size a))) ε) rest r →
      P left (a :: rest) ⟨r.left, min left (b.size a) :: r.bites,
        b.take a (min left (b.size a)) :: r.closed,
        b.take a (min left (b.size a)) :: r.touched, r.queue⟩)
    (stop : ∀ left a rest, ε < left → ¬b.size (b.take a (min left (b.size a))) ≤ ε →
      P left (a :: rest) ⟨clampZero (b.less left (min left (b.size a))) ε,
        [min left (b.size a)], [], [b.take a (min left (b.size a))],
        b.take a (min left (b.size a)) :: rest⟩)
    (left : K) (lots : List α) : P left lots (b.clear ε left lots) := by
  induction lots generalizing left with
  | nil => exact nil left
  | cons a rest ih =>
    by_cases hdone : left ≤ ε
    · rw [clear_of_le hdone]
      exact done left a rest hdone
    · have hgo := not_le.mp hdone
      by_cases hpop : b.size (b.take a (min left (b.size a))) ≤ ε
      · rw [clear_of_pop hdone hpop]
        exact pop left a rest _ hgo hpop (ih _)
      · rw [clear_of_stop hdone hpop]
        exact stop left a rest hgo hpop

/-- Clearing rewrites entries in place: closed and queue together are the old queue, bitten. -/
theorem clear_map {κ : Type*} {key : α → κ} (hkey : ∀ a q, key (b.take a q) = key a) (left : K)
    (lots : List α) :
    ((b.clear ε left lots).closed ++ (b.clear ε left lots).queue).map key = lots.map key := by
  refine clear_induction (P := fun _ lots r => (r.closed ++ r.queue).map key = lots.map key)
    ?_ ?_ ?_ ?_ left lots
  · intro _; rfl
  · intro _ _ _ _; rfl
  · intro _ a _ r _ _ ih
    rw [List.cons_append, List.map_cons, List.map_cons, ih, hkey]
  · intro _ a rest _ _
    rw [List.nil_append, List.map_cons, List.map_cons, hkey]

theorem clear_queue {left : K} {lots : List α} (h : ∀ a ∈ lots, ε < b.size a) :
    ∀ a ∈ (b.clear ε left lots).queue, ε < b.size a := by
  refine clear_induction (P := fun _ lots r => (∀ a ∈ lots, ε < b.size a) →
    ∀ a ∈ r.queue, ε < b.size a) ?_ ?_ ?_ ?_ left lots h
  · intro _ h; exact h
  · intro _ _ _ _ h; exact h
  · intro _ a _ r _ _ ih h
    exact ih (List.forall_mem_cons.mp h).2
  · intro _ a rest _ hstop h
    exact List.forall_mem_cons.mpr ⟨not_le.mp hstop, (List.forall_mem_cons.mp h).2⟩

/-- Clearing sees of an entry only what a translation of entries keeps. -/
theorem clear_translate {c : Bite β K} {φ : α → β} (hsize : ∀ a, c.size (φ a) = b.size a)
    (htake : ∀ a q, c.take (φ a) q = φ (b.take a q)) (hless : c.less = b.less) (left : K)
    (lots : List α) : c.clear ε left (lots.map φ)
      = ⟨(b.clear ε left lots).left, (b.clear ε left lots).bites,
          (b.clear ε left lots).closed.map φ, (b.clear ε left lots).touched.map φ,
          (b.clear ε left lots).queue.map φ⟩ := by
  induction lots generalizing left with
  | nil => rfl
  | cons a rest ih =>
    rw [List.map_cons, clear, clear]
    simp only [hsize, htake, hless]
    split
    · rfl
    · split
      · rw [ih]
        rfl
      · rfl

/-! ## Amounts -/

variable (b ε)

/-- On amounts in `G` a bite leaves what there was less the bite, clamped where it is an entry's,
    and what is left is in `G` again. -/
structure Lawful (G : K → Prop) : Prop where
  zero : G 0
  sub : ∀ {a c}, G a → G c → c ≤ a → G (a - c)
  less : ∀ {left q}, G left → G q → q ≤ left → b.less left q = left - q
  size_take : ∀ {a q}, G (b.size a) → G q → q ≤ b.size a →
    b.size (b.take a q) = clampZero (b.size a - q) ε

variable {b ε} {G : K → Prop}

namespace Lawful

theorem clamp (hb : b.Lawful ε G) {a c : K} (ha : G a) (hc : G c) (hle : c ≤ a) :
    G (clampZero (a - c) ε) := by
  rcases clampZero_cases (a - c) ε with h | h
  · rw [h]
    exact hb.sub ha hc hle
  · rw [h.1]
    exact hb.zero

/-- A front that survives its bite has used up the incoming amount. -/
theorem exhausts [IsStrictOrderedRing K] (hb : b.Lawful ε G) (hε : 0 ≤ ε) {left : K} {a : α}
    (ha : G (b.size a)) (hfront : ¬b.size (b.take a (min left (b.size a))) ≤ ε) :
    min left (b.size a) = left ∧ clampZero (left - min left (b.size a)) ε = 0 := by
  have hmin : min left (b.size a) = left := by
    rcases min_choice left (b.size a) with hm | hm
    · exact hm
    · exfalso
      rw [hm, hb.size_take ha ha le_rfl, clampZero_self_sub _ _ hε] at hfront
      exact hfront hε
  rw [hmin]
  exact ⟨rfl, clampZero_self_sub _ _ hε⟩

/-- The induction rule where all amounts are in `G`. -/
theorem clear_induction (hb : b.Lawful ε G) {P : K → List α → Cleared α K → Prop}
    (nil : ∀ left, P left [] ⟨left, [], [], [], []⟩)
    (done : ∀ left a rest, left ≤ ε → P left (a :: rest) ⟨left, [], [], [], a :: rest⟩)
    (pop : ∀ left a rest r, ε < left → G left → G (b.size a) → G (min left (b.size a)) →
      b.size (b.take a (min left (b.size a))) ≤ ε →
      P (clampZero (left - min left (b.size a)) ε) rest r →
      P left (a :: rest) ⟨r.left, min left (b.size a) :: r.bites,
        b.take a (min left (b.size a)) :: r.closed,
        b.take a (min left (b.size a)) :: r.touched, r.queue⟩)
    (stop : ∀ left a rest, ε < left → G left → G (b.size a) → G (min left (b.size a)) →
      ¬b.size (b.take a (min left (b.size a))) ≤ ε →
      P left (a :: rest) ⟨clampZero (left - min left (b.size a)) ε, [min left (b.size a)], [],
        [b.take a (min left (b.size a))], b.take a (min left (b.size a)) :: rest⟩)
    {left : K} {lots : List α} (hleft : G left) (hlots : ∀ a ∈ lots, G (b.size a)) :
    P left lots (b.clear ε left lots) := by
  have hmin : ∀ {left a}, G left → G (b.size a) → G (min left (b.size a)) := by
    intro left a hleft ha
    rcases min_choice left (b.size a) with hm | hm
    · rwa [hm]
    · rwa [hm]
  refine Bite.clear_induction (P := fun left lots r => G left → (∀ a ∈ lots, G (b.size a)) →
    P left lots r) ?_ ?_ ?_ ?_ left lots hleft hlots
  · exact fun left _ _ => nil left
  · exact fun left a rest h _ _ => done left a rest h
  · intro left a rest r hgo hpop ih hleft hlots
    obtain ⟨ha, hrest⟩ := List.forall_mem_cons.mp hlots
    have hq := hmin hleft ha
    rw [hb.less hleft hq (min_le_left _ _)] at ih
    exact pop left a rest r hgo hleft ha hq hpop (ih (hb.clamp hleft hq (min_le_left _ _)) hrest)
  · intro left a rest hgo hstop hleft hlots
    have ha := hlots a List.mem_cons_self
    have hq := hmin hleft ha
    rw [hb.less hleft hq (min_le_left _ _)]
    exact stop left a rest hgo hleft ha hq hstop

variable {left : K} {lots : List α}

theorem clear_bites (hb : b.Lawful ε G) (hleft : G left) (hlots : ∀ a ∈ lots, G (b.size a)) :
    ∀ q ∈ (b.clear ε left lots).bites, G q := by
  refine hb.clear_induction (P := fun _ _ r => ∀ q ∈ r.bites, G q) ?_ ?_ ?_ ?_ hleft hlots
  · intro _ q hq; cases hq
  · intro _ _ _ _ q hq; cases hq
  · intro _ _ _ _ _ _ _ hmin _ ih
    exact List.forall_mem_cons.mpr ⟨hmin, ih⟩
  · intro _ _ _ _ _ _ hmin _ q hq
    rwa [List.mem_singleton.mp hq]

/-- If entries satisfy `P`, and `P` gives `Q` both to an entry left alone and to one bitten for at
    most its size, clearing leaves `Q`: no entry is bitten twice. -/
theorem clear_forall (hb : b.Lawful ε G) {P Q : α → Prop} (hQ : ∀ a, P a → Q a)
    (hbite : ∀ a q, P a → G q → 0 ≤ q → q ≤ b.size a → Q (b.take a q))
    (hsize : ∀ a, P a → 0 ≤ b.size a) (hε : 0 ≤ ε) (hleft : G left)
    (hlots : ∀ a ∈ lots, G (b.size a)) (h : ∀ a ∈ lots, P a) :
    (∀ a ∈ (b.clear ε left lots).closed, Q a) ∧ ∀ a ∈ (b.clear ε left lots).queue, Q a := by
  have htake : ∀ left a, ε < left → G (min left (b.size a)) → P a →
      Q (b.take a (min left (b.size a))) := by
    intro left a hgo hq ha
    exact hbite a _ ha hq (le_min (hε.trans hgo.le) (hsize a ha)) (min_le_right _ _)
  refine hb.clear_induction (P := fun _ lots r => (∀ a ∈ lots, P a) →
    (∀ a ∈ r.closed, Q a) ∧ ∀ a ∈ r.queue, Q a) ?_ ?_ ?_ ?_ hleft hlots h
  · intro _ h
    exact ⟨by simp, by simp⟩
  · intro _ a rest _ h
    exact ⟨by simp, fun x hx => hQ x (h x hx)⟩
  · intro left a rest r hgo _ _ hq _ ih h
    obtain ⟨ha, hrest⟩ := List.forall_mem_cons.mp h
    obtain ⟨hclosed, hqueue⟩ := ih hrest
    exact ⟨List.forall_mem_cons.mpr ⟨htake left a hgo hq ha, hclosed⟩, hqueue⟩
  · intro left a rest hgo _ _ hq _ h
    obtain ⟨ha, hrest⟩ := List.forall_mem_cons.mp h
    exact ⟨by simp,
      List.forall_mem_cons.mpr ⟨htake left a hgo hq ha, fun x hx => hQ x (hrest x hx)⟩⟩

theorem clear_mem (hb : b.Lawful ε G) (hleft : G left) (hlots : ∀ a ∈ lots, G (b.size a)) :
    G (b.clear ε left lots).left := by
  refine hb.clear_induction (P := fun left _ r => G left → G r.left) ?_ ?_ ?_ ?_ hleft hlots hleft
  · intro _ h; exact h
  · intro _ _ _ _ h; exact h
  · intro _ _ _ _ _ hleft _ hq _ ih _
    exact ih (hb.clamp hleft hq (min_le_left _ _))
  · intro _ _ _ _ hleft _ hq _ _
    exact hb.clamp hleft hq (min_le_left _ _)

/-- **Where the incoming amount went.** What is left is what was not taken, or nothing, when at
    most `ε` was not taken. -/
theorem clear_left [IsStrictOrderedRing K] (hb : b.Lawful ε G) (hG : ∀ {a}, G a → 0 ≤ a)
    (hleft : G left) (hlots : ∀ a ∈ lots, G (b.size a)) :
    let r := b.clear ε left lots
    0 ≤ r.left ∧ 0 ≤ r.taken ∧ r.taken ≤ left ∧
      (r.left = left - r.taken ∨ (r.left = 0 ∧ left - r.taken ≤ ε)) := by
  refine hb.clear_induction (P := fun left _ r => 0 ≤ left →
    0 ≤ r.left ∧ 0 ≤ r.taken ∧ r.taken ≤ left ∧
      (r.left = left - r.taken ∨ (r.left = 0 ∧ left - r.taken ≤ ε))) ?_ ?_ ?_ ?_ hleft hlots
    (hG hleft)
  · intro left hleft
    exact ⟨hleft, le_rfl, hleft, .inl (sub_zero _).symm⟩
  · intro left _ _ _ hleft
    exact ⟨hleft, le_rfl, hleft, .inl (sub_zero _).symm⟩
  · intro left a rest r hgo _ _ hq _ ih _
    have hq0 : 0 ≤ min left (b.size a) := hG hq
    have hql : 0 ≤ left - min left (b.size a) := sub_nonneg.mpr (min_le_left _ _)
    have htaken : Cleared.taken ⟨r.left, min left (b.size a) :: r.bites,
        b.take a (min left (b.size a)) :: r.closed, b.take a (min left (b.size a)) :: r.touched,
        r.queue⟩ = min left (b.size a) + r.taken := List.sum_cons
    obtain ⟨h1, h2, h3, h4⟩ := ih (clampZero_nonneg hql)
    have hle : clampZero (left - min left (b.size a)) ε ≤ left - min left (b.size a) :=
      clampZero_le hql
    rw [htaken]
    refine ⟨h1, by linarith, by linarith, ?_⟩
    rcases clampZero_cases (left - min left (b.size a)) ε with hc | hc
    · rw [hc] at h4
      rcases h4 with h4 | h4
      · left
        show r.left = left - (min left (b.size a) + r.taken)
        rw [h4]
        ring
      · right
        show r.left = 0 ∧ left - (min left (b.size a) + r.taken) ≤ ε
        exact ⟨h4.1, by linarith [h4.2]⟩
    · -- Dust is dropped here; nothing more is taken.
      rw [hc.1] at h3 h4
      have hr : r.taken = 0 := le_antisymm h3 h2
      have hdust := hc.2
      rw [abs_of_nonneg hql] at hdust
      right
      show r.left = 0 ∧ left - (min left (b.size a) + r.taken) ≤ ε
      refine ⟨?_, by rw [hr]; linarith⟩
      rcases h4 with h4 | h4
      · rw [h4, hr, sub_zero]
      · exact h4.1
  · intro left a rest hgo _ _ hq _ _
    have hql : 0 ≤ left - min left (b.size a) := sub_nonneg.mpr (min_le_left _ _)
    have htaken : Cleared.taken ⟨clampZero (left - min left (b.size a)) ε, [min left (b.size a)],
        [], [b.take a (min left (b.size a))], b.take a (min left (b.size a)) :: rest⟩
          = min left (b.size a) := List.sum_singleton
    rw [htaken]
    refine ⟨clampZero_nonneg hql, hG hq, min_le_left _ _, ?_⟩
    rcases clampZero_cases (left - min left (b.size a)) ε with hc | hc
    · exact .inl hc
    · refine .inr ⟨hc.1, ?_⟩
      have := hc.2
      rwa [abs_of_nonneg hql] at this

/-- Dust is dropped from the incoming amount only where an entry closes. -/
theorem clear_exact [IsStrictOrderedRing K] (hb : b.Lawful ε G) (hε : 0 ≤ ε) (hleft : G left)
    (hlots : ∀ a ∈ lots, G (b.size a)) : (b.clear ε left lots).closed = [] →
      (b.clear ε left lots).left = left - (b.clear ε left lots).taken := by
  refine hb.clear_induction (P := fun left _ r => r.closed = [] → r.left = left - r.taken)
    ?_ ?_ ?_ ?_ hleft hlots
  · intro left _; exact (sub_zero left).symm
  · intro left _ _ _ _; exact (sub_zero left).symm
  · intro _ _ _ _ _ _ _ _ _ _ h; cases h
  · intro left a rest _ hleft ha _ hstop _
    obtain ⟨hmin, hused⟩ := hb.exhausts hε ha hstop
    rw [hused, hmin]
    show 0 = left - [left].sum
    rw [List.sum_singleton, sub_self]

/-- As long as entries remain queued, the incoming amount is used up. -/
theorem clear_left_le [IsStrictOrderedRing K] (hb : b.Lawful ε G) (hε : 0 ≤ ε) (hleft : G left)
    (hlots : ∀ a ∈ lots, G (b.size a)) :
    (b.clear ε left lots).queue ≠ [] → (b.clear ε left lots).left ≤ ε := by
  refine hb.clear_induction (P := fun _ _ r => r.queue ≠ [] → r.left ≤ ε) ?_ ?_ ?_ ?_ hleft hlots
  · intro _ h; exact absurd rfl h
  · intro _ _ _ hdone _; exact hdone
  · intro _ _ _ _ _ _ _ _ _ ih; exact ih
  · intro left a rest _ hleft ha _ hstop _
    rw [(hb.exhausts hε ha hstop).2]
    exact hε

/-- **What an order leaves behind.** Less the queue, what is kept of the incoming amount is what
came in less the queue it met, up to one tolerance; and nothing is lost of an amount of zero. -/
theorem clear_balance [IsStrictOrderedRing K] (hb : b.Lawful ε G) (hε : 0 ≤ ε) (hnonneg : 0 ≤ left)
    (hleft : G left) (hlots : ∀ a ∈ lots, G (b.size a)) :
    let r := b.clear ε left lots
    let kept := if ε < r.left then r.left else 0
    |(kept - (r.queue.map b.size).sum) - (left - (lots.map b.size).sum)| ≤ ε ∧
      (left = 0 → kept - (r.queue.map b.size).sum = left - (lots.map b.size).sum) := by
  have hkeep : ∀ left : K, 0 ≤ left → |(if ε < left then left else 0) - left| ≤ ε := by
    intro left hleft
    split
    · rwa [sub_self, abs_zero]
    · rename_i hdust
      rw [zero_sub, abs_neg, abs_of_nonneg hleft]
      exact not_lt.mp hdust
  have hzero : ∀ left : K, left = 0 → (if ε < left then left else 0) = left := by
    intro left hleft
    rw [hleft, if_neg (not_lt.mpr hε)]
  refine hb.clear_induction (P := fun left lots r => 0 ≤ left →
    |((if ε < r.left then r.left else 0) - (r.queue.map b.size).sum) -
        (left - (lots.map b.size).sum)| ≤ ε ∧
      (left = 0 → (if ε < r.left then r.left else 0) - (r.queue.map b.size).sum =
        left - (lots.map b.size).sum)) ?_ ?_ ?_ ?_ hleft hlots hnonneg
  · intro left hleft
    refine ⟨?_, fun h0 => by rw [hzero left h0]⟩
    rw [sub_sub_sub_cancel_right]
    exact hkeep left hleft
  · intro left a rest _ hleft
    refine ⟨?_, fun h0 => by rw [hzero left h0]⟩
    rw [sub_sub_sub_cancel_right]
    exact hkeep left hleft
  · intro left a rest r hgo hleft ha _ hpop ih _
    have hql : 0 ≤ left - min left (b.size a) := sub_nonneg.mpr (min_le_left _ _)
    obtain ⟨hclose, hexact⟩ := ih (clampZero_nonneg hql)
    refine ⟨?_, fun h0 => absurd h0 (lt_of_le_of_lt hε hgo).ne'⟩
    rw [List.map_cons, List.sum_cons]
    rcases min_choice left (b.size a) with hm | hm
    · -- the amount is used up, and dust of the front may go with it
      have hle : left ≤ b.size a := min_eq_left_iff.mp hm
      rw [hm, clampZero_self_sub _ _ hε] at hexact
      rw [hm, hb.size_take ha hleft hle] at hpop
      have hdust : b.size a - left ≤ ε := le_of_clampZero_le hpop
      have hrest := hexact rfl
      rw [abs_le]
      constructor <;> linarith
    · have hle : b.size a ≤ left := min_eq_right_iff.mp hm
      rw [hm] at hclose hexact
      rcases clampZero_cases (left - b.size a) ε with hc | hc
      · rw [hc] at hclose
        rwa [← sub_sub]
      · -- dust of the amount is dropped, and the clearing is over
        have hrest := hexact hc.1
        have hdust := (le_abs_self _).trans hc.2
        rw [hc.1] at hrest
        rw [abs_le]
        constructor <;> linarith
  · intro left a rest hgo hleft ha _ hstop _
    refine ⟨?_, fun h0 => absurd h0 (lt_of_le_of_lt hε hgo).ne'⟩
    obtain ⟨hm, hused⟩ := hb.exhausts hε ha hstop
    have hle : left ≤ b.size a := min_eq_left_iff.mp hm
    rw [hm, hb.size_take ha hleft hle] at hstop
    have hsize : b.size (b.take a left) = b.size a - left := by
      rw [hb.size_take ha hleft hle]
      exact clampZero_eq_of_lt hε (not_le.mp hstop)
    rw [hused, if_neg (not_lt.mpr hε), hm, List.map_cons, List.sum_cons, List.map_cons,
      List.sum_cons, hsize]
    have hnone : 0 - (b.size a - left + (rest.map b.size).sum) -
        (left - (b.size a + (rest.map b.size).sum)) = 0 := by ring
    rw [hnone, abs_zero]
    exact hε

/-- A quantity that every bite adds to grows by what was taken. -/
theorem clear_sum (hb : b.Lawful ε G) {P : α → Prop} {weight : α → K}
    (hw : ∀ a q, P a → G q → q ≤ b.size a → weight (b.take a q) = weight a + q) (hleft : G left)
    (hlots : ∀ a ∈ lots, G (b.size a)) (h : ∀ a ∈ lots, P a) :
    (((b.clear ε left lots).closed ++ (b.clear ε left lots).queue).map weight).sum
      = (lots.map weight).sum + (b.clear ε left lots).taken := by
  refine hb.clear_induction (P := fun _ lots r => (∀ a ∈ lots, P a) →
    ((r.closed ++ r.queue).map weight).sum = (lots.map weight).sum + r.taken) ?_ ?_ ?_ ?_ hleft
    hlots h
  · intro _ _; simp [Cleared.taken]
  · intro _ _ _ _ _; simp [Cleared.taken]
  · intro _ a rest r _ _ _ hq _ ih h
    obtain ⟨ha, hrest⟩ := List.forall_mem_cons.mp h
    have hbitten := hw a _ ha hq (min_le_right _ _)
    have htaken := ih hrest
    unfold Cleared.taken at htaken ⊢
    rw [List.cons_append, List.map_cons, List.sum_cons, htaken, List.map_cons, List.sum_cons,
      hbitten, List.sum_cons]
    ring
  · intro _ a rest _ _ _ hq _ h
    have hbitten := hw a _ (h a List.mem_cons_self) hq (min_le_right _ _)
    unfold Cleared.taken
    rw [List.nil_append, List.map_cons, List.sum_cons, List.map_cons, List.sum_cons, hbitten,
      List.sum_singleton]
    ring

end Lawful
end Bite
end CryptoNav.Lib
