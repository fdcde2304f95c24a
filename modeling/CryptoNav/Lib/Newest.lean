import Mathlib.Data.List.Induction
import Mathlib.Data.List.Nodup
import Mathlib.Order.Lattice

/-!
# Keeping the newest

A cell keeps what it was offered last unless it already holds something newer. After any offers it
holds the last of those with the greatest stamp (`foldl_keepNewest_iff`): offers with different
stamps leave the same in whatever order they come, and of offers with one stamp the last stays. A
board has a cell for every key; an offer touches its own cell only (`post_foldl`).

An offer with the stamp of what is held replaces it: the guard of an upsert is usually written
`≥`, and so the order in which offers of one stamp come decides among them. What is left out is
forgetting: a cell never becomes empty again, and a stamp that lies in the future keeps
everything older out until time has passed it.
-/

set_option autoImplicit false

namespace CryptoNav.Lib

variable {α κ τ : Type*} [LinearOrder τ]

def keepNewest (stamp : α → τ) (stored : Option α) (offered : α) : Option α :=
  if stored.any fun a => decide (stamp offered < stamp a) then stored else some offered

/-- `a` is the last of the offers with the greatest stamp. -/
def Newest (stamp : α → τ) (offers : List α) (a : α) : Prop :=
  ∃ before later, offers = before ++ a :: later ∧ (∀ b ∈ before, stamp b ≤ stamp a) ∧
    ∀ b ∈ later, stamp b < stamp a

theorem Newest.mem {stamp : α → τ} {offers : List α} {a : α} (h : Newest stamp offers a) :
    a ∈ offers := by
  obtain ⟨before, later, rfl, -, -⟩ := h
  simp

theorem Newest.le {stamp : α → τ} {offers : List α} {a b : α} (h : Newest stamp offers a)
    (hb : b ∈ offers) : stamp b ≤ stamp a := by
  obtain ⟨before, later, rfl, hbefore, hlater⟩ := h
  rcases List.mem_append.mp hb with hb | hb
  · exact hbefore b hb
  · rcases List.mem_cons.mp hb with rfl | hb
    · exact le_rfl
    · exact (hlater b hb).le

theorem Newest.single (stamp : α → τ) (a : α) : Newest stamp [a] a :=
  ⟨[], [], rfl, by simp, by simp⟩

/-- A newer offer takes over. -/
theorem Newest.replace {stamp : α → τ} {offers : List α} {a b : α} (h : Newest stamp offers a)
    (hab : stamp a ≤ stamp b) : Newest stamp (offers ++ [b]) b :=
  ⟨offers, [], rfl, fun _ hc => (h.le hc).trans hab, by simp⟩

theorem Newest.keep {stamp : α → τ} {offers : List α} {a b : α} (h : Newest stamp offers a)
    (hba : stamp b < stamp a) : Newest stamp (offers ++ [b]) a := by
  obtain ⟨before, later, rfl, hbefore, hlater⟩ := h
  refine ⟨before, later ++ [b], by simp, hbefore, fun c hc => ?_⟩
  rcases List.mem_append.mp hc with hc | hc
  · exact hlater c hc
  · rwa [List.mem_singleton.mp hc]

theorem Newest.unique {stamp : α → τ} {offers : List α} {a a' : α} (h : Newest stamp offers a)
    (h' : Newest stamp offers a') : a = a' := by
  obtain ⟨before, later, rfl, hbefore, hlater⟩ := h
  obtain ⟨before', later', heq, hbefore', hlater'⟩ := h'
  -- The shorter of the two first parts is followed by both elements.
  rcases List.append_eq_append_iff.mp heq with ⟨gap, rfl, hgap⟩ | ⟨gap, rfl, hgap⟩
  · cases gap with
    | nil => exact (List.cons.inj hgap).1
    | cons c gap =>
      obtain ⟨rfl, rfl⟩ := List.cons.inj hgap
      exact absurd (hbefore' a (by simp)) (not_le.mpr (hlater a' (by simp)))
  · cases gap with
    | nil => exact (List.cons.inj hgap).1.symm
    | cons c gap =>
      obtain ⟨rfl, rfl⟩ := List.cons.inj hgap
      exact absurd (hbefore a' (by simp)) (not_le.mpr (hlater' a (by simp)))

theorem isSome_keepNewest (stamp : α → τ) (stored : Option α) (offered : α) :
    (keepNewest stamp stored offered).isSome := by
  cases stored with
  | none => rfl
  | some a =>
    rw [keepNewest]
    split <;> rfl

theorem isSome_foldl (stamp : α → τ) {offers : List α} (h : offers ≠ []) :
    (offers.foldl (keepNewest stamp) none).isSome := by
  induction offers using List.reverseRecOn with
  | nil => exact absurd rfl h
  | append_singleton offers b _ =>
    rw [List.foldl_append, List.foldl_cons, List.foldl_nil]
    exact isSome_keepNewest ..

/-- **The cell holds the newest offer.** -/
theorem newest_of_foldl {stamp : α → τ} {offers : List α} {a : α}
    (h : offers.foldl (keepNewest stamp) none = some a) : Newest stamp offers a := by
  induction offers using List.reverseRecOn generalizing a with
  | nil => cases h
  | append_singleton offers b ih =>
    rw [List.foldl_append, List.foldl_cons, List.foldl_nil] at h
    rcases eq_or_ne offers [] with rfl | hne
    · obtain rfl : b = a := by simpa [keepNewest] using h
      exact .single stamp b
    · obtain ⟨c, hc⟩ := Option.isSome_iff_exists.mp (isSome_foldl stamp hne)
      rw [hc] at h
      by_cases hlt : stamp b < stamp c
      · obtain rfl : c = a := by simpa [keepNewest, hlt] using h
        exact (ih hc).keep hlt
      · obtain rfl : b = a := by simpa [keepNewest, hlt] using h
        exact (ih hc).replace (not_lt.mp hlt)

theorem foldl_keepNewest_iff {stamp : α → τ} {offers : List α} {a : α} :
    offers.foldl (keepNewest stamp) none = some a ↔ Newest stamp offers a := by
  refine ⟨newest_of_foldl, fun h => ?_⟩
  obtain ⟨b, hb⟩ := Option.isSome_iff_exists.mp
    (isSome_foldl stamp (List.ne_nil_of_mem h.mem))
  rw [hb, h.unique (newest_of_foldl hb)]

/-! ## Boards -/

variable [DecidableEq κ]

def post (stamp : α → τ) (board : κ → Option α) (key : κ) (offered : α) : κ → Option α :=
  fun k => if k = key then keepNewest stamp (board k) offered else board k

theorem post_foldl (stamp : α → τ) (offers : List (κ × α)) (board : κ → Option α) (key : κ) :
    (offers.foldl (fun board offer => post stamp board offer.1 offer.2) board) key =
      (offers.filterMap fun offer => if offer.1 = key then some offer.2 else none).foldl
        (keepNewest stamp) (board key) := by
  induction offers generalizing board with
  | nil => rfl
  | cons offer offers ih =>
    rw [List.foldl_cons, ih]
    by_cases h : offer.1 = key
    · rw [List.filterMap_cons_some (by rw [if_pos h]), List.foldl_cons]
      simp only [post, h, if_true]
    · rw [List.filterMap_cons_none (by rw [if_neg h])]
      simp only [post, Ne.symm h, if_false]

end CryptoNav.Lib
