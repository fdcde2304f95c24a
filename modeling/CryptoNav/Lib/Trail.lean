import Mathlib.Data.List.Perm.Subperm

/-!
# Following cursors

A partial function says which cursor comes after a cursor, or after none. A trail follows it from
the start as long as it leads to a cursor that has not been there. With finitely many cursors there
is a trail that cannot be prolonged (`exists_whole`): it ends where nothing follows, or where what
follows has been there.

The cursors are compared for equality only: they have no order and nothing says that they
advance. This is how a reader protects itself against a server whose cursors go in circles,
without knowing what they mean. A trail that ends because its next cursor was seen before cannot
be told apart from one that ran out by looking at it; whoever needs the difference looks at
`next` at its end.
-/

set_option autoImplicit false

namespace CryptoNav.Lib

variable {κ : Type*} {next : Option κ → Option κ} {trail cursors : List κ}

/-- The cursors that are followed from the start, the latest first. -/
inductive Trail (next : Option κ → Option κ) : List κ → Prop
  | nil : Trail next []
  | cons {trail : List κ} {c : κ} (h : Trail next trail) (hnext : next trail.head? = some c)
      (hnew : c ∉ trail) : Trail next (c :: trail)

/-- A trail that leads to no new cursor. -/
structure Whole (next : Option κ → Option κ) (trail : List κ) : Prop where
  isTrail : Trail next trail
  old : ∀ c, next trail.head? = some c → c ∈ trail

theorem Trail.nodup (h : Trail next trail) : trail.Nodup := by
  induction h with
  | nil => exact List.nodup_nil
  | cons _ _ hnew ih => exact List.nodup_cons.mpr ⟨hnew, ih⟩

theorem Trail.subset (h : Trail next trail) (hfinite : ∀ c d, next c = some d → d ∈ cursors) :
    trail ⊆ cursors := by
  induction h with
  | nil => exact List.nil_subset _
  | cons _ hnext _ ih => exact List.cons_subset.mpr ⟨hfinite _ _ hnext, ih⟩

/-- **Finitely many cursors have a whole trail.** -/
theorem exists_whole (hfinite : ∀ c d, next c = some d → d ∈ cursors) :
    ∃ trail, Whole next trail := by
  -- The induction is on how many cursors are left.
  have hgo : ∀ n trail, Trail next trail → cursors.length - trail.length = n →
      ∃ trail, Whole next trail := by
    intro n
    induction n using Nat.strongRecOn with
    | _ n ih =>
      intro trail h hn
      by_cases hold : ∀ c, next trail.head? = some c → c ∈ trail
      · exact ⟨trail, h, hold⟩
      · push Not at hold
        obtain ⟨c, hnext, hnew⟩ := hold
        have hcons : Trail next (c :: trail) := h.cons hnext hnew
        have hle := (List.subperm_of_subset hcons.nodup (hcons.subset hfinite)).length_le
        rw [List.length_cons] at hle
        exact ih _ (by rw [List.length_cons]; omega) (c :: trail) hcons rfl
  exact hgo _ [] .nil rfl

/-- What follows an earlier cursor of a trail is the one after it, and another one. -/
theorem Trail.next_of_mem (h : Trail next trail) {c : κ} (hc : c ∈ trail) :
    trail.head? = some c ∨ ∃ d ∈ trail, next (some c) = some d ∧ d ≠ c := by
  induction h with
  | nil => cases hc
  | @cons trail d h hnext hnew ih =>
    rcases List.mem_cons.mp hc with rfl | hc
    · exact .inl rfl
    · right
      rcases ih hc with hhead | ⟨e, he, hstep, hne⟩
      · exact ⟨d, List.mem_cons_self, hhead ▸ hnext, fun heq => hnew (heq ▸ hc)⟩
      · exact ⟨e, List.mem_cons_of_mem _ he, hstep, hne⟩

end CryptoNav.Lib
