import Mathlib.Data.List.Basic
import Mathlib.Data.List.Nodup

/-!
# Keeping the first of each key

Going through a list and keeping an element when its key has not been seen before. Exactly one
element of each key stays (`keepFirst_nodup`, `exists_keepFirst`), and doing it twice is doing it
once, also when lists that were thinned out already are joined first (`keepFirst_append`).

What stays is the first one, so the order of the list matters and is kept. Mathlib's
`List.dedup` keeps the last one of equal elements and knows no key. `seen` is a parameter
because a program that reads page after page carries what it has seen along: thinning out a page
with what came before it is thinning out the two together (`keepFirst_append_seen`).
-/

set_option autoImplicit false

namespace CryptoNav.Lib

variable {α κ : Type*} [DecidableEq κ]

/-- The elements whose key is neither in `seen` nor that of an earlier element. -/
def keepFirst (key : α → κ) (seen : List κ) : List α → List α
  | [] => []
  | a :: rest =>
    if key a ∈ seen then keepFirst key seen rest else a :: keepFirst key (key a :: seen) rest

theorem keepFirst_sublist (key : α → κ) (seen : List κ) (l : List α) :
    (keepFirst key seen l).Sublist l := by
  induction l generalizing seen with
  | nil => exact .slnil
  | cons a rest ih =>
    unfold keepFirst
    split
    · exact (ih seen).cons a
    · exact (ih _).cons_cons a

theorem keepFirst_not_seen {key : α → κ} {seen : List κ} {l : List α} {a : α}
    (h : a ∈ keepFirst key seen l) : key a ∉ seen := by
  induction l generalizing seen with
  | nil => cases h
  | cons b rest ih =>
    unfold keepFirst at h
    split at h
    case isTrue => exact ih h
    case isFalse hb =>
      rcases List.mem_cons.mp h with rfl | hrest
      · exact hb
      · exact fun hseen => ih hrest (List.mem_cons_of_mem _ hseen)

/-- No two kept elements have the same key. -/
theorem keepFirst_nodup (key : α → κ) (seen : List κ) (l : List α) :
    ((keepFirst key seen l).map key).Nodup := by
  induction l generalizing seen with
  | nil => exact List.nodup_nil
  | cons a rest ih =>
    unfold keepFirst
    split
    · exact ih seen
    · refine List.nodup_cons.mpr ⟨?_, ih _⟩
      intro hmem
      obtain ⟨b, hb, hkey⟩ := List.mem_map.mp hmem
      exact keepFirst_not_seen hb (by rw [hkey]; exact List.mem_cons_self)

/-- An element that is not kept has the key of one that is. -/
theorem exists_keepFirst (key : α → κ) {seen : List κ} {l : List α} {a : α} (h : a ∈ l)
    (hseen : key a ∉ seen) : ∃ b ∈ keepFirst key seen l, key b = key a := by
  induction l generalizing seen with
  | nil => cases h
  | cons b rest ih =>
    unfold keepFirst
    split
    case isTrue hb =>
      rcases List.mem_cons.mp h with rfl | hrest
      · exact absurd hb hseen
      · exact ih hrest hseen
    case isFalse hb =>
      by_cases hab : key a = key b
      · exact ⟨b, List.mem_cons_self, hab.symm⟩
      · have hrest : a ∈ rest := by
          rcases List.mem_cons.mp h with rfl | hrest
          · exact absurd rfl hab
          · exact hrest
        have hseen' : key a ∉ key b :: seen := by simp [hab, hseen]
        obtain ⟨c, hc, hkey⟩ := ih hrest hseen'
        exact ⟨c, List.mem_cons_of_mem _ hc, hkey⟩

theorem keepFirst_congr {key : α → κ} {seen seen' : List κ} {l : List α}
    (h : ∀ a ∈ l, key a ∈ seen ↔ key a ∈ seen') : keepFirst key seen l = keepFirst key seen' l := by
  induction l generalizing seen seen' with
  | nil => rfl
  | cons a rest ih =>
    unfold keepFirst
    have hrest : ∀ b ∈ rest, key b ∈ seen ↔ key b ∈ seen' :=
      fun b hb => h b (List.mem_cons_of_mem _ hb)
    by_cases ha : key a ∈ seen
    · rw [if_pos ha, if_pos ((h a List.mem_cons_self).mp ha)]
      exact ih hrest
    · rw [if_neg ha, if_neg (fun ha' => ha ((h a List.mem_cons_self).mpr ha'))]
      rw [ih fun b hb => ?_]
      rw [List.mem_cons, List.mem_cons, hrest b hb]

/-- The keys seen at the end of a first list are those of its elements. -/
theorem keepFirst_append_seen (key : α → κ) (seen : List κ) (l m : List α) :
    keepFirst key seen (l ++ m) =
      keepFirst key seen l ++ keepFirst key ((l.map key).reverse ++ seen) m := by
  induction l generalizing seen with
  | nil => rfl
  | cons a rest ih =>
    simp only [List.cons_append, keepFirst, List.map_cons, List.reverse_cons]
    split
    case isTrue ha =>
      rw [ih]
      congr 1
      refine keepFirst_congr fun b hb => ?_
      simp only [List.mem_append, List.mem_reverse, List.mem_cons, List.not_mem_nil, or_false]
      constructor
      · rintro (h | h)
        · exact .inl (.inl h)
        · exact .inr h
      · rintro ((h | h) | h)
        · exact .inl h
        · exact .inr (h ▸ ha)
        · exact .inr h
    case isFalse ha => rw [ih, List.append_assoc]; rfl

theorem mem_map_keepFirst {key : α → κ} {seen : List κ} {l : List α} {k : κ} :
    k ∈ (keepFirst key seen l).map key ↔ k ∈ l.map key ∧ k ∉ seen := by
  constructor
  · intro h
    obtain ⟨a, ha, rfl⟩ := List.mem_map.mp h
    exact ⟨List.mem_map_of_mem ((keepFirst_sublist key seen l).subset ha), keepFirst_not_seen ha⟩
  · rintro ⟨h, hseen⟩
    obtain ⟨a, ha, rfl⟩ := List.mem_map.mp h
    obtain ⟨b, hb, hkey⟩ := exists_keepFirst key ha hseen
    exact List.mem_map.mpr ⟨b, hb, hkey⟩

/-- Elements with keys of their own are all kept. -/
theorem keepFirst_eq_self {key : α → κ} {seen : List κ} {l : List α} (hnodup : (l.map key).Nodup)
    (hseen : ∀ a ∈ l, key a ∉ seen) : keepFirst key seen l = l := by
  induction l generalizing seen with
  | nil => rfl
  | cons a rest ih =>
    obtain ⟨ha, hrest⟩ := List.nodup_cons.mp hnodup
    rw [keepFirst, if_neg (hseen a List.mem_cons_self), ih hrest]
    intro b hb hmem
    rcases List.mem_cons.mp hmem with heq | hmem
    · exact ha (heq ▸ List.mem_map_of_mem hb)
    · exact hseen b (List.mem_cons_of_mem _ hb) hmem

theorem keepFirst_append_of_subset {key : α → κ} {l m : List α}
    (h : ∀ a ∈ m, ∃ b ∈ l, key b = key a) : keepFirst key [] (l ++ m) = keepFirst key [] l := by
  have hempty : keepFirst key ((l.map key).reverse ++ []) m = [] := by
    refine List.eq_nil_iff_forall_not_mem.mpr fun a ha => keepFirst_not_seen ha ?_
    obtain ⟨b, hb, hkey⟩ := h a ((keepFirst_sublist _ _ _).subset ha)
    rw [List.append_nil, List.mem_reverse]
    exact List.mem_map.mpr ⟨b, hb, hkey⟩
  rw [keepFirst_append_seen, hempty, List.append_nil]

/-- What a smaller set of keys lets through is thinned out as the whole list is. -/
theorem keepFirst_keepFirst {key : α → κ} {seen seen' : List κ} (h : seen' ⊆ seen) (l : List α) :
    keepFirst key seen (keepFirst key seen' l) = keepFirst key seen l := by
  induction l generalizing seen seen' with
  | nil => rfl
  | cons a rest ih =>
    rw [keepFirst.eq_2 key seen' a rest, keepFirst.eq_2 key seen a rest]
    by_cases ha' : key a ∈ seen'
    · rw [if_pos ha', if_pos (h ha'), ih h]
    · rw [if_neg ha', keepFirst]
      by_cases ha : key a ∈ seen
      · rw [if_pos ha, if_pos ha, ih (List.cons_subset.mpr ⟨ha, h⟩)]
      · rw [if_neg ha, if_neg ha, ih (List.cons_subset_cons _ h)]

/-- **Thinning out joined lists**: it makes no difference whether they were thinned out before. -/
theorem keepFirst_append (key : α → κ) (l m : List α) :
    keepFirst key [] (keepFirst key [] l ++ keepFirst key [] m) = keepFirst key [] (l ++ m) := by
  rw [keepFirst_append_seen, keepFirst_append_seen, keepFirst_keepFirst (List.nil_subset _),
    keepFirst_keepFirst (List.nil_subset _)]
  congr 1
  exact keepFirst_congr fun a _ => by simp [mem_map_keepFirst]

end CryptoNav.Lib
