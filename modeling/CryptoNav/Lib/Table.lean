import Mathlib.Algebra.BigOperators.Group.List.Basic
import Mathlib.Data.Prod.Lex
import CryptoNav.Lib.Sorting

/-!
# Keyed tables

A table holds rows, at most one for each value of `key`, in key order: an ordered map whose
values carry their own keys, or a database table with a primary key. The order is part of the
structure, so two tables with the same lookups are the same table (`Table.ext`) and iterating
one is reading `rows`. Every operation runs by structural recursion on the rows.

A statement of several rows is atomic and refuses two rows of one key, as an insert that updates
on conflict does (`putBatch`); put one after the other, the rows would simply replace each
other. Secondary indexes, foreign keys and concurrent writers are left out: a transaction is a
function from table to table, and who interleaves transactions says so in a step relation of its
own. The rows could have been a `Finmap`; the list is there because it is printed, folded over
and compared, and because it runs.
-/

set_option autoImplicit false

namespace CryptoNav.Lib

variable {α κ : Type*} [LinearOrder κ]

structure Table (key : α → κ) where
  rows : List α
  sorted : rows.Pairwise fun a b => key a < key b

/-! ## Insertion into sorted rows -/

/-- Put `a` at its place among sorted rows, in the stead of the row with its key. -/
def putRow (key : α → κ) (a : α) : List α → List α
  | [] => [a]
  | b :: rest =>
    if key a < key b then a :: b :: rest
    else if key a = key b then a :: rest
    else b :: putRow key a rest

theorem mem_putRow {key : α → κ} {a c : α} {rows : List α}
    (h : rows.Pairwise fun a b => key a < key b) :
    c ∈ putRow key a rows ↔ c = a ∨ (c ∈ rows ∧ key c ≠ key a) := by
  induction rows with
  | nil => simp [putRow]
  | cons b rest ih =>
    obtain ⟨hb, hrest⟩ := List.pairwise_cons.mp h
    rw [putRow]
    split
    · rename_i hlt
      constructor
      · intro hc
        rcases List.mem_cons.mp hc with rfl | hc
        · exact .inl rfl
        · refine .inr ⟨hc, ?_⟩
          rcases List.mem_cons.mp hc with rfl | hc
          · exact ne_of_gt hlt
          · exact ne_of_gt (hlt.trans (hb c hc))
      · rintro (rfl | ⟨hc, -⟩)
        · exact List.mem_cons_self
        · exact List.mem_cons_of_mem _ hc
    · split
      · rename_i _ heq
        constructor
        · intro hc
          rcases List.mem_cons.mp hc with rfl | hc
          · exact .inl rfl
          · exact .inr ⟨List.mem_cons_of_mem _ hc, heq ▸ ne_of_gt (hb c hc)⟩
        · rintro (rfl | ⟨hc, hne⟩)
          · exact List.mem_cons_self
          · rcases List.mem_cons.mp hc with rfl | hc
            · exact absurd heq.symm hne
            · exact List.mem_cons_of_mem _ hc
      · rename_i _ hne
        rw [List.mem_cons, ih hrest, List.mem_cons]
        constructor
        · rintro (rfl | rfl | ⟨hc, hk⟩)
          · exact .inr ⟨.inl rfl, Ne.symm hne⟩
          · exact .inl rfl
          · exact .inr ⟨.inr hc, hk⟩
        · rintro (rfl | ⟨rfl | hc, hk⟩)
          · exact .inr (.inl rfl)
          · exact .inl rfl
          · exact .inr (.inr ⟨hc, hk⟩)

theorem putRow_sorted {key : α → κ} (a : α) {rows : List α}
    (h : rows.Pairwise fun a b => key a < key b) :
    (putRow key a rows).Pairwise fun a b => key a < key b := by
  induction rows with
  | nil => exact List.pairwise_singleton _ a
  | cons b rest ih =>
    obtain ⟨hb, hrest⟩ := List.pairwise_cons.mp h
    rw [putRow]
    split
    · rename_i hlt
      refine List.pairwise_cons.mpr ⟨fun c hc => ?_, h⟩
      rcases List.mem_cons.mp hc with rfl | hc
      · exact hlt
      · exact hlt.trans (hb c hc)
    · split
      · rename_i _ heq
        exact List.pairwise_cons.mpr ⟨fun c hc => heq ▸ hb c hc, hrest⟩
      · rename_i hlt hne
        refine List.pairwise_cons.mpr ⟨fun c hc => ?_, ih hrest⟩
        rcases (mem_putRow hrest).mp hc with rfl | ⟨hc, -⟩
        · exact lt_of_le_of_ne (not_lt.mp hlt) (Ne.symm hne)
        · exact hb c hc

namespace Table

variable {key : α → κ}

def empty : Table key := ⟨[], List.Pairwise.nil⟩

def get (t : Table key) (k : κ) : Option α := t.rows.find? (key · = k)

/-- Insert a row, or replace the row with its key. -/
def put (t : Table key) (a : α) : Table key := ⟨putRow key a t.rows, putRow_sorted a t.sorted⟩

/-- Insert a row, or merge it into the row with its key. -/
def upsert (merge : α → α → α) (t : Table key) (a : α) : Table key :=
  t.put ((t.get (key a)).elim a (merge · a))

/-- Keep the rows that satisfy `p`. -/
def filter (p : α → Bool) (t : Table key) : Table key := ⟨t.rows.filter p, t.sorted.filter p⟩

/-- Replace the row at `k`, if there is one. -/
def modify (t : Table key) (k : κ) (f : α → α) : Table key := (t.get k).elim t fun a => t.put (f a)

def putAll (t : Table key) (l : List α) : Table key := l.foldl put t

/-! ## Lookups -/

theorem get_eq_some {t : Table key} {k : κ} {a : α} :
    t.get k = some a ↔ a ∈ t.rows ∧ key a = k := by
  constructor
  · intro h
    exact ⟨List.mem_of_find?_eq_some h, by simpa using List.find?_some h⟩
  · rintro ⟨hmem, rfl⟩
    obtain ⟨rows, hsorted⟩ := t
    unfold get
    induction rows with
    | nil => cases hmem
    | cons b rest ih =>
      obtain ⟨hb, hrest⟩ := List.pairwise_cons.mp hsorted
      rcases List.mem_cons.mp hmem with rfl | hmem
      · simp
      · rw [List.find?_cons_of_neg (by simpa using ne_of_lt (hb a hmem))]
        exact ih hrest hmem

theorem mem_rows {t : Table key} {a : α} : a ∈ t.rows ↔ t.get (key a) = some a :=
  ⟨fun h => get_eq_some.mpr ⟨h, rfl⟩, fun h => (get_eq_some.mp h).1⟩

theorem key_of_get {t : Table key} {k : κ} {a : α} (h : t.get k = some a) : key a = k :=
  (get_eq_some.mp h).2

theorem get_eq_none {t : Table key} {k : κ} : t.get k = none ↔ ∀ a ∈ t.rows, key a ≠ k := by
  rw [Option.eq_none_iff_forall_ne_some]
  constructor
  · intro h a ha hk
    exact h a (get_eq_some.mpr ⟨ha, hk⟩)
  · intro h a ha
    obtain ⟨hmem, hk⟩ := get_eq_some.mp ha
    exact h a hmem hk

@[simp] theorem rows_empty : (empty : Table key).rows = [] := rfl

@[simp] theorem get_empty (k : κ) : (empty : Table key).get k = none := rfl

theorem rows_nodup (t : Table key) : t.rows.Nodup :=
  t.sorted.imp fun h he => absurd (congrArg key he) (ne_of_lt h)

/-- A table is its lookups. -/
@[ext] theorem ext {t u : Table key} (h : ∀ k, t.get k = u.get k) : t = u := by
  have hmem : ∀ a, a ∈ t.rows ↔ a ∈ u.rows := by
    intro a
    rw [mem_rows, mem_rows, h]
  have hrows : t.rows = u.rows := eq_of_strictly_sorted key t.sorted u.sorted hmem
  cases t
  cases u
  cases hrows
  rfl

theorem get_put (t : Table key) (a : α) (k : κ) :
    (t.put a).get k = if k = key a then some a else t.get k := by
  split
  · rename_i hk
    exact get_eq_some.mpr ⟨(mem_putRow t.sorted).mpr (.inl rfl), hk.symm⟩
  · rename_i hk
    refine Option.ext fun b => ?_
    rw [get_eq_some, get_eq_some, put, mem_putRow t.sorted]
    constructor
    · rintro ⟨rfl | ⟨hb, -⟩, hkey⟩
      · exact absurd hkey.symm hk
      · exact ⟨hb, hkey⟩
    · rintro ⟨hb, hkey⟩
      exact ⟨.inr ⟨hb, hkey ▸ hk⟩, hkey⟩

@[simp] theorem get_put_self (t : Table key) (a : α) : (t.put a).get (key a) = some a := by
  rw [get_put, if_pos rfl]

theorem get_put_of_ne (t : Table key) {a : α} {k : κ} (h : k ≠ key a) :
    (t.put a).get k = t.get k := by
  rw [get_put, if_neg h]

theorem get_modify (t : Table key) (k : κ) (f : α → α) (hf : ∀ a, key (f a) = key a) (k' : κ) :
    (t.modify k f).get k' = if k' = k then (t.get k).map f else t.get k' := by
  unfold modify
  cases hk : t.get k with
  | none =>
    split
    · rename_i he
      rw [he]
      exact hk
    · rfl
  | some a =>
    rw [Option.elim_some, get_put, hf, key_of_get hk]
    rfl

/-- Where a row comes from after an update of the row at `k`. -/
theorem mem_modify {t : Table key} {k : κ} {f : α → α} {a : α} (h : a ∈ (t.modify k f).rows)
    (hf : ∀ b, key (f b) = key b) :
    (∃ b ∈ t.rows, key b = k ∧ a = f b) ∨ (a ∈ t.rows ∧ key a ≠ k) := by
  have hget := mem_rows.mp h
  rw [get_modify t k f hf] at hget
  split at hget
  · obtain ⟨b, hb, rfl⟩ := Option.map_eq_some_iff.mp hget
    exact .inl ⟨b, (get_eq_some.mp hb).1, (get_eq_some.mp hb).2, rfl⟩
  · rename_i hk
    exact .inr ⟨(get_eq_some.mp hget).1, hk⟩

theorem mem_put {t : Table key} {a b : α} :
    b ∈ (t.put a).rows ↔ b = a ∨ (b ∈ t.rows ∧ key b ≠ key a) := mem_putRow t.sorted

theorem get_upsert {merge : α → α → α} (hkey : ∀ a b, key a = key b → key (merge a b) = key b)
    (t : Table key) (a : α) (k : κ) : (t.upsert merge a).get k =
      if k = key a then some ((t.get k).elim a (merge · a)) else t.get k := by
  have hmerged : key ((t.get (key a)).elim a (merge · a)) = key a := by
    cases hget : t.get (key a) with
    | none => rfl
    | some b => exact hkey b a (key_of_get hget)
  unfold upsert
  rw [get_put, hmerged]
  split
  · rename_i hk
    rw [hk]
  · rfl

theorem get_filter (p : α → Bool) (t : Table key) (k : κ) :
    (t.filter p).get k = (t.get k).filter p := by
  refine Option.ext fun a => ?_
  rw [get_eq_some, Option.filter_eq_some_iff, get_eq_some]
  simp only [filter, List.mem_filter]
  constructor
  · rintro ⟨⟨hmem, hp⟩, hk⟩
    exact ⟨⟨hmem, hk⟩, hp⟩
  · rintro ⟨⟨hmem, hk⟩, hp⟩
    exact ⟨⟨hmem, hp⟩, hk⟩

/-- A row with a free key is added to the rows. -/
theorem put_perm {t : Table key} {a : α} (h : t.get (key a) = none) :
    (t.put a).rows.Perm (a :: t.rows) := by
  have hfree := get_eq_none.mp h
  have hnot : a ∉ t.rows := fun hmem => hfree a hmem rfl
  refine (List.perm_ext_iff_of_nodup (t.put a).rows_nodup (List.nodup_cons.mpr
    ⟨hnot, t.rows_nodup⟩)).mpr fun b => ?_
  rw [mem_put, List.mem_cons]
  constructor
  · rintro (rfl | ⟨hb, -⟩)
    · exact .inl rfl
    · exact .inr hb
  · rintro (rfl | hb)
    · exact .inl rfl
    · exact .inr ⟨hb, hfree b hb⟩

/-- Looking a key up in any arrangement of the rows. -/
theorem find?_of_perm {t : Table key} {l : List α} (h : l.Perm t.rows) (k : κ) :
    l.find? (key · = k) = t.get k := by
  cases hget : t.get k with
  | none =>
    rw [List.find?_eq_none]
    intro a ha
    simpa using get_eq_none.mp hget a (h.mem_iff.mp ha)
  | some a =>
    obtain ⟨hmem, hk⟩ := get_eq_some.mp hget
    cases hfind : l.find? (key · = k) with
    | none => exact absurd (List.find?_eq_none.mp hfind a (h.mem_iff.mpr hmem)) (by simpa using hk)
    | some b =>
      have hb : t.get k = some b := get_eq_some.mpr
        ⟨h.mem_iff.mp (List.mem_of_find?_eq_some hfind), by simpa using List.find?_some hfind⟩
      rw [← hb, hget]

/-- Putting a list of rows with distinct keys: the list wins, the rest stays. -/
theorem get_putAll (t : Table key) {l : List α} (h : (l.map key).Nodup) (k : κ) :
    (t.putAll l).get k = (l.find? (key · = k)).or (t.get k) := by
  induction l generalizing t with
  | nil => simp [putAll]
  | cons a l ih =>
    obtain ⟨hnot, hnodup⟩ := List.nodup_cons.mp h
    rw [show t.putAll (a :: l) = (t.put a).putAll l from rfl, ih (t.put a) hnodup]
    by_cases hk : key a = k
    · have hnone : l.find? (key · = k) = none := by
        rw [List.find?_eq_none]
        intro b hb hbk
        simp only [decide_eq_true_eq] at hbk
        exact hnot (List.mem_map.mpr ⟨b, hb, hbk.trans hk.symm⟩)
      rw [hnone, List.find?_cons_of_pos (by simpa using hk), get_put, if_pos hk.symm]
      rfl
    · rw [List.find?_cons_of_neg (by simpa using hk), get_put_of_ne t (Ne.symm hk)]

/-- Putting a list of rows is putting what remains of them alone. -/
theorem get_putAll_or (t : Table key) (l : List α) (k : κ) :
    (t.putAll l).get k = (((empty : Table key).putAll l).get k).or (t.get k) := by
  induction l using List.reverseRecOn with
  | nil => rfl
  | append_singleton l b ih =>
    have hsnoc : ∀ u : Table key, u.putAll (l ++ [b]) = (u.putAll l).put b :=
      fun u => List.foldl_concat ..
    rw [hsnoc, hsnoc, get_put, get_put, ih]
    split <;> rfl

theorem mem_putAll {t : Table key} {l : List α} {a : α} (h : a ∈ (t.putAll l).rows) :
    a ∈ l ∨ a ∈ t.rows := by
  induction l generalizing t with
  | nil => exact .inr h
  | cons b l ih =>
    rcases ih (t := t.put b) h with hl | ht
    · exact .inl (List.mem_cons_of_mem _ hl)
    · rcases mem_put.mp ht with rfl | ⟨ht, -⟩
      · exact .inl List.mem_cons_self
      · exact .inr ht

theorem isSome_get_putAll (t : Table key) (l : List α) (k : κ) :
    ((t.putAll l).get k).isSome ↔ k ∈ l.map key ∨ (t.get k).isSome := by
  induction l generalizing t with
  | nil => simp [putAll]
  | cons a l ih =>
    rw [show t.putAll (a :: l) = (t.put a).putAll l from rfl, ih (t.put a), get_put, List.map_cons,
      List.mem_cons]
    by_cases hk : k = key a
    · simp [hk]
    · simp [hk]

/-- Under a key of theirs the last of several rows remains. -/
theorem exists_get_putAll (t : Table key) {l : List α} {k : κ} (h : k ∈ l.map key) :
    ∃ a ∈ l, (t.putAll l).get k = some a := by
  induction l using List.reverseRecOn with
  | nil => cases h
  | append_singleton l b ih =>
    rw [show t.putAll (l ++ [b]) = (t.putAll l).put b from List.foldl_concat .., get_put]
    by_cases hk : k = key b
    · exact ⟨b, by simp, if_pos hk⟩
    · rw [List.map_append, List.mem_append, List.map_singleton, List.mem_singleton] at h
      obtain ⟨a, ha, hget⟩ := ih (h.resolve_right hk)
      exact ⟨a, List.mem_append_left _ ha, by rw [if_neg hk, hget]⟩

/-- Rows with distinct free keys are added to the rows. -/
theorem putAll_perm {t : Table key} {l : List α} (h : (l.map key).Nodup)
    (hfree : ∀ a ∈ l, t.get (key a) = none) : (t.putAll l).rows.Perm (l ++ t.rows) := by
  induction l generalizing t with
  | nil => exact .refl _
  | cons b l ih =>
    obtain ⟨hnot, hnodup⟩ := List.nodup_cons.mp h
    have hb := hfree b List.mem_cons_self
    have hrest : ∀ a ∈ l, (t.put b).get (key a) = none := by
      intro a ha
      rw [get_put_of_ne t fun hkey => hnot (List.mem_map.mpr ⟨a, ha, hkey⟩)]
      exact hfree a (List.mem_cons_of_mem _ ha)
    exact (ih hnodup hrest).trans (((put_perm hb).append_left l).trans List.perm_middle)

/-! ## Statements of several rows -/

/-- One statement that inserts rows and updates those that are there. It is refused when it names
a key twice. -/
def putBatch (t : Table key) (batch : List α) : Option (Table key) :=
  if (batch.map key).Nodup then some (t.putAll batch) else none

/-- Statements of at most `size` rows each, all of them or none. -/
def putBatches (size : ℕ) (t : Table key) (l : List α) : Option (Table key) :=
  (l.toChunks size).foldlM putBatch t

theorem flatten_toChunks_go (size : ℕ) (l : List α) (chunk : Array α) (chunks : Array (List α)) :
    (List.toChunks.go size l chunk chunks).flatten =
      chunks.toList.flatten ++ (chunk.toList ++ l) := by
  induction l generalizing chunk chunks with
  | nil => simp [List.toChunks.go]
  | cons a l ih =>
    unfold List.toChunks.go
    split
    · rw [ih]
      simp
    · rw [ih]
      simp

theorem flatten_toChunks (size : ℕ) (l : List α) : (l.toChunks size).flatten = l := by
  cases l with
  | nil => cases size <;> rfl
  | cons a l =>
    cases size with
    | zero => exact List.append_nil _
    | succ n => exact flatten_toChunks_go (n + 1) l #[a] #[]

theorem foldlM_putBatch {t t' : Table key} {batches : List (List α)}
    (h : batches.foldlM putBatch t = some t') : t' = t.putAll batches.flatten := by
  induction batches generalizing t with
  | nil => exact (Option.some.inj h).symm
  | cons batch batches ih =>
    rw [List.foldlM_cons] at h
    obtain ⟨t₁, ht₁, h⟩ := Option.bind_eq_some_iff.mp h
    unfold putBatch at ht₁
    split at ht₁
    · rw [ih h, ← Option.some.inj ht₁, List.flatten_cons]
      exact List.foldl_append.symm
    · cases ht₁

/-- Statements that are accepted put all their rows. -/
theorem eq_of_putBatches {size : ℕ} {t t' : Table key} {l : List α}
    (h : t.putBatches size l = some t') : t' = t.putAll l := by
  rw [foldlM_putBatch h, flatten_toChunks]

theorem foldlM_putBatch_isSome {t : Table key} {batches : List (List α)}
    (h : (batches.flatten.map key).Nodup) : (batches.foldlM putBatch t).isSome := by
  induction batches generalizing t with
  | nil => rfl
  | cons batch batches ih =>
    rw [List.flatten_cons, List.map_append, List.nodup_append] at h
    rw [List.foldlM_cons, putBatch, if_pos h.1]
    exact ih h.2.1

/-- Rows with distinct keys are accepted in statements of any size. -/
theorem putBatches_eq_some {size : ℕ} {t : Table key} {l : List α} (h : (l.map key).Nodup) :
    t.putBatches size l = some (t.putAll l) := by
  have hsome : (t.putBatches size l).isSome :=
    foldlM_putBatch_isSome (by rwa [flatten_toChunks])
  obtain ⟨t', ht'⟩ := Option.isSome_iff_exists.mp hsome
  rw [ht', eq_of_putBatches ht']

end Table
end CryptoNav.Lib
