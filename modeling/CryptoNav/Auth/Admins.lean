import CryptoNav.Auth.Requests

/-!
# An administrator remains

`update_nav_user` and `delete_nav_user` read the target, count the administrators and write, in
three statements and without a transaction. A write that relies on a count that is no longer
current, or on a target that was no administrator when it was read, can take the last one away.
Where no write does, an administrator remains.

A transaction or a lock around the three statements would make the condition of the theorem hold
in every run; there is neither, and two requests are enough to break it. The failing runs use
the sample database, two of whose three users are administrators. What a request writes besides
the role is left to the other files of this directory.
-/

set_option autoImplicit false

namespace CryptoNav.Auth

open CryptoNav.Lib

variable {crypto : Crypto} {random : String} {s : Store}

/-! ## Administrators in the table -/

def Store.HasAdmin (s : Store) : Prop := ∃ row ∈ s.users.rows, row.role = .admin

/-- An administrator beside `target`. -/
def Store.HasOther (s : Store) (target : ℕ) : Prop :=
  ∃ row ∈ s.users.rows, row.role = .admin ∧ row.userId ≠ target

theorem isAdmin_iff {userId : ℕ} :
    s.isAdmin userId ↔ ∃ row ∈ s.users.rows, row.userId = userId ∧ row.role = .admin := by
  unfold Store.isAdmin
  rw [Option.any_eq_true]
  constructor
  · rintro ⟨row, hget, hrole⟩
    obtain ⟨hmem, hid⟩ := Table.get_eq_some.mp hget
    exact ⟨row, hmem, hid, of_decide_eq_true hrole⟩
  · rintro ⟨row, hmem, hid, hrole⟩
    exact ⟨row, Table.get_eq_some.mpr ⟨hmem, hid⟩, decide_eq_true hrole⟩

/-- A count of two leaves an administrator beside any one. -/
theorem hasOther_of_adminCount (h : 2 ≤ s.adminCount) (target : ℕ) : s.HasOther target := by
  unfold Store.adminCount at h
  rw [List.countP_eq_length_filter] at h
  have hsub : List.Sublist (s.users.rows.filter (·.role = .admin)) s.users.rows :=
    List.filter_sublist
  have hsorted := s.users.sorted.sublist hsub
  have hmem : ∀ row ∈ s.users.rows.filter (·.role = .admin),
      row ∈ s.users.rows ∧ row.role = .admin := fun row hrow =>
    ⟨(List.mem_filter.mp hrow).1, of_decide_eq_true (List.mem_filter.mp hrow).2⟩
  match hrows : s.users.rows.filter (·.role = .admin) with
  | [] | [_] =>
    rw [hrows] at h
    simp at h
  | a :: b :: rest =>
    rw [hrows] at hsorted hmem
    have hlt : a.userId < b.userId := (List.pairwise_cons.mp hsorted).1 b List.mem_cons_self
    obtain ⟨ha, hra⟩ := hmem a List.mem_cons_self
    obtain ⟨hb, hrb⟩ := hmem b (List.mem_cons_of_mem _ List.mem_cons_self)
    by_cases htarget : a.userId = target
    · exact ⟨b, hb, hrb, by omega⟩
    · exact ⟨a, ha, hra, htarget⟩

/-! ## What one statement does to them -/

/-- The user from whom the statement takes the admin role. -/
def Phase.removes (s : Store) : Phase → Option ℕ
  | .demoting target role _ _ =>
    if s.isAdmin target && decide (role ≠ .admin) then some target else none
  | .deleting target _ => if s.isAdmin target then some target else none
  | _ => none

/-- The target of a write that has counted, and how many removals there had been by then. -/
def Phase.counted : Phase → Option (ℕ × ℕ)
  | .demoting target _ _ (some n) => some (target, n)
  | .deleting target (some n) => some (target, n)
  | _ => none

/-- An update of one row that leaves its key, and the admin role of all others. -/
theorem modify_admin {users : Table User.userId} (userId : ℕ) (f : User → User)
    (hf : ∀ row, (f row).userId = row.userId) {row : User} (hmem : row ∈ users.rows)
    (hkeep : row.userId = userId → (f row).role = row.role) :
    ∃ row' ∈ (users.modify userId f).rows, row'.userId = row.userId ∧ row'.role = row.role := by
  have hget : (users.modify userId f).get row.userId
      = if row.userId = userId then (users.get userId).map f else users.get row.userId :=
    users.get_modify userId f hf row.userId
  have hrow := Table.mem_rows.mp hmem
  by_cases h : row.userId = userId
  · rw [if_pos h, ← h, hrow, h] at hget
    exact ⟨f row, (Table.get_eq_some.mp hget).1, hf row, hkeep h⟩
  · rw [if_neg h, hrow] at hget
    exact ⟨row, (Table.get_eq_some.mp hget).1, rfl, rfl⟩

/-- **The frame of a statement**: an administrator whom it does not remove is still there. -/
theorem statement_admin (phase : Phase) {row : User} (hmem : row ∈ s.users.rows)
    (hrole : row.role = .admin) (hnot : phase.removes s ≠ some row.userId) :
    ∃ row' ∈ (statement crypto random s phase).1.users.rows,
      row'.userId = row.userId ∧ row'.role = .admin := by
  cases phase with
  | inserting user verified token =>
    refine ⟨row, ?_, rfl, hrole⟩
    simp only [statement]
    split
    · exact hmem
    · rename_i s' h
      rw [Store.insertSession_eq_some h]
      exact hmem
  | changing user token newPassword =>
    obtain ⟨row', h, hid, hr⟩ := modify_admin user.userId (fun row =>
      { row with passwordHash := crypto.crypt newPassword random, written := s.updates + 1 })
      (fun _ => rfl) hmem fun _ => rfl
    exact ⟨row', h, hid, hr.trans hrole⟩
  | resetting target password =>
    obtain ⟨row', h, hid, hr⟩ := modify_admin target (fun row =>
      { row with passwordHash := crypto.crypt password random, written := s.updates + 1 })
      (fun _ => rfl) hmem fun _ => rfl
    exact ⟨row', h, hid, hr.trans hrole⟩
  | demoting target role password counted =>
    have hkeep : row.userId = target → role = row.role := by
      intro htarget
      by_contra hne
      refine hnot ((if_pos ?_).trans (congrArg some htarget.symm))
      rw [Bool.and_eq_true_iff]
      exact ⟨isAdmin_iff.mpr ⟨row, hmem, htarget, hrole⟩,
        decide_eq_true fun hadmin => hne (hadmin.trans hrole.symm)⟩
    obtain ⟨row', h, hid, hr⟩ :=
      modify_admin target (fun row => { row with role }) (fun _ => rfl) hmem hkeep
    exact ⟨row', h, hid, hr.trans hrole⟩
  | deleting target counted =>
    refine ⟨row, List.mem_filter.mpr ⟨hmem, decide_eq_true fun htarget => hnot ?_⟩, rfl, hrole⟩
    exact (if_pos (isAdmin_iff.mpr ⟨row, hmem, htarget, hrole⟩)).trans
      (congrArg some htarget.symm)
  | _ => exact ⟨row, hmem, rfl, hrole⟩

theorem statement_removals (phase : Phase) :
    (statement crypto random s phase).1.removals
      = if (phase.removes s).isSome then s.removals + 1 else s.removals := by
  cases phase with
  | inserting user verified token =>
    simp only [statement]
    split
    · rfl
    · rename_i s' h
      rw [Store.insertSession_eq_some h]
      rfl
  | demoting target role password counted =>
    simp only [statement, Store.setRole, Phase.removes]
    split
    · rfl
    · rfl
  | deleting target counted =>
    simp only [statement, Store.deleteUser, Phase.removes]
    split
    · rfl
    · rfl
  | _ => rfl

/-! ## Where a count comes from -/

theorem resetPassword_counted (target : ℕ) (password : Option String) :
    (resetPassword target password).counted = none := by
  unfold resetPassword
  split
  · rfl
  · split
    · rfl
    · rfl

theorem updateTarget_counted (user : AuthUser) (target : User) (role password : Option String) :
    (updateTarget user target role password).counted = none := by
  unfold updateTarget
  split
  · exact resetPassword_counted target.userId password
  · split
    · rfl
    · split
      · rfl
      · split
        · rfl
        · rfl

theorem start_counted (user : AuthUser) (token : String) (handler : Handler) :
    (handler.start user token).counted = none := by
  unfold Handler.start ensureAdmin
  split
  · rfl
  · rfl
  · split
    · rfl
    · rfl
  · split
    · rfl
    · rfl
  · split
    · rfl
    · rfl

/-- A write that has counted stands right after its count, which found two. -/
theorem statement_counted {phase : Phase} {target n : ℕ}
    (h : (statement crypto random s phase).2.counted = some (target, n)) :
    n = s.removals ∧ 2 ≤ s.adminCount ∧ (statement crypto random s phase).1 = s := by
  have hnone : ∀ {phase : Phase}, phase.counted = none → phase.counted ≠ some (target, n) :=
    fun hn hs => by cases hn.symm.trans hs
  cases phase with
  | counting target' role password =>
    simp only [statement] at h ⊢
    split at h
    · cases h
    · cases h
      exact ⟨rfl, by omega, trivial⟩
  | countingDelete target' =>
    simp only [statement] at h ⊢
    split at h
    · cases h
    · cases h
      exact ⟨rfl, by omega, trivial⟩
  | verifying username password =>
    simp only [statement] at h
    split at h
    · cases h
    · cases h
  | inserting user verified token =>
    simp only [statement] at h
    split at h
    · cases h
    · cases h
  | resolving token handler =>
    simp only [statement] at h
    split at h
    · cases h
    · split at h
      · cases h
      · split at h
        · cases h
        · exact absurd h (hnone (start_counted ..))
  | renewing user token handler => exact absurd h (hnone (start_counted ..))
  | checking user token currentPassword newPassword =>
    simp only [statement] at h
    split at h
    · cases h
    · cases h
  | loading user userId role password =>
    simp only [statement] at h
    split at h
    · cases h
    · exact absurd h (hnone (updateTarget_counted ..))
  | demoting target' role password counted =>
    simp only [statement] at h
    split at h
    · cases h
    · exact absurd h (hnone (resetPassword_counted ..))
  | revoking target' password => exact absurd h (hnone (resetPassword_counted ..))
  | loadingDelete user userId =>
    simp only [statement, deleteTarget] at h
    split at h
    · cases h
    · split at h
      · cases h
      · split at h
        · cases h
        · cases h
  | _ => cases h

/-! ## Runs -/

/-- A statement that is about to take the admin role from a user relies on a count since which no
    administrator was removed. The count of a write is the one its own request made, and `removals`
    tells whether somebody was removed since. -/
def Recounted (s : Server) : Action → Prop
  | .statement request _ => ∀ phase ∈ s.requests[request]?, ∀ target ∈ phase.removes s.store,
      phase.counted = some (target, s.store.removals)
  | _ => True

structure Manned (s : Server) : Prop where
  admin : s.store.HasAdmin
  counted : ∀ phase ∈ s.requests, ∀ target n, phase.counted = some (target, n) →
    n ≤ s.store.removals ∧ (n = s.store.removals → s.store.HasOther target)

/-- A statement keeps an administrator, and another one beside every target whose count is
    current. -/
theorem Manned.statement {srv : Server} (h : Manned srv) {phase : Phase}
    (hphase : phase ∈ srv.requests)
    (hcount : ∀ target ∈ phase.removes srv.store,
      phase.counted = some (target, srv.store.removals)) (request : ℕ) :
    Manned { store := (statement crypto random srv.store phase).1
             requests := srv.requests.set request (statement crypto random srv.store phase).2 } := by
  have hremovals := @statement_removals crypto random srv.store phase
  refine ⟨?_, fun phase' hphase' target n hn => ?_⟩
  · -- The one who remains is the other one of the count, if one is removed, and anyone if not.
    obtain ⟨row, hmem, hrole, hnot⟩ : ∃ row ∈ srv.store.users.rows, row.role = .admin ∧
        phase.removes srv.store ≠ some row.userId := by
      cases hremoves : phase.removes srv.store with
      | none =>
        obtain ⟨row, hmem, hrole⟩ := h.admin
        exact ⟨row, hmem, hrole, nofun⟩
      | some target =>
        obtain ⟨row, hmem, hrole, hne⟩ :=
          (h.counted phase hphase target _ (hcount target hremoves)).2 rfl
        exact ⟨row, hmem, hrole, fun heq => hne (Option.some.inj heq).symm⟩
    obtain ⟨row', hmem', -, hrole'⟩ :=
      @statement_admin crypto random srv.store phase row hmem hrole hnot
    exact ⟨row', hmem', hrole'⟩
  · rcases List.mem_or_eq_of_mem_set hphase' with hold | hnew
    · obtain ⟨hle, hother⟩ := h.counted phase' hold target n hn
      change n ≤ (Auth.statement ..).1.removals ∧ (n = (Auth.statement ..).1.removals → _)
      rw [hremovals]
      cases hremoves : phase.removes srv.store with
      | some _ => exact ⟨Nat.le_succ_of_le hle, fun heq => absurd heq (Nat.ne_of_lt (Nat.lt_succ_of_le hle))⟩
      | none =>
        refine ⟨hle, fun heq => ?_⟩
        obtain ⟨row, hmem, hrole, hne⟩ := hother heq
        have hnot : phase.removes srv.store ≠ some row.userId := by
          rw [hremoves]
          exact nofun
        obtain ⟨row', hmem', hid, hrole'⟩ :=
          @statement_admin crypto random srv.store phase row hmem hrole hnot
        exact ⟨row', hmem', hrole', hid ▸ hne⟩
    · rw [hnew] at hn
      obtain ⟨rfl, htwo, hstore⟩ := statement_counted hn
      change _ ≤ (Auth.statement ..).1.removals ∧ (_ → (Auth.statement ..).1.HasOther target)
      rw [hstore]
      exact ⟨le_rfl, fun _ => hasOther_of_adminCount htwo target⟩

/-- A new request has counted nothing, nor has one that failed. -/
theorem Manned.request {srv : Server} (h : Manned srv) {requests : List Phase}
    (hnew : ∀ phase ∈ requests, phase ∈ srv.requests ∨ phase.counted = none) :
    Manned { srv with requests } := by
  refine ⟨h.admin, fun phase hphase target n hn => ?_⟩
  rcases hnew phase hphase with hold | hnone
  · exact h.counted phase hold target n hn
  · cases hnone.symm.trans hn

/-- **The step lemma.** -/
theorem Manned.step {srv srv' : Server} {a : Action} (h : Manned srv) (hcount : Recounted srv a)
    (hstep : step crypto srv a = .ok srv') : Manned srv' := by
  have hadd : ∀ phase : Phase, phase.counted = none →
      Manned { srv with requests := srv.requests ++ [phase] } := fun phase hnone =>
    h.request fun phase' hphase' => (List.mem_append.mp hphase').imp_right fun hnew => by
      rw [List.mem_singleton.mp hnew]
      exact hnone
  cases a with
  | tick duration =>
    cases hstep
    exact ⟨h.admin, h.counted⟩
  | login username password =>
    cases hstep
    exact hadd _ rfl
  | request token handler =>
    cases hstep
    exact hadd _ rfl
  | statement request random =>
    simp only [Auth.step] at hstep
    split at hstep
    · cases hstep
    · rename_i phase hget
      cases hstep
      obtain ⟨hphase, -⟩ := Option.mem_filter_iff.mp hget
      exact h.statement (List.mem_of_getElem? hphase) (hcount phase hphase) request
  | fail request =>
    simp only [Auth.step] at hstep
    split at hstep
    · cases hstep
    · cases hstep
      exact h.request fun phase' hphase' =>
        (List.mem_or_eq_of_mem_set hphase').imp_right fun hnew => by
          rw [hnew]
          rfl

/-- **An administrator always remains** in a run in which no administrator is removed on a count
    that is not current. The condition is about the moment of the write: what has been written
    between the count and it, by whichever request. -/
theorem admin_remains {store : Store} (hadmin : store.HasAdmin) {actions : List Action}
    (hcounts : Throughout (step crypto) Recounted { store } actions) {srv : Server}
    (hrun : actions.foldlM (step crypto) { store } = .ok srv) : srv.store.HasAdmin :=
  (run_throughout (Q := Manned) (fun _ _ _ h hP hstep => h.step hP hstep)
    ⟨hadmin, fun _ hphase => absurd hphase List.not_mem_nil⟩ hcounts hrun).admin

/-! ## Two administrators who remove each other -/

instance : Decidable s.HasAdmin :=
  inferInstanceAs (Decidable (∃ row ∈ s.users.rows, row.role = .admin))

instance (srv : Server) : (a : Action) → Decidable (Recounted srv a)
  | .statement request _ => inferInstanceAs (Decidable (∀ phase ∈ srv.requests[request]?,
      ∀ target ∈ phase.removes srv.store, phase.counted = some (target, srv.store.removals)))
  | .tick _ | .login .. | .request .. | .fail _ => isTrue trivial

/-- Ann demotes one user and Ben deletes another, each step of hers before the same step of his. -/
def sideBySide (demoted deleted : ℕ) : List Action :=
  [.request "aa" (.updateNavUser demoted (some "user") none), .request "bb" (.deleteNavUser deleted),
    .statement 0 "", .statement 1 "", .statement 0 "", .statement 1 "", .statement 0 "",
    .statement 1 "", .statement 0 "", .statement 1 ""]

/-- Both count two administrators and act on the other: none is left. -/
theorem no_admin_left :
    (Store.sample .admin .admin .user).HasAdmin ∧
    Yields ((sideBySide 2 1).foldlM (step Store.sampleCrypto)
      { store := .sample .admin .admin .user }) fun srv => ¬srv.store.HasAdmin := by
  decide +kernel

/-- Ben's request gets past the session lookup first, but loads Ann after hers is done. -/
def oneAfterTheOther : List Action :=
  [.request "aa" (.updateNavUser 2 (some "user") none), .request "bb" (.deleteNavUser 1),
    .statement 1 "", .statement 0 "", .statement 0 "", .statement 0 "", .statement 0 "",
    .statement 0 "", .statement 1 "", .statement 1 ""]

theorem admin_remains_afterwards : ∃ srv,
    oneAfterTheOther.foldlM (step Store.sampleCrypto) { store := .sample .admin .admin .user }
      = .ok srv ∧ srv.store.HasAdmin := by
  have hcounts : Throughout (step Store.sampleCrypto) Recounted
      { store := .sample .admin .admin .user } oneAfterTheOther := by
    decide +kernel
  have hruns : Yields (oneAfterTheOther.foldlM (step Store.sampleCrypto)
      { store := .sample .admin .admin .user }) fun _ => True := by
    decide +kernel
  obtain ⟨srv, hrun, -⟩ := hruns
  exact ⟨srv, hrun, admin_remains (by decide +kernel) hcounts hrun⟩

end CryptoNav.Auth
