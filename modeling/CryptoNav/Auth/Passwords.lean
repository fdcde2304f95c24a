import CryptoNav.Auth.Requests

/-!
# A password change ends old access

A login verifies the hash and inserts its session in two statements, a change updates the hash
and deletes the sessions in two others. A login that verified the old hash and inserts after the
deletion leaves a session that the change was to end. Where no login does, the sessions that
outlive a change are the one it kept and those whose login matched the new hash or a later one.

When access ends is said by `AccessEnded` for a session that `resolve` would accept: a row that
is there but expired is no access. The history a run carries, which update wrote a hash and
which one a login verified, is not in the tables; without it the word "old" has no meaning once
two passwords are equal. A password is never compared except through its hash, and different
passwords with one hash are not assumed away.
-/

set_option autoImplicit false

namespace CryptoNav.Auth

open CryptoNav.Lib

variable {crypto : Crypto} {random : String} {s : Store}

/-- What ends with a password change, and with a user. `accepts` is the answer of a `resolve` whose
    statement runs in this state. -/
structure AccessEnded (crypto : Crypto) (s : Store) : Prop where
  changed : ∀ change ∈ s.completed, ∀ token user, s.accepts crypto token = some user →
    user.userId = change.userId → change.keep.map crypto.tokenHash = some (crypto.tokenHash token) ∨
      ∃ session, s.sessions.get (crypto.tokenHash token) = some session ∧
        change.written ≤ session.verified
  deleted : ∀ userId ∈ s.deleted, ∀ token user, s.accepts crypto token = some user →
    user.userId ≠ userId
  role : ∀ token user, s.accepts crypto token = some user →
    ∃ row, s.users.get user.userId = some row ∧ row.role = user.role

theorem accepts_eq_some {token : String} {user : AuthUser} (h : s.accepts crypto token = some user) :
    ∃ session row, s.sessions.get (crypto.tokenHash token) = some session ∧
      s.users.get session.userId = some row ∧ session.userId = user.userId ∧
      row.role = user.role := by
  obtain ⟨⟨session, user'⟩, hselect, rfl⟩ := Option.map_eq_some_iff.mp h
  obtain ⟨hselect, -⟩ := Option.filter_eq_some_iff.mp hselect
  obtain ⟨session', hsession, hrow⟩ := Option.bind_eq_some_iff.mp hselect
  obtain ⟨row, hget, heq⟩ := Option.map_eq_some_iff.mp hrow
  cases heq
  exact ⟨session, row, hsession, hget, rfl, rfl⟩

/-! ## What one statement does to the sessions -/

/-- Where a session of the next state comes from. -/
theorem statement_session (phase : Phase) {session : Session}
    (h : session ∈ (statement crypto random s phase).1.sessions.rows) :
    (∃ old ∈ s.sessions.rows, session.tokenHash = old.tokenHash ∧ session.userId = old.userId ∧
        session.verified = old.verified) ∨
      ∃ user verified token, phase = .inserting user verified token ∧
        session.userId = user.userId ∧ session.verified = verified := by
  have hfilter : ∀ p : Session → Bool, session ∈ (s.sessions.filter p).rows →
      ∃ old ∈ s.sessions.rows, session.tokenHash = old.tokenHash ∧ session.userId = old.userId ∧
        session.verified = old.verified := fun p h =>
    ⟨session, (List.mem_filter.mp h).1, rfl, rfl, rfl⟩
  cases phase with
  | dropping user verified token => exact .inl (hfilter _ h)
  | expiring token => exact .inl (hfilter _ h)
  | loggingOut token => exact .inl (hfilter _ h)
  | revoking target password => exact .inl (hfilter _ h)
  | deleting target counted => exact .inl (hfilter _ h)
  | completing userId written keep => exact .inl (hfilter _ h)
  | inserting user verified token =>
    simp only [statement] at h
    split at h
    · exact .inl ⟨session, h, rfl, rfl, rfl⟩
    · rename_i s' hs'
      rw [Store.insertSession_eq_some hs'] at h
      rcases Table.mem_put.mp h with rfl | ⟨hold, -⟩
      · exact .inr ⟨user, verified, token, rfl, rfl, rfl⟩
      · exact .inl ⟨session, hold, rfl, rfl, rfl⟩
  | renewing user token handler =>
    refine .inl ?_
    rcases Table.mem_modify h fun _ => rfl with ⟨old, hold, -, rfl⟩ | ⟨hold, -⟩
    · exact ⟨old, hold, rfl, rfl, rfl⟩
    · exact ⟨session, hold, rfl, rfl, rfl⟩
  | _ => exact .inl ⟨session, h, rfl, rfl, rfl⟩

/-- A change is completed by the statement that deletes the sessions of its user. -/
theorem statement_completed (phase : Phase) {change : Change}
    (h : change ∈ (statement crypto random s phase).1.completed) : change ∈ s.completed ∨
      ∀ session ∈ (statement crypto random s phase).1.sessions.rows,
        session.userId = change.userId →
          session.tokenHash = (change.keep.map crypto.tokenHash).getD "" := by
  cases phase with
  | inserting user verified token =>
    simp only [statement] at h
    split at h
    · exact .inl h
    · rename_i s' hs'
      rw [Store.insertSession_eq_some hs'] at h
      exact .inl h
  | completing userId written keep =>
    rcases List.mem_cons.mp h with rfl | hold
    · refine .inr fun session hsession huser => ?_
      obtain ⟨-, hkept⟩ := List.mem_filter.mp hsession
      simpa [huser] using hkept
    · exact .inl hold
  | _ => exact .inl h

/-! ## What it does to the users -/

theorem modify_userId {users : Table User.userId} {userId : ℕ} {f : User → User} {row : User}
    (h : row ∈ (users.modify userId f).rows) (hf : ∀ row, (f row).userId = row.userId) :
    ∃ old ∈ users.rows, old.userId = row.userId := by
  rcases Table.mem_modify h hf with ⟨old, hold, -, rfl⟩ | ⟨hold, -⟩
  · exact ⟨old, hold, (hf old).symm⟩
  · exact ⟨row, hold, rfl⟩

/-- No statement adds a user. -/
theorem statement_user (phase : Phase) {row : User}
    (h : row ∈ (statement crypto random s phase).1.users.rows) :
    ∃ old ∈ s.users.rows, old.userId = row.userId := by
  cases phase with
  | inserting user verified token =>
    simp only [statement] at h
    split at h
    · exact ⟨row, h, rfl⟩
    · rename_i s' hs'
      rw [Store.insertSession_eq_some hs'] at h
      exact ⟨row, h, rfl⟩
  | changing user token newPassword => exact modify_userId h fun _ => rfl
  | demoting target role password counted => exact modify_userId h fun _ => rfl
  | resetting target password => exact modify_userId h fun _ => rfl
  | deleting target counted => exact ⟨row, (List.mem_filter.mp h).1, rfl⟩
  | _ => exact ⟨row, h, rfl⟩

theorem statement_deleted (phase : Phase) {userId : ℕ}
    (h : userId ∈ (statement crypto random s phase).1.deleted) : userId ∈ s.deleted ∨
      ∀ row ∈ (statement crypto random s phase).1.users.rows, row.userId ≠ userId := by
  cases phase with
  | inserting user verified token =>
    simp only [statement] at h
    split at h
    · exact .inl h
    · rename_i s' hs'
      rw [Store.insertSession_eq_some hs'] at h
      exact .inl h
  | deleting target counted =>
    rcases List.mem_cons.mp h with rfl | hold
    · exact .inr fun row hrow => of_decide_eq_true (List.mem_filter.mp hrow).2
    · exact .inl hold
  | _ => exact .inl h

/-! ## Runs -/

/-- A login that is about to insert its session matched a hash no older than every completed change
    of its user. It compares what the login saw with what has been completed, and does not ask
    whether the passwords differ. -/
def LoginCurrent (s : Server) : Action → Prop
  | .statement request _ => match s.requests[request]? with
    | some (.inserting user verified _) =>
      ∀ change ∈ s.store.completed, change.userId = user.userId → change.written ≤ verified
    | _ => True
  | _ => True

structure Ended (crypto : Crypto) (s : Store) : Prop where
  sessions : ∀ change ∈ s.completed, ∀ session ∈ s.sessions.rows,
    session.userId = change.userId →
      session.tokenHash = (change.keep.map crypto.tokenHash).getD "" ∨
        change.written ≤ session.verified
  users : ∀ userId ∈ s.deleted, ∀ row ∈ s.users.rows, row.userId ≠ userId

theorem Ended.statement {srv : Server} (h : Ended crypto srv.store) {request : ℕ} {phase : Phase}
    (hphase : srv.requests[request]? = some phase)
    (hcurrent : LoginCurrent srv (.statement request random)) :
    Ended crypto (statement crypto random srv.store phase).1 where
  sessions := by
    intro change hchange session hsession huser
    rcases statement_completed phase hchange with hold | hnew
    · rcases statement_session phase hsession with
        ⟨old, hmem, hhash, hid, hverified⟩ | ⟨user, verified, token, rfl, hid, hverified⟩
      · rw [hhash, hverified]
        exact h.sessions change hold old hmem (hid.symm.trans huser)
      · simp only [LoginCurrent, hphase] at hcurrent
        refine .inr ?_
        rw [hverified]
        exact hcurrent change hold (huser.symm.trans hid)
    · exact .inl (hnew session hsession huser)
  users := by
    intro userId hdeleted row hrow
    rcases statement_deleted phase hdeleted with hold | hnew
    · obtain ⟨old, hmem, hid⟩ := statement_user phase hrow
      exact hid ▸ h.users userId hold old hmem
    · exact hnew row hrow

/-- **The step lemma.** -/
theorem Ended.step {srv srv' : Server} {a : Action} (h : Ended crypto srv.store)
    (hcurrent : LoginCurrent srv a) (hstep : step crypto srv a = .ok srv') :
    Ended crypto srv'.store := by
  cases a with
  | tick duration =>
    cases hstep
    exact ⟨h.sessions, h.users⟩
  | login username password =>
    cases hstep
    exact h
  | request token handler =>
    cases hstep
    exact h
  | statement request random =>
    simp only [Auth.step] at hstep
    split at hstep
    · cases hstep
    · rename_i phase hget
      cases hstep
      exact h.statement (Option.mem_filter_iff.mp hget).1 hcurrent
  | fail request =>
    simp only [Auth.step] at hstep
    split at hstep
    · cases hstep
    · cases hstep
      exact h

theorem Ended.access (h : Ended crypto s) : AccessEnded crypto s where
  changed := by
    intro change hchange token user haccepts huser
    obtain ⟨session, row, hget, -, hid, -⟩ := accepts_eq_some haccepts
    obtain ⟨hmem, hhash⟩ := Table.get_eq_some.mp hget
    rcases h.sessions change hchange session hmem (hid.trans huser) with hkept | hverified
    · -- The hash of a token is not empty, so it is that of a kept one.
      cases hkeep : change.keep with
      | none =>
        rw [hkeep, hhash] at hkept
        exact absurd hkept (crypto.tokenHash_ne token)
      | some keep =>
        rw [hkeep, hhash] at hkept
        exact .inl (congrArg some hkept.symm)
    · exact .inr ⟨session, hget, hverified⟩
  deleted := by
    intro userId hdeleted token user haccepts
    obtain ⟨session, row, -, hrow, hid, -⟩ := accepts_eq_some haccepts
    obtain ⟨hmem, hkey⟩ := Table.get_eq_some.mp hrow
    exact hid ▸ hkey ▸ h.users userId hdeleted row hmem
  role := by
    intro token user haccepts
    obtain ⟨session, row, -, hrow, hid, hrole⟩ := accepts_eq_some haccepts
    exact ⟨row, hid ▸ hrow, hrole⟩

/-- **A password change ends old access** in every run in which no login inserts a session after a
    change of its user's password that it has not seen is completed. Whatever else runs in between,
    no session that stems from an old password answers afterwards, but for the one that made the
    change. -/
theorem password_change_ends_access {users : Table User.userId}
    {sessions : Table Session.tokenHash} {now : ℕ} {actions : List Action}
    (hcurrent : Throughout (step crypto) LoginCurrent { store := { users, sessions, now } } actions)
    {srv : Server}
    (hrun : actions.foldlM (step crypto) { store := { users, sessions, now } } = .ok srv) :
    AccessEnded crypto srv.store :=
  (run_throughout (Q := fun srv => Ended crypto srv.store)
    (fun _ _ _ h hP hstep => h.step hP hstep)
    ⟨fun _ hchange => absurd hchange List.not_mem_nil,
      fun _ hdeleted => absurd hdeleted List.not_mem_nil⟩ hcurrent hrun).access

/-! ## A login that a change overtakes -/

instance (srv : Server) : (a : Action) → Decidable (LoginCurrent srv a)
  | .statement request _ => match h : srv.requests[request]? with
    | some (.inserting user verified _) => decidable_of_iff (∀ change ∈ srv.store.completed,
        change.userId = user.userId → change.written ≤ verified)
        (by unfold LoginCurrent; simp only [h])
    | none => isTrue (by unfold LoginCurrent; simp only [h])
    | some (.verifying ..) | some (.generating ..) | some (.dropping ..) | some (.resolving ..)
    | some (.expiring ..) | some (.renewing ..) | some (.loggingOut ..) | some (.checking ..)
    | some (.changing ..) | some (.loading ..) | some (.counting ..) | some (.demoting ..)
    | some (.revoking ..) | some (.resetting ..) | some (.loadingDelete ..)
    | some (.countingDelete ..) | some (.deleting ..) | some (.completing ..)
    | some (.returned ..) => isTrue (by unfold LoginCurrent; simp only [h])
  | .tick _ | .login .. | .request .. | .fail _ => isTrue trivial

/-- Ann changes her password while a login with the old one is under way, which gets `before`
    statements done before the last of the change and `after` statements after it. -/
def loginDuringChange (before after : ℕ) : List Action :=
  [.login "ann" "old-password", .request "aa" (.changePassword "old-password" "new-password"),
    .statement 0 "", .statement 1 "", .statement 1 "", .statement 1 "$2a$10$abcdefghijklmnopqrstuu"]
    ++ .replicate before (.statement 0 "cc") ++ [.statement 1 ""]
    ++ .replicate after (.statement 0 "cc")

def sampleServer : Server := { store := .sample .user .admin .user }

/-- The login inserts last, and its token is accepted although it verified the old password. -/
theorem old_password_gets_a_session :
    Yields ((loginDuringChange 0 3).foldlM (step Store.sampleCrypto) sampleServer)
      fun srv => ¬AccessEnded Store.sampleCrypto srv.store := by
  have hbad : Yields ((loginDuringChange 0 3).foldlM (step Store.sampleCrypto) sampleServer)
      fun srv => ∃ change ∈ srv.store.completed,
        change.keep.map Store.sampleCrypto.tokenHash ≠ some (Store.sampleCrypto.tokenHash "cc") ∧
        (∃ user ∈ srv.store.accepts Store.sampleCrypto "cc", user.userId = change.userId) ∧
        ∀ session ∈ srv.store.sessions.get (Store.sampleCrypto.tokenHash "cc"),
          session.verified < change.written := by
    decide +kernel
  obtain ⟨srv, hrun, change, hchange, hkeep, ⟨user, haccepts, huser⟩, hold⟩ := hbad
  refine ⟨srv, hrun, fun h => ?_⟩
  rcases h.changed change hchange "cc" user haccepts huser with hkept | ⟨session, hget, hle⟩
  · exact hkeep hkept
  · exact absurd hle (Nat.not_le.mpr (hold session hget))

/-- The login inserts before the change deletes. -/
theorem old_session_is_deleted : ∃ srv,
    (loginDuringChange 3 0).foldlM (step Store.sampleCrypto) sampleServer = .ok srv ∧
      AccessEnded Store.sampleCrypto srv.store := by
  have hcurrent : Throughout (step Store.sampleCrypto) LoginCurrent sampleServer
      (loginDuringChange 3 0) := by
    decide +kernel
  have hruns : Yields ((loginDuringChange 3 0).foldlM (step Store.sampleCrypto) sampleServer)
      fun _ => True := by
    decide +kernel
  obtain ⟨srv, hrun, -⟩ := hruns
  exact ⟨srv, hrun, password_change_ends_access hcurrent hrun⟩

end CryptoNav.Auth
