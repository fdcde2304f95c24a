import CryptoNav.Auth.Store

/-!
# Sessions of the read-only server

A read-only server writes nothing to the database, so it keeps its sessions in memory, with the user
as the login found him. It reads the same users as the server that may write, but only at a login:
a session is what its login saw (`answers_from_login`) and is renewed by being used, whatever has
become of the user meanwhile (`session_kept`).

The random token is an input, the lock is held for the whole of each operation, and a restart of
the server is a new run with nothing in memory. Two tokens with one hash would share a session,
and the statements are about hashes for that reason. How many expired sessions are in memory is
not bounded here: they stay until a login sweeps them out or their own token is used.
-/

set_option autoImplicit false

namespace CryptoNav.Auth

open CryptoNav.Lib

def sessionTtlMs : ℤ := sessionTtlSecs * 1000

def sessionRenewBelowMs : ℤ := sessionRenewBelowSecs * 1000

structure MemorySession where
  user : AuthUser
  expiresAtMs : ℤ

/-- The sessions in memory, by the hash of their tokens. -/
abbrev Memory : Type := String → Option MemorySession

namespace Memory

def create (crypto : Crypto) (sessions : Memory) (user : AuthUser) (token : String) (nowMs : ℤ) :
    Memory := fun hash =>
  if hash = crypto.tokenHash token then some { user, expiresAtMs := nowMs + sessionTtlMs }
  else (sessions hash).filter (nowMs < ·.expiresAtMs)

def revoke (crypto : Crypto) (sessions : Memory) (token : String) : Memory := fun hash =>
  if hash = crypto.tokenHash token then none else sessions hash

/-- The user of the token, if there is a session of it. -/
def resolve (crypto : Crypto) (sessions : Memory) (token : String) (nowMs : ℤ) :
    Option AuthUser × Memory :=
  match sessions (crypto.tokenHash token) with
  | none => (none, sessions)
  | some session =>
    if session.expiresAtMs ≤ nowMs then (none, sessions.revoke crypto token)
    else if session.expiresAtMs - nowMs < sessionRenewBelowMs then
      (some session.user, fun hash =>
        if hash = crypto.tokenHash token then
          some { session with expiresAtMs := nowMs + sessionTtlMs }
        else sessions hash)
    else (some session.user, sessions)

end Memory

/-! ## Visits -/

/-- What takes the lock on the sessions once. A login reads the users in `db`, as they stand then,
and `token` is the one generated for it. Every other request begins with the `resolve` of the token
it carries, and a logout goes on with the `revoke`. -/
inductive Visit where
  | login (db : Store) (username password token : String)
  | resolve (token : String)
  | revoke (token : String)

/-- The user a visit is answered for, and the sessions after it. -/
def visit (crypto : Crypto) (sessions : Memory) (nowMs : ℤ) : Visit → Option AuthUser × Memory
  | .login db username password token =>
    match db.verifyPassword crypto username password with
    | none => (none, sessions)
    | some (user, _) => (some user, sessions.create crypto user token nowMs)
  | .resolve token => sessions.resolve crypto token nowMs
  | .revoke token => (none, sessions.revoke crypto token)

def afterVisits (crypto : Crypto) (visits : List (ℤ × Visit)) : Memory :=
  visits.foldl (fun sessions (nowMs, v) => (visit crypto sessions nowMs v).2) fun _ => none

/-- The visit is a login of `user` under `hash`, at a time when the password was his. -/
def Visit.GivesSession (crypto : Crypto) (hash : String) (user : AuthUser) : Visit → Prop
  | .login db username password token =>
    crypto.tokenHash token = hash ∧
      ∃ written, db.verifyPassword crypto username password = some (user, written)
  | _ => False

/-- The visit ends the session under `hash`, by a logout or by another login. -/
def Visit.Ends (crypto : Crypto) (hash : String) : Visit → Prop
  | .login db username password token =>
    crypto.tokenHash token = hash ∧ (db.verifyPassword crypto username password).isSome
  | .resolve _ => False
  | .revoke token => crypto.tokenHash token = hash

def Visit.uses (crypto : Crypto) (hash : String) : Visit → Bool
  | .resolve token => crypto.tokenHash token = hash
  | _ => false

section
variable {crypto : Crypto}

theorem afterVisits_append (visits : List (ℤ × Visit)) (v : ℤ × Visit) :
    afterVisits crypto (visits ++ [v]) = (visit crypto (afterVisits crypto visits) v.1 v.2).2 := by
  simp [afterVisits, List.foldl_append]

/-- What a visit can leave under a hash. -/
inductive Leaves (crypto : Crypto) (sessions : Memory) (nowMs : ℤ) (v : Visit) (hash : String)
    (session : MemorySession) : Prop
  | login (given : v.GivesSession crypto hash session.user)
      (expires : session.expiresAtMs = nowMs + sessionTtlMs)
  | kept (notEnded : ¬v.Ends crypto hash) (found : sessions hash = some session)
  | renewed (notEnded : ¬v.Ends crypto hash) (used : v.uses crypto hash = true)
      (old : MemorySession) (found : sessions hash = some old) (user : old.user = session.user)
      (expires : session.expiresAtMs = nowMs + sessionTtlMs)

theorem visit_leaves {sessions : Memory} {nowMs : ℤ} {v : Visit} {hash : String}
    {session : MemorySession} (h : (visit crypto sessions nowMs v).2 hash = some session) :
    Leaves crypto sessions nowMs v hash session := by
  cases v with
  | login db username password token =>
    cases hverify : db.verifyPassword crypto username password with
    | none =>
      simp only [visit, hverify] at h
      exact .kept (by simp [Visit.Ends, hverify]) h
    | some found =>
      obtain ⟨user, written⟩ := found
      simp only [visit, hverify, Memory.create] at h
      split at h
      · next heq =>
        cases h
        exact .login ⟨heq.symm, written, hverify⟩ rfl
      · next hne =>
        exact .kept (fun hends => hne hends.1.symm) (Option.filter_eq_some_iff.mp h).1
  | resolve token =>
    simp only [visit, Memory.resolve] at h
    split at h
    · exact .kept (by simp [Visit.Ends]) h
    · next old hold =>
      split at h
      · simp only [Memory.revoke] at h
        split at h
        · cases h
        · exact .kept (by simp [Visit.Ends]) h
      · split at h
        · simp only at h
          split at h
          · next heq =>
            cases h
            exact .renewed (by simp [Visit.Ends]) (by simp [Visit.uses, heq]) old (heq ▸ hold) rfl
              rfl
          · exact .kept (by simp [Visit.Ends]) h
        · exact .kept (by simp [Visit.Ends]) h
  | revoke token =>
    simp only [visit, Memory.revoke] at h
    split at h
    · cases h
    · next hne => exact .kept (fun hends => hne hends.symm) h

/-! ## A session is what its login saw -/

/-- The session under `hash` stems from a login, has not been ended since, and was last used at
most its lifetime before it expires. -/
def Stems (crypto : Crypto) (visits : List (ℤ × Visit)) (hash : String)
    (session : MemorySession) : Prop :=
  ∃ before loginMs login after, visits = before ++ (loginMs, login) :: after ∧
    login.GivesSession crypto hash session.user ∧ (∀ v ∈ after, ¬v.2.Ends crypto hash) ∧
    ∃ usedMs,
      (usedMs = loginMs ∨ ∃ v ∈ after, v.1 = usedMs ∧ v.2.uses crypto hash = true) ∧
      session.expiresAtMs = usedMs + sessionTtlMs

theorem Stems.append {visits : List (ℤ × Visit)} {hash : String} {session : MemorySession}
    (h : Stems crypto visits hash session) {v : ℤ × Visit} (hv : ¬v.2.Ends crypto hash) :
    Stems crypto (visits ++ [v]) hash session := by
  obtain ⟨before, loginMs, login, after, rfl, hlogin, hafter, usedMs, hused, hexpires⟩ := h
  refine ⟨before, loginMs, login, after ++ [v], by simp, hlogin, fun w hw => ?_, usedMs, ?_,
    hexpires⟩
  · rcases List.mem_append.mp hw with hw | hw
    · exact hafter w hw
    · rwa [List.mem_singleton.mp hw]
  · rcases hused with hused | ⟨w, hw, hused⟩
    · exact .inl hused
    · exact .inr ⟨w, List.mem_append_left _ hw, hused⟩

theorem Stems.renew {visits : List (ℤ × Visit)} {hash : String} {old session : MemorySession}
    (h : Stems crypto visits hash old) {v : ℤ × Visit} (hv : ¬v.2.Ends crypto hash)
    (hused : v.2.uses crypto hash = true) (huser : old.user = session.user)
    (hexpires : session.expiresAtMs = v.1 + sessionTtlMs) :
    Stems crypto (visits ++ [v]) hash session := by
  obtain ⟨before, loginMs, login, after, rfl, hlogin, hafter, _⟩ := h
  refine ⟨before, loginMs, login, after ++ [v], by simp, huser ▸ hlogin, fun w hw => ?_, v.1,
    .inr ⟨v, by simp, rfl, hused⟩, hexpires⟩
  rcases List.mem_append.mp hw with hw | hw
  · exact hafter w hw
  · rwa [List.mem_singleton.mp hw]

theorem stems_of_found (visits : List (ℤ × Visit)) {hash : String} {session : MemorySession}
    (h : afterVisits crypto visits hash = some session) : Stems crypto visits hash session := by
  induction visits using List.reverseRecOn generalizing session with
  | nil => cases h
  | append_singleton visits v ih =>
    rw [afterVisits_append] at h
    cases visit_leaves h with
    | login given expires =>
      exact ⟨visits, v.1, v.2, [], by simp, given, by simp, v.1, .inl rfl, expires⟩
    | kept notEnded found => exact (ih found).append notEnded
    | renewed notEnded used old found user expires =>
      exact (ih found).renew notEnded used user expires

theorem resolve_eq_some {sessions : Memory} {token : String} {nowMs : ℤ} {user : AuthUser} :
    (sessions.resolve crypto token nowMs).1 = some user ↔
      ∃ session, sessions (crypto.tokenHash token) = some session ∧ session.user = user ∧
        nowMs < session.expiresAtMs := by
  cases hfound : sessions (crypto.tokenHash token) with
  | none => simp [Memory.resolve, hfound]
  | some session =>
    by_cases hexpired : session.expiresAtMs ≤ nowMs
    · simp [Memory.resolve, hfound, hexpired]
    · simp only [Memory.resolve, hfound, hexpired, if_false]
      split <;> simp [lt_of_not_ge hexpired]

/-- The read-only server answers a request only for the user whom a login found under that name and
password in the database of the moment, if the session has not been ended since and was used within
its lifetime. -/
theorem answers_from_login (visits : List (ℤ × Visit)) {nowMs : ℤ} {token : String}
    {user : AuthUser}
    (h : (visit crypto (afterVisits crypto visits) nowMs (.resolve token)).1 = some user) :
    ∃ before loginMs login after, visits = before ++ (loginMs, login) :: after ∧
      login.GivesSession crypto (crypto.tokenHash token) user ∧
      (∀ v ∈ after, ¬v.2.Ends crypto (crypto.tokenHash token)) ∧
      ∃ usedMs, (usedMs = loginMs ∨
          ∃ v ∈ after, v.1 = usedMs ∧ v.2.uses crypto (crypto.tokenHash token) = true) ∧
        nowMs < usedMs + sessionTtlMs := by
  obtain ⟨session, hfound, rfl, hnow⟩ := resolve_eq_some.mp h
  obtain ⟨before, loginMs, login, after, hvisits, hlogin, hafter, usedMs, hused, hexpires⟩ :=
    stems_of_found visits hfound
  exact ⟨before, loginMs, login, after, hvisits, hlogin, hafter, usedMs, hused,
    hexpires ▸ hnow⟩

/-- ann logs in with her old password, and four days later her token answers for her. -/
theorem answers_from_ann :
    ∃ before loginMs login after,
      [(0, Visit.login (.sample .admin .user .user) "ann" "old-password" "aa")] =
        before ++ (loginMs, login) :: after ∧
      login.GivesSession Store.sampleCrypto (Store.sampleCrypto.tokenHash "aa")
        ⟨1, "ann", .admin⟩ ∧
      (∀ v ∈ after, ¬v.2.Ends Store.sampleCrypto (Store.sampleCrypto.tokenHash "aa")) ∧
      ∃ usedMs, (usedMs = loginMs ∨ ∃ v ∈ after, v.1 = usedMs ∧
          v.2.uses Store.sampleCrypto (Store.sampleCrypto.tokenHash "aa") = true) ∧
        345600000 < usedMs + sessionTtlMs :=
  answers_from_login [(0, .login (.sample .admin .user .user) "ann" "old-password" "aa")] (by rfl)

/-! ## A used session is kept -/

/-- From a use of the session at `lastMs` on nothing ends it, and no visit comes as much as half its
lifetime after the last use. -/
def Kept (crypto : Crypto) (hash : String) : ℤ → List (ℤ × Visit) → Prop
  | _, [] => True
  | lastMs, (nowMs, v) :: visits =>
    ¬v.Ends crypto hash ∧ nowMs < lastMs + sessionRenewBelowMs ∧
      Kept crypto hash (if v.uses crypto hash then nowMs else lastMs) visits

/-- The session is there and holds for half its lifetime after the last use. -/
def Holds (sessions : Memory) (hash : String) (user : AuthUser) (lastMs : ℤ) : Prop :=
  ∃ expiresAtMs, sessions hash = some ⟨user, expiresAtMs⟩ ∧
    lastMs + sessionRenewBelowMs ≤ expiresAtMs

theorem Holds.visit {sessions : Memory} {hash : String} {user : AuthUser} {lastMs nowMs : ℤ}
    {v : Visit} (h : Holds sessions hash user lastMs) (hends : ¬v.Ends crypto hash)
    (hnow : nowMs < lastMs + sessionRenewBelowMs) :
    Holds (visit crypto sessions nowMs v).2 hash user
      (if v.uses crypto hash then nowMs else lastMs) := by
  obtain ⟨expiresAtMs, hfound, hlast⟩ := h
  cases v with
  | login db username password token =>
    refine ⟨expiresAtMs, ?_, by simpa [Visit.uses] using hlast⟩
    cases hverify : db.verifyPassword crypto username password with
    | none => simpa [Auth.visit, hverify] using hfound
    | some found =>
      have hne : hash ≠ crypto.tokenHash token := fun heq =>
        hends ⟨heq.symm, by simp [hverify]⟩
      simp only [Auth.visit, hverify, Memory.create, if_neg hne, hfound]
      simp [show nowMs < expiresAtMs by omega]
  | resolve token =>
    by_cases htoken : crypto.tokenHash token = hash
    · subst htoken
      have hlive : ¬expiresAtMs ≤ nowMs := by omega
      by_cases hrenew : expiresAtMs - nowMs < sessionRenewBelowMs
      · refine ⟨nowMs + sessionTtlMs, ?_, ?_⟩
        · simp [Auth.visit, Memory.resolve, hfound, hlive, hrenew]
        · simp [Visit.uses, sessionRenewBelowMs, sessionTtlMs, sessionRenewBelowSecs,
            sessionTtlSecs]
      · refine ⟨expiresAtMs, ?_, ?_⟩
        · simp [Auth.visit, Memory.resolve, hfound, hlive, hrenew]
        · simp only [Visit.uses, decide_true, if_true]
          omega
    · refine ⟨expiresAtMs, ?_, by simpa [Visit.uses, htoken] using hlast⟩
      simp only [Auth.visit, Memory.resolve]
      have hne : hash ≠ crypto.tokenHash token := fun heq => htoken heq.symm
      split
      · exact hfound
      · split
        · simpa [Memory.revoke, hne] using hfound
        · split
          · simpa [hne] using hfound
          · exact hfound
  | revoke token =>
    have hne : hash ≠ crypto.tokenHash token := fun heq => hends heq.symm
    exact ⟨expiresAtMs, by simpa [Auth.visit, Memory.revoke, hne] using hfound,
      by simpa [Visit.uses] using hlast⟩

theorem Holds.visits {hash : String} {user : AuthUser} {sessions : Memory} {lastMs nowMs : ℤ}
    {token : String} (h : Holds sessions hash user lastMs) (visits : List (ℤ × Visit))
    (htoken : crypto.tokenHash token = hash)
    (hkept : Kept crypto hash lastMs (visits ++ [(nowMs, .resolve token)])) :
    ((visits.foldl (fun sessions (nowMs, v) => (Auth.visit crypto sessions nowMs v).2)
      sessions).resolve crypto token nowMs).1 = some user := by
  induction visits generalizing sessions lastMs with
  | nil =>
    obtain ⟨expiresAtMs, hfound, hlast⟩ := h
    have hnow := hkept.2.1
    exact resolve_eq_some.mpr ⟨_, htoken ▸ hfound, rfl, by simp only; omega⟩
  | cons v visits ih =>
    obtain ⟨hends, hnow, hrest⟩ := hkept
    exact ih (h.visit hends hnow) hrest

/-- A session on the read-only server is kept for the user whom the login found as long as every
visit comes within half its lifetime of the session's last use, whatever the database holds by
then. -/
theorem session_kept (before after : List (ℤ × Visit)) {loginMs nowMs : ℤ} {login : Visit}
    {token : String} {user : AuthUser}
    (hlogin : login.GivesSession crypto (crypto.tokenHash token) user)
    (hkept : Kept crypto (crypto.tokenHash token) loginMs (after ++ [(nowMs, .resolve token)])) :
    (visit crypto (afterVisits crypto (before ++ (loginMs, login) :: after)) nowMs
      (.resolve token)).1 = some user := by
  cases login with
  | login db username password token' =>
    obtain ⟨hhash, written, hverify⟩ := hlogin
    rw [afterVisits, List.foldl_append, List.foldl_cons]
    suffices h : Holds (visit crypto (afterVisits crypto before) loginMs
        (.login db username password token')).2 (crypto.tokenHash token) user loginMs from
      h.visits after rfl hkept
    refine ⟨loginMs + sessionTtlMs, ?_, ?_⟩
    · simp [visit, hverify, Memory.create, hhash]
    · simp [sessionRenewBelowMs, sessionTtlMs, sessionRenewBelowSecs, sessionTtlSecs]
  | resolve token' => cases hlogin
  | revoke token' => cases hlogin

/-- ann is answered for a week after her visit of the sixth day. -/
theorem session_kept_ann :
    (visit Store.sampleCrypto (afterVisits Store.sampleCrypto
      [(0, .login (.sample .admin .user .user) "ann" "old-password" "aa"),
        (518400000, .resolve "aa")]) 1036800000 (.resolve "aa")).1 =
      some ⟨1, "ann", .admin⟩ :=
  session_kept [] [(518400000, .resolve "aa")] ⟨rfl, 0, by rfl⟩
    (by simp [Kept, Visit.Ends, Visit.uses, sessionRenewBelowMs, sessionRenewBelowSecs])

end

end CryptoNav.Auth
