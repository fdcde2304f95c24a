import CryptoNav.Auth.Store

/-!
# Requests

The handlers `auth_login`, `auth_logout`, `auth_me`, `change_password`, `update_nav_user` and
`delete_nav_user`, with the session lookup that precedes all but the first. A request stands
before its next SQL statement; between two statements any other request may run one, and time may
pass. A statement may also fail, which ends its request.

The cookie is left out: a request comes with the token that `session_token` found in it, and a
login ends where its token is returned. The randomness of tokens and salts is an input of the
step, so that every value is possible, a repeated one included. The grants of a user, which a
request may also read, decide what is shown and not who may log in; they are in `Auth.Rejected`.
-/

set_option autoImplicit false

namespace CryptoNav.Auth

open CryptoNav.Lib

inductive Reply where
  | loggedIn (user : AuthUser) (token : String)
  | session (user : AuthUser)
  | noContent
  | error (status : ℕ) (text : String)
  deriving DecidableEq

def badRequest (text : String) : Reply := .error 400 text

def notFound (text : String) : Reply := .error 404 text

def unauthorized : Reply := .error 401 "authentication required"

def internalError : Reply := .error 500 "internal server error"

/-- A handler behind `require_auth`, with its request. -/
inductive Handler where
  | authLogout
  | authMe
  | changePassword (currentPassword newPassword : String)
  | updateNavUser (userId : ℕ) (role password : Option String)
  | deleteNavUser (userId : ℕ)

/-- The statement that comes next. -/
inductive Phase where
  /-- `auth_login` -/
  | verifying (username password : String)
  | generating (user : AuthUser) (verified : ℕ)
  | dropping (user : AuthUser) (verified : ℕ) (token : String)
  | inserting (user : AuthUser) (verified : ℕ) (token : String)
  /-- `require_auth` -/
  | resolving (token : String) (handler : Handler)
  | expiring (token : String)
  | renewing (user : AuthUser) (token : String) (handler : Handler)
  /-- `auth_logout`, `change_password` -/
  | loggingOut (token : String)
  | checking (user : AuthUser) (token currentPassword newPassword : String)
  | changing (user : AuthUser) (token newPassword : String)
  /-- `update_nav_user` -/
  | loading (user : AuthUser) (userId : ℕ) (role password : Option String)
  | counting (target : ℕ) (role : Role) (password : Option String)
  | demoting (target : ℕ) (role : Role) (password : Option String) (counted : Option ℕ)
  | revoking (target : ℕ) (password : Option String)
  | resetting (target : ℕ) (password : String)
  /-- `delete_nav_user` -/
  | loadingDelete (user : AuthUser) (userId : ℕ)
  | countingDelete (target : ℕ)
  | deleting (target : ℕ) (counted : Option ℕ)
  /-- the end of a password change or reset -/
  | completing (userId written : ℕ) (keep : Option String)
  | returned (reply : Reply)

/-! ## What the handlers do between statements -/

def ensureAdmin (user : AuthUser) (phase : Phase) : Phase :=
  if user.isAdmin then phase else .returned (.error 403 "admin access required")

/-- A handler once its user is known. -/
def Handler.start (user : AuthUser) (token : String) : Handler → Phase
  | .authLogout => .loggingOut token
  | .authMe => .returned (.session user)
  | .changePassword currentPassword newPassword =>
    if validPassword newPassword then .checking user token currentPassword newPassword
    else .returned (badRequest "password must be 8-128 characters")
  | .updateNavUser userId role password => ensureAdmin user (.loading user userId role password)
  | .deleteNavUser userId => ensureAdmin user (.loadingDelete user userId)

/-- The password part of `update_nav_user`. -/
def resetPassword (target : ℕ) : Option String → Phase
  | none => .returned .noContent
  | some password =>
    if validPassword password then .resetting target password
    else .returned (badRequest "password must be 8-128 characters")

/-- `update_nav_user` with its target. -/
def updateTarget (user : AuthUser) (target : User) (role password : Option String) : Phase :=
  match role with
  | none => resetPassword target.userId password
  | some text => match Role.parse text with
    | none => .returned (badRequest "role must be 'admin' or 'user'")
    | some role =>
      if target.userId = user.userId ∧ role ≠ .admin then
        .returned (badRequest "cannot change your own role")
      else if target.role = .admin ∧ role ≠ .admin then .counting target.userId role password
      else .demoting target.userId role password none

/-- `delete_nav_user` with its target. -/
def deleteTarget (user : AuthUser) (target : User) : Phase :=
  if target.userId = user.userId then .returned (badRequest "cannot delete your own account")
  else if target.role = .admin then .countingDelete target.userId
  else .deleting target.userId none

/-! ## One statement -/

/-- Run the statement that `phase` stands before. `random` is the token or the salt that the
    database draws. -/
def statement (crypto : Crypto) (random : String) (s : Store) : Phase → Store × Phase
  | .verifying username password => (s, match s.verifyPassword crypto username password with
    | none => .returned (.error 401 "invalid username or password")
    | some (user, verified) => .generating user verified)
  | .generating user verified => (s, .dropping user verified random)
  | .dropping user verified token => (s.dropExpired, .inserting user verified token)
  | .inserting user verified token => match s.insertSession crypto token user.userId verified with
    | none => (s, .returned internalError)
    | some s => (s, .returned (.loggedIn user token))
  | .resolving token handler => (s, match s.selectSession crypto token with
    | none => .returned unauthorized
    | some (session, user) =>
      if session.expiresAt ≤ s.now then .expiring token
      else if session.expiresAt - s.now < micros sessionRenewBelowSecs then
        .renewing user token handler
      else handler.start user token)
  | .expiring token => (s.revoke crypto token, .returned unauthorized)
  | .renewing user token handler => (s.renewSession crypto token, handler.start user token)
  | .loggingOut token => (s.revoke crypto token, .returned .noContent)
  | .checking user token currentPassword newPassword =>
    (s, match s.verifyPassword crypto user.username currentPassword with
    | none => .returned (.error 401 "current password is incorrect")
    | some _ => .changing user token newPassword)
  | .changing user token newPassword =>
    (s.setPassword crypto user.userId newPassword random,
      .completing user.userId (s.updates + 1) (some token))
  | .loading user userId role password => (s, match s.loadNavUser userId with
    | none => .returned (notFound "user not found")
    | some target => updateTarget user target role password)
  | .counting target role password => (s,
    if s.adminCount ≤ 1 then .returned (badRequest "at least one admin account is required")
    else .demoting target role password (some s.removals))
  | .demoting target role password _ => (s.setRole target role,
    if role ≠ .admin then .revoking target password else resetPassword target password)
  | .revoking target password =>
    (s.revokeUserSessions crypto target none, resetPassword target password)
  | .resetting target password => (s.setPassword crypto target password random,
      .completing target (s.updates + 1) none)
  | .loadingDelete user userId => (s, match s.loadNavUser userId with
    | none => .returned (notFound "user not found")
    | some target => deleteTarget user target)
  | .countingDelete target => (s,
    if s.adminCount ≤ 1 then .returned (badRequest "at least one admin account is required")
    else .deleting target (some s.removals))
  | .deleting target _ => (s.deleteUser target, .returned .noContent)
  | .completing userId written keep =>
    ({ s.revokeUserSessions crypto userId keep with
        completed := { userId, written, keep } :: s.completed }, .returned .noContent)
  | .returned reply => (s, .returned reply)

/-! ## The server -/

structure Server where
  store : Store
  requests : List Phase := []

inductive Action where
  | tick (duration : ℕ)
  | login (username password : String)
  /-- `token` is what `session_token` finds in the headers. -/
  | request (token : String) (handler : Handler)
  | statement (request : ℕ) (random : String)
  | fail (request : ℕ)

def Phase.isReturned : Phase → Bool
  | .returned _ => true
  | _ => false

def step (crypto : Crypto) (s : Server) : Action → Except String Server
  | .tick duration => .ok { s with store := { s.store with now := s.store.now + duration } }
  | .login username password =>
    .ok { s with requests := s.requests ++ [.verifying username password] }
  | .request token handler => .ok { s with requests := s.requests ++ [.resolving token handler] }
  | .statement request random =>
    match (s.requests[request]?).filter (!·.isReturned) with
    | none => .error "not enabled"
    | some phase =>
      let (store, phase) := statement crypto random s.store phase
      .ok { store, requests := s.requests.set request phase }
  | .fail request =>
    match (s.requests[request]?).filter (!·.isReturned) with
    | none => .error "not enabled"
    | some _ => .ok { s with requests := s.requests.set request (.returned internalError) }

end CryptoNav.Auth
