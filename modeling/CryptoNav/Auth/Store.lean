import Mathlib.Data.String.Basic
import CryptoNav.Lib.Runs
import CryptoNav.Lib.Table

/-!
# Users and sessions

The tables `nav_users` and `nav_sessions` with the SQL statements of `auth.rs` and `server.rs`,
each of them atomic. The hash functions are those of PostgreSQL and of a library, so they are
parameters. Three fields are not columns: `written` and `verified` say which password update of
the run wrote a hash, and `removals` counts the statements that took an administrator away.

The tables have the columns that a modelled statement reads or writes. Constraints are types
where a type can say them, as for the role, and failing statements where it cannot, as for a
session of a user who is gone. Time is the clock of the database and never the server's: a
session is given its end, is renewed and is compared by the same `CURRENT_TIMESTAMP`.
-/

set_option autoImplicit false

namespace CryptoNav.Auth

open CryptoNav.Lib

inductive Role where
  | admin
  | user
  deriving DecidableEq

def Role.parse : String → Option Role
  | "admin" => some .admin
  | "user" => some .user
  | _ => none

structure AuthUser where
  userId : ℕ
  username : String
  role : Role
  deriving DecidableEq

def AuthUser.isAdmin (user : AuthUser) : Bool := user.role = .admin

/-- `token_hash` and pgcrypto's `crypt`. A hex digest is not empty. -/
structure Crypto where
  tokenHash : String → String
  crypt : String → String → String
  tokenHash_ne : ∀ token, tokenHash token ≠ ""

/-- A row of `nav_users`; the table's check on `role` is the type here. -/
structure User where
  userId : ℕ
  username : String
  passwordHash : String
  role : Role
  written : ℕ := 0

structure Session where
  tokenHash : String
  userId : ℕ
  expiresAt : ℕ
  verified : ℕ := 0

/-- A password change or reset that has deleted the sessions. -/
structure Change where
  userId : ℕ
  written : ℕ
  keep : Option String

structure Store where
  users : Table User.userId
  sessions : Table Session.tokenHash
  /-- `CURRENT_TIMESTAMP`, in microseconds. -/
  now : ℕ
  updates : ℕ := 0
  removals : ℕ := 0
  completed : List Change := []
  deleted : List ℕ := []

def micros (seconds : ℕ) : ℕ := seconds * 1000000

def sessionTtlSecs : ℕ := 14 * 24 * 3600

def sessionRenewBelowSecs : ℕ := 7 * 24 * 3600

/-- `str::len` counts bytes. -/
def validPassword (password : String) : Bool :=
  decide (8 ≤ password.utf8ByteSize) && decide (password.utf8ByteSize ≤ 128)

namespace Store

/-! ## Statements on users -/

def loadNavUser (s : Store) (userId : ℕ) : Option User := s.users.get userId

def adminCount (s : Store) : ℕ := s.users.rows.countP (·.role = .admin)

/-- The user whose password matched, and which update wrote the matched hash. -/
def verifyPassword (crypto : Crypto) (s : Store) (username password : String) :
    Option (AuthUser × ℕ) :=
  (s.users.rows.find? (·.username = username)).bind fun row =>
    if row.passwordHash = crypto.crypt password row.passwordHash then
      some ({ userId := row.userId, username := row.username, role := row.role }, row.written)
    else none

def isAdmin (s : Store) (userId : ℕ) : Bool := (s.users.get userId).any (·.role = .admin)

/-- `UPDATE nav_users SET role = ..` -/
def setRole (s : Store) (userId : ℕ) (role : Role) : Store :=
  { s with
    users := s.users.modify userId fun row => { row with role }
    removals := if s.isAdmin userId && decide (role ≠ .admin) then s.removals + 1 else s.removals }

/-- `UPDATE nav_users SET password_hash = crypt(.., gen_salt(..))` -/
def setPassword (crypto : Crypto) (s : Store) (userId : ℕ) (password salt : String) : Store :=
  { s with
    users := s.users.modify userId fun row =>
      { row with passwordHash := crypto.crypt password salt, written := s.updates + 1 }
    updates := s.updates + 1 }

/-- `DELETE FROM nav_users`; the sessions go with their user. -/
def deleteUser (s : Store) (userId : ℕ) : Store :=
  { s with
    users := s.users.filter (·.userId ≠ userId)
    sessions := s.sessions.filter (·.userId ≠ userId)
    removals := if s.isAdmin userId then s.removals + 1 else s.removals
    deleted := userId :: s.deleted }

/-! ## Statements on sessions -/

/-- The row that `resolve` selects: a session joined with its user. -/
def selectSession (crypto : Crypto) (s : Store) (token : String) : Option (Session × AuthUser) :=
  (s.sessions.get (crypto.tokenHash token)).bind fun session =>
    (s.users.get session.userId).map fun row =>
      (session, { userId := session.userId, username := row.username, role := row.role })

/-- The user whom a `resolve` that selects now returns. -/
def accepts (crypto : Crypto) (s : Store) (token : String) : Option AuthUser :=
  ((s.selectSession crypto token).filter (s.now < ·.1.expiresAt)).map (·.2)

def dropExpired (s : Store) : Store := { s with sessions := s.sessions.filter (s.now < ·.expiresAt) }

def renewSession (crypto : Crypto) (s : Store) (token : String) : Store :=
  { s with sessions := s.sessions.modify (crypto.tokenHash token) fun session =>
      { session with expiresAt := s.now + micros sessionTtlSecs } }

/-- The token is a primary key and the user a foreign one. -/
def insertSession (crypto : Crypto) (s : Store) (token : String) (userId verified : ℕ) :
    Option Store :=
  if (s.sessions.get (crypto.tokenHash token)).isNone && (s.users.get userId).isSome then
    let session : Session :=
      { tokenHash := crypto.tokenHash token, userId, expiresAt := s.now + micros sessionTtlSecs,
        verified }
    some { s with sessions := s.sessions.put session }
  else none

def revoke (crypto : Crypto) (s : Store) (token : String) : Store :=
  { s with sessions := s.sessions.filter (·.tokenHash ≠ crypto.tokenHash token) }

/-- `WHERE user_id = $1 AND token_hash <> COALESCE($2, '')` -/
def revokeUserSessions (crypto : Crypto) (s : Store) (userId : ℕ) (keep : Option String) : Store :=
  { s with sessions := s.sessions.filter fun session =>
      session.userId ≠ userId || session.tokenHash = (keep.map crypto.tokenHash).getD "" }

theorem insertSession_eq_some {crypto : Crypto} {s s' : Store} {token : String}
    {userId verified : ℕ} (h : s.insertSession crypto token userId verified = some s') :
    s' = { s with sessions := (s.sessions.put
      ⟨crypto.tokenHash token, userId, s.now + micros sessionTtlSecs, verified⟩) } := by
  unfold insertSession at h
  split at h
  · exact (Option.some.inj h).symm
  · cases h

/-! ## A sample database -/

/-- The functions on a few tokens and passwords; elsewhere they answer as for the empty token and
    for an unusable hash. -/
def sampleCrypto : Crypto where
  tokenHash
    | "aa" => "961b6dd3ede3cb8ecbaacbd68de040cd78eb2ed5889130cceb4c49268ea4d506"
    | "bb" => "3b64db95cb55c763391c707108489ae18b4112d783300de38e033b4c98c3deaf"
    | "cc" => "355b1bbfc96725cdce8f4a2708fda310a80e6d13315aec4e5eed2a75fe8032ce"
    | _ => "e3b0c44298fc1c149afbf4c8996fb92427ae41e4649b934ca495991b7852b855"
  crypt
    | "old-password", _ => "$2a$10$abcdefghijklmnopqrstuuY7z4Ayv.yHBVV3ZN/Lrk1PU7ipqHf02"
    | "new-password", _ => "$2a$10$abcdefghijklmnopqrstuuDYp3vC5.4bfd9y2Gro.Wjjzd.bVq6.S"
    | _, _ => "*0"
  tokenHash_ne := fun token => by
    split
    · decide
    · decide
    · decide
    · decide

def sampleUser (userId : ℕ) (username : String) (role : Role) : User :=
  { userId, username, passwordHash := sampleCrypto.crypt "old-password" "", role }

def sampleSession (token : String) (userId : ℕ) : Session :=
  { tokenHash := sampleCrypto.tokenHash token, userId, expiresAt := micros sessionTtlSecs }

/-- Three users, the first two with a session each: `aa` and `bb`. -/
def sample (first second third : Role) : Store where
  users := .putAll .empty
    [sampleUser 1 "ann" first, sampleUser 2 "ben" second, sampleUser 3 "cai" third]
  sessions := .putAll .empty [sampleSession "aa" 1, sampleSession "bb" 2]
  now := 0

end Store
end CryptoNav.Auth
