import CryptoNav.Auth.Requests
import CryptoNav.History.Fields
import CryptoNav.Lib.Json

/-!
# Rejected requests

The handlers of the administrators and `change_password`, each run to its response with no other
request in between. They check a request in parts, and some of them write between two checks; a
response of the 4xx kind says that nothing was done.

Interleavings are left out on purpose: with another request in between, what a request leaves is
no longer its own doing, and `Auth.Admins` and `Auth.Passwords` are about that. Answers of the
5xx kind are left out too; a statement that fails after another has been executed leaves what
the first one wrote, and nothing promises otherwise. Bodies that are not read at all, those the
framework refuses to parse, never reach a handler. Positions are `f64` here, since the checks
compare them.
-/

set_option autoImplicit false

namespace CryptoNav.Auth

open CryptoNav.Lib

/-! ## The tables -/

structure StrategyEnv where
  slug : String
  enabled : Bool
  stMs : ℤ

structure StrategySnapshot where
  strategySlug : String
  snapshotTsMs : ℤ
  fetchedAtMs : ℤ
  sourceUrl : String
  payload : Json

structure InitialSnapshot where
  strategySlug : String
  snapshotTsMs : ℤ
  selectedAt : ℕ

structure AlignmentStatus where
  strategySlug : String
  automaticEnabled : Bool
  automaticUpdatedAt : ℕ

structure Database where
  store : Store
  /-- The identity that the next user gets. -/
  nextUserId : ℕ := 1
  strategyEnvs : Table StrategyEnv.slug := .empty
  /-- `nav_user_strategy_grants` -/
  grants : List (ℕ × String) := []
  strategySnapshots : List StrategySnapshot := []
  initialSnapshots : Table InitialSnapshot.strategySlug := .empty
  alignmentStatus : Table AlignmentStatus.strategySlug := .empty

inductive Response where
  | reply (reply : Reply)
  /-- `AdminUserResponse` of a user without grants -/
  | created (userId : ℕ) (username : String) (role : Role)
  | alignmentAutomatic (strategySlug : String) (automaticEnabled : Bool)
  | snapshotSummary (strategySlug : String) (snapshotTsMs fetchedAtMs : ℤ) (sourceUrl : String)

def Response.status : Response → ℕ
  | .reply (.error status _) => status
  | .reply .noContent => 204
  | .reply _ => 200
  | .created .. => 201
  | .alignmentAutomatic .. => 200
  | .snapshotSummary .. => 200

def Response.isClientError (response : Response) : Prop :=
  400 ≤ response.status ∧ response.status < 500

/-! ## The handlers -/

/-- Run the statements from `phase` on, `n` at most. -/
def finish (crypto : Crypto) (random : ℕ → String) : ℕ → Store × Phase → Store × Phase
  | 0, state => state
  | n + 1, (s, phase) => finish crypto random n (statement crypto (random n) s phase)

/-- No handler has more than six statements. -/
def respond (crypto : Crypto) (random : ℕ → String) (db : Database) (phase : Phase) :
    Database × Response :=
  match finish crypto random 6 (db.store, phase) with
  | (store, .returned reply) => ({ db with store }, .reply reply)
  | (store, _) => ({ db with store }, .reply internalError)

def validUsername (username : String) : Bool :=
  username ≠ "" && username.utf8ByteSize ≤ 64 &&
    username.toList.all fun c => c.isLower || c.isDigit || ['_', '.', '-'].contains c

/-- `INSERT INTO nav_users .. ON CONFLICT (username) DO NOTHING RETURNING user_id` -/
def insertUser (crypto : Crypto) (salt : String) (db : Database) (username password : String)
    (role : Role) : Except String (Database × Option ℕ) :=
  let taken := { db with nextUserId := db.nextUserId + 1 }
  if db.store.users.rows.any (·.username = username) then .ok (taken, none)
  else if (db.store.users.get db.nextUserId).isSome then .error "duplicate key"
  else
    let row : User :=
      { userId := db.nextUserId, username, passwordHash := crypto.crypt password salt, role }
    .ok ({ taken with store := { db.store with users := db.store.users.put row } },
      some db.nextUserId)

def createNavUser (crypto : Crypto) (salt : String) (db : Database) (user : AuthUser)
    (username password role : String) : Database × Response :=
  if !user.isAdmin then (db, .reply (.error 403 "admin access required"))
  else
    let username := History.Raw.trim username
    if !validUsername username then
      (db, .reply (badRequest "username must be 1-64 characters of a-z, 0-9, '_', '.', '-'"))
    else if !validPassword password then
      (db, .reply (badRequest "password must be 8-128 characters"))
    else match Role.parse role with
      | none => (db, .reply (badRequest "role must be 'admin' or 'user'"))
      | some role => match insertUser crypto salt db username password role with
        | .error _ => (db, .reply internalError)
        | .ok (db, some userId) => (db, .created userId username role)
        | .ok (db, none) => (db, .reply (.error 409 "username already exists"))

def updateNavUser (crypto : Crypto) (random : ℕ → String) (db : Database) (user : AuthUser)
    (token : String) (userId : ℕ) (role password : Option String) : Database × Response :=
  respond crypto random db ((Handler.updateNavUser userId role password).start user token)

/-- The grants go with their user. -/
def deleteNavUser (crypto : Crypto) (random : ℕ → String) (db : Database) (user : AuthUser)
    (token : String) (userId : ℕ) : Database × Response :=
  match respond crypto random db ((Handler.deleteNavUser userId).start user token) with
  | (db, .reply .noContent) =>
    ({ db with grants := db.grants.filter (·.1 ≠ userId) }, .reply .noContent)
  | other => other

/-- A slug named twice breaks the primary key, and the transaction is rolled back. -/
def setNavUserStrategies (db : Database) (user : AuthUser) (userId : ℕ)
    (strategySlugs : List String) : Database × Response :=
  if !user.isAdmin then (db, .reply (.error 403 "admin access required"))
  else match db.store.loadNavUser userId with
    | none => (db, .reply (notFound "user not found"))
    | some target =>
      if target.role ≠ .user then
        (db, .reply (badRequest "strategy grants only apply to regular users"))
      else
        let slugs := (strategySlugs.map History.Raw.trim).filter (· ≠ "")
        if slugs.any fun slug => !(db.strategyEnvs.get slug).any (·.enabled) then
          (db, .reply (badRequest "unknown strategy slug"))
        else if ¬slugs.Nodup then (db, .reply internalError)
        else
          let kept := db.grants.filter (·.1 ≠ target.userId)
          ({ db with grants := kept ++ slugs.map fun slug => (target.userId, slug) },
            .reply .noContent)

def changePassword (crypto : Crypto) (random : ℕ → String) (db : Database) (user : AuthUser)
    (token currentPassword newPassword : String) : Database × Response :=
  respond crypto random db ((Handler.changePassword currentPassword newPassword).start user token)

/-! ### The initial snapshot -/

structure InitialPosition where
  symbol : String
  spotQuantity : Float
  futuresQuantity : Float
  markPrice : Float

structure ParsedInitialPositions where
  positions : List InitialPosition := []
  skippedCount : ℕ := 0

def asStr : Json → Option String
  | .string text => some text
  | _ => none

def asF64 : Json → Option Float
  | .number number => parseFloat number.text.toList
  | _ => none

/-- `f64::EPSILON` -/
def epsilon : Float := Float.ofScientific 2220446049250313 true 31

def quantity (row : Json) (field : String) : Float := ((row.get field).bind asF64).getD 0

/-- The quantities and notionals of a row that have a price. -/
def priced (row : Json) (spotQuantity futuresQuantity : Float) : Float × Float :=
  [(spotQuantity, "open_usdt"), (futuresQuantity, "hedge_usdt")].foldl
    (fun (pricedQuantity, pricedNotional) (size, field) =>
      let notional := quantity row field
      if epsilon < size.abs ∧ notional.isFinite ∧ 0 < notional.abs then
        (pricedQuantity + size.abs, pricedNotional + notional.abs)
      else (pricedQuantity, pricedNotional)) (0, 0)

def parseRow (parsed : ParsedInitialPositions) (row : Json) :
    Except String ParsedInitialPositions :=
  if row.get "is_total" = some (.bool true) then .ok parsed
  else match (row.get "asset").bind asStr with
    | none => .ok parsed
    | some asset =>
      let spotQuantity := quantity row "open_qty"
      let futuresQuantity := quantity row "hedge_qty"
      if !spotQuantity.isFinite || !futuresQuantity.isFinite then
        .error "snapshot contains a non-finite position quantity"
      else if spotQuantity.abs ≤ epsilon ∧ futuresQuantity.abs ≤ epsilon then .ok parsed
      else
        let (pricedQuantity, pricedNotional) := priced row spotQuantity futuresQuantity
        if pricedQuantity ≤ epsilon ∨ pricedNotional ≤ epsilon then
          .ok { parsed with skippedCount := parsed.skippedCount + 1 }
        else
          let asset := History.Raw.uppercase (History.Raw.trim asset)
          let symbol := if asset.endsWith "USDT" then asset else asset ++ "USDT"
          .ok { parsed with positions := parsed.positions ++
            [{ symbol, spotQuantity, futuresQuantity,
               markPrice := pricedNotional / pricedQuantity }] }

def asArray : Json → Option (List Json)
  | .array items => some items
  | _ => none

def parseInitialPositions (payload : Json) : Except String ParsedInitialPositions :=
  match (payload.get "entries").bind asArray with
  | none => .error "snapshot entries are missing"
  | some entries =>
    let exposure := entries.find? fun entry =>
      (entry.get "type").bind asStr = some "pre_trade_exposure"
    match ((exposure.bind (·.get "entry")).bind (·.get "rows")).bind asArray with
    | none => .error "snapshot pre_trade_exposure rows are missing"
    | some rows => rows.foldlM parseRow {}

def loadSnapshot (db : Database) (slug : String) (snapshotTsMs : ℤ) : Option StrategySnapshot :=
  db.strategySnapshots.find? fun row =>
    row.strategySlug = slug ∧ row.snapshotTsMs = snapshotTsMs

/-- The table's check on `snapshot_ts_ms` fails the statement. -/
def setInitialSnapshot (db : Database) (user : AuthUser) (slug : String) (snapshotTsMs : ℤ) :
    Database × Response :=
  if !user.isAdmin then (db, .reply (.error 403 "admin access required"))
  else match (db.strategyEnvs.get slug).filter (·.enabled) with
    | none => (db, .reply (notFound "strategy not found"))
    | some strategy =>
      if snapshotTsMs < strategy.stMs then
        (db, .reply (badRequest "initial snapshot must not be earlier than strategy stMs"))
      else match loadSnapshot db slug snapshotTsMs with
        | none => (db, .reply (notFound "snapshot not found"))
        | some snapshot => match parseInitialPositions snapshot.payload with
          | .error _ => (db, .reply internalError)
          | .ok parsed =>
            if parsed.positions = [] then
              (db, .reply
                (.error 422 "snapshot does not contain priced spot/swap positions"))
            else if snapshotTsMs ≤ 0 then (db, .reply internalError)
            else
              let row : InitialSnapshot :=
                { strategySlug := slug, snapshotTsMs, selectedAt := db.store.now }
              ({ db with initialSnapshots := db.initialSnapshots.put row },
                .snapshotSummary snapshot.strategySlug snapshot.snapshotTsMs
                  snapshot.fetchedAtMs snapshot.sourceUrl)

def setAlignmentAutomatic (db : Database) (user : AuthUser) (slug : String) (enabled : Bool) :
    Database × Response :=
  if !user.isAdmin then (db, .reply (.error 403 "admin access required"))
  else match db.alignmentStatus.get slug with
    | none => (db, .reply (notFound "alignment strategy not found"))
    | some row =>
      let row := { row with automaticEnabled := enabled, automaticUpdatedAt := db.store.now }
      ({ db with alignmentStatus := db.alignmentStatus.put row },
        .alignmentAutomatic row.strategySlug enabled)

/-! ## All requests -/

inductive Request where
  | createNavUser (username password role : String)
  | updateNavUser (userId : ℕ) (role password : Option String)
  | deleteNavUser (userId : ℕ)
  | setNavUserStrategies (userId : ℕ) (strategySlugs : List String)
  | changePassword (currentPassword newPassword : String)
  | setInitialSnapshot (slug : String) (snapshotTsMs : ℤ)
  | setAlignmentAutomatic (slug : String) (enabled : Bool)

/-- A request of `user`, whose session has `token`; `random` are the salts drawn. -/
def handle (crypto : Crypto) (random : ℕ → String) (db : Database) (user : AuthUser)
    (token : String) : Request → Database × Response
  | .createNavUser username password role =>
    createNavUser crypto (random 0) db user username password role
  | .updateNavUser userId role password =>
    updateNavUser crypto random db user token userId role password
  | .deleteNavUser userId => deleteNavUser crypto random db user token userId
  | .setNavUserStrategies userId strategySlugs =>
    setNavUserStrategies db user userId strategySlugs
  | .changePassword currentPassword newPassword =>
    changePassword crypto random db user token currentPassword newPassword
  | .setInitialSnapshot slug snapshotTsMs => setInitialSnapshot db user slug snapshotTsMs
  | .setAlignmentAutomatic slug enabled => setAlignmentAutomatic db user slug enabled

/-! ## What a rejected request leaves -/

/-- Users with their passwords and roles, sessions, grants and selected snapshots are the same.
    Which user gets the next identity is left out, since a refused insert may use one up. -/
structure Unchanged (db db' : Database) : Prop where
  users : db'.store.users = db.store.users
  sessions : db'.store.sessions = db.store.sessions
  grants : db'.grants = db.grants
  initialSnapshots : db'.initialSnapshots = db.initialSnapshots

theorem Unchanged.refl (db : Database) : Unchanged db db := ⟨rfl, rfl, rfl, rfl⟩

@[simp] theorem finish_returned (crypto : Crypto) (random : ℕ → String) (n : ℕ) (s : Store)
    (reply : Reply) : finish crypto random n (s, .returned reply) = (s, .returned reply) := by
  induction n with
  | zero => rfl
  | succ n ih => exact ih

/-- A rejection that is answered at once. -/
theorem respond_returned (crypto : Crypto) (random : ℕ → String) (db : Database) (reply : Reply) :
    respond crypto random db (.returned reply) = (db, .reply reply) := by
  simp [respond]

/-- What `handle` promises of one request. Answers of any other kind promise nothing. -/
def RejectedUnchanged (db : Database) (outcome : Database × Response) : Prop :=
  outcome.2.isClientError → Unchanged db outcome.1

theorem rejectedUnchanged_self (db : Database) (response : Response) :
    RejectedUnchanged db (db, response) := fun _ => Unchanged.refl db

theorem rejectedUnchanged_of_success {db db' : Database} {response : Response}
    (h : response.status < 400) : RejectedUnchanged db (db', response) := by
  rintro ⟨h400, -⟩
  exact absurd h (Nat.not_lt.mpr h400)

theorem createNavUser_rejected (crypto : Crypto) (salt : String) (db : Database) (user : AuthUser)
    (username password role : String) :
    RejectedUnchanged db (createNavUser crypto salt db user username password role) := by
  simp only [createNavUser]
  split
  · exact rejectedUnchanged_self db _
  · split
    · exact rejectedUnchanged_self db _
    · split
      · exact rejectedUnchanged_self db _
      · split
        · exact rejectedUnchanged_self db _
        · split
          · exact rejectedUnchanged_self db _
          · exact rejectedUnchanged_of_success (show 201 < 400 by decide)
          · rename_i db' hinsert
            -- the conflict only used up an identity
            simp only [insertUser] at hinsert
            split at hinsert
            · cases hinsert
              exact fun _ => ⟨rfl, rfl, rfl, rfl⟩
            · split at hinsert <;> cases hinsert

theorem setNavUserStrategies_rejected (db : Database) (user : AuthUser) (userId : ℕ)
    (strategySlugs : List String) :
    RejectedUnchanged db (setNavUserStrategies db user userId strategySlugs) := by
  simp only [setNavUserStrategies]
  split
  · exact rejectedUnchanged_self db _
  · split
    · exact rejectedUnchanged_self db _
    · split
      · exact rejectedUnchanged_self db _
      · split
        · exact rejectedUnchanged_self db _
        · split
          · exact rejectedUnchanged_self db _
          · exact rejectedUnchanged_of_success (show 204 < 400 by decide)

theorem setInitialSnapshot_rejected (db : Database) (user : AuthUser) (slug : String)
    (snapshotTsMs : ℤ) : RejectedUnchanged db (setInitialSnapshot db user slug snapshotTsMs) := by
  simp only [setInitialSnapshot]
  split
  · exact rejectedUnchanged_self db _
  · split
    · exact rejectedUnchanged_self db _
    · split
      · exact rejectedUnchanged_self db _
      · split
        · exact rejectedUnchanged_self db _
        · split
          · exact rejectedUnchanged_self db _
          · split
            · exact rejectedUnchanged_self db _
            · split
              · exact rejectedUnchanged_self db _
              · exact rejectedUnchanged_of_success (show 200 < 400 by decide)

theorem setAlignmentAutomatic_rejected (db : Database) (user : AuthUser) (slug : String)
    (enabled : Bool) : RejectedUnchanged db (setAlignmentAutomatic db user slug enabled) := by
  simp only [setAlignmentAutomatic]
  split
  · exact rejectedUnchanged_self db _
  · split
    · exact rejectedUnchanged_self db _
    · exact rejectedUnchanged_of_success (show 200 < 400 by decide)

theorem changePassword_rejected (crypto : Crypto) (random : ℕ → String) (db : Database)
    (user : AuthUser) (token currentPassword newPassword : String) :
    RejectedUnchanged db
      (changePassword crypto random db user token currentPassword newPassword) := by
  simp only [changePassword, Handler.start]
  split
  · rcases hverified : db.store.verifyPassword crypto user.username currentPassword with _ | _
    · simp only [respond, finish, statement, hverified]
      exact rejectedUnchanged_self db _
    · simp only [respond, finish, statement, hverified]
      exact rejectedUnchanged_of_success (show 204 < 400 by decide)
  · rw [respond_returned]
    exact rejectedUnchanged_self db _

/-- The statements of `delete_nav_user`; only the last one writes. -/
theorem respond_delete (crypto : Crypto) (random : ℕ → String) (db : Database) (user : AuthUser)
    (userId : ℕ) :
    RejectedUnchanged db
      (respond crypto random db (ensureAdmin user (.loadingDelete user userId))) := by
  simp only [ensureAdmin]
  split
  · rcases hload : db.store.loadNavUser userId with _ | target
    · simp only [respond, finish, statement, hload]
      exact rejectedUnchanged_self db _
    · by_cases hown : target.userId = user.userId
      · simp only [respond, finish, statement, hload, deleteTarget, if_pos hown]
        exact rejectedUnchanged_self db _
      · by_cases hadmin : target.role = .admin
        · by_cases hlast : db.store.adminCount ≤ 1
          · simp only [respond, finish, statement, hload, deleteTarget, if_neg hown,
              if_pos hadmin, if_pos hlast]
            exact rejectedUnchanged_self db _
          · simp only [respond, finish, statement, hload, deleteTarget, if_neg hown,
              if_pos hadmin, if_neg hlast]
            exact rejectedUnchanged_of_success (show 204 < 400 by decide)
        · simp only [respond, finish, statement, hload, deleteTarget, if_neg hown, if_neg hadmin]
          exact rejectedUnchanged_of_success (show 204 < 400 by decide)
  · rw [respond_returned]
    exact rejectedUnchanged_self db _

theorem deleteNavUser_rejected (crypto : Crypto) (random : ℕ → String) (db : Database)
    (user : AuthUser) (token : String) (userId : ℕ) :
    RejectedUnchanged db (deleteNavUser crypto random db user token userId) := by
  simp only [deleteNavUser, Handler.start]
  split
  · exact rejectedUnchanged_of_success (show 204 < 400 by decide)
  · exact respond_delete crypto random db user userId

/-! ## The role and the password of one request -/

/-- The password part of `update_nav_user` writes nothing before its check. -/
theorem finish_resetPassword (crypto : Crypto) (random : ℕ → String) (s : Store) (target : ℕ)
    (password : Option String) {n : ℕ} (hn : 2 ≤ n) :
    ∃ s' reply, finish crypto random n (s, resetPassword target password) =
        (s', .returned reply) ∧
      ((∃ text, password = some text ∧ ¬validPassword text = true) ∧
          reply = badRequest "password must be 8-128 characters" ∧ s' = s ∨
        ¬(∃ text, password = some text ∧ ¬validPassword text = true) ∧ reply = .noContent) := by
  rcases password with _ | text
  · exact ⟨s, .noContent, finish_returned .., .inr ⟨fun ⟨_, h, _⟩ => (nomatch h), rfl⟩⟩
  · by_cases hvalid : validPassword text = true
    · obtain ⟨k, rfl⟩ : ∃ k, n = k + 2 := ⟨n - 2, by omega⟩
      simp only [resetPassword, if_pos hvalid, finish, statement, finish_returned]
      refine ⟨_, _, rfl, .inr ⟨?_, rfl⟩⟩
      rintro ⟨_, h, hinvalid⟩
      cases h
      exact hinvalid hvalid
    · simp only [resetPassword, if_neg hvalid, finish_returned]
      exact ⟨_, _, rfl, .inl ⟨⟨text, rfl, hvalid⟩, rfl, rfl⟩⟩

/-- The role part of the request passes its checks. What is refused is taking the admin role from
    oneself or from the last administrator. -/
structure RoleAccepted (s : Store) (user : AuthUser) (target : User) (text : String)
    (role : Role) : Prop where
  parsed : Role.parse text = some role
  notOwn : ¬(target.userId = user.userId ∧ role ≠ .admin)
  notLast : ¬(target.role = .admin ∧ role ≠ .admin ∧ s.adminCount ≤ 1)

/-- Writing the role, and ending the sessions of one who is no administrator, changes something. -/
def Writes (s : Store) (target : User) (role : Role) : Prop :=
  role ≠ target.role ∨
    (role ≠ .admin ∧ ∃ session ∈ s.sessions.rows,
      session.userId = target.userId ∧ session.tokenHash ≠ "")

/-- A request to change the role and the password of a user, whose role is accepted and whose
    password is not. -/
def RoleBeforeBadPassword (db : Database) (user : AuthUser) : Request → Prop
  | .updateNavUser userId (some text) (some password) =>
    user.isAdmin = true ∧ ¬validPassword password = true ∧
      ∃ target role, db.store.loadNavUser userId = some target ∧
        RoleAccepted db.store user target text role ∧ Writes db.store target role
  | _ => False

/-- The store when the role part is done. -/
def roleWritten (crypto : Crypto) (s : Store) (target : ℕ) (role : Role) : Store :=
  if role ≠ .admin then (s.setRole target role).revokeUserSessions crypto target none
  else s.setRole target role

/-- Once its role is accepted, the request goes on with the password from the written store. -/
theorem finish_roleAccepted (crypto : Crypto) (random : ℕ → String) {s : Store} {user : AuthUser}
    {target : User} {text : String} {role : Role} (h : RoleAccepted s user target text role)
    (password : Option String) :
    ∃ n, 2 ≤ n ∧ finish crypto random 5 (s, updateTarget user target (some text) password) =
      finish crypto random n
        (roleWritten crypto s target.userId role, resetPassword target.userId password) := by
  simp only [updateTarget, h.parsed, if_neg h.notOwn]
  by_cases hdemoted : target.role = .admin ∧ role ≠ .admin
  · have hmore : ¬s.adminCount ≤ 1 := fun hlast => h.notLast ⟨hdemoted.1, hdemoted.2, hlast⟩
    refine ⟨2, le_rfl, ?_⟩
    simp only [if_pos hdemoted, finish, statement, if_neg hmore, roleWritten, if_pos hdemoted.2]
  · by_cases hadmin : role = .admin
    · refine ⟨4, by omega, ?_⟩
      simp only [if_neg hdemoted, finish, statement, roleWritten, if_neg (not_not.mpr hadmin)]
    · refine ⟨3, by omega, ?_⟩
      simp only [if_neg hdemoted, finish, statement, roleWritten, if_pos hadmin]

/-- A role that is not accepted ends the request. -/
theorem finish_roleRefused (crypto : Crypto) (random : ℕ → String) {s : Store} {user : AuthUser}
    {target : User} {text : String} (h : ∀ role, ¬RoleAccepted s user target text role)
    (password : Option String) :
    ∃ reply, finish crypto random 5 (s, updateTarget user target (some text) password) =
      (s, .returned reply) := by
  simp only [updateTarget]
  rcases hparse : Role.parse text with _ | role
  · exact ⟨_, finish_returned ..⟩
  · by_cases hown : target.userId = user.userId ∧ role ≠ .admin
    · simp only [if_pos hown]
      exact ⟨_, finish_returned ..⟩
    · simp only [if_neg hown]
      have hlast : target.role = .admin ∧ role ≠ .admin ∧ s.adminCount ≤ 1 := by
        by_contra hnot
        exact h role ⟨hparse, hown, hnot⟩
      simp only [if_pos (show target.role = .admin ∧ role ≠ .admin from ⟨hlast.1, hlast.2.1⟩),
        finish, statement, if_pos hlast.2.2]
      exact ⟨_, rfl⟩

theorem setRole_users {s : Store} {target : User} (hload : s.loadNavUser target.userId = some target)
    (role : Role) : (s.setRole target.userId role).users = s.users ↔ role = target.role := by
  constructor
  · intro h
    have hget := Table.get_modify s.users target.userId (fun row => { row with role })
      (fun _ => rfl) target.userId
    simp only [Store.setRole] at h
    rw [h, if_pos rfl, show s.users.get target.userId = some target from hload] at hget
    exact (congrArg User.role (Option.some_injective _ hget)).symm
  · rintro rfl
    refine Table.ext fun k => (Table.get_modify s.users target.userId
      (fun row => { row with role := target.role }) (fun _ => rfl) k).trans ?_
    split
    · rename_i hk
      rw [hk, show s.users.get target.userId = some target from hload]
      rfl
    · rfl

theorem revokeUserSessions_sessions (crypto : Crypto) (s : Store) (userId : ℕ) :
    (s.revokeUserSessions crypto userId none).sessions = s.sessions ↔
      ∀ session ∈ s.sessions.rows, session.userId = userId → session.tokenHash = "" := by
  have hrows : (s.revokeUserSessions crypto userId none).sessions = s.sessions ↔
      s.sessions.rows.filter (fun session => session.userId ≠ userId ||
        session.tokenHash = "") = s.sessions.rows := by
    constructor
    · exact congrArg Table.rows
    · intro h
      exact Table.ext fun k => by rw [Table.get, Table.get, ← h]; rfl
  rw [hrows, List.filter_eq_self]
  refine forall₂_congr fun session _ => ?_
  by_cases hsame : session.userId = userId <;> simp [hsame]

/-- What the role part leaves is what was there exactly when it writes nothing. -/
theorem roleWritten_same (crypto : Crypto) {s : Store} {target : User}
    (hload : s.loadNavUser target.userId = some target) (role : Role) :
    ((roleWritten crypto s target.userId role).users = s.users ∧
      (roleWritten crypto s target.userId role).sessions = s.sessions) ↔
        ¬Writes s target role := by
  have husers : (roleWritten crypto s target.userId role).users =
      (s.setRole target.userId role).users := by
    unfold roleWritten
    split <;> rfl
  rw [husers, setRole_users hload, Writes, not_or, not_ne_iff]
  refine and_congr_right fun _ => ?_
  unfold roleWritten
  by_cases hadmin : role = .admin
  · simp [hadmin, Store.setRole]
  · rw [if_pos hadmin]
    refine (revokeUserSessions_sessions crypto (s.setRole target.userId role)
      target.userId).trans ?_
    simp [hadmin, Store.setRole]

theorem respond_finished {crypto : Crypto} {random : ℕ → String} {db : Database} {phase : Phase}
    {s : Store} {reply : Reply}
    (h : finish crypto random 6 (db.store, phase) = (s, .returned reply)) :
    respond crypto random db phase = ({ db with store := s }, .reply reply) := by
  simp only [respond, h]

theorem updateNavUser_rejected_iff (crypto : Crypto) (random : ℕ → String) (db : Database)
    (user : AuthUser) (token : String) (userId : ℕ) (role password : Option String) :
    RejectedUnchanged db (updateNavUser crypto random db user token userId role password) ↔
      ¬RoleBeforeBadPassword db user (.updateNavUser userId role password) := by
  simp only [updateNavUser, Handler.start, ensureAdmin]
  by_cases hadmin : user.isAdmin = true
  · rw [if_pos hadmin]
    rcases hload : db.store.loadNavUser userId with _ | target
    · have hfinish : finish crypto random 6 (db.store, .loading user userId role password) =
          (db.store, .returned (notFound "user not found")) := by
        simp only [finish, statement, hload]
      rw [respond_finished hfinish]
      refine iff_of_true (rejectedUnchanged_self db _) ?_
      rcases role with _ | text <;> rcases password with _ | password <;>
        simp [RoleBeforeBadPassword, hload]
    · have hkey : target.userId = userId := Table.key_of_get hload
      have hstart : finish crypto random 6 (db.store, .loading user userId role password) =
          finish crypto random 5 (db.store, updateTarget user target role password) := by
        rw [finish]
        simp only [statement, hload]
      rcases role with _ | text
      · -- the password alone
        obtain ⟨s', reply, hfinish, hreply⟩ := finish_resetPassword crypto random db.store
          target.userId password (show 2 ≤ 5 by decide)
        rw [respond_finished (hstart.trans hfinish)]
        refine iff_of_true ?_ (by cases password <;> exact id)
        rcases hreply with ⟨-, rfl, rfl⟩ | ⟨-, rfl⟩
        · exact rejectedUnchanged_self db _
        · exact rejectedUnchanged_of_success (show 204 < 400 by decide)
      · by_cases haccepted : ∃ role, RoleAccepted db.store user target text role
        · obtain ⟨role, haccepted⟩ := haccepted
          obtain ⟨n, hn, hrole⟩ := finish_roleAccepted crypto random haccepted password
          obtain ⟨s', reply, hfinish, hreply⟩ := finish_resetPassword crypto random
            (roleWritten crypto db.store target.userId role) target.userId password hn
          rw [respond_finished (hstart.trans (hrole.trans hfinish))]
          have hsame := roleWritten_same crypto (show db.store.loadNavUser target.userId =
            some target by rw [hkey]; exact hload) role
          rcases hreply with ⟨⟨password, rfl, hinvalid⟩, rfl, rfl⟩ | ⟨hvalid, rfl⟩
          · have hunchanged : RejectedUnchanged db ({ db with
                store := roleWritten crypto db.store target.userId role },
                .reply (badRequest "password must be 8-128 characters")) ↔
                ¬Writes db.store target role := by
              rw [← hsame]
              constructor
              · intro h
                have h := h ⟨le_rfl, show 400 < 500 by decide⟩
                exact ⟨h.users, h.sessions⟩
              · exact fun h _ => ⟨h.1, h.2, rfl, rfl⟩
            rw [hunchanged, not_iff_not]
            constructor
            · exact fun h => ⟨hadmin, hinvalid, target, role, hload, haccepted, h⟩
            · rintro ⟨-, -, target', role', hload', haccepted', h⟩
              obtain rfl := Option.some_injective _ (hload.symm.trans hload')
              obtain rfl := Option.some_injective _
                (haccepted.parsed.symm.trans haccepted'.parsed)
              exact h
          · refine iff_of_true (rejectedUnchanged_of_success (show 204 < 400 by decide)) ?_
            rcases password with _ | password
            · exact id
            · rintro ⟨-, hinvalid, -⟩
              exact hvalid ⟨password, rfl, hinvalid⟩
        · obtain ⟨reply, hfinish⟩ := finish_roleRefused crypto random
            (fun role h => haccepted ⟨role, h⟩) password
          rw [respond_finished (hstart.trans hfinish)]
          refine iff_of_true (rejectedUnchanged_self db _) ?_
          rcases password with _ | password
          · exact id
          · rintro ⟨-, -, target', role', hload', haccepted', -⟩
            obtain rfl := Option.some_injective _ (hload.symm.trans hload')
            exact haccepted ⟨role', haccepted'⟩
  · rw [if_neg hadmin, respond_returned]
    refine iff_of_true (rejectedUnchanged_self db _) ?_
    rcases role with _ | text <;> rcases password with _ | password <;>
      simp [RoleBeforeBadPassword, hadmin]

end CryptoNav.Auth
