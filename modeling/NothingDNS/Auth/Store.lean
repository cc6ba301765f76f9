import Mathlib.Algebra.GroupWithZero.Nat
import Mathlib.Data.List.AList
import NothingDNS.Lib.DottedName
/-!
# Users and session tokens (`internal/auth/auth.go`)

Times are nanoseconds. `UpdatedAt` is text in RFC 3339: it keeps whole seconds (`wholeSecond`), and
text that does not parse is `none`. The HMAC is the parameter `sign`; random octets, the outcome of
hashing a password and of writing a file come with the call. The file is encrypted and authenticated,
so it is modelled by the tokens it holds. A map is walked in the order of its list.
-/

namespace NothingDNS.Auth

inductive Role where
  | admin
  | operator
  | viewer
deriving DecidableEq

/-- `ValidateRole`: the roles there are. -/
def Role.ofText (t : Text) : Option Role :=
  if t = "admin".toList then some .admin
  else if t = "operator".toList then some .operator
  else if t = "viewer".toList then some .viewer
  else none

structure User where
  username : Text
  hash : List UInt8
  role : Role
  updatedAt : Option Nat
deriving DecidableEq

structure Token where
  token : Text
  signature : Text
  username : Text
  role : Role
  expiresAt : Int
  createdAt : Nat
deriving DecidableEq

abbrev UserMap := AList fun _ : Text => User
abbrev TokenMap := AList fun _ : Text => Token
abbrev SessionMap := AList fun _ : Text => Nat

structure Store where
  users : UserMap
  tokens : TokenMap
  /-- 0 is no limit. -/
  maxSessionsPerUser : Nat
  activeSessions : SessionMap

inductive AuthError where
  | userNotFound
  | userExists
  | emptyUsername
  | controlCharacter
  | passwordEmpty
  | passwordShort
  | passwordLong
  | invalidRole
  | lastAdmin
  | hashing
  | noRandom
  | invalidToken
  | invalidSignature
  | expired
  | emptyToken
  | keyMismatch
  | emptySignature
deriving DecidableEq

def second : Nat := 1000000000

def wholeSecond (t : Nat) : Nat := t / second * second

def octetLength (t : Text) : Nat := (t.map Char.utf8Size).sum

/-- From `auth.go:510-522`. -/
def validatePassword (password : Text) : Option AuthError :=
  if password = [] then some .passwordEmpty
  else if octetLength password < 8 then some .passwordShort
  else if 128 < octetLength password then some .passwordLong
  else none

def isControl (c : Char) : Bool := c.toNat < 32 ∨ 127 ≤ c.toNat ∧ c.toNat < 160

/-- From `auth.go:526-536`. -/
def validateUsername (username : Text) : Option AuthError :=
  if Text.trimSpace username = [] then some .emptyUsername
  else if username.any isControl then some .controlCharacter
  else none

def keepOnly (p : Text → Token → Bool) (m : TokenMap) : TokenMap :=
  m.entries.foldl (fun kept e => if p e.1 e.2 then kept.insert e.1 e.2 else kept) ∅

def sessions (s : Store) (username : Text) : Nat := (s.activeSessions.lookup username).getD 0

def dropSession (s : Store) (username : Text) : Store :=
  if 0 < sessions s username then
    { s with activeSessions := s.activeSessions.insert username (sessions s username - 1) }
  else s

/-- The token with the least creation time among those of the user, the first of them. -/
def oldestToken (username : Text) (m : TokenMap) : Option Token :=
  (m.entries.filterMap fun e => if e.2.username = username then some e.2 else none).foldl
    (fun oldest t => match oldest with
      | none => some t
      | some o => if t.createdAt < o.createdAt then some t else some o) none

/-- At the limit the oldest session of the user is removed; the new one is counted. -/
def makeRoom (s : Store) (username : Text) : Store :=
  if s.maxSessionsPerUser = 0 then s
  else
    let s' := if s.maxSessionsPerUser ≤ sessions s username then
        match oldestToken username s.tokens with
        | none => s
        | some t => dropSession { s with tokens := s.tokens.erase t.token } username
      else s
    { s' with activeSessions := s'.activeSessions.insert username (sessions s' username + 1) }

section Signed

variable (sign : Text → Text)

/-- `random` is the text of 32 random octets, if there are any. -/
def generateToken (s : Store) (username : Text) (expiry : Int) (random : Option Text) (now : Nat) :
    Store × Except AuthError Token :=
  match s.users.lookup username with
  | none => (s, .error .userNotFound)
  | some user =>
    let s := makeRoom s username
    match random with
    | none => (s, .error .noRandom)
    | some token =>
      let t : Token := ⟨token, sign token, username, user.role, now + expiry, now⟩
      ({ s with tokens := s.tokens.insert token t }, .ok t)

def tokenExpiredAt (t : Token) (now : Nat) : Bool := t.expiresAt ≤ now

def verifyTokenSignature (token signature : Text) : Bool := sign token = signature

/-- From `auth.go:414-466`. -/
def validateToken (s : Store) (token : Text) (now : Nat) : Store × Except AuthError User :=
  match s.tokens.lookup token with
  | none => (s, .error .invalidToken)
  | some t =>
    if verifyTokenSignature sign token t.signature = false then (s, .error .invalidSignature)
    else if tokenExpiredAt t now then
      (dropSession { s with tokens := s.tokens.erase token } t.username, .error .expired)
    else match s.users.lookup t.username with
      | none => (s, .error .userNotFound)
      | some user => (s, .ok user)

end Signed

/-- From `auth.go:479-488`. -/
def revokeToken (s : Store) (token : Text) : Store :=
  let s' := match s.tokens.lookup token with
    | none => s
    | some t => if 0 < s.maxSessionsPerUser then dropSession s t.username else s
  { s' with tokens := s'.tokens.erase token }

/-- From `auth.go:491-501`. -/
def revokeAllTokens (s : Store) (username : Text) : Store :=
  { s with
    tokens := keepOnly (fun _ t => t.username ≠ username) s.tokens
    activeSessions := s.activeSessions.erase username }

/-- `hash` is what hashing the password gave. -/
def createUser (s : Store) (username password role : Text) (hash : Option (List UInt8)) (now : Nat) :
    Store × Except AuthError User :=
  match validateUsername username with
  | some err => (s, .error err)
  | none => match validatePassword password with
    | some err => (s, .error err)
    | none => match Role.ofText role with
      | none => (s, .error .invalidRole)
      | some role =>
        if s.users.lookup username ≠ none then (s, .error .userExists)
        else match hash with
          | none => (s, .error .hashing)
          | some hash =>
            let user : User := ⟨username, hash, role, some (wholeSecond now)⟩
            ({ s with users := s.users.insert username user }, .ok user)

def adminUserCount (s : Store) : Nat := s.users.entries.countP fun e => e.2.role = .admin

def updateChecks (s : Store) (username password role : Text) : Except AuthError (User × Role) :=
  match if password = [] then none else validatePassword password with
  | some err => .error err
  | none =>
    if role ≠ [] ∧ Role.ofText role = none then .error .invalidRole
    else match s.users.lookup username with
      | none => .error .userNotFound
      | some user =>
        let role' := (Role.ofText role).getD user.role
        if role ≠ [] ∧ user.role = .admin ∧ role' ≠ .admin ∧ adminUserCount s ≤ 1 then .error .lastAdmin
        else .ok (user, role')

/-- From `auth.go:586-633`. -/
def updateUser (s : Store) (username password role : Text) (hash : Option (List UInt8)) (now : Nat) :
    Store × Except AuthError User :=
  match updateChecks s username password role with
  | .error err => (s, .error err)
  | .ok (user, role') =>
    match if password = [] then some user.hash else hash with
    | none => (s, .error .hashing)
    | some hash =>
      let user' : User := { user with hash := hash, role := role', updatedAt := some (wholeSecond now) }
      let s' := { s with users := s.users.insert username user' }
      (if password ≠ [] ∨ role' ≠ user.role then revokeAllTokens s' username else s', .ok user')

def deleteUser (s : Store) (username : Text) : Store × Except AuthError Unit :=
  if s.users.lookup username = none then (s, .error .userNotFound)
  else (revokeAllTokens { s with users := s.users.erase username } username, .ok ())

/-! ## The token file -/

section Loading

variable (sign : Text → Text)

def checkLoaded (key : Text) (t : Token) : Option AuthError :=
  if key = [] ∨ t.token = [] then some .emptyToken
  else if key ≠ t.token then some .keyMismatch
  else match validateUsername t.username with
    | some err => some err
    | none =>
      if t.signature = [] then some .emptySignature
      else if verifyTokenSignature sign t.token t.signature = false then some .invalidSignature
      else none

def keepsLoaded (users : UserMap) (now : Nat) (t : Token) : Bool :=
  match users.lookup t.username with
  | none => false
  | some user => !(user.updatedAt.any fun u => decide (t.createdAt < u)) && !tokenExpiredAt t now

def countSessions (m : TokenMap) : SessionMap :=
  m.entries.foldl (fun counts e => counts.insert e.2.username ((counts.lookup e.2.username).getD 0 + 1)) ∅

/-- From `auth.go:1042-1084`. -/
def prepareLoadedTokens (users : UserMap) (now : Nat) (file : TokenMap) : Except AuthError TokenMap :=
  match file.entries.findSome? fun e => checkLoaded sign e.1 e.2 with
  | some err => .error err
  | none => .ok (keepOnly (fun _ t => keepsLoaded users now t) file)

/-- From `auth.go:961-1017`. -/
def loadTokensSigned (s : Store) (file : Option TokenMap) (now : Nat) : Store :=
  match file with
  | none => s
  | some file => match prepareLoadedTokens sign s.users now file with
    | .error _ => s
    | .ok tokens => { s with tokens := tokens, activeSessions := countSessions tokens }

/-- A new process with the users of the old one. -/
def restart (s : Store) (file : Option TokenMap) (now : Nat) : Store :=
  loadTokensSigned sign { s with tokens := ∅, activeSessions := ∅ } file now

end Loading

end NothingDNS.Auth
