import GaussMatrix.Svc.Sessions

/-!
# Accounts

A password is kept as the hash of the user and the password.  A login compares the hash of what it is
given with the one kept, and mints a session token when they agree.
-/

namespace GaussMatrix.Svc

open Library Util

/-- The standard hash of a user, a domain separator and a password. -/
abbrev AccountHash := Str → Str → UInt64

namespace AccountStore

/-- What is kept of a password. -/
def verifier (hash : AccountHash) (user : UserId) (password : Str) : Str :=
  "v1$".toList ++ hex16 (hash user.asStr password)

/-- Register a user, or reset the password. -/
def register (hash : AccountHash) (s : Data) (user : UserId) (password : Str) : Data :=
  s.put .accounts user.asStr (.text (verifier hash user password))

/-- The user has an account, and the password is the one kept. -/
def verify (hash : AccountHash) (s : Data) (user : UserId) (password : Str) : Bool :=
  (s.get .accounts user.asStr).bind Record.asText = some (verifier hash user password)

end AccountStore

/-- A login name as a user: a full id as it is, and a bare localpart as a user of this server. -/
def fullUserId (serverName name : Str) : Option UserId :=
  if startsWith ['@'] name then UserId.parse name
  else UserId.parse ('@' :: (name ++ ':' :: serverName))

/-- What a login answers with. -/
structure LoginGrant where
  userId : UserId
  accessToken : Str
  deriving DecidableEq

/-- Register an account, or reset its password. -/
def registerAccount (hash : AccountHash) (serverName : Str) (s : Data) (localpart password : Str) :
    Option UserId × Data :=
  match fullUserId serverName localpart with
  | none => (none, s)
  | some user => (some user, AccountStore.register hash s user password)

theorem registerAccount_of_ne {cf : Cf} (hcf : cf ≠ .accounts) (hash : AccountHash) (serverName : Str)
    (s : Data) (localpart password : Str) :
    (registerAccount hash serverName s localpart password).2 cf = s cf := by
  unfold registerAccount
  split
  · rfl
  · exact Store.put_of_ne _ hcf _ _

/-- Log in with a password: the grant, and the data with its token. -/
def passwordLogin (sessionHash : SessionHash) (accountHash : AccountHash) (serverName : Str) (s : Data)
    (name password : Str) : Option LoginGrant × Data :=
  match fullUserId serverName name with
  | none => (none, s)
  | some user =>
      if AccountStore.verify accountHash s user password then
        let (accessToken, s') := SessionStore.create sessionHash s user
        (some { userId := user, accessToken }, s')
      else (none, s)

/-- A name and a password that log the user in. -/
structure Credentials (accountHash : AccountHash) (serverName : Str) (s : Data) (user : UserId)
    (name password : Str) : Prop where
  resolved : fullUserId serverName name = some user
  verified : AccountStore.verify accountHash s user password = true

section

variable {sessionHash : SessionHash} {accountHash : AccountHash} {serverName : Str} {s t : Data}
  {user : UserId} {name password : Str}

/-- What a login does: nothing, or it mints a token for the user whose credentials it was given. -/
theorem passwordLogin_cases (sessionHash : SessionHash) (accountHash : AccountHash)
    (serverName : Str) (s : Data) (name password : Str) :
    passwordLogin sessionHash accountHash serverName s name password = (none, s) ∨
    ∃ user, Credentials accountHash serverName s user name password ∧
      passwordLogin sessionHash accountHash serverName s name password =
        (some ⟨user, SessionStore.mint sessionHash s user⟩,
          s.put .accessTokens (SessionStore.mint sessionHash s user) (.text user.asStr)) := by
  unfold passwordLogin
  split
  · exact .inl rfl
  · rename_i user huser
    split
    · rename_i hverified
      exact .inr ⟨user, ⟨huser, hverified⟩, rfl⟩
    · exact .inl rfl

/-- Who logs in with what depends on the accounts only. -/
theorem Credentials.congr (h : t .accounts = s .accounts)
    (hs : Credentials accountHash serverName s user name password) :
    Credentials accountHash serverName t user name password := by
  refine ⟨hs.resolved, ?_⟩
  have hverified := hs.verified
  unfold AccountStore.verify Store.get at hverified ⊢
  rw [h]
  exact hverified

end

end GaussMatrix.Svc
