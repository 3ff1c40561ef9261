import GaussMatrix.Svc.Server

/-!
# Sessions

An access token is the hash of the user and of the number of live tokens, which a logout lowers.
-/

namespace GaussMatrix.Svc

open Library Util

/-- The standard hash of a user, a domain separator and a count. -/
abbrev SessionHash := Str → Nat → UInt64

namespace SessionStore

def mint (hash : SessionHash) (s : Data) (user : UserId) : Str :=
  "gmt_".toList ++ hex16 (hash user.asStr (s.count .accessTokens))

/-- Mint a token for the user and store it. -/
def create (hash : SessionHash) (s : Data) (user : UserId) : Str × Data :=
  let token := mint hash s user
  (token, s.put .accessTokens token (.text user.asStr))

def revoke (s : Data) (token : Str) : Data := s.delete .accessTokens token

/-- The user that a live token authenticates. -/
def userFor (s : Data) (token : Str) : Option UserId :=
  ((s.get .accessTokens token).bind Record.asText).bind UserId.parse

end SessionStore

open SessionStore

/-- A login or a logout. -/
inductive SessionOp
  | create (user : UserId)
  | revoke (token : Str)

def sessionStep (hash : SessionHash) (s : Data) : SessionOp → Data
  | .create user => (SessionStore.create hash s user).2
  | .revoke token => SessionStore.revoke s token

/-- The logins of a run: the user, and the number of live tokens that the login found. -/
def logins (hash : SessionHash) (s : Data) (ops : List SessionOp) : List (UserId × Nat) :=
  (trace (sessionStep hash) s ops).filterMap fun x =>
    match x.2 with
    | .create user => some (user, x.1.count .accessTokens)
    | .revoke _ => none

/-- The tokens that the logins of a run return. -/
def issued (hash : SessionHash) (s : Data) (ops : List SessionOp) : List Str :=
  (trace (sessionStep hash) s ops).filterMap fun x =>
    match x.2 with
    | .create user => some (SessionStore.create hash x.1 user).1
    | .revoke _ => none

/-- No login returns a token of an earlier one, and an issued token that is revoked authenticates
nobody from then on. -/
structure NeverReissued (hash : SessionHash) (s : Data) (ops : List SessionOp) : Prop where
  nodup : (issued hash s ops).Nodup
  dead : ∀ before after rest token, ops = before ++ .revoke token :: (after ++ rest) →
    token ∈ issued hash s before →
      userFor (run (sessionStep hash) s (before ++ .revoke token :: after)) token = none

section

variable {hash : SessionHash} {s : Data} {ops later : List SessionOp} {token : Str}

theorem hex16_injective : Function.Injective hex16 := by
  intro n m h
  have hvalue : ∀ k : UInt64, ofHexChars (hex16 k) = k.toNat := by
    intro k
    rw [hex16, ofHexChars_replicate_zero, ofHexChars_toDigits]
  apply UInt64.toNat_inj.mp
  rw [← hvalue n, ← hvalue m, h]

theorem issued_eq_map : issued hash s ops =
    (logins hash s ops).map fun login => "gmt_".toList ++ hex16 (hash login.1.asStr login.2) := by
  rw [issued, logins, List.map_filterMap]
  congr
  funext x
  cases x.2 with
  | create user => rfl
  | revoke token => rfl

theorem issued_append (ops later : List SessionOp) : issued hash s (ops ++ later) =
    issued hash s ops ++ issued hash (run (sessionStep hash) s ops) later := by
  rw [issued, trace_append, List.filterMap_append, ← issued, ← issued]

/-- A token that is not live stays so until a login issues it. -/
theorem get_run_of_not_issued (hget : s.get .accessTokens token = none)
    (hnot : token ∉ issued hash s ops) :
    (run (sessionStep hash) s ops).get .accessTokens token = none := by
  induction ops generalizing s with
  | nil => exact hget
  | cons op ops ih =>
      have hsplit : issued hash s (op :: ops) =
          issued hash s [op] ++ issued hash (sessionStep hash s op) ops :=
        issued_append [op] ops
      rw [hsplit, List.mem_append, not_or] at hnot
      rw [run_cons]
      apply ih _ hnot.2
      cases op with
      | create user =>
          have hne : token ≠ mint hash s user :=
            fun heq => hnot.1 (List.mem_singleton.mpr heq)
          show (s.put .accessTokens (mint hash s user) _).get .accessTokens token = none
          rw [Store.get_put, if_neg hne]
          exact hget
      | revoke other =>
          show (s.delete .accessTokens other).get .accessTokens token = none
          rw [Store.get_delete]
          split
          · rfl
          · exact hget

end

/-- Where the hash tells the logins of a run apart, tokens are never reissued exactly when no user
logs in twice at one number of live tokens. -/
theorem never_reissued_iff (hash : SessionHash) (s : Data) (ops : List SessionOp)
    (hinj : ∀ x ∈ logins hash s ops, ∀ y ∈ logins hash s ops,
      hash x.1.asStr x.2 = hash y.1.asStr y.2 → x = y) :
    NeverReissued hash s ops ↔ (logins hash s ops).Nodup := by
  have htokens : (issued hash s ops).Nodup ↔ (logins hash s ops).Nodup := by
    rw [issued_eq_map]
    refine ⟨List.Nodup.of_map _, fun h => ?_⟩
    apply h.map_on
    intro x hx y hy htoken
    exact hinj x hx y hy (hex16_injective (List.append_cancel_left htoken))
  constructor
  · exact fun h => htokens.mp h.nodup
  · intro h
    have hnodup := htokens.mpr h
    refine ⟨hnodup, ?_⟩
    rintro before after rest token rfl hissued
    -- the token was issued before, so nothing after issues it
    have hsplit : issued hash s (before ++ .revoke token :: (after ++ rest)) =
        issued hash s before ++ (issued hash (revoke (run (sessionStep hash) s before) token) after ++
          issued hash (run (sessionStep hash) (revoke (run (sessionStep hash) s before) token) after)
            rest) := by
      rw [issued_append]
      show _ ++ issued hash (revoke (run (sessionStep hash) s before) token) (after ++ rest) = _
      rw [issued_append]
    rw [hsplit, List.nodup_append] at hnodup
    have hnot : token ∉ issued hash (revoke (run (sessionStep hash) s before) token) after := by
      intro hmem
      exact hnodup.2.2 token hissued token (List.mem_append_left _ hmem) rfl
    have hgone : (revoke (run (sessionStep hash) s before) token).get .accessTokens token = none := by
      rw [revoke, Store.get_delete, if_pos rfl]
    rw [run_append, run_cons, userFor]
    show (((run (sessionStep hash) (revoke _ token) after).get .accessTokens token).bind _).bind _ =
      none
    rw [get_run_of_not_issued hgone hnot]
    rfl

namespace SampleLogins

def alice : UserId := ⟨"@a:x", valid_alice⟩
def bob : UserId := ⟨"@bob:x", by decide⟩

def lengthHash : SessionHash := fun user count => UInt64.ofNat (100 * user.length + count)

end SampleLogins

open SampleLogins in
/-- Alice logs in twice and bob once, and all stay. -/
theorem never_reissued_sample :
    NeverReissued lengthHash Store.empty [.create alice, .create bob, .create alice] :=
  (never_reissued_iff lengthHash Store.empty [.create alice, .create bob, .create alice]
    (by decide +kernel)).mpr (by decide +kernel)

open SampleLogins in
/-- After a logout alice gets the token of the session that she left. -/
theorem revoked_token_reissued :
    ¬ ∀ (hash : SessionHash) (s : Data) (ops : List SessionOp),
      (∀ x ∈ logins hash s ops, ∀ y ∈ logins hash s ops,
        hash x.1.asStr x.2 = hash y.1.asStr y.2 → x = y) → NeverReissued hash s ops := by
  intro h
  have hnever := h lengthHash Store.empty
    [.create alice, .revoke (mint lengthHash Store.empty alice), .create alice] (by decide +kernel)
  have hnodup := hnever.nodup
  revert hnodup
  decide +kernel

end GaussMatrix.Svc
