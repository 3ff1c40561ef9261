import GaussMatrix.Http.Provenance

/-!
# The tokens of logins

No request logs out, so that the number of live tokens only grows: a login gets a token that no earlier
one got, and the token authenticates its user from then on.
-/

namespace GaussMatrix.Http.Ingress

open Library Util Api Api.Events StateRes Svc Fed RoomService SessionStore

/-- The token of a login: of the user, and of the number of live tokens that the login found. -/
def tokenAt (hash : SessionHash) (login : UserId × Nat) : Str :=
  "gmt_".toList ++ hex16 (hash login.1.asStr login.2)

/-- The user that a login body has the credentials of. -/
def bodyLogin (env : ServerEnv) (s : Data) (body : Option Str) : Option UserId := do
  let parsed ← (Json.parse (← body)).toOption
  if (parsed.get "type").bind Json.asStr ≠ some "m.login.password".toList then none
  else
    let name ← loginUser parsed
    let password ← (parsed.get "password").bind Json.asStr
    let grant ← (passwordLogin env.sessionHash env.accountHash env.serverName s name password).1
    return grant.userId

/-- The user that a request logs in. -/
def loggedIn (env : ServerEnv) (s : Data) (req : Request) : Option UserId :=
  match resolve req.method req.target with
  | .found m =>
      if (m.endpoint.method, m.endpoint.path) = loginKey then bodyLogin env s req.body else none
  | _ => none

/-- The logins of a run: the user, and the number of live tokens that the login found. -/
def loginsOver (env : ServerEnv) (s : Data) (xs : List (Request × Clock)) : List (UserId × Nat) :=
  (trace (requestStep env) s xs).filterMap fun x =>
    (loggedIn env x.1 x.2.1).map fun user => (user, x.1.count .accessTokens)

section

variable {env : ServerEnv} {s : Data} {body : Option Str} {user : UserId} {x : Request × Clock}
  {xs : List (Request × Clock)} {hash : SessionHash} {logins : List (UserId × Nat)}

/-! ## What a request does to the tokens -/

-- A login logs in the user of its credentials, and none without.
theorem serveLogin_eq (env : ServerEnv) (s : Data) (body : Option Str) :
    (bodyLogin env s body = none ∧ (serveLogin env s body).2 = s) ∨
    ∃ user, bodyLogin env s body = some user ∧
      serveLogin env s body = (.jsonOk (loginResponse ⟨user, mint env.sessionHash s user⟩),
        (create env.sessionHash s user).2) := by
  unfold bodyLogin serveLogin
  cases body with
  | none => exact .inl ⟨rfl, rfl⟩
  | some body =>
      dsimp only [Option.bind_eq_bind, Option.bind_some]
      cases hparse : Json.parse body with
      | error e => exact .inl ⟨rfl, rfl⟩
      | ok parsed =>
          dsimp only [Except.toOption, Option.bind_some]
          by_cases htype : (parsed.get "type").bind Json.asStr ≠ some "m.login.password".toList
          · rw [if_pos htype, if_pos htype]
            exact .inl ⟨rfl, rfl⟩
          · rw [if_neg htype, if_neg htype]
            cases loginUser parsed with
            | none => exact .inl ⟨rfl, rfl⟩
            | some name =>
                cases (parsed.get "password").bind Json.asStr with
                | none => exact .inl ⟨rfl, rfl⟩
                | some password =>
                    simp only [Option.bind_some]
                    rcases passwordLogin_cases env.sessionHash env.accountHash env.serverName s name
                      password with hnone | ⟨user, -, hsome⟩
                    · rw [hnone]
                      exact .inl ⟨rfl, rfl⟩
                    · rw [hsome]
                      exact .inr ⟨user, rfl, rfl⟩

theorem serveLogin_of_bodyLogin (h : bodyLogin env s body = some user) :
    serveLogin env s body = (.jsonOk (loginResponse ⟨user, mint env.sessionHash s user⟩),
      (create env.sessionHash s user).2) := by
  rcases serveLogin_eq env s body with ⟨hnone, -⟩ | ⟨caller, hsome, hserve⟩
  · rw [hnone] at h
    cases h
  · rw [hsome] at h
    obtain rfl := Option.some.inj h
    exact hserve

theorem serveLogin_of_no_login (h : bodyLogin env s body = none) : (serveLogin env s body).2 = s := by
  rcases serveLogin_eq env s body with ⟨-, hsame⟩ | ⟨caller, hsome, -⟩
  · exact hsame
  · rw [hsome] at h
    cases h

theorem handle_of_loggedIn (h : loggedIn env s x.1 = some user) :
    handle env s x.1 x.2 = (.jsonOk (loginResponse ⟨user, mint env.sessionHash s user⟩),
      (create env.sessionHash s user).2) := by
  unfold loggedIn at h
  split at h
  · rename_i m hresolve
    split at h
    · rename_i hkey
      rw [handle_login ⟨m, hresolve, hkey⟩, serveLogin_of_bodyLogin h]
    · cases h
  · cases h

theorem tokens_of_not_loggedIn (h : loggedIn env s x.1 = none) :
    requestStep env s x .accessTokens = s .accessTokens := by
  unfold requestStep
  by_cases hlogin : IsLogin x.1
  · rw [handle_login hlogin]
    obtain ⟨m, hresolve, hkey⟩ := hlogin
    simp only [loggedIn, hresolve, if_pos hkey] at h
    rw [serveLogin_of_no_login h]
  · exact (handle_served hlogin).data_of_ne (by decide)

/-! ## Runs -/

/-- What the store of tokens is after some logins. -/
structure Sessions (hash : SessionHash) (logins : List (UserId × Nat)) (s : Data) : Prop where
  count : s.count .accessTokens = logins.length
  earlier : ∀ login ∈ logins, login.2 < logins.length
  live : ∀ token value, s.get .accessTokens token = some value ↔
    ∃ login ∈ logins, tokenAt hash login = token ∧ value = .text login.1.asStr
  nodup : (logins.map (tokenAt hash)).Nodup

theorem Sessions.congr {t : Data} (h : Sessions hash logins s) (hsame : t .accessTokens = s .accessTokens) :
    Sessions hash logins t := by
  have hcount : t.count .accessTokens = s.count .accessTokens := congrArg SortedMap.size hsame
  have hget : ∀ token, t.get .accessTokens token = s.get .accessTokens token := by
    intro token
    rw [Store.get, hsame, Store.get]
  refine ⟨hcount.trans h.count, h.earlier, ?_, h.nodup⟩
  intro token value
  rw [hget]
  exact h.live token value

/-- A login finds more live tokens than every earlier one, so that its token is new. -/
theorem Sessions.create (h : Sessions hash logins s)
    (hapart : ∀ login ∈ logins, hash login.1.asStr login.2 = hash user.asStr logins.length →
      login = (user, logins.length)) :
    Sessions hash (logins ++ [(user, s.count .accessTokens)]) (create hash s user).2 := by
  have hmint : mint hash s user = tokenAt hash (user, logins.length) := by
    rw [mint, h.count]
    rfl
  have hnew : tokenAt hash (user, logins.length) ∉ logins.map (tokenAt hash) := by
    intro hmem
    obtain ⟨login, hlogin, htoken⟩ := List.mem_map.mp hmem
    have heq := hapart login hlogin (hex16_injective (List.append_cancel_left htoken))
    have hlt := h.earlier login hlogin
    rw [heq] at hlt
    exact lt_irrefl _ hlt
  have hfree : s.get .accessTokens (mint hash s user) = none := by
    cases hget : s.get .accessTokens (mint hash s user) with
    | none => rfl
    | some value =>
        obtain ⟨login, hlogin, htoken, -⟩ := (h.live _ _).mp hget
        rw [hmint] at htoken
        exact absurd (List.mem_map.mpr ⟨login, hlogin, htoken⟩) hnew
  rw [h.count]
  constructor
  case count =>
    rw [List.length_append, List.length_singleton, ← h.count]
    show ((s.put .accessTokens (mint hash s user) _) .accessTokens).size = _
    rw [Store.put_self]
    exact SortedMap.size_insert_of_get_none _ hfree _
  case earlier =>
    intro login hlogin
    rw [List.length_append, List.length_singleton]
    rcases List.mem_append.mp hlogin with hlogin | hlogin
    · exact Nat.lt_succ_of_lt (h.earlier login hlogin)
    · rw [List.mem_singleton.mp hlogin]
      exact Nat.lt_succ_self _
  case live =>
    intro token value
    show (s.put .accessTokens (mint hash s user) (.text user.asStr)).get .accessTokens token =
      some value ↔ _
    rw [Store.get_put, hmint]
    constructor
    · intro hget
      split at hget
      · rename_i htoken
        exact ⟨_, List.mem_append_right _ (List.mem_singleton_self _), htoken.symm,
          (Option.some.inj hget).symm⟩
      · obtain ⟨login, hlogin, hrest⟩ := (h.live token value).mp hget
        exact ⟨login, List.mem_append_left _ hlogin, hrest⟩
    · rintro ⟨login, hlogin, htoken, rfl⟩
      rcases List.mem_append.mp hlogin with hlogin | hlogin
      · have hne : token ≠ tokenAt hash (user, logins.length) := by
          rintro rfl
          exact hnew (List.mem_map.mpr ⟨login, hlogin, htoken⟩)
        rw [if_neg hne]
        exact (h.live token _).mpr ⟨login, hlogin, htoken, rfl⟩
      · obtain rfl := List.mem_singleton.mp hlogin
        rw [if_pos htoken.symm]
  case nodup =>
    rw [List.map_append, List.map_singleton, List.nodup_append]
    refine ⟨h.nodup, List.nodup_singleton _, ?_⟩
    rintro token htoken token' htoken' rfl
    rw [List.mem_singleton] at htoken'
    exact hnew (htoken' ▸ htoken)

theorem loginsOver_concat (env : ServerEnv) (s : Data) (xs : List (Request × Clock))
    (x : Request × Clock) :
    loginsOver env s (xs ++ [x]) = loginsOver env s xs ++
      ((loggedIn env (run (requestStep env) s xs) x.1).map fun user =>
        (user, (run (requestStep env) s xs).count .accessTokens)).toList := by
  rw [loginsOver, trace_append, List.filterMap_append, ← loginsOver, trace, trace,
    List.filterMap_cons, List.filterMap_nil]
  cases (loggedIn env (run (requestStep env) s xs) x.1) <;> rfl

/-- The hash tells the logins apart. -/
def Apart (hash : SessionHash) (logins : List (UserId × Nat)) : Prop :=
  ∀ a ∈ logins, ∀ b ∈ logins, hash a.1.asStr a.2 = hash b.1.asStr b.2 → a = b

instance (hash : SessionHash) (logins : List (UserId × Nat)) : Decidable (Apart hash logins) :=
  inferInstanceAs (Decidable (∀ a ∈ logins, ∀ b ∈ logins,
    hash a.1.asStr a.2 = hash b.1.asStr b.2 → a = b))

theorem sessions_run (hempty : s.count .accessTokens = 0)
    (hapart : Apart env.sessionHash (loginsOver env s xs)) :
    Sessions env.sessionHash (loginsOver env s xs) (run (requestStep env) s xs) := by
  induction xs using List.reverseRecOn with
  | nil =>
      have hnone : ∀ token, s.get .accessTokens token = none := by
        intro token
        have hentries : (s .accessTokens).entries = [] := List.eq_nil_of_length_eq_zero hempty
        rw [Store.get, SortedMap.get, hentries]
        rfl
      refine ⟨hempty, by simp [loginsOver, trace], ?_, List.nodup_nil⟩
      intro token value
      rw [run_nil, hnone token]
      simp [loginsOver, trace]
  | append_singleton xs x ih =>
      rw [loginsOver_concat] at hapart ⊢
      have hbefore := ih fun a ha b hb =>
        hapart a (List.mem_append_left _ ha) b (List.mem_append_left _ hb)
      rw [run_append, run_cons, run_nil]
      cases hlogin : loggedIn env (run (requestStep env) s xs) x.1 with
      | none =>
          rw [Option.map_none, Option.toList_none, List.append_nil]
          exact hbefore.congr (tokens_of_not_loggedIn hlogin)
      | some user =>
          rw [hlogin, Option.map_some, Option.toList_some] at hapart
          rw [Option.map_some, Option.toList_some, requestStep, handle_of_loggedIn hlogin]
          apply hbefore.create
          intro login hmem hhash
          have hlast := hapart login (List.mem_append_left _ hmem) _
            (List.mem_append_right _ (List.mem_singleton_self _))
          rw [hbefore.count] at hlast
          exact hlast hhash

end

/-- Over every run of requests on a server without sessions, where the hash tells the logins apart, each
login is answered with a token that no other got, and the tokens that authenticate a user at the end are
those of the user's logins. -/
theorem tokens_are_logins (env : ServerEnv) (s : Data) (hempty : s.count .accessTokens = 0)
    (xs : List (Request × Clock)) (hapart : Apart env.sessionHash (loginsOver env s xs)) :
    (∀ x ∈ trace (requestStep env) s xs, ∀ user, loggedIn env x.1 x.2.1 = some user →
      (handle env x.1 x.2.1 x.2.2).1 = .jsonOk (loginResponse
        ⟨user, tokenAt env.sessionHash (user, x.1.count .accessTokens)⟩)) ∧
    ((loginsOver env s xs).map (tokenAt env.sessionHash)).Nodup ∧
    ∀ token user, userFor (run (requestStep env) s xs) token = some user ↔
      ∃ login ∈ loginsOver env s xs, login.1 = user ∧ tokenAt env.sessionHash login = token := by
  have hrun := sessions_run hempty hapart
  refine ⟨?_, hrun.nodup, ?_⟩
  · intro x hx user huser
    rw [handle_of_loggedIn (x := x.2) huser]
    rfl
  · intro token user
    constructor
    · intro huser
      obtain ⟨text, htext, hparse⟩ := Option.bind_eq_some_iff.mp huser
      obtain ⟨value, hget, hvalue⟩ := Option.bind_eq_some_iff.mp htext
      obtain ⟨login, hlogin, htoken, rfl⟩ := (hrun.live token value).mp hget
      obtain rfl := Option.some.inj hvalue
      rw [UserId.parse_asStr] at hparse
      exact ⟨login, hlogin, Option.some.inj hparse, htoken⟩
    · rintro ⟨login, hlogin, rfl, htoken⟩
      rw [userFor, (hrun.live token _).mpr ⟨login, hlogin, htoken, rfl⟩]
      exact UserId.parse_asStr _

open SampleRequests in
/-- Alice logs in, and her token authenticates her after a second request. -/
theorem tokens_are_logins_created :
    userFor (run (requestStep SampleRequests.env) registered requests) "gmt_0000000000000000" =
      some alice := by
  have hempty : registered.count .accessTokens = 0 := by
    unfold Store.count
    rw [registered_of_ne (by decide)]
    rfl
  have hlogins : loginsOver SampleRequests.env registered requests = [(alice, 0)] := by decide +kernel
  have hapart : Apart SampleRequests.env.sessionHash
      (loginsOver SampleRequests.env registered requests) := by
    rw [hlogins]
    decide
  apply ((tokens_are_logins SampleRequests.env registered hempty requests hapart).2.2 _ _).mpr
  rw [hlogins]
  exact ⟨(alice, 0), List.mem_singleton_self _, rfl, by decide +kernel⟩

end GaussMatrix.Http.Ingress
