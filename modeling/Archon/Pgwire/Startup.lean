import Archon.Pgwire.Message
import Archon.Pgwire.Scram
import Archon.Lib.Trace

/-!
# Archon.Pgwire.Startup

Password messages: `handle_password` and `handle_scram_auth` of
`crates/out-archon-pgwire/src/startup.rs`, dispatched as `run_protocol` and
`PgConnectionTask::handle_password` dispatch them.

A client that follows the protocol is accepted (`scram_complete`); with a
credential store everybody else is accepted as well, by not naming the
mechanism (`noBypass_iff`).
-/

namespace Archon

open ScramExchange

variable {exchange : ScramExchange} {clientData : Text}

/-- The backend messages of the password exchange. -/
inductive AuthReply where
  | authenticationOk
  | authenticationSaslContinue (serverFirst : Text)
  | authenticationSaslFinal (serverFinal : Text)
  | readyForQuery (status : TxnStatus)
  | errorResponse (message code : Text)
  deriving DecidableEq, Repr

structure AuthStore where
  users : Text → Option StoredCredential

/-- The part of a session that authentication looks at. -/
structure AuthSession where
  authStore : Option AuthStore
  scramState : Option ScramExchange

/-- A session bound to a credential store. -/
def AuthSession.withAuthStore (store : AuthStore) : AuthSession := ⟨some store, none⟩

/-- Trust mode: always accepts. -/
def handlePassword : List AuthReply := [.authenticationOk, .readyForQuery .idle]

def authenticationFailed : AuthReply :=
  .errorResponse "password authentication failed".toList "28P01".toList

def scramFailed : AuthReply :=
  .errorResponse "SCRAM authentication failed".toList "28000".toList

/-- The user a client-first message names; the empty text if none. -/
def usernameOf (clientData : Text) : Text :=
  match stripPrefix "n,,n=".toList clientData with
  | some rest => (rest.splitOn ',').headD []
  | none =>
    match splitOnce ",,n=".toList clientData with
    | some (_, rest) => (rest.splitOn ',').headD []
    | none => []

def MECHANISM : Text := "SCRAM-SHA-256".toList

section

variable (H : ScramHash)

/-- `rnd` are the random bytes of the server's nonce. -/
def handleScramAuth (rnd : Bytes) (mechanism clientData : Text) (session : AuthSession) :
    List AuthReply × AuthSession :=
  if mechanism ≠ MECHANISM then (handlePassword, session) else
  match session.authStore with
  | none => (handlePassword, session)
  | some store =>
    if (stripPrefix "c=".toList clientData).isSome then
      match session.scramState with
      | none => ([scramFailed], session)
      | some exchange =>
        let session := { session with scramState := none }
        match exchange.processClientFinal H clientData with
        | .ok serverFinal =>
          ([.authenticationSaslFinal serverFinal, .authenticationOk, .readyForQuery .idle], session)
        | .error _ => ([authenticationFailed], session)
    else
      let username := usernameOf clientData
      match store.users username, !username.isEmpty with
      | some cred, true =>
        match (ScramExchange.new cred).processClientFirst rnd clientData with
        | (.ok serverFirst, exchange) =>
          ([.authenticationSaslContinue serverFirst], { session with scramState := some exchange })
        | (.error _, _) => ([scramFailed], session)
      | _, _ => ([authenticationFailed], session)

/-- The dispatch of a `Password` message. -/
def dispatchPassword (rnd : Bytes) (password : Text) (session : AuthSession) :
    List AuthReply × AuthSession :=
  if (stripPrefix MECHANISM password).isSome then
    match splitOnce [' '] password with
    | some (mechanism, clientData) => handleScramAuth H rnd mechanism clientData session
    | none => (handlePassword, session)
  else (handlePassword, session)

end

/-- A message of the mechanism. -/
def scramMessage (clientData : Text) : Text := MECHANISM ++ ' ' :: clientData

/-! ## What is dispatched where -/

/-- What is no message of the mechanism is trusted. -/
theorem dispatchPassword_other (H : ScramHash) (rnd : Bytes) {password : Text}
    (h : ∀ clientData, password ≠ scramMessage clientData) (session : AuthSession) :
    dispatchPassword H rnd password session = (handlePassword, session) := by
  unfold dispatchPassword
  split
  · split
    · next mechanism clientData hsplit =>
      have hmechanism : mechanism ≠ MECHANISM := by
        rintro rfl
        have hwhole := eq_of_splitOnce hsplit
        exact h clientData hwhole
      simp [handleScramAuth, hmechanism]
    · rfl
  · rfl

/-! ## Completeness -/

/-- The messages of a client that knows the password, and what it is
answered. -/
structure ScramDialogue where
  clientFirst : Text
  serverFirst : Text
  clientFinal : Text
  serverFinal : Text

/-- The dialogue for these inputs: the client takes the nonce from the
server-first message, and signs what has been said. -/
def scramDialogue (H : ScramHash) (password salt : Bytes) (iter : Nat) (user clientNonce : Text)
    (rnd : Bytes) : ScramDialogue :=
  let salted := pbkdf2HmacSha256 H password salt iter
  let nonce := clientNonce ++ randomNonce rnd
  let bare := "n=".toList ++ user ++ ",r=".toList ++ clientNonce
  let serverFirst := "r=".toList ++ nonce ++ ",s=".toList ++ base64Encode salt ++ ",i=".toList ++
    (Nat.repr iter).toList
  let withoutProof := "c=biws,r=".toList ++ nonce
  let authMessage := Text.bytes
    (bare ++ ",".toList ++ serverFirst ++ ",".toList ++ withoutProof)
  let proof := xorBytes (clientKey H salted)
    (H.hmacSha256 (H.sha256 (clientKey H salted)) authMessage)
  { clientFirst := "n,,".toList ++ bare
    serverFirst
    clientFinal := withoutProof ++ ",p=".toList ++ base64Encode proof
    serverFinal := "v=".toList ++ base64Encode (H.hmacSha256 (serverKey H salted) authMessage) }

theorem usernameOf_clientFirst {user : Text} (h : ',' ∉ user) (rest : Text) :
    usernameOf ("n,,".toList ++ ("n=".toList ++ user ++ ",r=".toList ++ rest)) = user := by
  have hname : "n,,".toList ++ ("n=".toList ++ user ++ ",r=".toList ++ rest) =
      "n,,n=".toList ++ (user ++ ',' :: ("r=".toList ++ rest)) := by simp
  unfold usernameOf
  rw [hname, stripPrefix_append]
  simp [splitOn_append_cons h]

theorem attributeOf_bare {user clientNonce : Text} (hu : ',' ∉ user) (hn : ',' ∉ clientNonce) :
    attributeOf "r=".toList ("n=".toList ++ user ++ ",r=".toList ++ clientNonce) =
      some clientNonce := by
  have hparts : "n=".toList ++ user ++ ",r=".toList ++ clientNonce =
      ("n=".toList ++ user) ++ ',' :: ("r=".toList ++ clientNonce) := by simp
  rw [attributeOf, hparts, splitOn_append_cons (by simpa using hu),
    splitOn_of_not_mem (by simpa using hn), List.findSome?_cons,
    show stripPrefix "r=".toList ("n=".toList ++ user) = none from rfl, List.findSome?_cons,
    stripPrefix_append]

variable {session : AuthSession} {store : AuthStore}

/-- A client-first message that names a stored user starts an exchange. -/
theorem handleScramAuth_clientFirst (H : ScramHash) (rnd : Bytes)
      {cred : StoredCredential} {serverFirst : Text} (hstore : session.authStore = some store)
    (hfirst : stripPrefix "c=".toList clientData = none) (huser : usernameOf clientData ≠ [])
    (hcred : store.users (usernameOf clientData) = some cred)
    (hex : (ScramExchange.new cred).processClientFirst rnd clientData =
      (.ok serverFirst, exchange)) :
    handleScramAuth H rnd MECHANISM clientData session =
      ([.authenticationSaslContinue serverFirst],
        { session with scramState := some exchange }) := by
  have hnamed : (usernameOf clientData).isEmpty = false := by simpa using huser
  unfold handleScramAuth
  rw [hstore]
  dsimp only
  rw [hfirst, hcred, hnamed]
  simp [hex]

/-- A client-final message that verifies ends it. -/
theorem handleScramAuth_clientFinal (H : ScramHash) (rnd : Bytes) {serverFinal : Text}
    (hstore : session.authStore = some store) (hfinal : (stripPrefix "c=".toList clientData).isSome)
    (hstate : session.scramState = some exchange)
    (hok : exchange.processClientFinal H clientData = .ok serverFinal) :
    handleScramAuth H rnd MECHANISM clientData session =
      ([.authenticationSaslFinal serverFinal, .authenticationOk, .readyForQuery .idle],
        { session with scramState := none }) := by
  unfold handleScramAuth
  rw [hstore]
  dsimp only
  rw [if_pos hfinal]
  grind

/-- The messages of the dialogue start an exchange and verify against it. -/
theorem scramDialogue_verifies (H : ScramHash) (password salt : Bytes) (iter : Nat)
    {user clientNonce : Text} (rnd : Bytes) (hu : ',' ∉ user) (hn : ',' ∉ clientNonce) :
    let dialogue := scramDialogue H password salt iter user clientNonce rnd
    let cred := deriveCredential H password salt iter
    ∃ exchange,
      (ScramExchange.new cred).processClientFirst rnd dialogue.clientFirst =
        (.ok dialogue.serverFirst, exchange) ∧
      exchange.processClientFinal H dialogue.clientFinal = .ok dialogue.serverFinal := by
  intro dialogue cred
  have hbare : bareOf dialogue.clientFirst =
      some ("n=".toList ++ user ++ ",r=".toList ++ clientNonce) := by
    rfl
  have hfirst := processClientFirst_eq (.new cred) rnd hbare (attributeOf_bare hu hn)
  have hnonce : ',' ∉ clientNonce ++ randomNonce rnd := by
    simpa using ⟨hn, comma_not_mem_randomNonce rnd⟩
  exact ⟨_, hfirst, processClientFinal_of_key
    ⟨"n=".toList ++ user ++ ",r=".toList ++ clientNonce, dialogue.serverFirst, cred⟩
    (clientKey_length H _) (sha256_clientKey H password salt iter) _
    (splitOnce_proof hnonce)⟩

/-- A client that knows the password is accepted, and shown a signature made
with the server key. -/
theorem scram_complete (H : ScramHash) (password salt : Bytes) (iter : Nat)
    {user clientNonce : Text}
    (rnd rnd' : Bytes) (huser : user ≠ []) (hu : ',' ∉ user) (hn : ',' ∉ clientNonce)
    {session : AuthSession} {store : AuthStore} (hstore : session.authStore = some store)
    (hcred : store.users user = some (deriveCredential H password salt iter)) :
    let dialogue := scramDialogue H password salt iter user clientNonce rnd
    ∃ exchange,
      handleScramAuth H rnd MECHANISM dialogue.clientFirst session =
        ([.authenticationSaslContinue dialogue.serverFirst],
          { session with scramState := some exchange }) ∧
      exchange.processClientFinal H dialogue.clientFinal = .ok dialogue.serverFinal ∧
      handleScramAuth H rnd' MECHANISM dialogue.clientFinal
          { session with scramState := some exchange } =
        ([.authenticationSaslFinal dialogue.serverFinal, .authenticationOk, .readyForQuery .idle],
          { session with scramState := none }) := by
  intro dialogue
  have hname : usernameOf dialogue.clientFirst = user := usernameOf_clientFirst hu clientNonce
  obtain ⟨exchange, hfirst, hfinal⟩ := scramDialogue_verifies H password salt iter rnd hu hn
  exact ⟨exchange, handleScramAuth_clientFirst H rnd hstore rfl (by rwa [hname]) (by rwa [hname])
    hfirst, hfinal, handleScramAuth_clientFinal H rnd' hstore rfl rfl hfinal⟩

/-- A store with one user. -/
def aliceStore : AuthStore :=
  ⟨fun user => if user = "alice".toList then some (deriveCredential checksumHash [1] [2] 4)
    else none⟩

theorem scram_complete_alice :
    let dialogue := scramDialogue checksumHash [1] [2] 4 "alice".toList "nonce".toList [0, 63]
    ∃ exchange, handleScramAuth checksumHash [] MECHANISM dialogue.clientFinal
        ⟨some aliceStore, some exchange⟩ =
      ([.authenticationSaslFinal dialogue.serverFinal, .authenticationOk, .readyForQuery .idle],
        ⟨some aliceStore, none⟩) := by
  obtain ⟨exchange, -, -, hfinal⟩ := scram_complete checksumHash [1] [2] 4 [0, 63] []
    (by decide : "alice".toList ≠ []) (by decide) (by decide : ',' ∉ "nonce".toList)
    (rfl : (AuthSession.withAuthStore aliceStore).authStore = some aliceStore) rfl
  exact ⟨exchange, hfinal⟩

/-! ## Runs of password messages -/

abbrev AuthTrace := List ((Bytes × Text) × List AuthReply)

/-- One password message, with the random bytes drawn for it. -/
def authStep (H : ScramHash) (session : AuthSession) (message : Bytes × Text) :
    Option (List AuthReply × AuthSession) :=
  some (dispatchPassword H message.1 message.2 session)

/-- The runs of a session with this credential store. -/
abbrev AuthRun (H : ScramHash) (store : AuthStore) : AuthTrace → AuthSession → Prop :=
  TraceRun (authStep H) (fun _ _ => True) (.withAuthStore store)

/-- A client-first message that names a stored user has started the exchange. -/
def StartedIn (store : AuthStore) (trace : AuthTrace) (exchange : ScramExchange) : Prop :=
  ∃ rnd clientFirst reply cred serverFirst, ((rnd, scramMessage clientFirst), reply) ∈ trace ∧
    usernameOf clientFirst ≠ [] ∧ store.users (usernameOf clientFirst) = some cred ∧
    (ScramExchange.new cred).processClientFirst rnd clientFirst = (.ok serverFirst, exchange)

/-- `AuthenticationOk` is only sent for a message that verifies against an
exchange started before. -/
def NoBypass (H : ScramHash) (store : AuthStore) (trace : AuthTrace) : Prop :=
  ∀ pre post message reply, trace = pre ++ (message, reply) :: post → .authenticationOk ∈ reply →
    ∃ clientFinal exchange serverFinal, message.2 = scramMessage clientFinal ∧
      StartedIn store pre exchange ∧
      exchange.processClientFinal H clientFinal = .ok serverFinal

/-- What a message of the mechanism does: the exchange is kept, dropped or
started, and `AuthenticationOk` is sent if the exchange verifies. -/
theorem handleScramAuth_cases {H : ScramHash} {rnd : Bytes} {session' : AuthSession}
    {reply : List AuthReply} (hstore : session.authStore = some store)
    (h : handleScramAuth H rnd MECHANISM clientData session = (reply, session')) :
    session'.authStore = some store ∧
      (session'.scramState = session.scramState ∨ session'.scramState = none ∨
        ∃ cred serverFirst exchange, session'.scramState = some exchange ∧
          usernameOf clientData ≠ [] ∧ store.users (usernameOf clientData) = some cred ∧
          (ScramExchange.new cred).processClientFirst rnd clientData =
            (.ok serverFirst, exchange)) ∧
      (.authenticationOk ∈ reply → ∃ exchange serverFinal, session.scramState = some exchange ∧
        exchange.processClientFinal H clientData = .ok serverFinal) := by
  obtain ⟨authStore, scramState⟩ := session
  cases hstore
  unfold handleScramAuth at h
  rw [if_neg (by simp)] at h
  dsimp only at h
  split at h
  · split at h
    · cases h
      simp [scramFailed]
    · next exchange =>
      split at h
      · next serverFinal hok =>
        cases h
        exact ⟨rfl, .inr (.inl rfl), fun _ => ⟨exchange, serverFinal, rfl, hok⟩⟩
      · cases h
        simp [authenticationFailed]
  · split at h
    · next cred hcred huser =>
      split at h
      · next serverFirst exchange hfirst =>
        cases h
        refine ⟨rfl, .inr (.inr ⟨cred, serverFirst, exchange, rfl, ?_, hcred, hfirst⟩),
          by simp⟩
        simpa using huser
      · cases h
        simp [scramFailed]
    · cases h
      simp [authenticationFailed]

/-- The session keeps its store, and its exchange was started in the run. -/
structure AuthInv (store : AuthStore) (trace : AuthTrace) (session : AuthSession) : Prop where
  authStore : session.authStore = some store
  started : ∀ exchange, session.scramState = some exchange → StartedIn store trace exchange

theorem StartedIn.concat {trace : AuthTrace} (h : StartedIn store trace exchange)
    (e : (Bytes × Text) × List AuthReply) : StartedIn store (trace ++ [e]) exchange := by
  obtain ⟨rnd, clientFirst, reply, cred, serverFirst, hmem, hstart⟩ := h
  exact ⟨rnd, clientFirst, reply, cred, serverFirst, List.mem_append_left _ hmem, hstart⟩

theorem AuthRun.inv {H : ScramHash} {trace : AuthTrace} (h : AuthRun H store trace session) :
    AuthInv store trace session := by
  refine TraceRun.keeps ⟨rfl, fun _ h => (by cases h)⟩ ?_ h
  intro trace session message reply session' hinv _ hstep
  obtain ⟨rnd, password⟩ := message
  have hdispatch : dispatchPassword H rnd password session = (reply, session') :=
    Option.some.inj hstep
  by_cases hscram : ∃ clientData, password = scramMessage clientData
  · obtain ⟨clientData, rfl⟩ := hscram
    obtain ⟨hstore, hstate, -⟩ := handleScramAuth_cases hinv.authStore hdispatch
    refine ⟨hstore, fun exchange hexchange => ?_⟩
    obtain hsame | hnone | ⟨cred, serverFirst, started, hstarted, huser, hcred, hfirst⟩ := hstate
    · exact (hinv.started exchange (hsame ▸ hexchange)).concat _
    · grind
    · cases hstarted.symm.trans hexchange
      exact ⟨rnd, clientData, reply, cred, serverFirst, by simp, huser, hcred, hfirst⟩
  · rw [dispatchPassword_other H rnd fun clientData heq => hscram ⟨clientData, heq⟩] at hdispatch
    cases hdispatch
    exact ⟨hinv.authStore, fun exchange hexchange => (hinv.started exchange hexchange).concat _⟩

/-- Nobody gets past the credential store in exactly the runs in which every
message names the mechanism. -/
theorem noBypass_iff {H : ScramHash} {store : AuthStore} {trace : AuthTrace} {session : AuthSession}
    (h : AuthRun H store trace session) :
    NoBypass H store trace ↔ ∀ e ∈ trace, ∃ clientData, e.1.2 = scramMessage clientData := by
  constructor
  · intro hno e he
    obtain ⟨⟨rnd, password⟩, reply⟩ := e
    obtain ⟨pre, post, rfl⟩ := List.append_of_mem he
    by_contra hother
    obtain ⟨s₁, s₂, -, -, hstep⟩ := TraceRun.upTo h
    have hdispatch := dispatchPassword_other H rnd (fun clientData heq =>
        hother ⟨clientData, heq⟩) s₁
    have hreply : (handlePassword, s₁) = (reply, s₂) := hdispatch.symm.trans (Option.some.inj hstep)
    cases hreply
    obtain ⟨clientFinal, -, -, heq, -⟩ := hno pre post _ _ rfl (by simp [handlePassword])
    exact hother ⟨clientFinal, heq⟩
  · rintro hall pre post ⟨rnd, password⟩ reply rfl hok
    obtain ⟨clientData, rfl⟩ := hall ((rnd, password), reply) (by simp)
    obtain ⟨s₁, s₂, hpre, -, hstep⟩ := TraceRun.upTo h
    have hinv := AuthRun.inv hpre
    have hdispatch : dispatchPassword H rnd (scramMessage clientData) s₁ = (reply, s₂) :=
      Option.some.inj hstep
    obtain ⟨exchange, serverFinal, hstate, hfinal⟩ :=
      (handleScramAuth_cases hinv.authStore hdispatch).2.2 hok
    exact ⟨clientData, exchange, serverFinal, rfl, hinv.started exchange hstate, hfinal⟩

/-- A login that is accepted, after one of an unknown user that is not. -/
theorem noBypass_login : ∃ dialogue,
    dialogue = scramDialogue checksumHash [1] [2] 4 "alice".toList "nonce".toList [0, 63] ∧
    NoBypass checksumHash aliceStore
      [(([], scramMessage "n,,n=bob,r=x".toList), [authenticationFailed]),
        (([0, 63], scramMessage dialogue.clientFirst),
          [.authenticationSaslContinue dialogue.serverFirst]),
        (([], scramMessage dialogue.clientFinal),
          [.authenticationSaslFinal dialogue.serverFinal, .authenticationOk,
            .readyForQuery .idle])] := by
  obtain ⟨exchange, hfirst, hfinal⟩ := scramDialogue_verifies checksumHash [1] [2] 4 [0, 63]
    (by decide : ',' ∉ "alice".toList) (by decide : ',' ∉ "nonce".toList)
  have hname : usernameOf (scramDialogue checksumHash [1] [2] 4 "alice".toList "nonce".toList
      [0, 63]).clientFirst = "alice".toList := usernameOf_clientFirst (by decide) _
  have hprefix : (stripPrefix "c=".toList (scramDialogue checksumHash [1] [2] 4 "alice".toList
      "nonce".toList [0, 63]).clientFinal).isSome := rfl
  have hstarted := handleScramAuth_clientFirst checksumHash [0, 63]
    (rfl : (AuthSession.withAuthStore aliceStore).authStore = some aliceStore) rfl
    (by rw [hname]; decide) (by rw [hname]; rfl) hfirst
  refine ⟨_, rfl, ?_⟩
  generalize scramDialogue _ _ _ _ _ _ _ = dialogue at hstarted hprefix hfinal ⊢
  have hverified := handleScramAuth_clientFinal checksumHash []
    (rfl : (AuthSession.mk (some aliceStore) (some exchange)).authStore = _) hprefix rfl hfinal
  have hrun : AuthRun checksumHash aliceStore _ _ :=
    .call (.call (.call .start trivial (c := ([], scramMessage "n,,n=bob,r=x".toList)) rfl) trivial
      (c := ([0, 63], scramMessage dialogue.clientFirst)) (congrArg some hstarted)) trivial
      (c := ([], scramMessage dialogue.clientFinal)) (congrArg some hverified)
  exact (noBypass_iff hrun).mpr (by simp)

/-- A password that does not name the mechanism is accepted. -/
theorem cleartext_password_accepted : ∃ trace session,
    AuthRun checksumHash aliceStore trace session ∧ ¬ NoBypass checksumHash aliceStore trace := by
  have hother : ∀ clientData, "guess".toList ≠ scramMessage clientData := by
    intro clientData heq
    have hhead : some 'g' = some 'S' := congrArg List.head? heq
    exact absurd hhead (by decide)
  have hstep : authStep checksumHash (.withAuthStore aliceStore) ([], "guess".toList) =
      some (handlePassword, .withAuthStore aliceStore) :=
    congrArg some (dispatchPassword_other checksumHash [] hother _)
  have hrun : AuthRun checksumHash aliceStore ([] ++ [(([], "guess".toList), handlePassword)])
      (.withAuthStore aliceStore) := .call .start trivial hstep
  refine ⟨_, _, hrun, fun hno => ?_⟩
  obtain ⟨clientFinal, -, -, heq, -⟩ := hno [] [] _ _ rfl (.head _)
  exact hother clientFinal heq

end Archon
