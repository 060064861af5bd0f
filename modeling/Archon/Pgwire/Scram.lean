import Archon.Pgwire.Base64

/-!
# Archon.Pgwire.Scram

The SCRAM-SHA-256 exchange (module `scram` of
`crates/out-archon-pgwire/src/startup.rs`).

SHA-256 is any function, HMAC-SHA-256 any with 32-byte results.  A client
that knows a key the stored key is the hash of is accepted for whatever it
puts in front of the proof (`processClientFinal_of_key`), and nobody else is
(`key_of_processClientFinal`); the nonce and the channel binding are never
looked at (`binding_iff`).
-/

namespace Archon

open List

/-- The two primitives. -/
structure ScramHash where
  hmacSha256 : Bytes → Bytes → Bytes
  sha256 : Bytes → Bytes
  hmacSha256_length : ∀ key data, (hmacSha256 key data).length = 32

structure StoredCredential where
  salt : Bytes
  iterationCount : Nat
  storedKey : Bytes
  serverKey : Bytes

structure ScramExchange where
  clientFirstBare : Text
  serverFirst : Text
  cred : StoredCredential

inductive ScramError where
  | invalidClientFirstMessage
  | invalidClientFinalMessage
  | authenticationFailed
  deriving DecidableEq, Repr

/-- `a.iter().zip(b.iter()).map(|(a, b)| a ^ b)`. -/
def xorBytes (a b : Bytes) : Bytes := List.zipWith (· ^^^ ·) a b

/-- `*a ^= *b` for the bytes of `t` that have one in `u`. -/
def xorInto (t u : Bytes) : Bytes := xorBytes t u ++ t.drop u.length

def constantTimeEq (a b : Bytes) : Bool :=
  if a.length ≠ b.length then false else (xorBytes a b).foldl (· ||| ·) 0 == 0

/-- `rnd` are the random bytes. -/
def randomNonce (rnd : Bytes) : Text := rnd.map fun b => base64Char (b.toNat % 64)

/-- The first of the comma-separated attributes with this name. -/
def attributeOf (name message : Text) : Option Text :=
  (message.splitOn ',').findSome? (stripPrefix name)

section

variable (H : ScramHash)

def pbkdf2Loop (password : Bytes) : Nat → Bytes → Bytes → Bytes
  | 0, _, t => t
  | n + 1, u, t =>
    let u := H.hmacSha256 password u
    pbkdf2Loop password n u (xorInto t u)

def pbkdf2HmacSha256 (password salt : Bytes) (iter : Nat) : Bytes :=
  let u := H.hmacSha256 password (salt ++ [0, 0, 0, 1])
  pbkdf2Loop H password (iter - 1) u u

def clientKey (salted : Bytes) : Bytes := H.hmacSha256 salted (Text.bytes "Client Key".toList)

def serverKey (salted : Bytes) : Bytes := H.hmacSha256 salted (Text.bytes "Server Key".toList)

def deriveCredential (password salt : Bytes) (iter : Nat) : StoredCredential :=
  let salted := pbkdf2HmacSha256 H password salt iter
  { salt
    iterationCount := iter
    storedKey := H.sha256 (clientKey H salted)
    serverKey := serverKey H salted }

namespace ScramExchange

/-- The exchange `handle_scram_auth` starts with. -/
def new (cred : StoredCredential) : ScramExchange := ⟨[], [], cred⟩

/-- The client-first message without its gs2 header. -/
def bareOf (clientFirst : Text) : Option Text :=
  match stripPrefix "n,,".toList clientFirst with
  | some rest => some rest
  | none =>
    match stripPrefix "y,,".toList clientFirst with
    | some rest => some rest
    | none =>
      (splitOnce ",,n=".toList clientFirst).map fun (_, rest) => "n=".toList ++ rest

/-- The server-first message. -/
def serverFirstOf (nonce : Text) (cred : StoredCredential) : Text :=
  "r=".toList ++ nonce ++ ",s=".toList ++ base64Encode cred.salt ++ ",i=".toList ++
    (Nat.repr cred.iterationCount).toList

def processClientFirst (ex : ScramExchange) (rnd : Bytes) (clientFirst : Text) :
    Except ScramError Text × ScramExchange :=
  match bareOf clientFirst with
  | none => (.error .invalidClientFirstMessage, ex)
  | some bare =>
    match attributeOf "r=".toList bare with
    | none => (.error .invalidClientFirstMessage, { ex with clientFirstBare := bare })
    | some clientNonce =>
      let serverFirst := serverFirstOf (clientNonce ++ randomNonce rnd) ex.cred
      (.ok serverFirst, { ex with clientFirstBare := bare, serverFirst })

/-- What both sides sign. -/
def authMessage (ex : ScramExchange) (withoutProof : Text) : Text :=
  ex.clientFirstBare ++ ",".toList ++ ex.serverFirst ++ ",".toList ++ withoutProof

def processClientFinal (ex : ScramExchange) (clientFinal : Text) : Except ScramError Text :=
  match splitOnce ",p=".toList clientFinal with
  | none => .error .invalidClientFinalMessage
  | some (withoutProof, _) =>
    let combined := Text.bytes (ex.authMessage withoutProof)
    match (clientFinal.splitOn ',').reverse.findSome? (stripPrefix "p=".toList) with
    | none => .error .invalidClientFinalMessage
    | some proofB64 =>
      match base64Decode proofB64 with
      | none => .error .invalidClientFinalMessage
      | some proof =>
        let clientSignature := H.hmacSha256 ex.cred.storedKey combined
        if clientSignature.length ≠ proof.length then .error .authenticationFailed
        else if !constantTimeEq (H.sha256 (xorBytes clientSignature proof)) ex.cred.storedKey then
          .error .authenticationFailed
        else .ok ("v=".toList ++ base64Encode (H.hmacSha256 ex.cred.serverKey combined))

end ScramExchange

end

theorem clientKey_length (H : ScramHash) (salted : Bytes) : (clientKey H salted).length = 32 :=
  H.hmacSha256_length _ _

/-- The key of whoever knows the password. -/
theorem sha256_clientKey (H : ScramHash) (password salt : Bytes) (iter : Nat) :
    H.sha256 (clientKey H (pbkdf2HmacSha256 H password salt iter)) =
      (deriveCredential H password salt iter).storedKey := rfl

/-! ## Bytes -/

theorem xorBytes_length (a b : Bytes) : (xorBytes a b).length = min a.length b.length :=
  length_zipWith

/-- A signature taken off again. -/
theorem xorBytes_xorBytes {key signature : Bytes} (h : key.length = signature.length) :
    xorBytes signature (xorBytes key signature) = key := by
  unfold xorBytes
  induction key generalizing signature with
  | nil => simp
  | cons k key ih =>
    cases signature with
    | nil => cases h
    | cons s signature =>
      have hcancel : s ^^^ (k ^^^ s) = k := by
        rw [UInt8.xor_comm k s, ← UInt8.xor_assoc, UInt8.xor_self, UInt8.zero_xor]
      simp [hcancel, ih (Nat.succ.inj h)]

theorem foldl_or_eq_zero {xs : Bytes} {acc : UInt8} :
    xs.foldl (· ||| ·) acc = 0 ↔ acc = 0 ∧ ∀ x ∈ xs, x = 0 := by
  induction xs generalizing acc with
  | nil => simp
  | cons x xs ih => simp [ih, and_assoc]

theorem constantTimeEq_iff {a b : Bytes} : constantTimeEq a b = true ↔ a = b := by
  unfold constantTimeEq
  split
  · next hne => simpa using fun h => hne (congrArg List.length h)
  · next hlen =>
    rw [not_not] at hlen
    rw [beq_iff_eq, foldl_or_eq_zero]
    simp only [true_and]
    unfold xorBytes
    induction a generalizing b with
    | nil =>
      cases b with
      | nil => simp
      | cons _ _ => cases hlen
    | cons x a ih =>
      cases b with
      | nil => cases hlen
      | cons y b => simp [ih (Nat.succ.inj hlen)]

/-! ## Who is accepted -/

namespace ScramExchange

variable {H : ScramHash} {ex : ScramExchange}

/-- The proof of a client that knows `key`. -/
def proofOf (H : ScramHash) (ex : ScramExchange) (key : Bytes) (withoutProof : Text) : Bytes :=
  xorBytes key (H.hmacSha256 ex.cred.storedKey (Text.bytes (ex.authMessage withoutProof)))

/-- The proof is the last attribute. -/
theorem splitOn_final (withoutProof : Text) (proof : Bytes) :
    (withoutProof ++ ",p=".toList ++ base64Encode proof).splitOn ',' =
      withoutProof.splitOn ',' ++ ["p=".toList ++ base64Encode proof] := by
  have hlast : ',' ∉ "p=".toList ++ base64Encode proof := by
    simpa using comma_not_mem_base64Encode proof
  rw [← splitOn_append_last hlast, append_assoc]
  rfl

/-- A key the stored key is the hash of opens the exchange. -/
theorem processClientFinal_of_key (ex : ScramExchange) {key : Bytes} (hlength : key.length = 32)
    (hkey : H.sha256 key = ex.cred.storedKey) (withoutProof : Text)
    (hsplit : ∀ rest, splitOnce ",p=".toList (withoutProof ++ ",p=".toList ++ rest) =
      some (withoutProof, rest)) :
    ex.processClientFinal H
        (withoutProof ++ ",p=".toList ++ base64Encode (ex.proofOf H key withoutProof)) =
      .ok ("v=".toList ++ base64Encode
        (H.hmacSha256 ex.cred.serverKey (Text.bytes (ex.authMessage withoutProof)))) := by
  have hsignature := H.hmacSha256_length ex.cred.storedKey
    (Text.bytes (ex.authMessage withoutProof))
  have hproof : (ex.proofOf H key withoutProof).length = 32 := by
    rw [proofOf, xorBytes_length, hlength, hsignature, Nat.min_self]
  have hundo : xorBytes (H.hmacSha256 ex.cred.storedKey (Text.bytes (ex.authMessage withoutProof)))
      (ex.proofOf H key withoutProof) = key := xorBytes_xorBytes (hlength.trans hsignature.symm)
  have hsame : constantTimeEq (H.sha256 key) ex.cred.storedKey = true :=
    constantTimeEq_iff.mpr hkey
  unfold processClientFinal
  rw [hsplit, splitOn_final, reverse_append, reverse_singleton, singleton_append,
    findSome?_cons, stripPrefix_append]
  simp [base64Decode_encode, hsignature, hproof, hundo, hsame]

/-- The message of a client that follows the protocol is cut before its proof. -/
theorem splitOnce_proof {nonce : Text} (h : ',' ∉ nonce) (rest : Text) :
    splitOnce ",p=".toList ("c=biws,r=".toList ++ nonce ++ ",p=".toList ++ rest) =
      some ("c=biws,r=".toList ++ nonce, rest) := by
  have hnonce : splitOnce ",p=".toList ("r=".toList ++ nonce ++ (",p=".toList ++ rest)) =
      some ("r=".toList ++ nonce, rest) := by
    rw [show ",p=".toList = ',' :: "p=".toList from rfl, splitOnce_append_of_not_mem
      (by simpa using h),
      splitOnce_append]
    simp
  have hcomma : splitOnce ",p=".toList (',' :: ("r=".toList ++ nonce ++ (",p=".toList ++ rest))) =
      some (',' :: ("r=".toList ++ nonce), rest) := by
    rw [splitOnce, show stripPrefix ",p=".toList _ = none from rfl, hnonce]
    rfl
  have hwhole : "c=biws,r=".toList ++ nonce ++ ",p=".toList ++ rest =
      "c=biws".toList ++ ',' :: ("r=".toList ++ nonce ++ (",p=".toList ++ rest)) := by simp
  rw [hwhole, show ",p=".toList = ',' :: "p=".toList from rfl,
    splitOnce_append_of_not_mem (by decide)]
  rw [show ',' :: "p=".toList = ",p=".toList from rfl, hcomma]
  simp

/-- Whoever is accepted knows such a key. -/
theorem key_of_processClientFinal {clientFinal v : Text}
    (h : ex.processClientFinal H clientFinal = .ok v) :
    ∃ key : Bytes, key.length = 32 ∧ H.sha256 key = ex.cred.storedKey := by
  unfold processClientFinal at h
  split at h
  · cases h
  · next withoutProof _ _ =>
    dsimp only at h
    split at h
    · cases h
    · split at h
      · cases h
      · next proof _ =>
        split at h
        · cases h
        · next hlen =>
          split at h
          · cases h
          · next hsame =>
            rw [not_not] at hlen
            refine ⟨xorBytes (H.hmacSha256 ex.cred.storedKey
              (Text.bytes (ex.authMessage withoutProof))) proof, ?_, ?_⟩
            · rw [xorBytes_length, ← hlen, Nat.min_self, H.hmacSha256_length]
            · exact constantTimeEq_iff.mp (by simpa using hsame)

theorem processClientFirst_eq (ex : ScramExchange) (rnd : Bytes)
    {clientFirst bare clientNonce : Text} (hbare : bareOf clientFirst = some bare)
    (hnonce : attributeOf "r=".toList bare = some clientNonce) :
    ex.processClientFirst rnd clientFirst =
      (.ok (serverFirstOf (clientNonce ++ randomNonce rnd) ex.cred),
        ⟨bare, serverFirstOf (clientNonce ++ randomNonce rnd) ex.cred, ex.cred⟩) := by
  unfold processClientFirst
  grind

/-- The server sends its nonce. -/
theorem attributeOf_serverFirst {nonce : Text} (h : ',' ∉ nonce) (cred : StoredCredential) :
    attributeOf "r=".toList (serverFirstOf nonce cred) = some nonce := by
  have hparts : serverFirstOf nonce cred = ("r=".toList ++ nonce) ++ ',' ::
      ("s=".toList ++ base64Encode cred.salt ++ ",i=".toList ++
        (Nat.repr cred.iterationCount).toList) := by
    simp [serverFirstOf]
  rw [attributeOf, hparts, splitOn_append_cons (by simpa using h), findSome?_cons,
    stripPrefix_append]

theorem comma_not_mem_randomNonce (rnd : Bytes) : ',' ∉ randomNonce rnd := by
  intro hmem
  obtain ⟨b, -, hb⟩ := mem_map.mp hmem
  exact base64Char_ne_comma _ (Nat.mod_lt _ (by decide)) hb

/-- What a client-first message that is answered leaves in the exchange. -/
theorem processClientFirst_ok {ex' : ScramExchange} {rnd : Bytes} {clientFirst serverFirst : Text}
    (h : ex.processClientFirst rnd clientFirst = (.ok serverFirst, ex')) :
    ∃ bare clientNonce, bareOf clientFirst = some bare ∧
      attributeOf "r=".toList bare = some clientNonce ∧
      serverFirst = serverFirstOf (clientNonce ++ randomNonce rnd) ex.cred ∧
      ex' = ⟨bare, serverFirst, ex.cred⟩ := by
  unfold processClientFirst at h
  split at h
  · cases h
  · next bare hbare =>
    split at h
    · cases h
    · next clientNonce hnonce =>
      cases h
      exact ⟨bare, clientNonce, hbare, hnonce, rfl, rfl⟩

end ScramExchange

/-! ## Binding -/

/-- The first two fields of the client-first message, with their commas. -/
def gs2Header (clientFirst : Text) : Option Text :=
  match clientFirst.splitOn ',' with
  | flag :: authzid :: _ => some (flag ++ ",".toList ++ authzid ++ ",".toList)
  | _ => none

/-- The client-final message repeats the server's nonce and the header of the
client-first message. -/
def BoundTo (clientFirst serverFirst clientFinal : Text) : Prop :=
  (∃ nonce, attributeOf "r=".toList serverFirst = some nonce ∧
    attributeOf "r=".toList clientFinal = some nonce) ∧
  ∃ header, gs2Header clientFirst = some header ∧
    attributeOf "c=".toList clientFinal = some (base64Encode (Text.bytes header))

/-- Only messages bound to the exchange are accepted exactly if nothing is: a
client with a key is accepted without nonce and channel binding. -/
theorem binding_iff {H : ScramHash} {cred : StoredCredential} {rnd : Bytes}
    {clientFirst serverFirst : Text} {ex : ScramExchange}
    (h : (ScramExchange.new cred).processClientFirst rnd clientFirst = (.ok serverFirst, ex)) :
    (∀ clientFinal v, ex.processClientFinal H clientFinal = .ok v →
      BoundTo clientFirst serverFirst clientFinal) ↔
      ∀ key : Bytes, key.length = 32 → H.sha256 key ≠ cred.storedKey := by
  obtain ⟨bare, -, -, -, -, rfl⟩ := ScramExchange.processClientFirst_ok h
  constructor
  · intro hbound key hlength hkey
    -- a message that is nothing but a proof
    have hok := ScramExchange.processClientFinal_of_key ⟨bare, serverFirst, cred⟩ hlength hkey []
      fun rest => splitOnce_append _ _
    obtain ⟨⟨nonce, -, hnonce⟩, -⟩ := hbound _ _ hok
    rw [attributeOf, ScramExchange.splitOn_final] at hnonce
    cases hnonce
  · intro hnone clientFinal v hok
    obtain ⟨key, hlength, hkey⟩ := ScramExchange.key_of_processClientFinal hok
    exact absurd hkey (hnone key hlength)

/-- Checksums in place of the hashes; the empty stored key is out of reach. -/
def checksumHash : ScramHash :=
  ⟨fun key data => List.replicate 32 ((key ++ data).foldl (fun s b => 3 * s + b) 0),
    fun data => List.replicate 32 (data.foldl (fun s b => 3 * s + b) 1), by simp⟩

theorem binding_iff_emptyKey : ∃ serverFirst ex,
    (ScramExchange.new ⟨[], 1, [], []⟩).processClientFirst [7] "n,,n=a,r=b".toList =
      (.ok serverFirst, ex) ∧
    ∀ clientFinal v, ex.processClientFinal checksumHash clientFinal = .ok v →
      BoundTo "n,,n=a,r=b".toList serverFirst clientFinal := by
  have h : (ScramExchange.new ⟨[], 1, [], []⟩).processClientFirst [7] "n,,n=a,r=b".toList =
      (.ok "r=bH,s=,i=1".toList, ⟨"n=a,r=b".toList, "r=bH,s=,i=1".toList, ⟨[], 1, [], []⟩⟩) := rfl
  exact ⟨_, _, h, (binding_iff h).mpr fun key _ hkey => by cases hkey⟩

/-- Whatever the hash functions and the password, the message of the module's
own test is accepted with a nonce the server did not send. -/
theorem accepts_foreign_nonce (H : ScramHash) (password salt : Bytes) (iter : Nat) :
    ∃ serverFirst ex clientFinal v,
    (ScramExchange.new (deriveCredential H password salt iter)).processClientFirst
      (List.replicate 18 0)
      "n,,n=alice,r=clientnonce".toList = (.ok serverFirst, ex) ∧
    ex.processClientFinal H clientFinal = .ok v ∧
    "c=biws,r=clientnonceXXXX,p=".toList <+: clientFinal ∧
    ¬ BoundTo "n,,n=alice,r=clientnonce".toList serverFirst clientFinal := by
  have hbare : ScramExchange.bareOf "n,,n=alice,r=clientnonce".toList =
      some "n=alice,r=clientnonce".toList := rfl
  have hnonce : attributeOf "r=".toList "n=alice,r=clientnonce".toList =
      some "clientnonce".toList := rfl
  have hfirst := ScramExchange.processClientFirst_eq (.new (deriveCredential H password salt iter))
    (List.replicate 18 0) hbare hnonce
  have hok := ScramExchange.processClientFinal_of_key ⟨"n=alice,r=clientnonce".toList,
      ScramExchange.serverFirstOf ("clientnonce".toList ++ randomNonce (List.replicate 18 0))
        (deriveCredential H password salt iter), deriveCredential H password salt iter⟩
    (clientKey_length H _) (sha256_clientKey H password salt iter) _
    (ScramExchange.splitOnce_proof (by decide : ',' ∉ "clientnonceXXXX".toList))
  have htext : "c=biws,r=".toList ++ "clientnonceXXXX".toList ++ ",p=".toList =
      "c=biws,r=clientnonceXXXX,p=".toList := by decide
  have hsent : attributeOf "r=".toList (ScramExchange.serverFirstOf
      ("clientnonce".toList ++ randomNonce (List.replicate 18 0))
      (deriveCredential H password salt iter)) =
      some ("clientnonce".toList ++ randomNonce (List.replicate 18 0)) :=
    ScramExchange.attributeOf_serverFirst (by decide) _
  have hreturned : ∀ proof, attributeOf "r=".toList
      ("c=biws,r=".toList ++ "clientnonceXXXX".toList ++ ",p=".toList ++ base64Encode proof) =
      some "clientnonceXXXX".toList := by
    intro proof
    rfl
  refine ⟨_, _, _, _, hfirst, hok, ⟨_, congrArg (· ++ _) htext.symm⟩, ?_⟩
  rintro ⟨⟨nonce, hserver, hclient⟩, -⟩
  have hsame := (hsent.symm.trans hserver).trans (hclient.symm.trans (hreturned _))
  exact absurd hsame (by decide)

theorem unbound_final_accepted : ∃ serverFirst ex clientFinal v,
    (ScramExchange.new (deriveCredential checksumHash [1] [2] 4)).processClientFirst
      (List.replicate 18 0) "n,,n=alice,r=clientnonce".toList = (.ok serverFirst, ex) ∧
    ex.processClientFinal checksumHash clientFinal = .ok v ∧
    ¬ BoundTo "n,,n=alice,r=clientnonce".toList serverFirst clientFinal := by
  obtain ⟨serverFirst, ex, clientFinal, v, hfirst, hok, -, hunbound⟩ :=
    accepts_foreign_nonce checksumHash [1] [2] 4
  exact ⟨serverFirst, ex, clientFinal, v, hfirst, hok, hunbound⟩

end Archon
