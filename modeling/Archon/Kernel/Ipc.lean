import Archon.Bridge.Capability
import Archon.Lib.Bytes
import Archon.Lib.Trace

/-!
# Archon.Kernel.Ipc

Message passing between channels (`crates/tpt-archon-kernel/src/ipc.rs`), and
the runs of one router with the issuer it shares with the callers.

Every message is delivered once, in order, and only under a capability the
issuer holds at that moment (`ipc_delivers`).
-/

namespace Archon

variable {cap : Capability} {issuer : CapabilityIssuer}

/-- A message addressed to a channel. -/
structure Message where
  channel : UInt64
  payload : Bytes
  deriving DecidableEq, Repr

inductive IpcError where
  | denied
  | noSuchChannel
  deriving DecidableEq, Repr

/-- The inboxes of the registered channels. -/
structure MessageRouter where
  inboxes : UInt64 → Option (List Message)

namespace MessageRouter

def new : MessageRouter := ⟨fun _ => none⟩

/-- Put a channel's inbox in place. -/
def setInbox (router : MessageRouter) (channel : UInt64) (inbox : List Message) : MessageRouter :=
  ⟨Function.update router.inboxes channel (some inbox)⟩

/-- A channel that is registered already keeps its inbox. -/
def registerChannel (router : MessageRouter) (channel : UInt64) : MessageRouter :=
  match router.inboxes channel with
  | some _ => router
  | none => router.setInbox channel []

def send (router : MessageRouter) (issuer : CapabilityIssuer) (cap : Capability)
    (message : Message) : Except IpcError Unit × MessageRouter :=
  if issuer.authorizes cap (.channel message.channel) .write then
    match router.inboxes message.channel with
    | none => (.error .noSuchChannel, router)
    | some inbox => (.ok (), router.setInbox message.channel (inbox ++ [message]))
  else (.error .denied, router)

/-- Drain a channel. -/
def receive (router : MessageRouter) (issuer : CapabilityIssuer) (cap : Capability)
    (channel : UInt64) : Except IpcError (List Message) × MessageRouter :=
  if issuer.authorizes cap (.channel channel) .read then
    match router.inboxes channel with
    | none => (.error .noSuchChannel, router)
    | some inbox => (.ok inbox, router.setInbox channel [])
  else (.error .denied, router)

/-- The messages waiting in a channel; none if it is not registered. -/
def inbox (router : MessageRouter) (channel : UInt64) : List Message :=
  (router.inboxes channel).getD []

@[simp] theorem inbox_setInbox (router : MessageRouter) (channel : UInt64) (messages : List Message)
    (c : UInt64) : (router.setInbox channel messages).inbox c =
      if c = channel then messages else router.inbox c := by
  unfold inbox setInbox
  by_cases hc : c = channel
  · simp [hc]
  · simp [hc]

@[simp] theorem inbox_registerChannel (router : MessageRouter) (channel c : UInt64) :
    (router.registerChannel channel).inbox c = router.inbox c := by
  unfold registerChannel
  split
  · rfl
  · next hnone =>
    rw [inbox_setInbox]
    split
    · next hc => simp [inbox, hc, hnone]
    · rfl

variable {router router' : MessageRouter} {message : Message}

/-- What a send that succeeds has checked, and does. -/
theorem send_ok (h : router.send issuer cap message = (.ok (), router')) :
    issuer.authorizes cap (.channel message.channel) .write = true ∧
      router' = router.setInbox message.channel (router.inbox message.channel ++ [message]) := by
  unfold send at h
  split at h
  · next hauth =>
    split at h
    · cases h
    · next inbox hinbox =>
      cases h
      exact ⟨hauth, by simp [MessageRouter.inbox, hinbox]⟩
  · cases h

theorem send_error {e : IpcError} (h : router.send issuer cap message = (.error e, router')) :
    router' = router := by
  unfold send at h
  split at h
  · grind
  · cases h
    rfl

theorem receive_ok {channel : UInt64} {messages : List Message}
    (h : router.receive issuer cap channel = (.ok messages, router')) :
    issuer.authorizes cap (.channel channel) .read = true ∧ messages = router.inbox channel ∧
      router' = router.setInbox channel [] := by
  unfold receive at h
  split at h
  · next hauth =>
    split at h
    · cases h
    · next inbox hinbox =>
      cases h
      exact ⟨hauth, by simp [MessageRouter.inbox, hinbox], rfl⟩
  · cases h

theorem receive_error {channel : UInt64} {e : IpcError}
    (h : router.receive issuer cap channel = (.error e, router')) : router' = router := by
  unfold receive at h
  split at h
  · grind
  · cases h
    rfl

end MessageRouter

/-! ## Runs -/

/-- The issuer, shared between those who mint and the router. -/
structure IpcState where
  issuer : CapabilityIssuer
  router : MessageRouter

inductive IpcCall where
  | mint (resource : Resource) (right : Right)
  | revoke (cap : Capability)
  | registerChannel (channel : UInt64)
  | send (cap : Capability) (message : Message)
  | receive (cap : Capability) (channel : UInt64)

inductive IpcReply where
  | minted (cap : Capability)
  | done
  | sent (r : Except IpcError Unit)
  | received (r : Except IpcError (List Message))

abbrev IpcTrace := List (IpcCall × IpcReply)

namespace IpcState

def new : IpcState := ⟨.new, .new⟩

/-- One call; `none` where the code panics. -/
def step (s : IpcState) : IpcCall → Option (IpcReply × IpcState)
  | .mint resource right =>
    (s.issuer.mint resource right).map fun (cap, issuer) => (.minted cap, { s with issuer })
  | .revoke cap => some (.done, { s with issuer := s.issuer.revoke cap })
  | .registerChannel channel => some (.done, { s with router := s.router.registerChannel channel })
  | .send cap message =>
    let (r, router) := s.router.send s.issuer cap message
    some (.sent r, { s with router })
  | .receive cap channel =>
    let (r, router) := s.router.receive s.issuer cap channel
    some (.received r, { s with router })

variable {s s' : IpcState} {r : IpcReply}

theorem step_send {message : Message} (h : s.step (.send cap message) = some (r, s')) :
    ∃ o router, s.router.send s.issuer cap message = (o, router) ∧ r = .sent o ∧
      s' = { s with router } := by
  simp only [step, Option.some.injEq, Prod.mk.injEq] at h
  exact ⟨_, _, Prod.mk.eta.symm, h.1.symm, h.2.symm⟩

theorem step_receive {channel : UInt64} (h : s.step (.receive cap channel) = some (r, s')) :
    ∃ o router, s.router.receive s.issuer cap channel = (o, router) ∧ r = .received o ∧
      s' = { s with router } := by
  simp only [step, Option.some.injEq, Prod.mk.injEq] at h
  exact ⟨_, _, Prod.mk.eta.symm, h.1.symm, h.2.symm⟩

end IpcState

/-- The capability a call presents. -/
def IpcCall.presented : IpcCall → Option Capability
  | .revoke cap | .send cap _ | .receive cap _ => some cap
  | _ => none

/-- What a call means to the issuer. -/
def issuerEvent : IpcCall × IpcReply → Option IssuerEvent
  | (_, .minted cap) => some (.minted cap)
  | (.revoke cap, _) => some (.revoked cap)
  | _ => none

/-- The issuer's part of a trace, newest event first. -/
def issuerHistory (trace : IpcTrace) : List IssuerEvent := (trace.filterMap issuerEvent).reverse

/-- A capability that is presented has been minted before: none is made up. -/
def Unforged (trace : IpcTrace) (c : IpcCall) : Prop :=
  ∀ cap, c.presented = some cap → .minted cap ∈ issuerHistory trace

instance (trace : IpcTrace) (c : IpcCall) : Decidable (Unforged trace c) :=
  decidable_of_iff (∀ cap ∈ c.presented, .minted cap ∈ issuerHistory trace) Iff.rfl

abbrev IpcRun : IpcTrace → IpcState → Prop := TraceRun IpcState.step Unforged .new

/-- The message of a successful send to a channel. -/
def sentTo (channel : UInt64) : IpcCall × IpcReply → Option Message
  | (.send _ message, .sent (.ok ())) => if message.channel = channel then some message else none
  | _ => none

/-- The messages of a successful receive from a channel. -/
def receivedFrom (channel : UInt64) : IpcCall × IpcReply → List Message
  | (.receive _ c, .received (.ok messages)) => if c = channel then messages else []
  | _ => []

/-- All messages sent to a channel, in order. -/
def allSent (channel : UInt64) (trace : IpcTrace) : List Message := trace.filterMap (sentTo channel)

/-- All messages received from a channel, in order. -/
def allReceived (channel : UInt64) (trace : IpcTrace) : List Message :=
  trace.flatMap (receivedFrom channel)

/-- What holds along every run. -/
structure IpcInv (trace : IpcTrace) (s : IpcState) : Prop where
  tracks : Tracks s.issuer (issuerHistory trace)
  delivered : ∀ channel, allReceived channel trace ++ s.router.inbox channel = allSent channel trace

theorem issuerHistory_concat (trace : IpcTrace) (e : IpcCall × IpcReply) :
    issuerHistory (trace ++ [e]) = (issuerEvent e).toList ++ issuerHistory trace := by
  unfold issuerHistory
  cases h : issuerEvent e <;> simp [h]

section

variable (channel : UInt64) (trace : IpcTrace) (e : IpcCall × IpcReply)

theorem allSent_concat :
    allSent channel (trace ++ [e]) = allSent channel trace ++ (sentTo channel e).toList := by
  unfold allSent
  cases h : sentTo channel e <;> simp [h]

theorem allReceived_concat :
    allReceived channel (trace ++ [e]) = allReceived channel trace ++ receivedFrom channel e := by
  simp [allReceived]

end

variable {trace : IpcTrace}

variable {s s' : IpcState}

/-- A call that moves no message. -/
theorem IpcInv.quiet {e : IpcCall × IpcReply} (h : IpcInv trace s)
    (htracks : Tracks s'.issuer ((issuerEvent e).toList ++ issuerHistory trace))
    (hsent : ∀ channel, sentTo channel e = none)
    (hreceived : ∀ channel, receivedFrom channel e = [])
    (hinbox : ∀ channel, s'.router.inbox channel = s.router.inbox channel) :
    IpcInv (trace ++ [e]) s' := by
  refine ⟨by rwa [issuerHistory_concat], fun channel => ?_⟩
  rw [allReceived_concat, allSent_concat, hsent, hreceived, hinbox]
  simpa using h.delivered channel

theorem IpcInv.call {c : IpcCall} {r : IpcReply} (h : IpcInv trace s) (hu : Unforged trace c)
    (hstep : s.step c = some (r, s')) : IpcInv (trace ++ [(c, r)]) s' := by
  cases c with
  | mint resource right =>
    obtain ⟨⟨cap, issuer⟩, hm, heq⟩ := Option.map_eq_some_iff.mp hstep
    cases heq
    exact h.quiet (h.tracks.mint hm) (fun _ => rfl) (fun _ => rfl) fun _ => rfl
  | revoke cap =>
    cases hstep
    have hown := h.tracks.unique cap (hu cap rfl)
    exact h.quiet (h.tracks.revoke hown) (fun _ => rfl) (fun _ => rfl) fun _ => rfl
  | registerChannel channel =>
    cases hstep
    exact h.quiet h.tracks (fun _ => rfl) (fun _ => rfl) fun c => by simp
  | send cap message =>
    obtain ⟨o, router, hsend, rfl, rfl⟩ := IpcState.step_send hstep
    cases o with
    | error e =>
      have hsame := MessageRouter.send_error hsend
      exact h.quiet h.tracks (fun _ => rfl) (fun _ => rfl) fun c => by simp [hsame]
    | ok u =>
      obtain ⟨-, rfl⟩ := MessageRouter.send_ok hsend
      refine ⟨by rw [issuerHistory_concat]; exact h.tracks, fun channel => ?_⟩
      have hold := h.delivered channel
      rw [allReceived_concat, allSent_concat, ← hold]
      by_cases hc : message.channel = channel
      · simp [sentTo, receivedFrom, hc]
      · simp [sentTo, receivedFrom, hc, Ne.symm hc]
  | receive cap channel =>
    obtain ⟨o, router, hreceive, rfl, rfl⟩ := IpcState.step_receive hstep
    cases o with
    | error e =>
      have hsame := MessageRouter.receive_error hreceive
      exact h.quiet h.tracks (fun _ => rfl) (fun _ => rfl) fun c => by simp [hsame]
    | ok messages =>
      obtain ⟨-, rfl, rfl⟩ := MessageRouter.receive_ok hreceive
      refine ⟨by rw [issuerHistory_concat]; exact h.tracks, fun c => ?_⟩
      have hold := h.delivered c
      rw [allReceived_concat, allSent_concat, ← hold]
      by_cases hc : channel = c
      · simp [sentTo, receivedFrom, hc]
      · simp [sentTo, receivedFrom, hc, Ne.symm hc]

theorem IpcRun.inv (h : IpcRun trace s) : IpcInv trace s :=
  TraceRun.keeps ⟨.new, fun _ => rfl⟩ (fun _ _ _ _ _ hinv hu hstep => hinv.call hu hstep) h

/-- After these calls the issuer holds the capability, and it is for that
resource, with that right. -/
def Authority (trace : IpcTrace) (cap : Capability) (resource : Resource) (right : Right) : Prop :=
  Held (issuerHistory trace) cap ∧ cap.resource = resource ∧ cap.right.Covers right

/-- What the router authorizes is backed by the issuer's history. -/
theorem IpcInv.authority (h : IpcInv trace s) (hmem : .minted cap ∈ issuerHistory trace)
    {resource : Resource} {right : Right} (hauth : s.issuer.authorizes cap resource right = true) :
    Authority trace cap resource right := by
  have hown := h.tracks.unique cap hmem
  exact (h.tracks.authorizes_iff.mpr (fun own hheld hs => hown own hheld.minted hs) _ _).mp hauth

/-- What is asked of a run. -/
structure Delivers (trace : IpcTrace) (s : IpcState) : Prop where
  /-- Received so far and still waiting: what was sent, in order. -/
  inOrder : ∀ channel, allReceived channel trace ++ s.router.inbox channel = allSent channel trace
  sends : ∀ pre post cap message, trace = pre ++ (.send cap message, .sent (.ok ())) :: post →
    Authority pre cap (.channel message.channel) .write
  receives : ∀ pre post cap channel messages,
    trace = pre ++ (.receive cap channel, .received (.ok messages)) :: post →
      Authority pre cap (.channel channel) .read
  /-- Failing calls, and registering a channel again. -/
  sendFails : ∀ cap message e s', s.step (.send cap message) = some (.sent (.error e), s') → s' = s
  receiveFails : ∀ cap channel e s',
    s.step (.receive cap channel) = some (.received (.error e), s') → s' = s
  registersAgain : ∀ channel s', s.step (.registerChannel channel) = some (.done, s') →
    (s.router.inboxes channel).isSome → s' = s

/-- In every run of mints, revocations, registrations, sends and receives,
messages are delivered exactly once, in order, and only under authority. -/
theorem ipc_delivers {trace : IpcTrace} {s : IpcState} (h : IpcRun trace s) : Delivers trace s where
  inOrder := h.inv.delivered
  sends := by
    rintro pre post cap message rfl
    obtain ⟨s₁, s₂, hpre, hu, hstep⟩ := TraceRun.upTo h
    obtain ⟨o, router, hsend, ho, rfl⟩ := IpcState.step_send hstep
    cases ho
    exact (IpcRun.inv hpre).authority (hu cap rfl) (MessageRouter.send_ok hsend).1
  receives := by
    rintro pre post cap channel messages rfl
    obtain ⟨s₁, s₂, hpre, hu, hstep⟩ := TraceRun.upTo h
    obtain ⟨o, router, hreceive, ho, rfl⟩ := IpcState.step_receive hstep
    cases ho
    exact (IpcRun.inv hpre).authority (hu cap rfl) (MessageRouter.receive_ok hreceive).1
  sendFails := by
    intro cap message e s' hstep
    obtain ⟨o, router, hsend, ho, rfl⟩ := IpcState.step_send hstep
    cases ho
    rw [MessageRouter.send_error hsend]
  receiveFails := by
    intro cap channel e s' hstep
    obtain ⟨o, router, hreceive, ho, rfl⟩ := IpcState.step_receive hstep
    cases ho
    rw [MessageRouter.receive_error hreceive]
  registersAgain := by
    intro channel s' hstep hsome
    cases hstep
    obtain ⟨inbox, hinbox⟩ := Option.isSome_iff_exists.mp hsome
    simp [MessageRouter.registerChannel, hinbox]

/-- Two messages sent, one before and one after a receive. -/
def channelSevenCalls : List IpcCall :=
  let cap : Capability := ⟨0, .channel 7, .readWrite⟩
  [.mint (.channel 7) .readWrite, .registerChannel 7, .send cap ⟨7, [1]⟩, .receive cap 7,
    .send cap ⟨7, [2]⟩]

theorem ipc_delivers_channelSeven : ∃ trace s, IpcRun trace s ∧
    allReceived 7 trace = [⟨7, [1]⟩] ∧ s.router.inbox 7 = [⟨7, [2]⟩] ∧ Delivers trace s := by
  obtain ⟨trace, s, hrun, h⟩ := exists_traceRun IpcState.step Unforged .new channelSevenCalls
    (fun x => decide (allReceived 7 x.1 = [⟨7, [1]⟩] ∧ x.2.router.inbox 7 = [⟨7, [2]⟩]))
    (by decide +kernel)
  obtain ⟨hreceived, hinbox⟩ := of_decide_eq_true h
  exact ⟨trace, s, hrun, hreceived, hinbox, ipc_delivers hrun⟩

end Archon
