import Archon.Kernel.Ipc
import Archon.Kernel.Scheduler

/-!
# Archon.Kernel.Driver

The user-space driver framework (`crates/tpt-archon-kernel/src/driver.rs`):
interrupts are injected into a source under a capability to write the device,
and a driver is stood up on a source under a capability to read it.

`stand_up` is told the device apart from the driver, and a source does not
know which device it belongs to.  A driver is gated as the module says
exactly when they agree (`drivers_gated_iff`).
-/

namespace Archon

open Option Function

variable {cap : Capability} {issuer : CapabilityIssuer} {device : UInt64}

inductive DriverError where
  | injectDenied
  deriving DecidableEq, Repr

/-- A device driver.  It answers through the router, which asks the issuer it
shares; what it returns is dropped. -/
class Driver (δ : Type) where
  device : δ → UInt64
  handleInterrupt : δ → Message → MessageRouter → CapabilityIssuer → Capability →
    List Message × δ × MessageRouter

/-- The pending interrupts.  In the code `α` is `Message`. -/
structure MockInterruptSource (α : Type) where
  queue : List α

namespace MockInterruptSource

variable {α : Type}

def new : MockInterruptSource α := ⟨[]⟩

def inject (source : MockInterruptSource α) (issuer : CapabilityIssuer) (cap : Capability)
    (device : UInt64) (msg : α) : Except DriverError Unit × MockInterruptSource α :=
  if !(issuer.authorizes cap (.device device) .write ||
      issuer.authorizes cap (.device device) .readWrite) then
    (.error .injectDenied, source)
  else (.ok (), ⟨source.queue ++ [msg]⟩)

def popInterrupt (source : MockInterruptSource α) : Option α × MockInterruptSource α :=
  match source.queue with
  | [] => (none, source)
  | msg :: rest => (some msg, ⟨rest⟩)

def pending (source : MockInterruptSource α) : Bool := !source.queue.isEmpty

end MockInterruptSource

/-- A driver with its source; `router` names the shared router. -/
structure DriverTask (α δ κ : Type) where
  driver : δ
  source : MockInterruptSource α
  router : κ
  cap : Capability

/-- Take one interrupt off the source and hand it to the driver. -/
def DriverTask.poll {α δ κ : Type} [Driver δ] (message : α → Message) (task : DriverTask α δ κ)
    (router : MessageRouter) (issuer : CapabilityIssuer) :
    Poll × DriverTask α δ κ × MessageRouter :=
  match task.source.popInterrupt with
  | (some msg, source) =>
    let (_, driver, router) :=
      Driver.handleInterrupt task.driver (message msg) router issuer task.cap
    (.pending, { task with driver, source }, router)
  | (none, source) => (.ready, { task with source }, router)

def standUp {α δ κ : Type} (issuer : CapabilityIssuer) (deviceCap : Capability) (device : UInt64)
    (source : MockInterruptSource α) (router : κ) (responseCap : Capability) (driver : δ) :
    Option (DriverTask α δ κ) :=
  if issuer.authorizes deviceCap (.device device) .read ||
      issuer.authorizes deviceCap (.device device) .readWrite then
    some ⟨driver, source, router, responseCap⟩
  else none

/-- Asking for `ReadWrite` after `Read` adds nothing. -/
theorem authorizes_or_readWrite {resource : Resource} {right : Right} :
    (issuer.authorizes cap resource right || issuer.authorizes cap resource .readWrite) = true ↔
      issuer.authorizes cap resource right = true := by
  rw [Bool.or_eq_true, or_iff_left_of_imp]
  simp only [CapabilityIssuer.authorizes_iff]
  rintro ⟨hlive, hresource, hcovers⟩
  refine ⟨hlive, hresource, ?_⟩
  revert hcovers
  cases cap.right <;> cases right <;> decide

variable {α : Type}

variable {source source' : MockInterruptSource α} {msg : α}

theorem standUp_eq_some {δ κ : Type} {deviceCap responseCap : Capability} {router : κ} {driver : δ}
    {task : DriverTask α δ κ}
    (h : standUp issuer deviceCap device source router responseCap driver = some task) :
    issuer.authorizes deviceCap (.device device) .read = true ∧
      task = ⟨driver, source, router, responseCap⟩ := by
  unfold standUp at h
  split at h
  · next hauth =>
    cases h
    exact ⟨authorizes_or_readWrite.mp hauth, rfl⟩
  · cases h

theorem MockInterruptSource.inject_ok
    (h : source.inject issuer cap device msg = (.ok (), source')) :
    issuer.authorizes cap (.device device) .write = true ∧ source' = ⟨source.queue ++ [msg]⟩ := by
  unfold MockInterruptSource.inject at h
  split at h
  · cases h
  · next hauth =>
    cases h
    rw [Bool.not_eq_true, Bool.not_eq_false'] at hauth
    exact ⟨authorizes_or_readWrite.mp hauth, rfl⟩

theorem MockInterruptSource.mem_of_mem_popInterrupt (source : MockInterruptSource α)
    (h : msg ∈ source.popInterrupt.2.queue) : msg ∈ source.queue := by
  unfold popInterrupt at h
  split at h
  · exact h
  · next first rest hqueue => simp_all

/-! ## Runs

The program has any number of issuers, routers, sources and driver tasks,
under names of type `κ`. -/

/-- An interrupt with the call that injected it.  Only its message is looked
at. -/
structure Interrupt (κ : Type) where
  message : Message
  issuer : κ
  cap : Capability
  device : UInt64

structure DriverState (δ κ : Type) where
  issuers : κ → CapabilityIssuer
  /-- A router with the issuer it shares. -/
  routers : κ → κ × MessageRouter
  sources : κ → Option (MockInterruptSource (Interrupt κ))
  tasks : κ → Option (DriverTask (Interrupt κ) δ κ)

inductive DriverCall (δ κ : Type) where
  | mint (issuer : κ) (resource : Resource) (right : Right)
  | revoke (issuer : κ) (cap : Capability)
  /-- Whatever else is done with a router. -/
  | router (name issuer : κ) (router : MessageRouter)
  | newSource (source : κ)
  | inject (issuer : κ) (cap : Capability) (device : UInt64) (source : κ) (message : Message)
  | popInterrupt (source : κ)
  | standUp (issuer : κ) (deviceCap : Capability) (device : UInt64) (source router : κ)
      (responseCap : Capability) (driver : δ) (task : κ)
  | poll (task : κ)

inductive DriverReply (κ : Type) where
  | minted (cap : Capability)
  | done
  | injected (r : Except DriverError Unit)
  | popped (interrupt : Option (Interrupt κ))
  | stoodUp (r : Bool)
  /-- With the interrupt handed to the driver, and the device of the driver. -/
  | polled (r : Poll) (handled : Option (Interrupt κ × UInt64))

abbrev DriverTrace (δ κ : Type) := List (DriverCall δ κ × DriverReply κ)

namespace DriverState

variable {δ κ : Type} [Driver δ] [DecidableEq κ]

/-- Whatever routers there are to begin with. -/
def new (routers : κ → κ × MessageRouter) : DriverState δ κ :=
  ⟨fun _ => .new, routers, fun _ => none, fun _ => none⟩

/-- One call; `none` where there is no such source or task, or the code
panics. -/
def step (s : DriverState δ κ) : DriverCall δ κ → Option (DriverReply κ × DriverState δ κ)
  | .mint i resource right =>
    ((s.issuers i).mint resource right).map fun (cap, issuer) =>
      (.minted cap, { s with issuers := update s.issuers i issuer })
  | .revoke i cap =>
    some (.done, { s with issuers := update s.issuers i ((s.issuers i).revoke cap) })
  | .router name i router =>
    some (.done, { s with routers := update s.routers name (i, router) })
  | .newSource name =>
    some (.done, { s with sources := update s.sources name (some .new) })
  | .inject i cap device name message =>
    (s.sources name).map fun source =>
      let (r, source) := source.inject (s.issuers i) cap device ⟨message, i, cap, device⟩
      (.injected r, { s with sources := update s.sources name (some source) })
  | .popInterrupt name =>
    (s.sources name).map fun source =>
      let (msg, source) := source.popInterrupt
      (.popped msg, { s with sources := update s.sources name (some source) })
  | .standUp i deviceCap device name router responseCap driver taskName =>
    -- the source is moved into the call, and lost if it is refused
    (s.sources name).map fun source =>
      let s := { s with sources := update s.sources name none }
      match Archon.standUp (s.issuers i) deviceCap device source router responseCap driver with
      | some task =>
        (.stoodUp true, { s with tasks := update s.tasks taskName (some task) })
      | none => (.stoodUp false, s)
  | .poll name =>
    (s.tasks name).map fun task =>
      let (i, router) := s.routers task.router
      let handled := task.source.queue.head?.map fun irq => (irq, Driver.device task.driver)
      let (r, task', router) := task.poll Interrupt.message router (s.issuers i)
      (.polled r handled, { s with
        tasks := update s.tasks name (some task')
        routers := update s.routers task.router (i, router) })

end DriverState

section

variable {δ κ : Type} [DecidableEq κ]

/-- What a call means to an issuer. -/
def issuerEventAt (i : κ) : DriverCall δ κ × DriverReply κ → Option IssuerEvent
  | (.mint j _ _, .minted cap) => if j = i then some (.minted cap) else none
  | (.revoke j cap, _) => if j = i then some (.revoked cap) else none
  | _ => none

/-- An issuer's part of a trace, newest event first. -/
def historyAt (i : κ) (trace : DriverTrace δ κ) : List IssuerEvent :=
  (trace.filterMap (issuerEventAt i)).reverse

/-- After these calls the issuer holds the capability, and it is for that
resource, with that right. -/
def AuthorityAt (i : κ) (trace : DriverTrace δ κ) (cap : Capability) (resource : Resource)
    (right : Right) : Prop :=
  Held (historyAt i trace) cap ∧ cap.resource = resource ∧ cap.right.Covers right

/-- The issuer a call asks, and the capability it presents. -/
def DriverCall.presented : DriverCall δ κ → Option (κ × Capability)
  | .revoke i cap | .inject i cap _ _ _ | .standUp i cap _ _ _ _ _ _ => some (i, cap)
  | _ => none

/-- No capability is presented to an issuer that has minted another one with
the same serial. -/
def OwnIssuer (trace : DriverTrace δ κ) (c : DriverCall δ κ) : Prop :=
  ∀ i cap, c.presented = some (i, cap) → OwnSerial (historyAt i trace) cap

abbrev DriverRun [Driver δ] (routers : κ → κ × MessageRouter) :
    DriverTrace δ κ → DriverState δ κ → Prop :=
  TraceRun DriverState.step OwnIssuer (.new routers)

/-- The interrupt was injected in the trace by a call that presented a live
capability to write the device. -/
def InjectedUnder (trace : DriverTrace δ κ) (irq : Interrupt κ) (device : UInt64) : Prop :=
  ∃ pre post source,
    trace = pre ++ (.inject irq.issuer irq.cap irq.device source irq.message, .injected (.ok ())) ::
      post ∧
    AuthorityAt irq.issuer pre irq.cap (.device device) .write

/-- What is asked of a run: every driver is stood up with a live capability to
read its device, and handles interrupts injected with a live capability to
write its device. -/
structure DriversGated [Driver δ] (trace : DriverTrace δ κ) : Prop where
  stoodUp : ∀ pre post i cap device source router responseCap driver task,
    trace = pre ++ (.standUp i cap device source router responseCap driver task, .stoodUp true) ::
      post → AuthorityAt i pre cap (.device (Driver.device driver)) .read
  handled : ∀ pre post task r irq device,
    trace = pre ++ (.poll task, .polled r (some (irq, device))) :: post →
      InjectedUnder pre irq device

/-- The devices named at stand-up and at injection are the driver's. -/
structure DevicesAgree [Driver δ] (trace : DriverTrace δ κ) : Prop where
  stoodUp : ∀ i cap device source router responseCap driver task,
    (.standUp i cap device source router responseCap driver task, .stoodUp true) ∈ trace →
      device = Driver.device driver
  handled : ∀ task r irq device,
    (.poll task, .polled r (some (irq, device))) ∈ trace → irq.device = device

/-! ## What holds along every run -/

structure DriverInv (trace : DriverTrace δ κ) (s : DriverState δ κ) : Prop where
  tracks : ∀ i, Tracks (s.issuers i) (historyAt i trace)
  sources : ∀ name source, s.sources name = some source → ∀ irq ∈ source.queue,
    InjectedUnder trace irq irq.device
  tasks : ∀ name task, s.tasks name = some task → ∀ irq ∈ task.source.queue,
    InjectedUnder trace irq irq.device

omit [DecidableEq κ] in
/-- What holds of all values under names stays true when one is replaced. -/
theorem forall_update [DecidableEq κ] {β : Type} {f : κ → Option β} {P : β → Prop}
    (hf : ∀ k x, f k = some x → P x) {name : κ} {v : Option β} (hv : ∀ x, v = some x → P x)
    (k : κ) (x : β) (hx : update f name v k = some x) : P x := by
  by_cases hk : k = name
  · subst hk
    exact hv x (by simpa using hx)
  · exact hf k x (by simpa [hk] using hx)

theorem historyAt_concat (i : κ) (trace : DriverTrace δ κ) (e : DriverCall δ κ × DriverReply κ) :
    historyAt i (trace ++ [e]) = (issuerEventAt i e).toList ++ historyAt i trace := by
  unfold historyAt
  cases h : issuerEventAt i e <;> simp [h]

variable {s : DriverState δ κ} {trace : DriverTrace δ κ} {irq : Interrupt κ}
  {routers : κ → κ × MessageRouter}

theorem InjectedUnder.concat (h : InjectedUnder trace irq device)
    (e : DriverCall δ κ × DriverReply κ) : InjectedUnder (trace ++ [e]) irq device := by
  obtain ⟨pre, post, source, rfl, hauth⟩ := h
  exact ⟨pre, post ++ [e], source, by simp, hauth⟩

/-- An issuer that authorizes a capability with a serial of its own holds it. -/
theorem DriverInv.authority (h : DriverInv trace s) {i : κ}
    (hown : OwnSerial (historyAt i trace) cap) {resource : Resource} {right : Right}
    (hauth : (s.issuers i).authorizes cap resource right = true) :
    AuthorityAt i trace cap resource right :=
  ((h.tracks i).authorizes_iff.mpr (fun own hheld hs => hown own hheld.minted hs) _ _).mp hauth

/-- A call that leaves the issuers alone. -/
theorem DriverInv.tracks_concat (h : DriverInv trace s) {e : DriverCall δ κ × DriverReply κ}
    (he : ∀ i, issuerEventAt i e = none) (i : κ) :
    Tracks (s.issuers i) (historyAt i (trace ++ [e])) := by
  rw [historyAt_concat, he]
  exact h.tracks i

variable [Driver δ]

theorem DriverInv.call {s' : DriverState δ κ} {c : DriverCall δ κ} {r : DriverReply κ}
    (h : DriverInv trace s) (hown : OwnIssuer trace c) (hstep : s.step c = some (r, s')) :
    DriverInv (trace ++ [(c, r)]) s' := by
  have hsources : ∀ name source, s.sources name = some source → ∀ irq ∈ source.queue,
      InjectedUnder (trace ++ [(c, r)]) irq irq.device := fun name source hs irq hirq =>
    (h.sources name source hs irq hirq).concat _
  have htasks : ∀ name task, s.tasks name = some task → ∀ irq ∈ task.source.queue,
      InjectedUnder (trace ++ [(c, r)]) irq irq.device := fun name task hs irq hirq =>
    (h.tasks name task hs irq hirq).concat _
  cases c with
  | mint i resource right =>
    obtain ⟨⟨cap, issuer⟩, hm, heq⟩ := map_eq_some_iff.mp hstep
    cases heq
    refine ⟨fun j => ?_, hsources, htasks⟩
    rw [historyAt_concat]
    by_cases hj : i = j
    · subst hj
      simpa [issuerEventAt] using (h.tracks i).mint hm
    · simpa [issuerEventAt, hj, Ne.symm hj] using h.tracks j
  | revoke i cap =>
    cases hstep
    refine ⟨fun j => ?_, hsources, htasks⟩
    rw [historyAt_concat]
    by_cases hj : i = j
    · subst hj
      simpa [issuerEventAt] using (h.tracks i).revoke (hown i cap rfl)
    · simpa [issuerEventAt, hj, Ne.symm hj] using h.tracks j
  | router name i router =>
    cases hstep
    exact ⟨h.tracks_concat fun _ => rfl, hsources, htasks⟩
  | newSource name =>
    cases hstep
    refine ⟨h.tracks_concat fun _ => rfl, forall_update hsources fun source hsource => ?_, htasks⟩
    cases hsource
    exact fun irq hirq => (by cases hirq)
  | inject i cap device name message =>
    obtain ⟨source, hsource, heq⟩ := map_eq_some_iff.mp hstep
    generalize hinject : source.inject (s.issuers i) cap device ⟨message, i, cap, device⟩ = out
      at heq
    obtain ⟨o, source'⟩ := out
    cases heq
    refine ⟨h.tracks_concat fun _ => rfl, forall_update hsources fun x hx => ?_, htasks⟩
    cases hx
    cases o with
    | error e =>
      obtain rfl : source' = source := by grind [MockInterruptSource.inject]
      exact hsources name source' hsource
    | ok u =>
      obtain ⟨hauth, rfl⟩ := MockInterruptSource.inject_ok hinject
      intro irq hirq
      obtain hirq | rfl := by simpa using hirq
      · exact hsources name source hsource irq hirq
      · exact ⟨trace, [], name, rfl, h.authority (hown i cap rfl) hauth⟩
  | popInterrupt name =>
    obtain ⟨source, hsource, heq⟩ := map_eq_some_iff.mp hstep
    cases heq
    refine ⟨h.tracks_concat fun _ => rfl, forall_update hsources fun x hx => ?_, htasks⟩
    cases hx
    exact fun irq hirq => hsources name source hsource irq (source.mem_of_mem_popInterrupt hirq)
  | standUp i cap device name router responseCap driver taskName =>
    obtain ⟨source, hsource, heq⟩ := map_eq_some_iff.mp hstep
    have hmoved : ∀ k x, update s.sources name none k = some x → ∀ irq ∈ x.queue,
        InjectedUnder (trace ++ [(_, r)]) irq irq.device :=
      forall_update hsources fun x hx => (by cases hx)
    dsimp only at heq
    split at heq
    · next task htask =>
      cases heq
      refine ⟨h.tracks_concat fun _ => rfl, hmoved, forall_update htasks fun x hx => ?_⟩
      cases hx
      rw [(standUp_eq_some htask).2]
      exact hsources name source hsource
    · cases heq
      exact ⟨h.tracks_concat fun _ => rfl, hmoved, htasks⟩
  | poll name =>
    obtain ⟨task, htask, heq⟩ := map_eq_some_iff.mp hstep
    cases heq
    refine ⟨h.tracks_concat fun _ => rfl, hsources, forall_update htasks fun x hx => ?_⟩
    cases hx
    refine fun irq hirq => htasks name task htask irq (task.source.mem_of_mem_popInterrupt ?_)
    grind [DriverTask.poll]

theorem DriverRun.inv (h : DriverRun routers trace s) : DriverInv trace s :=
  TraceRun.keeps ⟨fun _ => .new, fun _ _ h => (by cases h), fun _ _ h => (by cases h)⟩
    (fun _ _ _ _ _ hinv hown hstep => hinv.call hown hstep) h

/-- A driver is stood up under authority over the device `stand_up` is told. -/
theorem DriverRun.authority_of_stoodUp
    {pre post : DriverTrace δ κ} {i source router task : κ}
    {responseCap : Capability} {driver : δ}
    (h : DriverRun routers (pre ++
      (.standUp i cap device source router responseCap driver task, .stoodUp true) :: post) s) :
    AuthorityAt i pre cap (.device device) .read := by
  obtain ⟨s₁, s₂, hpre, hown, hstep⟩ := TraceRun.upTo h
  obtain ⟨x, -, heq⟩ := map_eq_some_iff.mp hstep
  dsimp only at heq
  split at heq
  · next htask => exact (DriverRun.inv hpre).authority (hown i cap rfl) (standUp_eq_some htask).1
  · cases heq

/-- An interrupt that is handled was injected under authority over the device
`inject` was told. -/
theorem DriverRun.injected_of_handled {pre post : DriverTrace δ κ} {task : κ} {r : Poll}
    (h : DriverRun routers (pre ++ (.poll task, .polled r (some (irq, device))) :: post) s) :
    InjectedUnder pre irq irq.device := by
  obtain ⟨s₁, s₂, hpre, -, hstep⟩ := TraceRun.upTo h
  obtain ⟨x, hx, heq⟩ := map_eq_some_iff.mp hstep
  simp only [Prod.mk.injEq, DriverReply.polled.injEq] at heq
  obtain ⟨head, hhead, hirq⟩ := map_eq_some_iff.mp heq.1.2
  cases hirq
  exact (DriverRun.inv hpre).tasks task x hx irq (List.mem_of_mem_head? hhead)

omit [Driver δ] in
theorem InjectedUnder.device_eq {d d' : UInt64} (h : InjectedUnder trace irq d)
    (h' : InjectedUnder trace irq d') : d = d' := by
  obtain ⟨-, -, -, -, -, hd, -⟩ := h
  obtain ⟨-, -, -, -, -, hd', -⟩ := h'
  exact Resource.device.inj (hd.symm.trans hd')

/-- Drivers are gated by their devices in exactly the runs in which the devices
named at stand-up and at injection are those of the drivers. -/
theorem drivers_gated_iff {routers : κ → κ × MessageRouter} {trace : DriverTrace δ κ}
    {s : DriverState δ κ} (h : DriverRun routers trace s) :
    DriversGated trace ↔ DevicesAgree trace := by
  constructor
  · intro hgated
    constructor
    · intro i cap device source router responseCap driver task hmem
      obtain ⟨pre, post, rfl⟩ := List.append_of_mem hmem
      have hasked := h.authority_of_stoodUp
      have hneeded := hgated.stoodUp pre post _ _ _ _ _ _ _ _ rfl
      exact Resource.device.inj (hasked.2.1.symm.trans hneeded.2.1)
    · intro task r irq device hmem
      obtain ⟨pre, post, rfl⟩ := List.append_of_mem hmem
      exact h.injected_of_handled.device_eq (hgated.handled pre post task r irq device rfl)
  · intro hagree
    constructor
    · rintro pre post i cap device source router responseCap driver task rfl
      rw [← hagree.stoodUp i cap device source router responseCap driver task (by simp)]
      exact h.authority_of_stoodUp
    · rintro pre post task r irq device rfl
      rw [← hagree.handled task r irq device (by simp)]
      exact h.injected_of_handled

end

/-- The driver of the framework's tests: it echoes an interrupt's payload on a
response channel. -/
structure EchoDriver where
  deviceId : UInt64
  responseChannel : UInt64

instance : Driver EchoDriver where
  device driver := driver.deviceId
  handleInterrupt driver msg router issuer cap :=
    let out : Message := ⟨driver.responseChannel, msg.payload⟩
    ([out], driver, (router.send issuer cap out).2)

/-- One source, injected for device 5, and a driver stood up on it. -/
def echoTrace (deviceId : UInt64) : DriverTrace EchoDriver Unit :=
  let cap : Capability := ⟨0, .device 5, .readWrite⟩
  [(.mint () (.device 5) .readWrite, .minted cap), (.newSource (), .done),
    (.inject () cap 5 () ⟨5, [0xDE]⟩, .injected (.ok ())),
    (.standUp () cap 5 () () cap ⟨deviceId, 9⟩ (), .stoodUp true),
    (.poll (), .polled .pending (some (⟨⟨5, [0xDE]⟩, (), cap, 5⟩, deviceId)))]

theorem echoTrace_run (deviceId : UInt64) :
    ∃ s, DriverRun (fun _ => ((), .new)) (echoTrace deviceId) s := by
  have hown : ∀ trace : DriverTrace EchoDriver Unit, historyAt () trace =
      [.minted ⟨0, .device 5, .readWrite⟩] → OwnSerial (historyAt () trace) ⟨0, .device 5,
        .readWrite⟩ := by
    intro trace htrace own hmem _
    grind
  exact ⟨_, .call (.call (.call (.call (.call .start (fun _ _ h => (by cases h)) rfl)
    (fun _ _ h => (by cases h)) rfl) (fun _ _ h => (by cases h; exact hown _ rfl)) rfl)
    (fun _ _ h => (by cases h; exact hown _ rfl)) rfl) (fun _ _ h => (by cases h)) rfl⟩

theorem drivers_gated_echo : DriversGated (echoTrace 5) := by
  obtain ⟨s, hrun⟩ := echoTrace_run 5
  refine (drivers_gated_iff hrun).mpr ⟨?_, ?_⟩
  · intro i cap device source router responseCap driver task hmem
    obtain ⟨-, rfl, -, rfl⟩ := by simpa [echoTrace] using hmem
    rfl
  · intro task r irq device hmem
    obtain ⟨-, rfl, rfl⟩ := by simpa [echoTrace] using hmem
    rfl

/-- A driver of device 6 is stood up with a capability for device 5, and
handles the interrupts of device 5. -/
theorem driver_of_another_device : ∃ s, DriverRun (fun _ => ((), .new)) (echoTrace 6) s ∧
    ¬ DriversGated (echoTrace 6) := by
  obtain ⟨s, hrun⟩ := echoTrace_run 6
  refine ⟨s, hrun, fun hgated => ?_⟩
  have hauth := hgated.stoodUp ((echoTrace 6).take 3) ((echoTrace 6).drop 4) _ _ _ _ _ _ _ _ rfl
  exact absurd hauth.2.1 (by decide)

end Archon
