import Mathlib.Data.Finset.Basic

/-!
# Archon.Bridge.Capability

Capabilities and the issuers that mint and revoke them
(`crates/tpt-archon-bridge/src/capability.rs`).

An issuer decides by the serial number alone whether a capability is live.
Read against its history, it is right about every capability whose serial it
has not given to another one (`Tracks.authorizes_iff`).
-/

namespace Archon

/-! ## Rights and resources -/

/-- The kind of access a capability grants. -/
inductive Right where
  | read
  | write
  | readWrite
  deriving DecidableEq, Repr

namespace Right

def allowsRead : Right → Bool
  | read | readWrite => true
  | write => false

def allowsWrite : Right → Bool
  | write | readWrite => true
  | read => false

/-- Whatever `requested` allows, `granted` allows too. -/
def Covers (granted requested : Right) : Prop :=
  (requested.allowsRead = true → granted.allowsRead = true) ∧
    (requested.allowsWrite = true → granted.allowsWrite = true)

instance (granted requested : Right) : Decidable (granted.Covers requested) :=
  inferInstanceAs (Decidable (_ ∧ _))

theorem Covers.refl (r : Right) : r.Covers r := ⟨id, id⟩

end Right

/-- A storage page, a message channel, or a device. -/
inductive Resource where
  | page (id : UInt64)
  | channel (id : UInt64)
  | device (id : UInt64)
  deriving DecidableEq, Repr

/-- A capability token.  Code outside the issuer cannot make one. -/
structure Capability where
  serial : Nat
  resource : Resource
  right : Right
  deriving DecidableEq, Repr

/-- The structural check: the resource, and the right. -/
def Capability.authorizes (cap : Capability) (resource : Resource) (right : Right) : Bool :=
  decide (cap.resource = resource) &&
    match right with
    | .read => cap.right.allowsRead
    | .write => cap.right.allowsWrite
    | .readWrite => cap.right.allowsRead && cap.right.allowsWrite

variable {cap : Capability} {resource : Resource}

theorem Capability.authorizes_iff {right : Right} :
    cap.authorizes resource right = true ↔ cap.resource = resource ∧ cap.right.Covers right := by
  unfold authorizes Right.Covers
  cases right <;> simp [Right.allowsRead, Right.allowsWrite]

/-! ## Issuers -/

/-- Serials are `u64`. -/
def SERIAL_LIMIT : Nat := UInt64.size

/-- The next serial to give out, and the serials that are live. -/
structure CapabilityIssuer where
  nextSerial : Nat
  live : Finset Nat
  deriving DecidableEq

namespace CapabilityIssuer

def new : CapabilityIssuer := ⟨0, ∅⟩

/-- Mint a capability.  Without a next serial the code panics. -/
def mint (issuer : CapabilityIssuer) (resource : Resource) (right : Right) :
    Option (Capability × CapabilityIssuer) :=
  if issuer.nextSerial + 1 < SERIAL_LIMIT then
    some (⟨issuer.nextSerial, resource, right⟩,
      ⟨issuer.nextSerial + 1, insert issuer.nextSerial issuer.live⟩)
  else none

def revoke (issuer : CapabilityIssuer) (cap : Capability) : CapabilityIssuer :=
  { issuer with live := issuer.live.erase cap.serial }

def validate (issuer : CapabilityIssuer) (cap : Capability) : Bool :=
  decide (cap.serial ∈ issuer.live)

/-- Live, and structurally authorized. -/
def authorizes (issuer : CapabilityIssuer) (cap : Capability) (resource : Resource)
    (right : Right) : Bool :=
  issuer.validate cap && cap.authorizes resource right

theorem mint_eq_some {issuer issuer' : CapabilityIssuer} {right : Right}
    (h : issuer.mint resource right = some (cap, issuer')) :
    cap = ⟨issuer.nextSerial, resource, right⟩ ∧
      issuer' = ⟨issuer.nextSerial + 1, insert issuer.nextSerial issuer.live⟩ := by
  unfold mint at h
  split at h
  · cases h
    simp
  · cases h

theorem authorizes_iff {issuer : CapabilityIssuer} {right : Right} :
    issuer.authorizes cap resource right = true ↔
      cap.serial ∈ issuer.live ∧ cap.resource = resource ∧ cap.right.Covers right := by
  simp [authorizes, validate, Capability.authorizes_iff]

end CapabilityIssuer

/-! ## Histories -/

/-- What has happened at an issuer. -/
inductive IssuerEvent where
  | minted (cap : Capability)
  | revoked (cap : Capability)
  deriving DecidableEq

/-- By its history, newest event first, the issuer has minted `cap` and not
revoked it since. -/
def Held : List IssuerEvent → Capability → Prop
  | [], _ => False
  | .minted c :: history, cap => cap = c ∨ Held history cap
  | .revoked c :: history, cap => cap ≠ c ∧ Held history cap

theorem Held.minted {history : List IssuerEvent} (h : Held history cap) :
    .minted cap ∈ history := by
  induction history with
  | nil => exact h.elim
  | cons e history ih =>
    cases e with
    | minted c =>
      obtain rfl | h := h
      · exact (.head _)
      · exact List.mem_cons_of_mem _ (ih h)
    | revoked c => exact List.mem_cons_of_mem _ (ih h.2)

/-- The issuer has given the serial of `cap` to no other capability. -/
def OwnSerial (history : List IssuerEvent) (cap : Capability) : Prop :=
  ∀ own, .minted own ∈ history → own.serial = cap.serial → own = cap

/-- The issuer's state agrees with its history. -/
structure Tracks (issuer : CapabilityIssuer) (history : List IssuerEvent) : Prop where
  serials : ∀ cap, .minted cap ∈ history → cap.serial < issuer.nextSerial
  unique : ∀ cap, .minted cap ∈ history → OwnSerial history cap
  live : ∀ serial, serial ∈ issuer.live ↔ ∃ cap, Held history cap ∧ cap.serial = serial

namespace Tracks

variable {issuer issuer' : CapabilityIssuer} {history : List IssuerEvent} {cap : Capability}
  {resource : Resource} {right : Right}

theorem new : Tracks .new [] :=
  ⟨fun _ h => (by cases h), fun _ h => (by cases h), fun serial => by
    simp [CapabilityIssuer.new, Held]⟩

section

variable (h : Tracks issuer history)
include h

theorem mint (hm : issuer.mint resource right = some (cap, issuer')) :
    Tracks issuer' (.minted cap :: history) := by
  obtain ⟨rfl, rfl⟩ := CapabilityIssuer.mint_eq_some hm
  have hold : ∀ c, .minted c ∈ history → c.serial ≠ issuer.nextSerial := fun c hc =>
    Nat.ne_of_lt (h.serials c hc)
  refine ⟨fun c hc => ?_, fun c hc own hown hs => ?_, fun serial => ?_⟩
  · simp only [List.mem_cons, IssuerEvent.minted.injEq] at hc
    obtain rfl | hc := hc
    · simp
    · exact Nat.lt_succ_of_lt (h.serials c hc)
  · simp only [List.mem_cons, IssuerEvent.minted.injEq] at hc hown
    obtain rfl | hc := hc <;> obtain rfl | hown := hown
    · rfl
    · exact absurd hs (hold own hown)
    · exact absurd hs.symm (hold c hc)
    · exact h.unique c hc own hown hs
  · simp only [Finset.mem_insert, h.live]
    constructor
    · rintro (rfl | ⟨c, hc, rfl⟩)
      · exact ⟨_, .inl rfl, rfl⟩
      · exact ⟨c, .inr hc, rfl⟩
    · rintro ⟨c, rfl | hc, rfl⟩
      · exact .inl rfl
      · exact .inr ⟨c, hc, rfl⟩

/-- A revoked capability takes its serial with it, so it must not be one the
issuer has given to another capability. -/
theorem revoke (hown : OwnSerial history cap) :
    Tracks (issuer.revoke cap) (.revoked cap :: history) := by
  have hmem : ∀ c, .minted c ∈ IssuerEvent.revoked cap :: history ↔ .minted c ∈ history := by
    simp
  refine ⟨fun c hc => h.serials c ((hmem c).mp hc),
    fun c hc own ho hs => h.unique c ((hmem c).mp hc) own ((hmem own).mp ho) hs, fun serial => ?_⟩
  simp only [CapabilityIssuer.revoke, Finset.mem_erase, h.live]
  constructor
  · rintro ⟨hne, c, hc, rfl⟩
    exact ⟨c, ⟨fun heq => hne (by rw [heq]), hc⟩, rfl⟩
  · rintro ⟨c, ⟨hne, hc⟩, rfl⟩
    exact ⟨fun hs => hne (hown c hc.minted hs), c, hc, rfl⟩

/-- The issuer is right about `cap` unless it still holds another capability
of that serial. -/
theorem authorizes_iff :
    (∀ resource right, issuer.authorizes cap resource right = true ↔
      Held history cap ∧ cap.resource = resource ∧ cap.right.Covers right) ↔
      ∀ own, Held history own → own.serial = cap.serial → own = cap := by
  constructor
  · intro hall own hheld hs
    have hlive : cap.serial ∈ issuer.live := (h.live _).mpr ⟨own, hheld, hs⟩
    have hcap : Held history cap := ((hall cap.resource cap.right).mp
      (CapabilityIssuer.authorizes_iff.mpr ⟨hlive, rfl, .refl _⟩)).1
    exact h.unique cap hcap.minted own hheld.minted hs
  · intro hown resource right
    rw [CapabilityIssuer.authorizes_iff, h.live]
    constructor
    · rintro ⟨⟨own, hheld, hs⟩, hauth⟩
      exact ⟨hown own hheld hs ▸ hheld, hauth⟩
    · rintro ⟨hheld, hauth⟩
      exact ⟨⟨cap, hheld, rfl⟩, hauth⟩

end

end Tracks

end Archon
