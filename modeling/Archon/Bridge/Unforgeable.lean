import Archon.Bridge.Capability

/-!
# Archon.Bridge.Unforgeable

Runs of any number of issuers, whose capabilities may be presented to each
other.  Serials of different issuers coincide, so an issuer takes a foreign
capability for its own of the same serial, to authorize it and to revoke it.
Where no issuer is shown a capability whose serial it has given to another
one, capabilities are unforgeable.
-/

namespace Archon

variable {ι : Type}

/-- The issuers, and what has happened at each. -/
structure Issuers (ι : Type) where
  issuer : ι → CapabilityIssuer
  history : ι → List IssuerEvent

/-- A call on one of the issuers. -/
inductive IssuerCall (ι : Type) where
  | mint (i : ι) (resource : Resource) (right : Right)
  | revoke (i : ι) (cap : Capability)

namespace Issuers

def new : Issuers ι := ⟨fun _ => .new, fun _ => []⟩

/-- Every issuer's state agrees with its history. -/
def Tracked (s : Issuers ι) : Prop := ∀ i, Tracks (s.issuer i) (s.history i)

theorem tracked_new : (new : Issuers ι).Tracked := fun _ => .new

/-- Some issuer has minted the capability. -/
def Obtained (s : Issuers ι) (cap : Capability) : Prop := ∃ i, .minted cap ∈ s.history i

variable [DecidableEq ι]

/-- The issuer `i` moves on, with `event`. -/
def record (s : Issuers ι) (i : ι) (issuer : CapabilityIssuer) (event : IssuerEvent) : Issuers ι :=
  ⟨Function.update s.issuer i issuer, Function.update s.history i (event :: s.history i)⟩

/-- One call; `none` where the code panics. -/
def step (s : Issuers ι) : IssuerCall ι → Option (Issuers ι)
  | .mint i resource right =>
    ((s.issuer i).mint resource right).map fun (cap, issuer) => s.record i issuer (.minted cap)
  | .revoke i cap => some (s.record i ((s.issuer i).revoke cap) (.revoked cap))

theorem Tracked.record {s : Issuers ι} (h : s.Tracked) {i : ι} {issuer : CapabilityIssuer}
    {event : IssuerEvent} (hi : Tracks issuer (event :: s.history i)) :
    (s.record i issuer event).Tracked := by
  intro j
  unfold Issuers.record
  by_cases hj : j = i
  · grind
  · simpa [hj] using h j

/-- A capability that is revoked has been obtained: none is made up. -/
def Presented (s : Issuers ι) : IssuerCall ι → Prop
  | .mint _ _ _ => True
  | .revoke _ cap => s.Obtained cap

/-- And its serial is no other capability's at the issuer it is shown to. -/
def OwnSerials (s : Issuers ι) : IssuerCall ι → Prop
  | .mint _ _ _ => True
  | .revoke i cap => OwnSerial (s.history i) cap

theorem Tracked.step {s s' : Issuers ι} (h : s.Tracked) {call : IssuerCall ι}
    (hown : s.OwnSerials call) (hs : s.step call = some s') : s'.Tracked := by
  cases call with
  | mint i resource right =>
    obtain ⟨⟨cap, issuer⟩, hm, rfl⟩ := Option.map_eq_some_iff.mp hs
    exact h.record ((h i).mint hm)
  | revoke i cap =>
    cases hs
    exact h.record ((h i).revoke hown)

/-- What any number of calls that may be made leads to. -/
def Reaches (allowed : Issuers ι → IssuerCall ι → Prop) : Issuers ι → Issuers ι → Prop :=
  Relation.ReflTransGen fun s s' => ∃ call, allowed s call ∧ s.step call = some s'

theorem Reaches.tracked {allowed : Issuers ι → IssuerCall ι → Prop}
    (hown : ∀ s call, allowed s call → s.OwnSerials call) {s : Issuers ι}
    (hr : Reaches allowed new s) : s.Tracked := by
  induction hr with
  | refl => exact tracked_new
  | tail _ hstep ih =>
    obtain ⟨call, hallowed, hs⟩ := hstep
    exact ih.step (hown _ call hallowed) hs

/-- The issuer `i` authorizes exactly what its history says: it has minted
`cap` for that resource, with a right that covers the requested one, and has
not revoked it. -/
def RightAbout (s : Issuers ι) (i : ι) (cap : Capability) : Prop :=
  ∀ resource right, (s.issuer i).authorizes cap resource right = true ↔
    Held (s.history i) cap ∧ cap.resource = resource ∧ cap.right.Covers right

/-- In every run whose revocations show no issuer another one's capability of
a serial it has given out, an issuer is right about a capability exactly if it
holds no other one of that serial. -/
theorem rightAbout_iff {s : Issuers ι}
    (hr : Reaches (fun s call => s.Presented call ∧ s.OwnSerials call) new s) (i : ι)
    (cap : Capability) : s.RightAbout i cap ↔
      ∀ own, Held (s.history i) own → own.serial = cap.serial → own = cap :=
  (Reaches.tracked (fun _ _ h => h.2) hr i).authorizes_iff

/-- Page 3 for reading and writing, from one issuer. -/
def pageThree : Capability := ⟨0, .page 3, .readWrite⟩

/-- Page 4 for reading, from another. -/
def pageFour : Capability := ⟨0, .page 4, .read⟩

/-- One issuer has minted page 3, then revoked it; the other has minted page 4. -/
theorem rightAbout_iff_pageFour : ∃ s : Issuers Bool, .minted pageThree ∈ s.history true ∧
    .minted pageFour ∈ s.history false ∧ s.RightAbout false pageFour ∧
      s.RightAbout true pageFour := by
  let s₁ := (new : Issuers Bool).record true ⟨1, {0}⟩ (.minted pageThree)
  let s₂ := s₁.record false ⟨1, {0}⟩ (.minted pageFour)
  let s₃ := s₂.record true ⟨1, ∅⟩ (.revoked pageThree)
  have h₁ : (new : Issuers Bool).step (.mint true (.page 3) .readWrite) = some s₁ := rfl
  have h₂ : s₁.step (.mint false (.page 4) .read) = some s₂ := rfl
  have h₃ : s₂.step (.revoke true pageThree) = some s₃ := rfl
  have hmem : .minted pageThree ∈ s₂.history true := List.mem_singleton.mpr rfl
  have hown : OwnSerial (s₂.history true) pageThree := by
    intro own ho _
    cases List.mem_singleton.mp ho
    rfl
  have hr : Reaches (fun s call => s.Presented call ∧ s.OwnSerials call) new s₃ :=
    .tail (.tail (.single ⟨.mint true (.page 3) .readWrite, ⟨trivial, trivial⟩, h₁⟩)
      ⟨.mint false (.page 4) .read, ⟨trivial, trivial⟩, h₂⟩)
      ⟨.revoke true pageThree, ⟨⟨true, hmem⟩, hown⟩, h₃⟩
  refine ⟨s₃, List.mem_cons_of_mem _ hmem, List.mem_singleton.mpr rfl, ?_, ?_⟩
  · refine (rightAbout_iff hr false pageFour).mpr fun own hheld _ => ?_
    obtain rfl | hheld := hheld
    · rfl
    · exact hheld.elim
  · refine (rightAbout_iff hr true pageFour).mpr fun own hheld _ => ?_
    obtain ⟨hne, rfl | hheld⟩ := hheld
    · exact absurd rfl hne
    · exact hheld.elim

/-- Two issuers mint once each: the second authorizes the first's capability
for a page it has never minted anything for. -/
theorem foreign_capability_authorized : ∃ s : Issuers Bool,
    Reaches (fun s call => s.Presented call) new s ∧ s.Obtained pageThree ∧
      (s.issuer false).authorizes pageThree (.page 3) .readWrite = true ∧
      .minted pageThree ∉ s.history false ∧ ¬ s.RightAbout false pageThree := by
  let s₁ := (new : Issuers Bool).record true ⟨1, {0}⟩ (.minted pageThree)
  let s₂ := s₁.record false ⟨1, {0}⟩ (.minted pageFour)
  have h₁ : (new : Issuers Bool).step (.mint true (.page 3) .readWrite) = some s₁ := rfl
  have h₂ : s₁.step (.mint false (.page 4) .read) = some s₂ := rfl
  have hauth : (s₂.issuer false).authorizes pageThree (.page 3) .readWrite = true := by decide
  have hnot : .minted pageThree ∉ s₂.history false := by decide
  have hr : Reaches (fun s call => s.Presented call) new s₂ :=
    .tail (.single ⟨.mint true (.page 3) .readWrite, trivial, h₁⟩)
      ⟨.mint false (.page 4) .read, trivial, h₂⟩
  refine ⟨s₂, hr, ⟨true, List.mem_singleton.mpr rfl⟩, hauth, hnot, fun hright => ?_⟩
  exact hnot ((hright _ _).mp hauth).1.minted

end Issuers

end Archon
