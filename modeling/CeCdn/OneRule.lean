/-
One authorization rule. The HTTP front-end and the mesh host decide on private
content with the same `authorize`, but the front-end passes it a test by which
nothing is revoked. So the two agree exactly as long as no link of the chain is
revoked (`one_authorization_rule_iff`).
-/
import CeCdn.MeshAuth
import CeCdn.ServerFacts

namespace CeCdn

open Lib Text Word

namespace HostEnv

variable (host : HostEnv)

/-- The HTTP front-end of the same node: the same authorizer, id and roots. -/
def frontEnd (verify : Verify) (presignKeys : List NodeId) (maxObjectBytes : Nat) : ServerEnv where
  iam := host.iam
  verify := verify
  edgeId := host.edgeId
  roots := host.roots
  presignKeys := presignKeys
  maxObjectBytes := maxObjectBytes

/-- The mesh host's decision on a read. -/
def meshDecision (cid : String) (publicSet : Finset String) (requester : NodeId)
    (capsHex : String) (now : Nat) : Decision :=
  (decideAccess ABILITY_READ cid publicSet (host.authorizeFn capsHex requester now)).1

/-- Some link of the presented chain is revoked at this node. -/
def ChainRevoked (capsHex : String) : Prop :=
  ∃ chain, host.iam.decodeChain capsHex = some chain ∧
    ∃ link ∈ chain, host.isRevoked (host.iam.issuer link) (host.iam.nonce link) = true

/-- What the front-end grants by proof and chain, the mesh host allows, and a
chain with a revoked link grants on neither path. -/
structure OneRule (front : ServerEnv) (cid : String) (publicSet : Finset String)
    (requester : NodeId) (proof : Option (List Char)) (query capsHex : String) (now : Nat) : Prop where
  agrees : front.resolveGrant cid publicSet requester proof query capsHex now = .popAndCap →
    host.meshDecision cid publicSet requester capsHex now = .allow
  revoked : host.ChainRevoked capsHex →
    front.resolveGrant cid publicSet requester proof query capsHex now ≠ .popAndCap ∧
    host.meshDecision cid publicSet requester capsHex now ≠ .allow

variable {host} {cid capsHex : String} {publicSet : Finset String} {requester : NodeId} {now : Nat}

/-- The mesh host asks for a chain that authorizes under the revoked set. -/
theorem meshDecision_allow (hcid : cid ∉ publicSet) :
    host.meshDecision cid publicSet requester capsHex now = .allow ↔
      ∃ chain, host.iam.decodeChain capsHex = some chain ∧
        host.iam.authorize host.edgeId host.roots [] now requester ABILITY_READ chain
          host.isRevoked = .ok () := by
  rw [meshDecision, decideAccess_allow, or_iff_right fun h => hcid h.2, authorizeFn_eq_ok]

/-- The mesh host refuses a chain with a revoked link. -/
theorem meshDecision_of_revoked (hiam : host.iam.ChecksRevocation) (hcid : cid ∉ publicSet)
    (h : host.ChainRevoked capsHex) :
    host.meshDecision cid publicSet requester capsHex now ≠ .allow := by
  intro hallow
  obtain ⟨chain, hchain, hok⟩ := (meshDecision_allow hcid).1 hallow
  obtain ⟨chain', hchain', hlink⟩ := h
  rw [hchain] at hchain'
  obtain rfl := Option.some.inj hchain'
  exact hiam.rejects _ _ _ _ _ _ _ _ hlink hok

/-- The mesh host accepts what the front-end authorizes when nothing is revoked. -/
theorem meshDecision_of_not_revoked (hiam : host.iam.ChecksRevocation) {verify : Verify}
    {presignKeys : List NodeId} {maxObjectBytes : Nat} (hcid : cid ∉ publicSet)
    (h : ¬ host.ChainRevoked capsHex)
    (hchain : (host.frontEnd verify presignKeys maxObjectBytes).ChainAuthorizes requester capsHex
      now) :
    host.meshDecision cid publicSet requester capsHex now = .allow := by
  obtain ⟨chain, hdec, hok⟩ := hchain
  refine (meshDecision_allow hcid).2 ⟨chain, hdec, ?_⟩
  have hsame : ∀ link ∈ chain, host.isRevoked (host.iam.issuer link) (host.iam.nonce link) =
      neverRevoked (host.iam.issuer link) (host.iam.nonce link) := by
    intro link hlink
    cases hr : host.isRevoked (host.iam.issuer link) (host.iam.nonce link) with
    | false => rfl
    | true => exact absurd ⟨chain, hdec, link, hlink, hr⟩ h
  rw [hiam.links_only _ _ _ _ _ _ _ _ _ hsame]
  exact hok

end HostEnv

open HostEnv in
/-- **The front-end and the mesh host follow one authorization rule exactly
when it is not the case that the request passes both gates of the front-end
with a chain that has a revoked link.** -/
theorem one_authorization_rule_iff (host : HostEnv) (hiam : host.iam.ChecksRevocation)
    (verify : Verify) (presignKeys : List NodeId) (maxObjectBytes : Nat) (cid : String)
    (publicSet : Finset String) (hcid : cid ∉ publicSet) (requester : NodeId)
    (proof : Option (List Char)) (query capsHex : String) (now : Nat) :
    host.OneRule (host.frontEnd verify presignKeys maxObjectBytes) cid publicSet requester proof
        query capsHex now ↔
      ¬ (¬ (host.frontEnd verify presignKeys maxObjectBytes).LinkVerifies cid query now ∧
        (host.frontEnd verify presignKeys maxObjectBytes).GatesPass cid requester proof capsHex
          now ∧
        host.ChainRevoked capsHex) := by
  refine ⟨fun hone h => ?_, fun h => ⟨fun hgrant => ?_, fun hrev => ⟨fun hgrant => ?_, ?_⟩⟩⟩
  · obtain ⟨hlink, hgates, hrev⟩ := h
    exact (hone.revoked hrev).1 ((ServerEnv.resolveGrant_popAndCap_iff hcid).2 ⟨hlink, hgates⟩)
  · obtain ⟨hlink, hgates⟩ := (ServerEnv.resolveGrant_popAndCap_iff hcid).1 hgrant
    have hrev : ¬ host.ChainRevoked capsHex := fun hrev => h ⟨hlink, hgates, hrev⟩
    exact meshDecision_of_not_revoked hiam hcid hrev hgates.chain
  · obtain ⟨hlink, hgates⟩ := (ServerEnv.resolveGrant_popAndCap_iff hcid).1 hgrant
    exact h ⟨hlink, hgates, hrev⟩
  · exact meshDecision_of_revoked hiam hcid hrev

/-! ### One revoked chain -/

/-- A node that knows the capability `c0`, and which pairs are revoked. -/
def sampleHost (revoked : Finset (NodeId × Nat)) : HostEnv where
  rs := ⟨fun _ => "", fun _ => .error "", fun _ => false, fun _ => true⟩
  iam := toyIam fun s => if s = "c0" then some [sampleCap] else none
  fromSlice := fun _ => .error ""
  shapeError := fun _ => ""
  edgeId := sampleEdge
  roots := []
  revoked := revoked

theorem sampleHost_frontEnd (revoked : Finset (NodeId × Nat)) :
    (sampleHost revoked).frontEnd toyVerify [] 0 = sampleEnv := rfl

theorem sampleEnv_grants :
    sampleEnv.resolveGrant "a" ∅ sampleReader (some (sampleProof (ByteArr.zero 16))) "" "c0" 50 =
      .popAndCap := by
  decide +kernel

/-- With nothing revoked both paths grant. -/
theorem one_authorization_rule_sample :
    (sampleHost ∅).OneRule ((sampleHost ∅).frontEnd toyVerify [] 0) "a" ∅ sampleReader
      (some (sampleProof (ByteArr.zero 16))) "" "c0" 50 :=
  (one_authorization_rule_iff (sampleHost ∅) (toyIam_checksRevocation _) toyVerify [] 0 "a" ∅
    (Finset.notMem_empty "a") sampleReader (some (sampleProof (ByteArr.zero 16))) "" "c0" 50).2
    fun h => by
      obtain ⟨-, -, chain, -, link, -, hlink⟩ := h
      simp [HostEnv.isRevoked, sampleHost] at hlink

/-- With the one capability revoked, the front-end still grants. -/
theorem one_authorization_rule_broken :
    ¬ (sampleHost {(sampleEdge, 1)}).OneRule
      ((sampleHost {(sampleEdge, 1)}).frontEnd toyVerify [] 0) "a" ∅ sampleReader
      (some (sampleProof (ByteArr.zero 16))) "" "c0" 50 := by
  intro h
  have hrev : (sampleHost {(sampleEdge, 1)}).ChainRevoked "c0" :=
    ⟨[sampleCap], rfl, sampleCap, List.mem_singleton_self _, by decide⟩
  refine (h.revoked hrev).1 ?_
  rw [sampleHost_frontEnd]
  exact sampleEnv_grants

end CeCdn
