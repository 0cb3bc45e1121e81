/-
The two libraries the access checks rest on, as parameters: signatures
(`ce-identity`) and capability chains (`ce-iam-core`).
-/
import CeCdn.Lib.Text

namespace CeCdn

open Lib Text

abbrev NodeId := ByteArr 32

abbrev Signature := ByteArr 64

/-- `verify(key, message, signature).is_ok()`. -/
abbrev Verify := NodeId → List UInt8 → Signature → Bool

/-- What an ideal scheme promises of the signature that `signer` made over
`msg`: it verifies for that key and that message, and for no other. -/
def SignedBy (verify : Verify) (signer : NodeId) (msg : List UInt8) (sig : Signature) : Prop :=
  ∀ key m, verify key m sig = true ↔ key = signer ∧ m = msg

/-- Capability chains. A link is named by its issuer and nonce when it is
revoked; `authorize` takes the edge, the accepted roots, the edge's tags, the
clock, the requester, the action, the chain and the revocation test. -/
structure Iam where
  SignedCapability : Type
  issuer : SignedCapability → NodeId
  nonce : SignedCapability → Nat
  decodeChain : String → Option (List SignedCapability)
  authorize : NodeId → List NodeId → List String → Nat → NodeId → String →
    List SignedCapability → (NodeId → Nat → Bool) → Except String Unit

/-- What is known of how `authorize` uses the revocation test: a chain with a
revoked link is rejected, and the test is asked about the chain's links only. -/
structure Iam.ChecksRevocation (iam : Iam) : Prop where
  rejects : ∀ edge roots tags now requester action chain isRevoked,
    (∃ link ∈ chain, isRevoked (iam.issuer link) (iam.nonce link) = true) →
    iam.authorize edge roots tags now requester action chain isRevoked ≠ .ok ()
  links_only : ∀ edge roots tags now requester action chain isRevoked isRevoked',
    (∀ link ∈ chain, isRevoked (iam.issuer link) (iam.nonce link) =
      isRevoked' (iam.issuer link) (iam.nonce link)) →
    iam.authorize edge roots tags now requester action chain isRevoked =
      iam.authorize edge roots tags now requester action chain isRevoked'

/-! ## Small stand-ins, to run the model with -/

/-- A signature shows the key and the end of the message. -/
def toySign (key : NodeId) (msg : List UInt8) : Signature :=
  ⟨key.1 ++ (msg.reverse ++ List.replicate 32 0).take 32, by simp [key.2]⟩

def toyVerify : Verify := fun key msg sig => sig == toySign key msg

/-- An ideal scheme in which just the listed signatures were made. -/
def idealVerify (made : List (NodeId × List UInt8 × Signature)) : Verify :=
  fun key msg sig => decide ((key, msg, sig) ∈ made)

theorem signedBy_idealVerify (signer : NodeId) (msg : List UInt8) (sig : Signature) :
    SignedBy (idealVerify [(signer, msg, sig)]) signer msg sig := by
  intro key m
  simp [idealVerify]

structure ToyCap where
  issuer : NodeId
  nonce : Nat
  audience : NodeId

/-- A chain is good when no link is revoked, its first issuer is the edge or a
root, and its last audience the requester. -/
def ToyCap.authorize (edge : NodeId) (roots : List NodeId) (requester : NodeId)
    (chain : List ToyCap) (isRevoked : NodeId → Nat → Bool) : Except String Unit :=
  if ∃ link ∈ chain, isRevoked link.issuer link.nonce = true then .error "revoked"
  else if (chain.head?.map issuer).any fun issuer => (edge :: roots).contains issuer then
    if chain.getLast?.map audience = some requester then .ok () else .error "audience"
  else .error "issuer"

theorem ToyCap.authorize_congr (edge : NodeId) (roots : List NodeId) (requester : NodeId)
    {chain : List ToyCap} {isRevoked isRevoked' : NodeId → Nat → Bool}
    (h : ∀ link ∈ chain, isRevoked link.issuer link.nonce = isRevoked' link.issuer link.nonce) :
    authorize edge roots requester chain isRevoked =
      authorize edge roots requester chain isRevoked' := by
  have hany : (∃ link ∈ chain, isRevoked link.issuer link.nonce = true) ↔
      ∃ link ∈ chain, isRevoked' link.issuer link.nonce = true :=
    exists_congr fun link => and_congr_right fun hlink => by rw [h link hlink]
  simp only [authorize, hany]

def toyIam (decodeChain : String → Option (List ToyCap)) : Iam where
  SignedCapability := ToyCap
  issuer := ToyCap.issuer
  nonce := ToyCap.nonce
  decodeChain := decodeChain
  authorize := fun edge roots _ _ requester _ => ToyCap.authorize edge roots requester

theorem toyIam_checksRevocation (decodeChain : String → Option (List ToyCap)) :
    (toyIam decodeChain).ChecksRevocation where
  rejects := by
    intro edge roots _ _ requester _ chain isRevoked hlink
    have hauth : ToyCap.authorize edge roots requester chain isRevoked = .error "revoked" :=
      if_pos hlink
    exact fun h => nomatch hauth.symm.trans h
  links_only := fun edge roots _ _ requester _ _ _ _ =>
    ToyCap.authorize_congr edge roots requester

def sampleEdge : NodeId := ByteArr.zero 32

def sampleReader : NodeId := ⟨List.replicate 32 7, List.length_replicate⟩

def sampleCap : ToyCap := ⟨sampleEdge, 1, sampleReader⟩

end CeCdn
