/-
A proof of possession is good for what it was minted for and for nothing else.
A minted header reads back as its expiry, nonce and signature
(`parseProof_mint`); in an ideal scheme the signature is one challenge's, and
the challenge determines the requester, the CID, the ability and the expiry
(`minted_pop_accepted_iff`).
-/
import CeCdn.Lib.TextFacts
import CeCdn.Signed

namespace CeCdn

open Lib Text Word

section

variable {requester : NodeId} {sign : List UInt8 → Signature} {cid ability : String}
  {nonce : Nonce} {expires : Nat}

theorem mint_eq : mintProofWithNonce requester sign cid ability nonce expires =
    (toString expires).toList ++ '.' ::
      (hexChars nonce.1 ++ '.' :: hexChars (sign (challenge requester cid ability nonce expires)).1) := by
  simp [mintProofWithNonce]

/-- No character of a minted header is white space. -/
theorem isWhitespace_mint {c : Char}
    (hc : c ∈ mintProofWithNonce requester sign cid ability nonce expires) :
    isWhitespace c = false := by
  simp only [mint_eq, List.mem_append, List.mem_cons] at hc
  rcases hc with hc | rfl | hc | rfl | hc
  · exact isWhitespace_of_isDigit (digits_toString expires c hc)
  · decide
  · exact isWhitespace_hexChars hc
  · decide
  · exact isWhitespace_hexChars hc

theorem trim_mint : trim (mintProofWithNonce requester sign cid ability nonce expires) =
    mintProofWithNonce requester sign cid ability nonce expires :=
  trim_of_trimmed (trimmed_of_forall fun _ hc => isWhitespace_mint hc)

/-- A minted header reads back. -/
theorem parseProof_mint (he : expires ≤ u64Max) :
    parseProof (mintProofWithNonce requester sign cid ability nonce expires) =
      some { expires, nonce, sig := sign (challenge requester cid ability nonce expires) } := by
  have hdot : ∀ bs : List UInt8, '.' ∉ hexChars bs := fun bs => hexChars_not_mem bs (by decide)
  unfold parseProof
  rw [trim_mint]
  simp only [mint_eq,
    splitOnce_append _ ((digits_toString expires).not_mem (d := '.') (by decide)),
    splitOnce_append _ (hdot nonce.1), trim_of_trimmed (digits_toString expires).trimmed,
    trim_of_trimmed (trimmed_hexChars _), parseU64_toString he, ofList_hexChars,
    Option.bind_eq_bind, Option.bind_some, Option.pure_def]

theorem presented_mint :
    presented (some (mintProofWithNonce requester sign cid ability nonce expires)) =
      some (mintProofWithNonce requester sign cid ability nonce expires) := by
  have hne : (mintProofWithNonce requester sign cid ability nonce expires).isEmpty = false := by
    simp [mintProofWithNonce]
  simp [presented, trim_mint, hne]

/-- The checks on a proof that was read. -/
theorem verifyPop_parsed_iff {verify : Verify} {proofHeader : Option (List Char)}
    {header : List Char} {proof : Proof} (hh : presented proofHeader = some header)
    (hp : parseProof header = some proof) {now : Nat} :
    verifyPop verify proofHeader requester cid ability now = .ok () ↔
      now ≤ proof.expires ∧ proof.expires ≤ satAdd now MAX_PROOF_TTL_SECS ∧
        verify requester (challenge requester cid ability proof.nonce proof.expires) proof.sig =
          true := by
  simp only [verifyPop, hh, hp]
  by_cases hexp : proof.expires < now
  · simp [hexp]
  · by_cases hfar : proof.expires > satAdd now MAX_PROOF_TTL_SECS
    · simp [hexp, hfar]
    · by_cases hsig : verify requester
        (challenge requester cid ability proof.nonce proof.expires) proof.sig = true
      · simp [hexp, hfar, hsig]
        omega
      · simp [hexp, hfar, hsig]

end

/-- **A proof of possession is accepted exactly for what it was minted for.**
The header is minted for a requester, CID, ability, nonce and expiry, with a
signature that an ideal scheme made by the requester's key. It reads back, and
it is accepted for just these, from the clock's `expires - 300` to `expires`. -/
theorem minted_pop_accepted_iff {verify : Verify} {sign : List UInt8 → Signature}
    (requester : NodeId) (cid ability : Field) (nonce : Nonce) (expires : Word64)
    (hsign : SignedBy verify requester (challenge requester cid.1 ability.1 nonce expires.1)
      (sign (challenge requester cid.1 ability.1 nonce expires.1))) :
    let header := mintProofWithNonce requester sign cid.1 ability.1 nonce expires.1
    parseProof header = some
      { expires := expires.1, nonce,
        sig := sign (challenge requester cid.1 ability.1 nonce expires.1) } ∧
    ∀ (requester' : NodeId) (cid' ability' : Field) (now : Word64),
      verifyPop verify (some header) requester' cid'.1 ability'.1 now.1 = .ok () ↔
        requester' = requester ∧ cid' = cid ∧ ability' = ability ∧
          now.1 ≤ expires.1 ∧ expires.1 ≤ now.1 + 300 := by
  intro header
  have he : expires.1 ≤ u64Max := expires.le_max
  have hparse : parseProof header = some { expires := expires.1, nonce, sig := sign _ } :=
    parseProof_mint he
  refine ⟨hparse, fun requester' cid' ability' now => ?_⟩
  rw [verifyPop_parsed_iff presented_mint hparse]
  simp only
  rw [hsign]
  rw [le_satAdd_iff he, show MAX_PROOF_TTL_SECS = 300 from rfl]
  constructor
  · rintro ⟨hnow, hmax, rfl, hmsg⟩
    obtain ⟨-, rfl, rfl, -, -⟩ := challenge_inj hmsg
    exact ⟨rfl, rfl, rfl, hnow, hmax⟩
  · rintro ⟨rfl, rfl, rfl, hnow, hmax⟩
    exact ⟨hnow, hmax, rfl, rfl⟩

/-- The challenge of a sample proof. -/
def sampleChallenge : List UInt8 := challenge sampleReader "p" "cdn:read" (ByteArr.zero 16) 100

def sampleScheme : Verify :=
  idealVerify [(sampleReader, sampleChallenge, toySign sampleReader sampleChallenge)]

def sampleHeader : List Char :=
  mintProofWithNonce sampleReader (toySign sampleReader) "p" "cdn:read" (ByteArr.zero 16) 100

/-- A proof minted until 100, presented at 60 and at 101. -/
theorem minted_pop_accepted_sample :
    verifyPop sampleScheme (some sampleHeader) sampleReader "p" "cdn:read" 60 = .ok () ∧
    verifyPop sampleScheme (some sampleHeader) sampleReader "p" "cdn:read" 101 ≠ .ok () := by
  have hsign := signedBy_idealVerify sampleReader sampleChallenge
    (toySign sampleReader sampleChallenge)
  have h := (minted_pop_accepted_iff sampleReader ⟨"p", by decide⟩ ⟨"cdn:read", by decide⟩
    (ByteArr.zero 16) ⟨100, by decide⟩ hsign).2 sampleReader ⟨"p", by decide⟩
    ⟨"cdn:read", by decide⟩
  refine ⟨(h ⟨60, by decide⟩).2 ⟨rfl, rfl, rfl, by decide, by decide⟩, fun hok => ?_⟩
  have hlate := (h ⟨101, by decide⟩).1 hok
  exact absurd hlate.2.2.2.1 (by decide)

end CeCdn
