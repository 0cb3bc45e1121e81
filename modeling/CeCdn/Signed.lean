/-
What the front-end's signatures say. A requester signs the challenge of a
proof of possession, a publisher that of a presigned link; the two challenges
together encode what is signed without ambiguity (`signed_message_injective`),
so a signature made for one object, ability, nonce, expiry or purpose is none
of another.
-/
import CeCdn.Lib.Framing
import CeCdn.Lib.TextFacts
import CeCdn.Pop
import CeCdn.Presign

namespace CeCdn

open Lib Text Word Framing

/-- A string whose length is a `u64`. -/
abbrev Field := { s : String // strLen s < 2 ^ 64 }

/-- `u64`. -/
abbrev Word64 := { n : Nat // n < 2 ^ 64 }

inductive Signed where
  | pop (requester : NodeId) (cid ability : Field) (nonce : Nonce) (expires : Word64)
  | presign (cid : Field) (expires : Word64)

/-- The bytes that are signed. -/
def Signed.message : Signed → List UInt8
  | .pop requester cid ability nonce expires =>
    challenge requester cid.1 ability.1 nonce expires.1
  | .presign cid expires => presignChallenge cid.1 expires.1

/-- A string behind its length can be read off the front. -/
theorem field_append_inj {a b : Field} {r s : List UInt8}
    (h : leBytes 8 (strLen a.1) ++ (utf8 a.1 ++ r) = leBytes 8 (strLen b.1) ++ (utf8 b.1 ++ s)) :
    a = b ∧ r = s := by
  have hp : prefixed 8 (utf8 a.1) ++ r = prefixed 8 (utf8 b.1) ++ s := by
    simpa only [prefixed, strLen, List.append_assoc] using h
  obtain ⟨hab, hrs⟩ := prefixed_append_inj a.2 b.2 hp
  exact ⟨Subtype.ext (utf8_inj hab), hrs⟩

theorem Word64.le_max (n : Word64) : n.1 ≤ u64Max := Nat.le_pred_of_lt n.2

theorem word64_inj {m n : Word64} (h : leBytes 8 m.1 = leBytes 8 n.1) : m = n :=
  Subtype.ext (leBytes_inj m.2 n.2 h)

theorem challenge_inj {requester requester' : NodeId} {cid cid' ability ability' : Field}
    {nonce nonce' : Nonce} {expires expires' : Word64}
    (h : challenge requester cid.1 ability.1 nonce expires.1 =
      challenge requester' cid'.1 ability'.1 nonce' expires'.1) :
    requester = requester' ∧ cid = cid' ∧ ability = ability' ∧ nonce = nonce' ∧
      expires = expires' := by
  simp only [challenge, List.append_assoc] at h
  have h₁ := List.append_cancel_left h
  obtain ⟨hreq, h₂⟩ := fixed_append_inj (requester.2.trans requester'.2.symm) h₁
  obtain ⟨hcid, h₃⟩ := field_append_inj h₂
  obtain ⟨hability, h₄⟩ := field_append_inj h₃
  obtain ⟨hnonce, h₅⟩ := fixed_append_inj (nonce.2.trans nonce'.2.symm) h₄
  exact ⟨Subtype.ext hreq, hcid, hability, Subtype.ext hnonce, word64_inj h₅⟩

theorem presignChallenge_inj {cid cid' : Field} {expires expires' : Word64}
    (h : presignChallenge cid.1 expires.1 = presignChallenge cid'.1 expires'.1) :
    cid = cid' ∧ expires = expires' := by
  simp only [presignChallenge, List.append_assoc] at h
  obtain ⟨hcid, hexp⟩ := field_append_inj (List.append_cancel_left h)
  exact ⟨hcid, word64_inj hexp⟩

/-- The two domain tags part company. -/
theorem challenge_ne_presignChallenge (requester : NodeId) (cid ability : String) (nonce : Nonce)
    (expires : Nat) (cid' : String) (expires' : Nat) :
    challenge requester cid ability nonce expires ≠ presignChallenge cid' expires' := by
  simp only [challenge, presignChallenge, List.append_assoc]
  exact tag_append_ne (by decide) (by decide)

/-- **Signed messages are unambiguous.** Equal messages are of one kind, with
equal requesters, CIDs, abilities, nonces and expiries. -/
theorem signed_message_injective : Function.Injective Signed.message := by
  intro a b h
  cases a with
  | pop requester cid ability nonce expires =>
    cases b with
    | pop requester' cid' ability' nonce' expires' =>
      obtain ⟨rfl, rfl, rfl, rfl, rfl⟩ := challenge_inj h
      rfl
    | presign cid' expires' => exact absurd h (challenge_ne_presignChallenge _ _ _ _ _ _ _)
  | presign cid expires =>
    cases b with
    | pop requester' cid' ability' nonce' expires' =>
      exact absurd h.symm (challenge_ne_presignChallenge _ _ _ _ _ _ _)
    | presign cid' expires' =>
      obtain ⟨rfl, rfl⟩ := presignChallenge_inj h
      rfl

end CeCdn
