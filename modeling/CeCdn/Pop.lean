/-
Proofs of possession (`pop.rs`): the `X-Ce-Proof` header, its verification
against the claimed requester, and the guard against a second use.

The guard is a `KeyRing` over requester and nonce together.
-/
import CeCdn.Iam
import CeCdn.Lib.KeyRing

namespace CeCdn

open Lib Text Word

def POP_DOMAIN : List UInt8 := utf8 "ce-cdn-http-pop-v1"

def MAX_PROOF_TTL_SECS : Nat := 300

def REPLAY_GUARD_CAPACITY : Nat := 16384

abbrev Nonce := ByteArr 16

/-- The bytes a requester signs for one request. -/
def challenge (requester : NodeId) (cid ability : String) (nonce : Nonce) (expires : Nat) :
    List UInt8 :=
  POP_DOMAIN ++ requester.1 ++ leBytes 8 (strLen cid) ++ utf8 cid ++
    leBytes 8 (strLen ability) ++ utf8 ability ++ nonce.1 ++ leBytes 8 expires

/-- A parsed `X-Ce-Proof` header. -/
structure Proof where
  expires : Nat
  nonce : Nonce
  sig : Signature
deriving DecidableEq

/-- `<expires>.<nonce_hex>.<sig_hex>`; the third part is all that follows the
second dot (`splitn(3, '.')`). -/
def parseProof (header : List Char) : Option Proof := do
  let (expStr, rest) ← splitOnce '.' (trim header)
  let (nonceHex, sigHex) ← splitOnce '.' rest
  let expires ← parseU64 (trim expStr)
  let nonce ← (hexDecode (trim nonceHex)).bind (ByteArr.ofList 16)
  let sig ← (hexDecode (trim sigHex)).bind (ByteArr.ofList 64)
  pure { expires, nonce, sig }

/-- Mint a header: the requester signs the challenge. -/
def mintProofWithNonce (requester : NodeId) (sign : List UInt8 → Signature)
    (cid ability : String) (nonce : Nonce) (expires : Nat) : List Char :=
  let sig := sign (challenge requester cid ability nonce expires)
  (toString expires).toList ++ '.' :: hexChars nonce.1 ++ '.' :: hexChars sig.1

inductive PopError where
  | missing
  | malformed
  | expired
  | tooFarFuture
  | badSignature
  | replay
deriving DecidableEq

/-- The `X-Ce-Proof` header, trimmed, unless nothing is left of it. -/
def presented (proofHeader : Option (List Char)) : Option (List Char) :=
  (proofHeader.map trim).filter fun h => !h.isEmpty

section

variable (verify : Verify)

def verifyPop (proofHeader : Option (List Char)) (requester : NodeId) (cid ability : String)
    (now : Nat) : Except PopError Unit :=
  match presented proofHeader with
  | none => .error .missing
  | some header =>
    match parseProof header with
    | none => .error .malformed
    | some proof =>
      if proof.expires < now then .error .expired
      else if proof.expires > satAdd now MAX_PROOF_TTL_SECS then .error .tooFarFuture
      else if verify requester (challenge requester cid ability proof.nonce proof.expires) proof.sig
      then .ok ()
      else .error .badSignature

end

/-- What the guard remembers of a proof: requester and nonce. -/
abbrev ReplayKey := ByteArr (32 + 16)

abbrev ReplayGuard := KeyRing ReplayKey

namespace ReplayGuard

def new (capacity : Nat) : ReplayGuard := KeyRing.new capacity

/-- Whether the pair was not seen yet; it is from now on. -/
def accept (requester : NodeId) (nonce : Nonce) (guard : ReplayGuard) : Bool × ReplayGuard :=
  guard.insert (requester.append nonce)

end ReplayGuard

/-- The proof a header carries, as `verify_pop_once` parses it again. -/
def proofOf (proofHeader : Option (List Char)) : Option Proof :=
  parseProof (trim (proofHeader.getD []))

section

variable (verify : Verify)

def verifyPopOnce (proofHeader : Option (List Char)) (requester : NodeId) (cid ability : String)
    (now : Nat) (guard : ReplayGuard) : Except PopError Unit × ReplayGuard :=
  match verifyPop verify proofHeader requester cid ability now with
  | .error e => (.error e, guard)
  | .ok () =>
    match proofOf proofHeader with
    | none => (.error .malformed, guard)
    | some proof =>
      let r := guard.accept requester proof.nonce
      if r.1 then (.ok (), r.2) else (.error .replay, r.2)

/-! ## What verification has checked -/

variable {verify} {proofHeader : Option (List Char)} {requester : NodeId} {cid ability : String}
  {now : Nat}

theorem presented_eq_some {h : List Char} (hp : presented proofHeader = some h) :
    h = trim (proofHeader.getD []) := by
  cases proofHeader with
  | none => simp [presented] at hp
  | some s =>
    simp only [presented, Option.map_some, Option.filter_eq_some_iff] at hp
    simpa using hp.1.symm

/-- A header that verifies carries a proof signed for this very request, in
its lifetime. -/
theorem verifyPop_ok (h : verifyPop verify proofHeader requester cid ability now = .ok ()) :
    ∃ proof, proofOf proofHeader = some proof ∧ now ≤ proof.expires ∧
      proof.expires ≤ satAdd now MAX_PROOF_TTL_SECS ∧
      verify requester (challenge requester cid ability proof.nonce proof.expires) proof.sig := by
  unfold verifyPop at h
  split at h
  · cases h
  · next header hheader =>
    split at h
    · cases h
    · next proof hproof =>
      rw [presented_eq_some hheader] at hproof
      split at h
      · cases h
      · next hexp =>
        split at h
        · cases h
        · next hfar =>
          split at h
          · next hsig => exact ⟨proof, hproof, Nat.not_lt.1 hexp, Nat.not_lt.1 hfar, hsig⟩
          · cases h

/-- A proof is let through when it verifies and the guard had not seen it. -/
theorem verifyPopOnce_ok_iff {guard : ReplayGuard} :
    (verifyPopOnce verify proofHeader requester cid ability now guard).1 = .ok () ↔
      verifyPop verify proofHeader requester cid ability now = .ok () ∧
      ∃ proof, proofOf proofHeader = some proof ∧
        (guard.accept requester proof.nonce).1 = true := by
  unfold verifyPopOnce
  cases hv : verifyPop verify proofHeader requester cid ability now with
  | error e => simp
  | ok u =>
    obtain ⟨proof, hproof, -⟩ := verifyPop_ok hv
    simp only [hproof, true_and, Option.some.injEq, exists_eq_left']
    split
    · next ha => simp [ha]
    · next ha => simp [ha]

/-- A proof that is let through is remembered. -/
theorem verifyPopOnce_ok_snd {guard : ReplayGuard} {proof : Proof}
    (h : (verifyPopOnce verify proofHeader requester cid ability now guard).1 = .ok ())
    (hproof : proofOf proofHeader = some proof) :
    (verifyPopOnce verify proofHeader requester cid ability now guard).2 =
      (guard.accept requester proof.nonce).2 := by
  obtain ⟨hv, proof', hproof', ha⟩ := verifyPopOnce_ok_iff.1 h
  rw [hproof] at hproof'
  obtain rfl := Option.some.inj hproof'
  simp only [verifyPopOnce, hv, hproof, ha, if_true]

/-- **A proof that is refused leaves the guard as it was.** -/
theorem verifyPopOnce_error {guard : ReplayGuard} {e : PopError}
    (h : (verifyPopOnce verify proofHeader requester cid ability now guard).1 = .error e) :
    (verifyPopOnce verify proofHeader requester cid ability now guard).2 = guard := by
  unfold verifyPopOnce at h ⊢
  cases hv : verifyPop verify proofHeader requester cid ability now with
  | error e' => rfl
  | ok u =>
    simp only [hv] at h
    simp only
    split
    · rfl
    · next proof hproof =>
      simp only [hproof] at h
      split at h
      · cases h
      · next hno =>
        rw [if_neg hno]
        exact KeyRing.insert_refused (Bool.eq_false_iff.2 hno)

end

end CeCdn
