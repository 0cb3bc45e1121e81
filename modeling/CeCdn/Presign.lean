/-
Presigned links (`presign.rs`): the `exp` and `sig` parameters of a query
string, verified against the publisher keys an edge trusts.
-/
import CeCdn.Iam

namespace CeCdn

open Lib Text Word

def PRESIGN_DOMAIN : List UInt8 := utf8 "ce-cdn-presign-v1"

def MAX_PRESIGN_TTL_SECS : Nat := 7 * 24 * 3600

/-- The bytes a publisher signs for a link. -/
def presignChallenge (cid : String) (expires : Nat) : List UInt8 :=
  PRESIGN_DOMAIN ++ leBytes 8 (strLen cid) ++ utf8 cid ++ leBytes 8 expires

structure Presign where
  expires : Nat
  sig : Signature
deriving DecidableEq

inductive PresignError where
  | missing
  | malformed
  | expired
  | tooFarFuture
  | badSignature
deriving DecidableEq

/-- The loop of `parse_query`: each `exp` and `sig` replaces the one before,
also by nothing when it does not parse. A part without `=` fails the query. -/
def parsePairs : List (List Char) → Option Nat → Option Signature →
    Option (Option Nat × Option Signature)
  | [], exp, sig => some (exp, sig)
  | pair :: pairs, exp, sig =>
    match splitOnce '=' pair with
    | none => none
    | some (k, v) =>
      if k = "exp".toList then parsePairs pairs (parseU64 (trim v)) sig
      else if k = "sig".toList then
        parsePairs pairs exp ((hexDecode (trim v)).bind (ByteArr.ofList 64))
      else parsePairs pairs exp sig

def parseQuery (query : String) : Option Presign := do
  let (exp, sig) ← parsePairs (query.toList.splitOn '&') none none
  let expires ← exp
  let sig ← sig
  pure { expires, sig }

def verifyPresign (verify : Verify) (query cid : String) (trusted : List NodeId) (now : Nat) :
    Except PresignError Unit :=
  if trim query.toList = [] ∨ trusted = [] then .error .missing
  else
    match parseQuery query with
    | none => .error .malformed
    | some p =>
      if p.expires < now then .error .expired
      else if p.expires > satAdd now MAX_PRESIGN_TTL_SECS then .error .tooFarFuture
      else if trusted.any fun key => verify key (presignChallenge cid p.expires) p.sig then .ok ()
      else .error .badSignature

/-- Mint a link's query string: the publisher signs the challenge. -/
def presignQuery (sign : List UInt8 → Signature) (cid : String) (expires : Nat) : String :=
  let sig := sign (presignChallenge cid expires)
  s!"exp={expires}&sig={hexEncode sig.1}"

def presignUrl (sign : List UInt8 → Signature) (cid : String) (expires : Nat) : String :=
  s!"/cdn/{cid}?{presignQuery sign cid expires}"

end CeCdn
