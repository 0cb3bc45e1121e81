/-
The blob store the CDN reads from (`ce-rs`, a parameter), and the client that
reads a byte range of an object from it (`client.rs`).

`CeRs` is what is the same for everyone: the hash of the store's library and how
it reads manifests, and Unicode's tables. `BlobSource` is the store's answers; nothing
is assumed of them, since the code hashes what it gets. A fetch is recorded, so
that "the store was not asked" can be said.
-/
import CeCdn.CidRange
import CeCdn.Lib.Eff

namespace CeCdn

open Lib Text

/-- What ends a computation early: an error with its text, or an index out of
range. -/
inductive Fail where
  | err (msg : String)
  | panic
deriving DecidableEq

/-- The blob store's library: `cid`, the JSON reading of a manifest, `is_v1`. -/
structure CeRs where
  cid : Bytes → String
  parseManifest : Bytes → Except String Manifest
  isV1 : Manifest → Bool
  /-- The characters beyond ASCII that `{:?}` writes as they are. -/
  plain : Char → Bool

/-- The blob store's answers; the error is its text. -/
structure BlobSource where
  getBlob : String → Except String Bytes
  getObject : String → Except String Bytes

inductive SourceCall where
  | blob (cid : String)
  | object (cid : String)
deriving DecidableEq

/-- `&xs[first..=last]`. -/
def sliceIncl {α : Type} (xs : List α) (first last : Nat) : Except Fail (List α) :=
  if first ≤ last + 1 ∧ last < xs.length then .ok ((xs.drop first).take (last + 1 - first))
  else .error .panic

section

variable (rs : CeRs)

/-- The reading of the bytes answered for an object's manifest, which the
client and the host share. -/
def parseV1 (cid : String) (bytes : Bytes) : Except Fail Manifest :=
  match rs.parseManifest bytes with
  | .error e => .error (.err s!"{cid} is not a v1 object manifest: {e}")
  | .ok m =>
    if rs.isV1 m then .ok m else .error (.err s!"unsupported manifest kind: {m.kind}")

/-- The loop that pulls chunks, checks each against its CID and appends it. -/
def pullChunks {σ : Type} (getBlob : String → Eff σ Fail Bytes) :
    List String → Bytes → Eff σ Fail Bytes
  | [], out => pure out
  | c :: cs, out => do
    let chunk ← getBlob c
    let got := rs.cid chunk
    if got ≠ c then
      Eff.fail (.err s!"chunk verification failed: expected {c}, got {got}")
    else pullChunks getBlob cs (out ++ chunk)

end

/-! ## The client -/

namespace Client

/-- The state of a client: the fetches it made. -/
abbrev Net (α : Type) := Eff (List SourceCall) Fail α

section

variable (rs : CeRs) (src : BlobSource)

/-- `get_blob` with a context, which replaces the error's text. -/
def getBlob (what cid : String) : Net Bytes := ⟨fun calls =>
  ((src.getBlob cid).mapError fun _ => .err s!"fetching {what} {cid}", calls ++ [.blob cid])⟩

def fetchManifest (cid : String) : Net Manifest := do
  let bytes ← getBlob src "manifest" cid
  Eff.ofExcept (parseV1 rs cid bytes)

def reassembleSpan (m : Manifest) (span : ChunkSpan) : Net Bytes :=
  if m.chunks.isEmpty then pure []
  else do
    let last := min span.lastChunk (m.chunks.length - 1)
    let cids ← Eff.ofExcept (sliceIncl m.chunks span.firstChunk last)
    pullChunks rs (getBlob src "chunk") cids []

/-- A character in `{:?}` of a string. -/
def escapeDebug (c : Char) : List Char :=
  if c = '"' ∨ c = '\\' then ['\\', c]
  else if c = '\x00' then ['\\', '0']
  else if c = '\n' then ['\\', 'n']
  else if c = '\r' then ['\\', 'r']
  else if c = '\t' then ['\\', 't']
  else if (if c.toNat < 128 then 32 ≤ c.toNat && c.toNat ≠ 127 else rs.plain c) then [c]
  else ['\\', 'u', '\x7b'] ++ Nat.toDigits 16 c.toNat ++ ['\x7d']

/-- `{:?}` of a header. -/
def debugHeader : Option String → String
  | none => "None"
  | some h => String.ofList ("Some(\"".toList ++ h.toList.flatMap (escapeDebug rs) ++ "\")".toList)

def getRange (cid : String) (rangeHeader : Option String) : Net (Bytes × ByteRange × Nat) := do
  let m ← fetchManifest rs src cid
  let total := m.totalSize
  match parseRange rangeHeader total with
  | .full => do
    let bytes ← reassembleSpan rs src m ⟨0, m.chunks.length - 1, 0, total⟩
    pure (bytes, ⟨0, total - 1⟩, total)
  | .partialRange range =>
    match chunksForRange m range with
    | none => Eff.fail (.err s!"manifest {cid} has zero chunk_size")
    | some span => do
      let joined ← reassembleSpan rs src m span
      let bytes ← Eff.ofExcept ((sliceSpan joined span).mapError .err)
      pure (bytes, range, total)
  | .unsatisfiable =>
    Eff.fail (.err
      s!"range {debugHeader rs rangeHeader} not satisfiable for object of {total} bytes")

end

end Client

end CeCdn
