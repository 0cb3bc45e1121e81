/-
The shape of an HTTP response (`edge.rs`): from the cache, the bytes, the
`Range` header and the access decision to status, headers and body.

A slice of the bytes takes the proof that it is in bounds (`sliceWithin`), so
`serve` is total.
-/
import CeCdn.Cache
import CeCdn.CidRange

namespace CeCdn

open Lib Text Word

inductive Body where
  | full (bytes : Bytes)
  | partialBody (bytes : Bytes) (range : ByteRange) (total : Nat)
  | none
deriving DecidableEq

def Body.bytes : Body → Bytes
  | .full b => b
  | .partialBody b _ _ => b
  | .none => []

structure EdgeResponse where
  status : Nat
  headers : List (String × String)
  body : Body
deriving DecidableEq

/-- The access decision; `publicAccess` is the source's `Public`. -/
inductive Access where
  | publicAccess
  | authorized
  | denied
deriving DecidableEq

/-- `bytes[start..=end]`. -/
def sliceWithin (bytes : Bytes) (r : ByteRange) (_ : r.Within bytes.length) : Bytes :=
  (bytes.drop r.start).take r.len

def etag (cid : String) : String := s!"\"{cid}\""

namespace Edge

def cacheHeaders (cid : String) (cache : EdgeCache) (now : Nat) (hit : Bool) :
    List (String × String) :=
  let maxAge :=
    match cache.ttlRemaining cid now with
    | some secs => if secs = u64Max then max cache.defaultTtlSecs 31536000 else secs
    | none => 0
  [("Accept-Ranges", "bytes"), ("ETag", etag cid), ("X-Cache", if hit then "HIT" else "MISS"),
    ("Cache-Control", s!"public, max-age={maxAge}, immutable")] ++
  match cache.age cid now with
  | some age => [("Age", toString age)]
  | none => []

def deniedResponse : EdgeResponse := ⟨403, [("Content-Type", "text/plain")], .none⟩

def serve (cid : String) (bytes : Bytes) (rangeHeader : Option String) (access : Access)
    (cache : EdgeCache) (now : Nat) (hit : Bool) : EdgeResponse :=
  if access = .denied then deniedResponse
  else
    let total := bytes.length
    match h : parseRange rangeHeader total with
    | .full =>
      { status := 200
        headers := cacheHeaders cid cache now hit ++ [("Content-Length", toString total)]
        body := .full bytes }
    | .partialRange r =>
      { status := 206
        headers := cacheHeaders cid cache now hit ++
          [("Content-Range", r.contentRangeHeader total), ("Content-Length", toString r.len)]
        body := .partialBody (sliceWithin bytes r (parseRange_within h)) r total }
    | .unsatisfiable =>
      { status := 416
        headers := [("Content-Range", s!"bytes */{total}"), ("Content-Type", "text/plain")]
        body := .none }

/-- Whether an `If-None-Match` header names the object's entity tag or `*`. -/
def ifNoneMatchMatches (header : Option String) (cid : String) : Bool :=
  match header with
  | none => false
  | some h =>
    (h.toList.splitOn ',').any fun raw =>
      let t := trim raw
      let t := trim ((stripPrefix "W/".toList t).getD t)
      t == ['*'] || t == (etag cid).toList

def notModified (cid : String) (cache : EdgeCache) (now : Nat) : EdgeResponse :=
  ⟨304, cacheHeaders cid cache now true, .none⟩

def notFound (cid : String) : EdgeResponse :=
  ⟨404, [("Content-Type", "text/plain"), ("X-Cache", "MISS"), ("ETag", etag cid)], .none⟩

/-! ## What each outcome of the range looks like -/

variable (cid : String) (bytes : Bytes) (rangeHeader : Option String) {access : Access}
  (cache : EdgeCache) (now : Nat) (hit : Bool)

/-- A response that was not denied has the status and body its range asks for. -/
theorem serve_cases (ha : access ≠ .denied) :
    (parseRange rangeHeader bytes.length = .full ∧
      serve cid bytes rangeHeader access cache now hit =
        { status := 200
          headers := cacheHeaders cid cache now hit ++ [("Content-Length", toString bytes.length)]
          body := .full bytes }) ∨
    (∃ r, parseRange rangeHeader bytes.length = .partialRange r ∧ r.Within bytes.length ∧
      serve cid bytes rangeHeader access cache now hit =
        { status := 206
          headers := cacheHeaders cid cache now hit ++
            [("Content-Range", r.contentRangeHeader bytes.length),
              ("Content-Length", toString r.len)]
          body := .partialBody ((bytes.drop r.start).take r.len) r bytes.length }) ∨
    (parseRange rangeHeader bytes.length = .unsatisfiable ∧
      serve cid bytes rangeHeader access cache now hit =
        { status := 416
          headers := [("Content-Range", s!"bytes */{bytes.length}"), ("Content-Type", "text/plain")]
          body := .none }) := by
  unfold serve
  rw [if_neg ha]
  simp only
  split
  · next h => exact .inl ⟨h, rfl⟩
  · next r h => exact .inr (.inl ⟨r, h, parseRange_within h, rfl⟩)
  · next h => exact .inr (.inr ⟨h, rfl⟩)

end Edge

end CeCdn
