/-
How long the links are good that `presign` mints (`main.rs`). The command takes
any lifetime and announces it, and an edge refuses a link as long as it expires
more than a week from now. So a link is honoured for the lifetime that was
announced exactly if that is at most a week, or the clock nearly at its end
(`printed_link_honoured_iff`).
-/
import CeCdn.PresignLink
import CeCdn.ServerFacts

namespace CeCdn

open Lib Text Word

/-! ## The command -/

/-- The key of a node (`ce_identity::Identity`). -/
structure Identity where
  nodeId : NodeId
  sign : List UInt8 → Signature

namespace Cli

/-- What `presign` prints: the link, and beside it whose it is and how long it
is valid. -/
structure PresignOutput where
  link : String
  note : String
deriving DecidableEq

/-- The base without the slashes at its end. -/
def origin : Option String → List Char
  | some b => trimEndMatches '/' b.toList
  | none => []

def presignNote (signer : NodeId) (ttl : Nat) : String :=
  let short := String.ofList ((hexChars signer.1).take 16)
  s!"presigned by {short}… valid for {ttl}s (edge must trust this key via --presign-key {hexEncode signer.1})"

/-- `identity` is what `load_identity` came to. -/
def cmdPresign (identity : Except String Identity) (now : Nat) (cid : String) (ttl : Nat)
    (base : Option String) : Except String PresignOutput := do
  if !isValidCid cid then throw s!"'{cid}' is not a valid 64-hex content id"
  let identity ← identity
  let expires := satAdd now ttl
  let urlPath := presignUrl identity.sign cid expires
  pure ⟨String.ofList (origin base ++ urlPath.toList), presignNote identity.nodeId ttl⟩

end Cli

/-- What a request that follows a link is granted. The base that the link was
printed with names the scheme and the host. -/
def ServerEnv.follow (env : ServerEnv) (publicSet : Finset String) (requester : NodeId)
    (proof : Option (List Char)) (capsHex : String) (base : Option String) (link : String)
    (now : Nat) : Option Grant :=
  (stripPrefix (Cli.origin base) link.toList).bind fun target =>
    (cidOfPath (splitTarget target).1).map fun cid =>
      env.resolveGrant cid publicSet requester proof (String.ofList (splitTarget target).2) capsHex
        now

/-- The link grants access at a time, whoever follows it. -/
def ServerEnv.Honours (env : ServerEnv) (publicSet : Finset String) (base : Option String)
    (link : String) (now : Nat) : Prop :=
  ∀ requester proof capsHex,
    env.follow publicSet requester proof capsHex base link now = some .presigned

/-! ## What a printed link leads to -/

section

variable {cid : String} (hcid : isValidCid cid = true)
include hcid

theorem cmdPresign_eq (identity : Identity) (now ttl : Nat) (base : Option String) :
    Cli.cmdPresign (.ok identity) now cid ttl base =
      .ok ⟨String.ofList (Cli.origin base ++
        (presignUrl identity.sign cid (satAdd now ttl)).toList),
        Cli.presignNote identity.nodeId ttl⟩ := by
  rw [Cli.cmdPresign, hcid]
  rfl

theorem cidOfPath_valid : cidOfPath s!"/cdn/{cid}".toList = some cid := by
  have hacceptable := acceptable_of_valid hcid
  have hslash : '/' ∉ cid.toList :=
    (cidChars_of_acceptable hacceptable).not_mem 47 (by decide) (by decide)
  have hpath : s!"/cdn/{cid}".toList = "/cdn/".toList ++ cid.toList := String.toList_append
  simp only [cidOfPath, stripPrefix_eq_some_iff.2 hpath, trimEndMatches_of_not_mem hslash,
    String.ofList_toList, hacceptable, if_true]

/-- A printed link leads to its object, with the query that was signed. -/
theorem follow_printed (env : ServerEnv) (sign : List UInt8 → Signature)
    (publicSet : Finset String) (requester : NodeId) (proof : Option (List Char))
    (capsHex : String) (base : Option String) (expires now : Nat) :
    env.follow publicSet requester proof capsHex base
        (String.ofList (Cli.origin base ++ (presignUrl sign cid expires).toList)) now =
      some (env.resolveGrant cid publicSet requester proof (presignQuery sign cid expires) capsHex
        now) := by
  have hchars := cidChars_of_acceptable (acceptable_of_valid hcid)
  have hsplit : splitTarget (presignUrl sign cid expires).toList =
      (s!"/cdn/{cid}".toList, (presignQuery sign cid expires).toList) := by
    rw [splitTarget, toList_presignUrl, splitOnce_append _ hchars.question_not_mem_path]
    rfl
  rw [ServerEnv.follow, String.toList_ofList, stripPrefix_eq_some_iff.2 rfl, Option.bind_some,
    hsplit, cidOfPath_valid hcid, Option.map_some, String.ofList_toList]

/-- It is honoured from the clock's `expires` less a week to `expires`. -/
theorem honours_printed_iff (env : ServerEnv) (identity : Identity) {publicSet : Finset String}
    (base : Option String) {expires now : Nat} (he : expires ≤ u64Max) (hpub : cid ∉ publicSet)
    (htrusted : identity.nodeId ∈ env.presignKeys)
    (hverifies : ∀ msg, env.verify identity.nodeId msg (identity.sign msg) = true) :
    env.Honours publicSet base
        (String.ofList (Cli.origin base ++ (presignUrl identity.sign cid expires).toList)) now ↔
      now ≤ expires ∧ expires ≤ satAdd now MAX_PRESIGN_TTL_SECS := by
  have hkeys : env.presignKeys ≠ [] := List.ne_nil_of_mem htrusted
  have hlink : env.LinkVerifies cid (presignQuery identity.sign cid expires) now ↔
      now ≤ expires ∧ expires ≤ satAdd now MAX_PRESIGN_TTL_SECS := by
    have hkey : ∃ key ∈ env.presignKeys, env.verify key (presignChallenge cid expires)
        (identity.sign (presignChallenge cid expires)) = true := ⟨_, htrusted, hverifies _⟩
    have hok : ∀ r : Except PresignError Unit, r.isOk = true ↔ r = .ok () := by
      intro r
      cases r <;> simp [Except.isOk, Except.toBool]
    rw [ServerEnv.LinkVerifies, hok, verifyPresign_minted_iff he]
    simp only [ne_eq, hkeys, not_false_eq_true, hkey, and_true, true_and]
  unfold ServerEnv.Honours
  simp only [follow_printed hcid, Option.some.injEq, ServerEnv.resolveGrant_presigned_iff hpub,
    hlink]
  exact ⟨fun h => h (ByteArr.zero 32) none "", fun h _ _ _ => h⟩

end

/-! ## The lifetime that was announced -/

/-- **A printed link is honoured for the lifetime it announces exactly if that
is at most a week,** or the clock has less than a week to go. The command prints
a link for every valid CID and lifetime; the edge trusts its signer, whose
signatures verify, and the object is not public. -/
theorem printed_link_honoured_iff (env : ServerEnv) (identity : Identity)
    (publicSet : Finset String) (cid : String) (ttl t0 : Nat) (base : Option String)
    (hcid : isValidCid cid = true) (hpub : cid ∉ publicSet)
    (htrusted : identity.nodeId ∈ env.presignKeys)
    (hverifies : ∀ msg, env.verify identity.nodeId msg (identity.sign msg) = true) :
    ∃ printed, Cli.cmdPresign (.ok identity) t0 cid ttl base = .ok printed ∧
      printed.note = Cli.presignNote identity.nodeId ttl ∧
      ((∀ t, t0 ≤ t → t ≤ satAdd t0 ttl → env.Honours publicSet base printed.link t) ↔
        ttl ≤ MAX_PRESIGN_TTL_SECS ∨ u64Max ≤ t0 + MAX_PRESIGN_TTL_SECS) := by
  refine ⟨_, cmdPresign_eq hcid identity t0 ttl base, rfl, ?_⟩
  have hmax : satAdd t0 ttl ≤ u64Max := Nat.min_le_right _ _
  rw [← satAdd_fits_iff]
  refine forall_congr' fun t => imp_congr_right fun _ => forall_congr' fun ht => ?_
  rw [honours_printed_iff hcid env identity base hmax hpub htrusted hverifies, and_iff_right ht]

/-! ### A week and a second -/

/-- A CID of 64 digits. -/
def zeroCid : String := hexEncode (ByteArr.zero 32).1

def presignEnv : ServerEnv := { sampleEnv with presignKeys := [sampleReader] }

def sampleIdentity : Identity := ⟨sampleReader, toySign sampleReader⟩

theorem toyVerify_sign (key : NodeId) (msg : List UInt8) :
    toyVerify key msg (toySign key msg) = true := by
  simp [toyVerify]

/-- The default, an hour. -/
theorem printed_link_honoured_hour :
    ∃ printed, Cli.cmdPresign (.ok sampleIdentity) 50 zeroCid 3600 (some "https://e/") =
        .ok printed ∧
      presignEnv.Honours ∅ (some "https://e/") printed.link 50 ∧
      presignEnv.Honours ∅ (some "https://e/") printed.link 3650 := by
  obtain ⟨printed, hprinted, -, hiff⟩ := printed_link_honoured_iff presignEnv sampleIdentity ∅
    zeroCid 3600 50 (some "https://e/") (by decide) (by simp) (by simp [presignEnv, sampleIdentity])
    (toyVerify_sign sampleReader)
  have hall := hiff.2 (.inl (by decide))
  exact ⟨printed, hprinted, hall 50 (by decide) (by decide), hall 3650 (by decide) (by decide)⟩

/-- A link for a week and a second is refused when it was just printed. -/
theorem printed_link_refused :
    ¬ ∀ (env : ServerEnv) (identity : Identity) (publicSet : Finset String) (cid : String)
      (ttl t0 : Nat) (base : Option String), ttl ≤ u64Max → t0 ≤ u64Max →
      isValidCid cid = true → cid ∉ publicSet → identity.nodeId ∈ env.presignKeys →
      (∀ msg, env.verify identity.nodeId msg (identity.sign msg) = true) →
      ∃ printed, Cli.cmdPresign (.ok identity) t0 cid ttl base = .ok printed ∧
        ∀ t, t0 ≤ t → t ≤ satAdd t0 ttl → env.Honours publicSet base printed.link t := by
  intro hall
  have hcid : isValidCid zeroCid = true := by decide
  have htrusted : sampleIdentity.nodeId ∈ presignEnv.presignKeys := by
    simp [presignEnv, sampleIdentity]
  obtain ⟨printed, hprinted, hhonours⟩ := hall presignEnv sampleIdentity ∅ zeroCid 604801 0 none
    (by decide) (by decide) hcid (by simp) htrusted (toyVerify_sign sampleReader)
  rw [cmdPresign_eq hcid] at hprinted
  rw [← Except.ok.inj hprinted] at hhonours
  have hweek := (honours_printed_iff hcid presignEnv sampleIdentity none (by decide) (by simp)
    htrusted (toyVerify_sign sampleReader)).1 (hhonours 0 (by decide) (by decide))
  exact absurd hweek.2 (by decide)

end CeCdn
