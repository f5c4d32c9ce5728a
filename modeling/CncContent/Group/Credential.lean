import CncContent.Group.Roster
import CncContent.Manifest.CanonicalBytes

/-! # Peer credentials

`PeerCredential` of the source and the signing of credentials and of manifests. Both are signed as a
row of fields without a tag. The bytes of a credential are 82, those of a manifest 52 or at least 97, so
that no string is the bytes of both. Hence a signature that was made over the one is not accepted for
the other (`separated`), by a verifier that accepts a signature only for what it was made over
(`AcceptsOnlySigned`). -/

namespace CncContent.Group.Credential

open CncContent.Lib.Bytes CncContent.Lib.Checks CncContent.Group.Roster
open CncContent.Manifest.Group (GroupManifest ContentEntry)
open CncContent.Manifest.CanonicalBytes

def formatVersion : UInt8 := 1

def canonicalLen : ℕ := 1 + 32 + 32 + 1 + 8 + 8

/-! ### Signatures -/

inductive SignatureError
  | unsigned
  | verificationFailed (expectedHex actualHex : List UInt8)
  | signerMismatch (expectedPrefix actualPrefix : List UInt8)
deriving DecidableEq, Repr

/-- `CatalogSigner`: the signature of a byte string, and the id of the signer. -/
abbrev CatalogSigner := List UInt8 → List UInt8 × List UInt8

/-- `CatalogVerifier`: whether a signature with a signer id is valid for a byte string. -/
abbrev CatalogVerifier := List UInt8 → List UInt8 → List UInt8 → Except SignatureError Unit

/-- A signature with its signer id is made over at most one byte string, and it is accepted for no
other. -/
def AcceptsOnlySigned (verifier : CatalogVerifier)
    (signedOver : List UInt8 → List UInt8 → Option (List UInt8)) : Prop :=
  ∀ bytes signature signerId, verifier bytes signature signerId = .ok () →
    signedOver signature signerId = some bytes

def signManifest (m : GroupManifest) (signer : CatalogSigner) : GroupManifest :=
  m.setSignature (signer (canonicalBytes m)).1 (signer (canonicalBytes m)).2

/-! ### Credentials -/

inductive CredentialError
  | unsigned
  | expired (expiredAt now : UInt64)
  | notYetValid (validFrom now : UInt64)
  | verificationFailed (source : SignatureError)
deriving DecidableEq, Repr

structure PeerCredential where
  subject : PeerId
  networkId : NetworkId
  role : GroupRole
  issuedAt : UInt64
  expiresAt : UInt64
  signature : List UInt8
  issuerId : List UInt8
deriving DecidableEq

def roleToByte : GroupRole → UInt8
  | .master => 3
  | .admin => 2
  | .mirror => 1
  | .reader => 0

namespace PeerCredential

def new (subject : PeerId) (networkId : NetworkId) (role : GroupRole) (issuedAt expiresAt : UInt64) :
    PeerCredential := ⟨subject, networkId, role, issuedAt, expiresAt, [], []⟩

variable (c : PeerCredential)

def canonicalBytes : List UInt8 :=
  formatVersion :: (c.subject.toList ++ (c.networkId.toList ++ (roleToByte c.role ::
    (toLe 8 c.issuedAt.toNat ++ toLe 8 c.expiresAt.toNat))))

def isSigned : Bool := !c.signature.isEmpty

def isExpired (nowSecs : UInt64) : Bool := decide (c.expiresAt ≤ nowSecs)

def sign (signer : CatalogSigner) : PeerCredential :=
  { c with signature := (signer c.canonicalBytes).1, issuerId := (signer c.canonicalBytes).2 }

def verify (verifier : CatalogVerifier) (nowSecs : UInt64) : Except CredentialError Unit := do
  refuse (!c.isSigned) .unsigned
  refuse (c.isExpired nowSecs) (.expired c.expiresAt nowSecs)
  refuse (nowSecs < c.issuedAt) (.notYetValid c.issuedAt nowSecs)
  (verifier c.canonicalBytes c.signature c.issuerId).mapError .verificationFailed

end PeerCredential

/-! ### Lengths -/

theorem length_credentialBytes (c : PeerCredential) : c.canonicalBytes.length = canonicalLen := by
  simp [PeerCredential.canonicalBytes, canonicalLen, length_toLe]

theorem length_entryBytes (e : ContentEntry) : 45 ≤ (entryBytes e).length := by
  have hhash : 1 ≤ (infoHashBytes e.infoHash).length := by
    cases e.infoHash <;> simp [infoHashBytes]
  simp only [entryBytes, pathBytes, countBytes, List.length_append, length_toLe, Vector.length_toList]
  omega

/-- The bytes of a manifest are 52, or at least 97 if it has an entry. -/
theorem length_manifestBytes (m : GroupManifest) :
    (canonicalBytes m).length = 52 + (m.entries.flatMap entryBytes).length := by
  simp only [canonicalBytes, countBytes, List.length_append, length_toLe, Vector.length_toList]
  omega

theorem canonicalBytes_ne (m : GroupManifest) (c : PeerCredential) :
    canonicalBytes m ≠ c.canonicalBytes := by
  intro h
  have hlen := congrArg List.length h
  rw [length_manifestBytes, length_credentialBytes] at hlen
  rcases hentries : m.entries with _ | ⟨e, entries⟩
  · rw [hentries] at hlen
    exact absurd hlen (by decide)
  · have he := length_entryBytes e
    rw [hentries, List.flatMap_cons, List.length_append] at hlen
    have h82 : canonicalLen = 82 := rfl
    omega

/-! ### Verification -/

theorem verify_eq_ok {c : PeerCredential} {verifier : CatalogVerifier} {nowSecs : UInt64} :
    c.verify verifier nowSecs = .ok () ↔ c.isSigned = true ∧
      (c.issuedAt ≤ nowSecs ∧ nowSecs < c.expiresAt) ∧
        verifier c.canonicalBytes c.signature c.issuerId = .ok () := by
  unfold PeerCredential.verify PeerCredential.isExpired
  simp only [bind_eq_ok, refuse_eq_ok, mapError_eq_ok, Bool.not_eq_false', decide_eq_false_iff_not,
    UInt64.not_le, UInt64.not_lt]
  constructor
  · rintro ⟨-, hsigned, -, hexp, -, hfrom, hver⟩
    exact ⟨hsigned, ⟨hfrom, hexp⟩, hver⟩
  · rintro ⟨hsigned, ⟨hfrom, hexp⟩, hver⟩
    exact ⟨(), hsigned, (), hexp, (), hfrom, hver⟩

/-- **The signed bytes of manifests and of credentials are separate**, so that no signature is valid for
both; and a credential that is verified carries a valid signature over its own bytes and is verified
within its time. -/
theorem separated :
    (∀ (m : GroupManifest) (c : PeerCredential), canonicalBytes m ≠ c.canonicalBytes) ∧
    (∀ verifier signedOver, AcceptsOnlySigned verifier signedOver →
      ∀ (m : GroupManifest) (c : PeerCredential) signature signerId,
        verifier (canonicalBytes m) signature signerId = .ok () →
          verifier c.canonicalBytes signature signerId ≠ .ok ()) ∧
    ∀ (c : PeerCredential) (verifier : CatalogVerifier) (nowSecs : UInt64),
      c.verify verifier nowSecs = .ok () →
        verifier c.canonicalBytes c.signature c.issuerId = .ok () ∧
          c.issuedAt ≤ nowSecs ∧ nowSecs < c.expiresAt := by
  refine ⟨canonicalBytes_ne, ?_, fun c verifier nowSecs h => ?_⟩
  · intro verifier signedOver honly m c signature signerId hm hc
    have hboth := (honly _ _ _ hm).symm.trans (honly _ _ _ hc)
    exact canonicalBytes_ne m c (Option.some.inj hboth)
  · obtain ⟨-, htime, hver⟩ := verify_eq_ok.mp h
    exact ⟨hver, htime⟩

/-- A signature that is what it was made over. -/
def plainSigner : CatalogSigner := fun bytes => (bytes, text "plain")

def plainVerifier : CatalogVerifier := fun bytes signature signerId =>
  if signature = bytes ∧ signerId = text "plain" then .ok ()
  else .error (.verificationFailed bytes signature)

theorem acceptsOnlySigned_plain :
    AcceptsOnlySigned plainVerifier fun signature _ => some signature := by
  intro bytes signature signerId h
  unfold plainVerifier at h
  split_ifs at h with hsame
  exact congrArg some hsame.1

theorem validatePath_a : Manifest.Group.validatePath (text "maps/a.mix") = .ok () := by decide +kernel

theorem validatePath_b : Manifest.Group.validatePath (text "maps/b.mix") = .ok () := by decide +kernel

/-- Two files, of which the second has an info hash. -/
def mapsEntries : List ContentEntry :=
  [⟨text "maps/a.mix", Vector.replicate 32 5, 4, none, validatePath_a⟩,
    ⟨text "maps/b.mix", Vector.replicate 32 6, 9, some (Vector.replicate 20 8), validatePath_b⟩]

theorem increasing_maps : Lib.Keyed.Increasing ContentEntry.key mapsEntries := by
  unfold Lib.Keyed.Increasing
  decide +kernel

theorem thirdVersion_ne : (3 : UInt64) ≠ 0 := by decide

def mapsManifest : GroupManifest :=
  ⟨3, Vector.replicate 32 7, 90, mapsEntries, [], [], thirdVersion_ne, increasing_maps⟩

/-- The credential of a mirror for the times from 100 to 200. -/
def mirrorCredential : PeerCredential :=
  (PeerCredential.new (Vector.replicate 32 1) (Vector.replicate 32 7) .mirror 100 200).sign plainSigner

theorem separated_mirror :
    let m := signManifest mapsManifest plainSigner
    canonicalBytes m ≠ mirrorCredential.canonicalBytes ∧
      plainVerifier mirrorCredential.canonicalBytes m.signature m.signerId ≠ .ok () ∧
      (mirrorCredential.issuedAt ≤ 150 ∧ 150 < mirrorCredential.expiresAt) := by
  intro m
  obtain ⟨hne, hsep, hver⟩ := separated
  refine ⟨hne m _, ?_, (hver mirrorCredential plainVerifier 150 (by decide +kernel)).2⟩
  exact hsep plainVerifier _ acceptsOnlySigned_plain m mirrorCredential _ _ (by decide +kernel)

end CncContent.Group.Credential
