import CncContent.Group.Credential
import CncContent.Lib.HexDigits
import CncContent.Lib.Hmac

/-! # Signed catalogs

`HmacSha256Signer` and `HmacSha256Verifier` of the source, over a hash function `sha256`. A signer id
names the algorithm and the fingerprint of the key. A verifier looks at the name of the algorithm only:
it accepts the right signature with every id that starts with this name, so that a manifest or a
credential may carry the fingerprint of a key that it was not signed with (`signerChecked_iff`). -/

namespace CncContent.Group.CatalogSign

open CncContent.Lib.Bytes CncContent.Lib.Checks CncContent.Lib.Hmac CncContent.Lib.HexDigits
open CncContent.Manifest.Group (GroupManifest)
open CncContent.Manifest.CanonicalBytes (canonicalBytes)
open CncContent.Group.Credential CncContent.Group.Roster

def hmacOutputLen : ℕ := 32

def hmacBlockSize : ℕ := 64

def ipad : UInt8 := 0x36

def opad : UInt8 := 0x5C

def hmacSignerPrefix : List UInt8 := text "hmac-sha256:"

variable (sha256 : List UInt8 → Vector UInt8 hmacOutputLen)

/-- The key in a block of zeros, hashed if it is longer than the block. -/
def paddedKey (key : List UInt8) : List UInt8 :=
  let block := List.replicate hmacBlockSize 0
  if hmacBlockSize < key.length then
    let hash := (sha256 key).toList
    let len := min hash.length hmacBlockSize
    hash.take len ++ block.drop len
  else key ++ block.drop key.length

/-- The block of the inner or the outer hash. -/
def maskedKey (key : List UInt8) (mask : UInt8) : List UInt8 :=
  (List.range hmacBlockSize).map fun i => (paddedKey sha256 key).getD i 0 ^^^ mask

def hmacSha256 (key message : List UInt8) : List UInt8 :=
  let innerHash := (sha256 (maskedKey sha256 key ipad ++ message)).toList
  (sha256 (maskedKey sha256 key opad ++ innerHash)).toList

def keyFingerprint (key : List UInt8) : List UInt8 := (sha256 key).toList.take 8

def hexNibble (n : UInt8) : UInt8 :=
  if n ≤ 9 then byte '0' + n
  else if n ≤ 15 then byte 'a' + (n - 10)
  else byte '?'

def buildSignerId (key : List UInt8) : List UInt8 :=
  hmacSignerPrefix ++
    (keyFingerprint sha256 key).flatMap fun b : UInt8 => [hexNibble (b >>> 4), hexNibble (b &&& 0x0F)]

def hexPrefix (bytes : List UInt8) (n : ℕ) : List UInt8 := toHex (bytes.take (min bytes.length n))

/-- `HmacSha256Signer::sign` with a key. -/
def sign (key : List UInt8) : CatalogSigner := fun canonicalBytes =>
  (hmacSha256 sha256 key canonicalBytes, buildSignerId sha256 key)

/-- `HmacSha256Verifier::verify` with a key. -/
def verify (key : List UInt8) : CatalogVerifier := fun canonicalBytes signature signerId => do
  refuse (!hmacSignerPrefix.isPrefixOf signerId)
    (.signerMismatch (fromUtf8Lossy hmacSignerPrefix)
      (fromUtf8Lossy (signerId.take (min hmacSignerPrefix.length signerId.length))))
  let expected := hmacSha256 sha256 key canonicalBytes
  refuse (signature.length ≠ expected.length)
    (.verificationFailed (hexPrefix expected 8) (hexPrefix signature 8))
  -- all bytes are compared, also behind a difference
  let diff := expected.zipIdx.foldl (fun diff b => diff ||| (b.1 ^^^ signature.getD b.2 0)) 0
  refuse (diff ≠ 0) (.verificationFailed (hexPrefix expected 8) (hexPrefix signature 8))

def verifyManifest (manifest : GroupManifest) (verifier : CatalogVerifier) :
    Except SignatureError Unit := do
  refuse manifest.signature.isEmpty .unsigned
  verifier (canonicalBytes manifest) manifest.signature manifest.signerId

variable {sha256}

/-! ### The keyed hash -/

/-- The hash as a function of byte strings. -/
def digest (sha256 : List UInt8 → Vector UInt8 hmacOutputLen) (l : List UInt8) : List UInt8 :=
  (sha256 l).toList

@[simp] theorem length_digest (l : List UInt8) : (digest sha256 l).length = 32 :=
  (sha256 l).length_toList

theorem paddedKey_eq (key : List UInt8) :
    paddedKey sha256 key = keyBlock (digest sha256) hmacBlockSize key := by
  have hlen : (sha256 key).toList.length = 32 := (sha256 key).length_toList
  simp only [paddedKey, keyBlock, List.drop_replicate]
  split_ifs with hlong
  · have hmin : min (sha256 key).toList.length hmacBlockSize = (sha256 key).toList.length := by
      rw [hlen]
      rfl
    rw [hmin, List.take_length]
    rfl
  · rfl

/-- **The code computes the keyed hash of its definition.** -/
theorem hmacSha256_eq (key message : List UInt8) :
    hmacSha256 sha256 key message = hmac (digest sha256) hmacBlockSize key message := by
  have hlen : (paddedKey sha256 key).length = hmacBlockSize := by
    rw [paddedKey_eq]
    exact length_keyBlock (fun l => by rw [length_digest]; decide) key
  have hmask : ∀ mask, maskedKey sha256 key mask =
      (keyBlock (digest sha256) hmacBlockSize key).map (· ^^^ mask) := fun mask => by
    rw [maskedKey, mask_eq_map hlen, paddedKey_eq]
  unfold hmacSha256 hmac
  rw [hmask, hmask]
  rfl

theorem length_hmacSha256 (key message : List UInt8) :
    (hmacSha256 sha256 key message).length = 32 := (sha256 _).length_toList

/-! ### Signer ids -/

theorem hexNibble_eq : ∀ n < 16, hexNibble (UInt8.ofNat n) = byte (Nat.digitChar n) := by decide

theorem hexNibbles_eq (b : UInt8) : [hexNibble (b >>> 4), hexNibble (b &&& 0x0F)] = hexByte b := by
  have hlt := b.toNat_lt
  have hhigh : b >>> 4 = UInt8.ofNat (b.toNat / 16) := by
    rw [← UInt8.toNat_inj, UInt8.toNat_shiftRight, UInt8.toNat_ofNat', Nat.shiftRight_eq_div_pow,
      Nat.mod_eq_of_lt (a := b.toNat / 16) (by omega)]
    rfl
  have hlow : b &&& 0x0F = UInt8.ofNat (b.toNat % 16) := by
    rw [← UInt8.toNat_inj, UInt8.toNat_and, UInt8.toNat_ofNat', Nat.mod_eq_of_lt (by omega)]
    exact Nat.and_two_pow_sub_one_eq_mod b.toNat 4
  rw [hhigh, hlow, hexNibble_eq _ (by omega), hexNibble_eq _ (by omega)]
  rfl

theorem buildSignerId_eq (key : List UInt8) :
    buildSignerId sha256 key = hmacSignerPrefix ++ toHex (keyFingerprint sha256 key) := by
  simp only [buildSignerId, hexNibbles_eq, toHex]

/-- Signer ids tell fingerprints apart. -/
theorem buildSignerId_inj {key key' : List UInt8} :
    buildSignerId sha256 key = buildSignerId sha256 key' ↔
      keyFingerprint sha256 key = keyFingerprint sha256 key' := by
  rw [buildSignerId_eq, buildSignerId_eq, List.append_right_inj]
  exact (Function.LeftInverse.injective ofHex_toHex).eq_iff

theorem prefix_buildSignerId (key : List UInt8) : hmacSignerPrefix <+: buildSignerId sha256 key :=
  List.prefix_append _ _

/-! ### Verification -/

/-- **What a verifier accepts**: the right signature with an id that names the algorithm. -/
theorem verify_eq_ok {key message signature signerId : List UInt8} :
    verify sha256 key message signature signerId = .ok () ↔
      signature = hmac (digest sha256) hmacBlockSize key message ∧ hmacSignerPrefix <+: signerId := by
  have hlen := @length_hmacSha256 sha256 key message
  simp only [verify, bind_eq_ok, refuse_eq_ok, Bool.not_eq_false', List.isPrefixOf_iff_prefix, ne_eq,
    decide_not, decide_eq_true_eq, ← hmacSha256_eq]
  constructor
  · rintro ⟨-, hprefix, -, hlength, hdiff⟩
    rw [foldl_zipIdx_eq_difference hlength.symm, difference_eq_zero hlength.symm] at hdiff
    exact ⟨hdiff.symm, hprefix⟩
  · rintro ⟨rfl, hprefix⟩
    refine ⟨(), hprefix, (), rfl, ?_⟩
    rw [foldl_zipIdx_eq_difference rfl, difference_eq_zero rfl]

theorem verify_sign (key message : List UInt8) :
    verify sha256 key message (sign sha256 key message).1 (sign sha256 key message).2 = .ok () :=
  verify_eq_ok.mpr ⟨hmacSha256_eq key message, prefix_buildSignerId key⟩

/-- The signer id is no part of what is signed. -/
theorem verify_sign_other (key other message : List UInt8) :
    verify sha256 key message (sign sha256 key message).1 (buildSignerId sha256 other) = .ok () :=
  verify_eq_ok.mpr ⟨hmacSha256_eq key message, prefix_buildSignerId other⟩

theorem isEmpty_sign (key message : List UInt8) : (sign sha256 key message).1.isEmpty = false := by
  have hlen : (sign sha256 key message).1.length = 32 := length_hmacSha256 key message
  rw [List.isEmpty_eq_false_iff, ← List.length_pos_iff_ne_nil, hlen]
  decide

/-- A manifest with another signer id. -/
def withSigner (m : GroupManifest) (signerId : List UInt8) : GroupManifest :=
  m.setSignature m.signature signerId

/-- A credential with another id of its issuer. -/
def withIssuer (c : PeerCredential) (issuerId : List UInt8) : PeerCredential := { c with issuerId }

def IsMismatch (r : Except SignatureError Unit) : Prop :=
  ∃ expectedPrefix actualPrefix, r = .error (.signerMismatch expectedPrefix actualPrefix)

/-- What is expected of one call: it accepts the right signature with the id of the signer only, and a
right signature with the fingerprint of another key is a mismatch. -/
structure SignerChecked (sha256 : List UInt8 → Vector UInt8 hmacOutputLen)
    (key message signature signerId : List UInt8) : Prop where
  accepts : verify sha256 key message signature signerId = .ok () ↔
    signature = hmac (digest sha256) hmacBlockSize key message ∧ signerId = buildSignerId sha256 key
  signed : verify sha256 key message (sign sha256 key message).1 (sign sha256 key message).2 = .ok ()
  replaced : ∀ other, signature = hmac (digest sha256) hmacBlockSize key message →
    signerId = buildSignerId sha256 other → keyFingerprint sha256 other ≠ keyFingerprint sha256 key →
      IsMismatch (verify sha256 key message signature signerId)

/-- A signed manifest is accepted with the fingerprint of any key. -/
theorem verifyManifest_withSigner (m : GroupManifest) (key other : List UInt8) :
    verifyManifest (withSigner (signManifest m (sign sha256 key)) (buildSignerId sha256 other))
      (verify sha256 key) = .ok () := by
  unfold verifyManifest
  rw [bind_eq_ok]
  exact ⟨(), refuse_eq_ok.mpr (isEmpty_sign key _), verify_sign_other key other _⟩

/-- So is a signed credential, while it is valid. -/
theorem verify_withIssuer (c : PeerCredential) (key other : List UInt8) (nowSecs : UInt64) :
    (withIssuer (c.sign (sign sha256 key)) (buildSignerId sha256 other)).verify (verify sha256 key)
      nowSecs = .ok () ↔ c.issuedAt ≤ nowSecs ∧ nowSecs < c.expiresAt := by
  have hsigned : (withIssuer (c.sign (sign sha256 key)) (buildSignerId sha256 other)).isSigned = true :=
    congrArg not (isEmpty_sign key c.canonicalBytes)
  rw [Credential.verify_eq_ok]
  constructor
  · exact fun ⟨_, htime, _⟩ => htime
  · exact fun htime => ⟨hsigned, htime, verify_sign_other key other c.canonicalBytes⟩

/-- **The signer is checked unless the right signature comes with another id that names the
algorithm.** Then it is accepted; so are manifests and credentials with the fingerprint of any key. -/
theorem signerChecked_iff (sha256 : List UInt8 → Vector UInt8 hmacOutputLen) :
    (∀ key message signature signerId, SignerChecked sha256 key message signature signerId ↔
      ¬ (signature = hmac (digest sha256) hmacBlockSize key message ∧
        hmacSignerPrefix <+: signerId ∧ signerId ≠ buildSignerId sha256 key)) ∧
    (∀ (m : GroupManifest) (key other : List UInt8),
      verifyManifest (withSigner (signManifest m (sign sha256 key)) (buildSignerId sha256 other))
        (verify sha256 key) = .ok ()) ∧
    ∀ (c : PeerCredential) (key other : List UInt8) (nowSecs : UInt64),
      (withIssuer (c.sign (sign sha256 key)) (buildSignerId sha256 other)).verify (verify sha256 key)
        nowSecs = .ok () ↔ c.issuedAt ≤ nowSecs ∧ nowSecs < c.expiresAt := by
  refine ⟨fun key message signature signerId => ⟨?_, fun hcond => ?_⟩, verifyManifest_withSigner,
    verify_withIssuer⟩
  · rintro ⟨haccepts, -, -⟩ ⟨hsig, hprefix, hne⟩
    exact hne (haccepts.mp (verify_eq_ok.mpr ⟨hsig, hprefix⟩)).2
  · refine ⟨verify_eq_ok.trans ⟨fun ⟨hsig, hprefix⟩ => ⟨hsig, ?_⟩, ?_⟩, verify_sign key message, ?_⟩
    · by_contra hne
      exact hcond ⟨hsig, hprefix, hne⟩
    · rintro ⟨hsig, rfl⟩
      exact ⟨hsig, prefix_buildSignerId key⟩
    · rintro other hsig rfl hfp
      exact absurd ⟨hsig, prefix_buildSignerId other, fun h => hfp (buildSignerId_inj.mp h)⟩ hcond

/-- A hash function with the digests that two keys and the signature of one message need. -/
def tableHash (l : List UInt8) : Vector UInt8 hmacOutputLen :=
  let digest (n : ℕ) : Vector UInt8 hmacOutputLen :=
    Vector.ofFn fun i => UInt8.ofNat (n / 256 ^ (31 - i.val))
  let block := text "test-key" ++ List.replicate 56 0
  let inner := 93846698376599217468427975892408173869996384517213638526777378125064952658113
  if l = text "test-key" then
    digest 44636789253552557954503665072222018933544881200319101301450359205466287747311
  else if l = text "other-key" then
    digest 39818133482957884521054451169742832920747887185733561384447137350408510348234
  else if l = block.map (· ^^^ 0x36) ++ text "manifest canonical bytes" then digest inner
  else if l = block.map (· ^^^ 0x5C) ++ (digest inner).toList then
    digest 83405770275774130395403844385091150924678369213805412890224449994673703491858
  else digest 0

/-- The signature under one key, with the fingerprint of another one. -/
theorem not_signerChecked : ¬ SignerChecked tableHash (text "test-key")
    (text "manifest canonical bytes")
    (toBe 32 83405770275774130395403844385091150924678369213805412890224449994673703491858)
    (text "hmac-sha256:580843d03d2216ff") := by
  intro h
  have hother : text "hmac-sha256:580843d03d2216ff" = buildSignerId tableHash (text "other-key") := by
    decide +kernel
  have hmac : toBe 32 83405770275774130395403844385091150924678369213805412890224449994673703491858 =
      hmac (digest tableHash) hmacBlockSize (text "test-key") (text "manifest canonical bytes") := by
    decide +kernel
  have hprefix : hmacSignerPrefix <+: text "hmac-sha256:580843d03d2216ff" := by decide
  have hown := (h.accepts.mp (verify_eq_ok.mpr ⟨hmac, hprefix⟩)).2
  exact absurd (buildSignerId_inj.mp (hother.symm.trans hown)) (by decide +kernel)

end CncContent.Group.CatalogSign
