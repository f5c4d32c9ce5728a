import CncContent.Lib.Bytes
import CncContent.Lib.Checks
import CncContent.Lib.PrefixFree
import Mathlib.Data.List.Infix

/-! # Resource identifiers

`ResourceId` and `ResourceVersion` of the source. An identifier can only be built from two slugs that
pass `validate_slug`, and carries the proof. -/

namespace CncContent.Workshop.Resource

open CncContent.Lib.Bytes CncContent.Lib.Checks CncContent.Lib.PrefixFree

/-- `MAX_SLUG_LEN`. -/
def maxSlugLen : ℕ := 64

/-- The errors of the modelled functions. -/
inductive WorkshopError
  | invalidIdentifier (field : String) (value : List UInt8) (reason : String)
  | publisherRevoked (publisher : List UInt8) (reason : String)
  | futureTimestamp (timestamp driftSecs maxDriftSecs : ℕ)
  | invalidSignature (publisher resource : List UInt8)
  | staleAnnouncement (resource : List UInt8) (received known : ℕ)
  | sequenceJumpTooLarge (resource : List UInt8) (oldSeq newSeq maxJump : ℕ)
  | rateLimitExceeded (publisher : List UInt8) (count windowSecs maxCount : ℕ)
deriving DecidableEq, Repr

/-- A lower case ASCII letter, a digit or a hyphen. -/
def isSlugByte (b : UInt8) : Bool :=
  within (byte 'a') (byte 'z') b || within (byte '0') (byte '9') b || b == byte '-'

def validateSlug (slug : List UInt8) (field : String) : Except WorkshopError Unit := do
  refuse (slug = []) (.invalidIdentifier field slug "must not be empty")
  refuse (maxSlugLen < slug.length)
    (.invalidIdentifier field slug "exceeds maximum length of 64")
  refuse (!slug.all isSlugByte) (.invalidIdentifier field slug
    "must contain only lowercase ASCII letters, digits, and hyphens")
  refuse (slug.head? = some (byte '-') ∨ slug.getLast? = some (byte '-'))
    (.invalidIdentifier field slug "must not start or end with a hyphen")
  refuse ([byte '-', byte '-'] <:+: slug)
    (.invalidIdentifier field slug "must not contain consecutive hyphens")

@[ext]
structure ResourceId where
  publisher : List UInt8
  name : List UInt8
  publisher_valid : validateSlug publisher "publisher" = .ok ()
  name_valid : validateSlug name "name" = .ok ()
deriving DecidableEq

namespace ResourceId

def new (publisher name : List UInt8) : Except WorkshopError ResourceId :=
  match hp : validateSlug publisher "publisher" with
  | .error e => .error e
  | .ok () =>
    match hn : validateSlug name "name" with
    | .error e => .error e
    | .ok () => .ok ⟨publisher, name, hp, hn⟩

/-- `Display` of an identifier. -/
def toText (id : ResourceId) : List UInt8 := id.publisher ++ byte '/' :: id.name

end ResourceId

@[ext]
structure ResourceVersion where
  major : UInt32
  minor : UInt32
  patch : UInt32
deriving DecidableEq, Repr

/-! ### Slugs -/

/-- What a valid slug is made of. -/
theorem slug_of_valid {slug : List UInt8} {field : String} (h : validateSlug slug field = .ok ()) :
    slug.length ≤ maxSlugLen ∧ ∀ b ∈ slug, isSlugByte b = true := by
  unfold validateSlug at h
  obtain ⟨_, -, h⟩ := bind_eq_ok.mp h
  obtain ⟨_, hlen, h⟩ := bind_eq_ok.mp h
  obtain ⟨_, hbytes, -⟩ := bind_eq_ok.mp h
  rw [refuse_eq_ok, decide_eq_false_iff_not] at hlen
  rw [refuse_eq_ok, Bool.not_eq_false', List.all_eq_true] at hbytes
  exact ⟨Nat.not_lt.mp hlen, hbytes⟩

/-- The separator does not occur in a slug. -/
theorem slash_not_mem {slug : List UInt8} {field : String} (h : validateSlug slug field = .ok ()) :
    byte '/' ∉ slug := fun hmem =>
  absurd ((slug_of_valid h).2 _ hmem) (by decide)

/-- The constructor builds every identifier, from its own slugs. -/
theorem new_eq_ok_iff {publisher name : List UInt8} {id : ResourceId} :
    ResourceId.new publisher name = .ok id ↔ id.publisher = publisher ∧ id.name = name := by
  constructor
  · intro h
    unfold ResourceId.new at h
    split at h
    · cases h
    · split at h
      · cases h
      · cases h
        exact ⟨rfl, rfl⟩
  · rintro ⟨rfl, rfl⟩
    unfold ResourceId.new
    split
    · rename_i hpublisher
      rw [id.publisher_valid] at hpublisher
      cases hpublisher
    · split
      · rename_i hname
        rw [id.name_valid] at hname
        cases hname
      · rfl

/-- **The text of an identifier** determines it. -/
theorem toText_injective : Function.Injective ResourceId.toText := by
  rintro ⟨ap, an, hap, han⟩ ⟨bp, bn, hbp, hbn⟩ h
  have happend : (ap ++ [byte '/']) ++ an = (bp ++ [byte '/']) ++ bn := by
    rw [List.append_assoc, List.append_assoc]
    exact h
  obtain ⟨rfl, rfl⟩ := prefixFreeOn_terminated (byte '/') (slash_not_mem hap) (slash_not_mem hbp)
    happend
  rfl

end CncContent.Workshop.Resource
