import CncContent.Group.Credential

/-! # Credentials from bytes

`PeerCredential::from_canonical` of the source. The fields stand at fixed places, so that every string of
at least 82 bytes is a row of them with something behind it (`exists_row`), and the decoder reads the row
(`fromCanonical_row`). What stands behind it is not looked at: the decoder accepts the canonical bytes of
every credential with anything behind them (`fromCanonical_eq_ok_iff`). -/

namespace CncContent.Group.CredentialBytes

open CncContent.Lib.Bytes CncContent.Lib.Checks CncContent.Group.Roster CncContent.Group.Credential

inductive CredentialParseError
  | tooShort (actual : ℕ)
  | unsupportedVersion (version : UInt8)
  | invalidRole (byte : UInt8)
deriving DecidableEq, Repr

def roleFromByte (byte : UInt8) : Option GroupRole :=
  if byte = 3 then some .master
  else if byte = 2 then some .admin
  else if byte = 1 then some .mirror
  else if byte = 0 then some .reader
  else none

/-- The array at an offset, zeros if it is not there. -/
def arrayAt (n : ℕ) (canonical : List UInt8) (offset : ℕ) : Vector UInt8 n :=
  ((slice canonical offset (offset + n)).bind (array n)).getD (Vector.replicate n 0)

/-- The little-endian number at an offset, zero if it is not there. -/
def u64At (canonical : List UInt8) (offset : ℕ) : UInt64 :=
  (((slice canonical offset (offset + 8)).bind (array 8)).map fun bytes =>
    UInt64.ofNat (ofLe bytes.toList)).getD 0

def fromCanonical (canonical signature issuerId : List UInt8) :
    Except CredentialParseError PeerCredential := do
  refuse (canonical.length < canonicalLen) (.tooShort canonical.length)
  let version := canonical.head?.getD 0
  refuse (version ≠ formatVersion) (.unsupportedVersion version)
  let subject := arrayAt 32 canonical 1
  let networkId := arrayAt 32 canonical 33
  let roleByte := canonical[65]?.getD 0xFF
  let role ← okOr (roleFromByte roleByte) (.invalidRole roleByte)
  let issuedAt := u64At canonical 66
  let expiresAt := u64At canonical 74
  return ⟨subject, networkId, role, issuedAt, expiresAt, signature, issuerId⟩

theorem roleFromByte_eq_some_iff {byte : UInt8} {role : GroupRole} :
    roleFromByte byte = some role ↔ byte = roleToByte role := by
  unfold roleFromByte
  constructor
  · intro h
    split_ifs at h <;> cases h <;> assumption
  · rintro rfl
    cases role <;> rfl

/-! ### Rows of fields -/

/-- The fields with something behind them. -/
def row (version : UInt8) (subject : PeerId) (networkId : NetworkId) (roleByte : UInt8)
    (issuedAt expiresAt : UInt64) (rest : List UInt8) : List UInt8 :=
  version :: (subject.toList ++ (networkId.toList ++ (roleByte ::
    (toLe 8 issuedAt.toNat ++ (toLe 8 expiresAt.toNat ++ rest)))))

section Row

variable {version roleByte : UInt8} {subject : PeerId} {networkId : NetworkId}
variable {issuedAt expiresAt : UInt64} {rest : List UInt8}

theorem canonicalBytes_append (c : PeerCredential) (rest : List UInt8) : c.canonicalBytes ++ rest =
    row formatVersion c.subject c.networkId (roleToByte c.role) c.issuedAt c.expiresAt rest := by
  simp [PeerCredential.canonicalBytes, row]

theorem length_row : (row version subject networkId roleByte issuedAt expiresAt rest).length =
    canonicalLen + rest.length := by
  simp only [row, canonicalLen, List.length_cons, List.length_append, length_toLe, Vector.length_toList]
  omega

theorem getElem?_row_role :
    (row version subject networkId roleByte issuedAt expiresAt rest)[65]? = some roleByte := by
  have hfront : row version subject networkId roleByte issuedAt expiresAt rest =
      (version :: (subject.toList ++ networkId.toList)) ++ roleByte ::
        (toLe 8 issuedAt.toNat ++ (toLe 8 expiresAt.toNat ++ rest)) := by
    simp [row]
  rw [hfront, List.getElem?_append_right (by simp)]
  simp

theorem arrayAt_of_eq {n offset : ℕ} {data l r : List UInt8} {v : Vector UInt8 n}
    (h : data = l ++ (v.toList ++ r)) (hl : l.length = offset) : arrayAt n data offset = v := by
  unfold arrayAt
  rw [slice_of_eq h hl (by rw [v.length_toList]), Option.bind_some, array_toList, Option.getD_some]

theorem u64At_of_eq {offset : ℕ} {data l r : List UInt8} {n : UInt64}
    (h : data = l ++ (toLe 8 n.toNat ++ r)) (hl : l.length = offset) : u64At data offset = n := by
  have hlen := length_toLe 8 n.toNat
  have harray : array 8 (toLe 8 n.toNat) = some ⟨(toLe 8 n.toNat).toArray, hlen⟩ := dif_pos hlen
  have hread : ofLe (toLe 8 n.toNat) = n.toNat := ofLe_toLe n.toNat_lt
  unfold u64At
  rw [slice_of_eq h hl (by rw [hlen]), Option.bind_some, harray, Option.map_some, Option.getD_some]
  show UInt64.ofNat (ofLe (toLe 8 n.toNat)) = n
  rw [hread, UInt64.ofNat_toNat]

/-- **What the decoder reads in a row.** -/
theorem fromCanonical_row (signature issuerId : List UInt8) :
    fromCanonical (row version subject networkId roleByte issuedAt expiresAt rest) signature issuerId =
      (do
        refuse (version ≠ formatVersion) (.unsupportedVersion version)
        let role ← okOr (roleFromByte roleByte) (.invalidRole roleByte)
        return ⟨subject, networkId, role, issuedAt, expiresAt, signature, issuerId⟩) := by
  set data := row version subject networkId roleByte issuedAt expiresAt rest with hdata
  have hlong : decide (data.length < canonicalLen) = false := by
    rw [decide_eq_false_iff_not, hdata, length_row]
    omega
  have hsubject : arrayAt 32 data 1 = subject := arrayAt_of_eq (l := [version]) hdata rfl
  have hnetwork : arrayAt 32 data 33 = networkId := by
    refine arrayAt_of_eq (l := version :: subject.toList) hdata ?_
    simp
  have hrole : data[65]? = some roleByte := getElem?_row_role
  have hissued : u64At data 66 = issuedAt := by
    refine u64At_of_eq (l := version :: (subject.toList ++ (networkId.toList ++ [roleByte])))
      (r := toLe 8 expiresAt.toNat ++ rest) ?_ ?_ <;> simp [hdata, row]
  have hexpires : u64At data 74 = expiresAt := by
    refine u64At_of_eq (r := rest) (l := version :: (subject.toList ++ (networkId.toList ++
      (roleByte :: toLe 8 issuedAt.toNat)))) ?_ ?_ <;> simp [hdata, row, length_toLe]
  unfold fromCanonical
  rw [hlong, hsubject, hnetwork, hrole, hissued, hexpires]
  rfl

end Row

theorem exists_array_append {n : ℕ} {l : List UInt8} (h : n ≤ l.length) :
    ∃ (v : Vector UInt8 n) (rest : List UInt8), l = v.toList ++ rest :=
  ⟨⟨(l.take n).toArray, List.length_take_of_le h⟩, l.drop n, (List.take_append_drop n l).symm⟩

theorem exists_u64_append {l : List UInt8} (h : 8 ≤ l.length) :
    ∃ (n : UInt64) (rest : List UInt8), l = toLe 8 n.toNat ++ rest := by
  have hlen : (l.take 8).length = 8 := List.length_take_of_le h
  have hlt := ofLe_lt (l.take 8)
  have hbytes := toLe_ofLe (l.take 8)
  rw [hlen] at hlt hbytes
  refine ⟨UInt64.ofNat (ofLe (l.take 8)), l.drop 8, ?_⟩
  rw [UInt64.toNat_ofNat_of_lt' hlt, hbytes, List.take_append_drop]

/-- **Every string of 82 bytes or more** is a row. -/
theorem exists_row {b : List UInt8} (h : canonicalLen ≤ b.length) :
    ∃ version subject networkId roleByte issuedAt expiresAt rest,
      b = row version subject networkId roleByte issuedAt expiresAt rest := by
  have hlen : 82 ≤ b.length := h
  obtain ⟨version, b₁, rfl⟩ := List.exists_cons_of_length_pos (by omega : 0 < b.length)
  rw [List.length_cons] at hlen
  obtain ⟨subject, b₂, rfl⟩ := exists_array_append (n := 32) (l := b₁) (by omega)
  rw [List.length_append, subject.length_toList] at hlen
  obtain ⟨networkId, b₃, rfl⟩ := exists_array_append (n := 32) (l := b₂) (by omega)
  rw [List.length_append, networkId.length_toList] at hlen
  obtain ⟨roleByte, b₄, rfl⟩ := List.exists_cons_of_length_pos (by omega : 0 < b₃.length)
  rw [List.length_cons] at hlen
  obtain ⟨issuedAt, b₅, rfl⟩ := exists_u64_append (l := b₄) (by omega)
  rw [List.length_append, length_toLe] at hlen
  obtain ⟨expiresAt, rest, rfl⟩ := exists_u64_append (l := b₅) (by omega)
  exact ⟨version, subject, networkId, roleByte, issuedAt, expiresAt, rest, rfl⟩

/-! ### What is accepted -/

/-- The bytes have the version and a role where the canonical bytes have them. -/
def Marked (b : List UInt8) : Prop :=
  b.head? = some formatVersion ∧ ∃ role, b[65]? = some (roleToByte role)

variable {b signature issuerId : List UInt8}

theorem exists_canonicalBytes_append_iff : (∃ (c : PeerCredential) (rest : List UInt8),
    b = c.canonicalBytes ++ rest) ↔ canonicalLen ≤ b.length ∧ Marked b := by
  constructor
  · rintro ⟨c, rest, rfl⟩
    rw [canonicalBytes_append, length_row]
    exact ⟨Nat.le_add_right _ _, rfl, c.role, getElem?_row_role⟩
  · rintro ⟨hlen, hversion, role, hrole⟩
    obtain ⟨version, subject, networkId, roleByte, issuedAt, expiresAt, rest, rfl⟩ := exists_row hlen
    rw [getElem?_row_role, Option.some.injEq] at hrole
    have hversion : version = formatVersion := Option.some.inj hversion
    subst hversion hrole
    set c : PeerCredential := ⟨subject, networkId, role, issuedAt, expiresAt, [], []⟩
    exact ⟨c, rest, (canonicalBytes_append c rest).symm⟩

/-- **What the decoder accepts**: the canonical bytes of a credential with anything behind them. -/
theorem fromCanonical_eq_ok_iff {c : PeerCredential} : fromCanonical b signature issuerId = .ok c ↔
    (∃ rest, b = c.canonicalBytes ++ rest) ∧ c.signature = signature ∧ c.issuerId = issuerId := by
  constructor
  · intro h
    have hlen : canonicalLen ≤ b.length := by
      unfold fromCanonical at h
      obtain ⟨_, hlong, -⟩ := bind_eq_ok.mp h
      rw [refuse_eq_ok, decide_eq_false_iff_not] at hlong
      omega
    obtain ⟨version, subject, networkId, roleByte, issuedAt, expiresAt, rest, rfl⟩ := exists_row hlen
    rw [fromCanonical_row] at h
    simp only [bind_eq_ok, refuse_eq_ok, okOr_eq_ok, roleFromByte_eq_some_iff, decide_eq_false_iff_not,
      not_not] at h
    obtain ⟨-, rfl, role, rfl, h⟩ := h
    cases h
    set c : PeerCredential :=
      ⟨subject, networkId, role, issuedAt, expiresAt, signature, issuerId⟩
    exact ⟨⟨rest, (canonicalBytes_append c rest).symm⟩, rfl, rfl⟩
  · rintro ⟨⟨rest, rfl⟩, rfl, rfl⟩
    rw [canonicalBytes_append, fromCanonical_row]
    simp only [bind_eq_ok, refuse_eq_ok, okOr_eq_ok, roleFromByte_eq_some_iff, decide_eq_false_iff_not,
      not_not]
    exact ⟨(), trivial, c.role, rfl, rfl⟩

/-- The decoder accepts the strings of 82 bytes or more that are marked. -/
theorem exists_fromCanonical_iff : (∃ c, fromCanonical b signature issuerId = .ok c) ↔
    canonicalLen ≤ b.length ∧ Marked b := by
  rw [← exists_canonicalBytes_append_iff]
  simp only [fromCanonical_eq_ok_iff]
  constructor
  · rintro ⟨c, hb, -⟩
    exact ⟨c, hb⟩
  · rintro ⟨c, hb⟩
    exact ⟨{ c with signature := signature, issuerId := issuerId }, hb, rfl, rfl⟩

/-- The canonical encodings are the marked strings of exactly 82 bytes. -/
theorem exists_canonicalBytes_iff :
    (∃ c : PeerCredential, c.canonicalBytes = b) ↔ b.length = canonicalLen ∧ Marked b := by
  constructor
  · rintro ⟨c, rfl⟩
    have hmarked := exists_canonicalBytes_append_iff.mp ⟨c, [], (List.append_nil _).symm⟩
    exact ⟨length_credentialBytes c, hmarked.2⟩
  · rintro ⟨hlen, hmarked⟩
    obtain ⟨c, rest, rfl⟩ := exists_canonicalBytes_append_iff.mpr ⟨hlen.ge, hmarked⟩
    rw [List.length_append, length_credentialBytes] at hlen
    have hrest : rest = [] := List.eq_nil_of_length_eq_zero (by omega)
    exact ⟨c, by rw [hrest, List.append_nil]⟩

/-- **When decoding is exact**: the canonical bytes of a credential are read back, in every signed field.
A string is accepted exactly if it is the canonical encoding of a credential, which is then the one
returned, unless it is longer than such an encoding and marked like one. -/
theorem fromCanonical_exact_iff (b signature issuerId : List UInt8) :
    ((((∃ c, fromCanonical b signature issuerId = .ok c) ↔ ∃ c : PeerCredential, c.canonicalBytes = b) ∧
      ∀ c, fromCanonical b signature issuerId = .ok c → c.canonicalBytes = b) ∧
      ∀ c : PeerCredential, fromCanonical c.canonicalBytes signature issuerId =
        .ok ⟨c.subject, c.networkId, c.role, c.issuedAt, c.expiresAt, signature, issuerId⟩) ↔
    ¬ (canonicalLen < b.length ∧ Marked b) := by
  constructor
  · rintro ⟨⟨h, -⟩, -⟩ ⟨hlong, hmarked⟩
    have hcanonical := h.mp (exists_fromCanonical_iff.mpr ⟨hlong.le, hmarked⟩)
    exact absurd (exists_canonicalBytes_iff.mp hcanonical).1 hlong.ne'
  · intro hnot
    have hlen : ∀ {c}, fromCanonical b signature issuerId = .ok c → b.length = canonicalLen := by
      intro c hc
      obtain ⟨hle, hmarked⟩ := exists_fromCanonical_iff.mp ⟨c, hc⟩
      exact le_antisymm (not_lt.mp fun hlong => hnot ⟨hlong, hmarked⟩) hle
    refine ⟨⟨⟨?_, ?_⟩, fun c hc => ?_⟩, fun c => ?_⟩
    · rintro ⟨c, hc⟩
      exact exists_canonicalBytes_iff.mpr ⟨hlen hc, (exists_fromCanonical_iff.mp ⟨c, hc⟩).2⟩
    · intro hcanonical
      obtain ⟨heq, hmarked⟩ := exists_canonicalBytes_iff.mp hcanonical
      exact exists_fromCanonical_iff.mpr ⟨heq.ge, hmarked⟩
    · obtain ⟨⟨rest, hb⟩, -⟩ := fromCanonical_eq_ok_iff.mp hc
      have hcount := congrArg List.length hb
      rw [List.length_append, length_credentialBytes, hlen hc] at hcount
      rw [hb, List.eq_nil_of_length_eq_zero (by omega : rest.length = 0), List.append_nil]
    · exact fromCanonical_eq_ok_iff.mpr ⟨⟨[], (List.append_nil _).symm⟩, rfl, rfl⟩

/-- The canonical bytes of a credential and one byte more. -/
theorem longer_bytes_accepted :
    (∃ c, fromCanonical (mirrorCredential.canonicalBytes ++ [0]) [] [] = .ok c) ∧
      ¬ ∃ c : PeerCredential, c.canonicalBytes = mirrorCredential.canonicalBytes ++ [0] := by
  constructor
  · exact exists_fromCanonical_iff.mpr
      (exists_canonicalBytes_append_iff.mp ⟨mirrorCredential, [0], rfl⟩)
  · rintro ⟨c, hc⟩
    have hlen := congrArg List.length hc
    rw [List.length_append, length_credentialBytes, length_credentialBytes] at hlen
    exact absurd hlen (by decide)

end CncContent.Group.CredentialBytes
