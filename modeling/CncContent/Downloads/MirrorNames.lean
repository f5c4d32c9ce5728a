import CncContent.Downloads.MirrorsSpec

/-! # Which public names are refused as mirrors

The checks of a mirror compare the text of a host with the prefixes of address ranges, also if it is a
name. A name is no address and so never internal (`not_internalHost`), but the names that start like an
address of such a range are refused, and no other ones (`name_safe_iff`). -/

namespace CncContent.Downloads.MirrorNames

open CncContent.Lib.Bytes CncContent.Lib.Decimal CncContent.Lib.IpAddresses
open CncContent.Downloads.Mirrors CncContent.Downloads.MirrorsSpec
open CncContent.Workshop.Package (toAsciiLowercase)

def isLetter (b : UInt8) : Bool := within (byte 'a') (byte 'z') b || within (byte 'A') (byte 'Z') b

/-- A byte of a host name. -/
def isNameByte (b : UInt8) : Bool :=
  isLetter b || isDigit b || b == byte '-' || b == byte '.'

def lastLabel (host : List UInt8) : List UInt8 := (host.reverse.takeWhile (· ≠ byte '.')).reverse

/-- A name with a dot, the last label of which is not a number. Labels may be empty, so that names with
a dot at the end are among them. -/
structure HostName (host : List UInt8) : Prop where
  bytes : ∀ b ∈ host, isNameByte b = true
  dot : byte '.' ∈ host
  last : isNumeral (lastLabel host) = false

instance (host : List UInt8) : Decidable (HostName host) :=
  decidable_of_iff (host.all isNameByte = true ∧ byte '.' ∈ host ∧ isNumeral (lastLabel host) = false)
    ⟨fun h => ⟨List.all_eq_true.mp h.1, h.2.1, h.2.2⟩, fun h => ⟨List.all_eq_true.mpr h.1, h.2, h.3⟩⟩

/-- Nothing, or what follows the host from a slash on. -/
structure UrlPath (path : List UInt8) : Prop where
  slash : path = [] ∨ path.head? = some (byte '/')
  newline : byte '\n' ∉ path
  carriageReturn : byte '\r' ∉ path

instance (path : List UInt8) : Decidable (UrlPath path) :=
  decidable_of_iff ((path = [] ∨ path.head? = some (byte '/')) ∧ byte '\n' ∉ path ∧ byte '\r' ∉ path)
    ⟨fun h => ⟨h.1, h.2.1, h.2.2⟩, fun h => ⟨h.1, h.2, h.3⟩⟩

/-- The second label is a number from 16 to 31. -/
def SecondInRange (host : List UInt8) : Prop :=
  ∃ label ∈ (host.splitOn (byte '.'))[1]?, ∃ n ∈ parseNat 255 label, 16 ≤ n ∧ n ≤ 31

/-- A text that starts like an address of one of the ranges. -/
def LooksInternal (host : List UInt8) : Prop :=
  text "fe80" <+: lower host ∨ (text "fc" <+: lower host ∨ text "fd" <+: lower host) ∨
    text "10." <+: host ∨ text "192.168." <+: host ∨ text "169.254." <+: host ∨
      (text "172." <+: host ∧ SecondInRange host)

section Names

variable {host path : List UInt8}

theorem not_mem_of_hostName (h : HostName host) {b : UInt8} (hb : isNameByte b = false) : b ∉ host :=
  fun hmem => by
    rw [h.bytes b hmem] at hb
    cases hb

/-! ### Names are no addresses -/

theorem lastLabel_append {l r : List UInt8} (hr : byte '.' ∉ r) : lastLabel (l ++ byte '.' :: r) = r := by
  have hrev : (l ++ byte '.' :: r).reverse = r.reverse ++ byte '.' :: l.reverse := by simp
  have hstop : (r.reverse ++ byte '.' :: l.reverse).takeWhile (· ≠ byte '.') = r.reverse :=
    takeWhile_append_stop (fun b hb => decide_eq_true fun heq => hr (heq ▸ List.mem_reverse.mp hb))
      (by simp)
  rw [lastLabel, hrev, hstop, List.reverse_reverse]

theorem lastLabel_text (o : Ipv4) : lastLabel o.text = printNat o.d.toNat := by
  unfold Ipv4.text
  rw [← List.cons_append, ← List.append_assoc, ← List.cons_append, ← List.append_assoc,
    lastLabel_append (dot_notMem_printNat _)]

/-- **A name is not internal.** -/
theorem not_internalHost (h : HostName host) : ¬ InternalHost host := by
  rintro (hlocal | ⟨o, rfl, -⟩ | ⟨t, g, rfl, -⟩)
  · have hmem : toAsciiLowercase (byte '.') ∈ lower host := List.mem_map_of_mem h.dot
    rw [hlocal] at hmem
    exact absurd hmem (by decide)
  · have hlast := h.last
    rw [lastLabel_text, isNumeral_printNat] at hlast
    cases hlast
  · exact not_mem_of_hostName h (b := byte '[') (by decide) List.mem_cons_self

/-! ### The checks of a name -/

/-- The whole name is what the checks look at. -/
theorem hostOf_append (h : HostName host) (hpath : UrlPath path) : hostOf (host ++ path) = host := by
  have hslash : ∀ b ∈ host, decide (b ≠ byte '/') = true := fun b hb =>
    decide_eq_true fun heq => not_mem_of_hostName h (by decide) (heq ▸ hb)
  unfold hostOf
  rcases hpath.slash with rfl | hhead
  · rw [List.append_nil, List.takeWhile_eq_self_iff.mpr hslash]
  · obtain ⟨rest, rfl⟩ := List.head?_eq_some_iff.mp hhead
    exact takeWhile_append_stop hslash (by simp)

theorem head_ne_bracket (h : HostName host) : host.head? ≠ some (byte '[') := fun hhead =>
  not_mem_of_hostName h (by decide) (List.mem_of_mem_head? hhead)

theorem hostNoPort_eq (h : HostName host) : hostNoPort host = host := by
  unfold hostNoPort
  rw [if_neg (head_ne_bracket h), List.takeWhile_eq_self_iff.mpr]
  exact fun b hb => decide_eq_true fun heq => not_mem_of_hostName h (by decide) (heq ▸ hb)

/-- A name has no colon, and so nothing behind the prefix of a mapped address. -/
theorem deniedMapped_eq_false (h : HostName host) : deniedMapped (lower host) ≠ true := by
  have hcolon : byte ':' ∉ lower host := by
    intro hmem
    obtain ⟨b, hb, hlower⟩ := List.mem_map.mp hmem
    exact not_mem_of_hostName h (by decide) (lower_eq_colon_iff.mp hlower ▸ hb)
  intro hdenied
  obtain ⟨m, hm, -⟩ := deniedMapped_iff.mp hdenied
  rcases mappedPart_eq_some_iff.mp hm with hm | hm
  · exact hcolon (by rw [hm]; exact List.mem_append_left m (by decide))
  · exact hcolon (by rw [hm]; exact List.mem_append_left m (by decide))

/-- **A name is denied** if it starts like an address of a range. -/
theorem deniedHost_name (h : HostName host) : deniedHost host = true ↔ LooksInternal host := by
  have hlocal : host ≠ text "localhost" := by
    rintro rfl
    exact absurd h.dot (by decide)
  have hloop : host ≠ text "127.0.0.1" := by
    rintro rfl
    exact absurd h.last (by decide)
  have hcolon : host ≠ text "::1" := by
    rintro rfl
    exact not_mem_of_hostName h (b := byte ':') (by decide) (by decide)
  have hzero : host ≠ text "0.0.0.0" := by
    rintro rfl
    exact absurd h.last (by decide)
  rw [deniedHost_iff, inPrivateRange_iff]
  unfold LooksInternal SecondInRange
  simp only [hlocal, hloop, hcolon, hzero, deniedMapped_eq_false h, Bool.false_eq_true, false_or]

theorem notMem_url (h : HostName host) {b : UInt8} (hb : isNameByte b = false) (hpath : b ∉ path)
    (hscheme : b ∉ text "https://") : b ∉ text "https://" ++ (host ++ path) := by
  rw [List.mem_append, List.mem_append]
  exact not_or.mpr ⟨hscheme, not_or.mpr ⟨not_mem_of_hostName h hb, hpath⟩⟩

/-- **Which names are taken for safe**: those that do not start like an address of a range. The others
are no internal hosts either, and they are dropped from every list of mirrors. -/
theorem name_safe_iff (h : HostName host) (hpath : UrlPath path) :
    ¬ InternalHost host ∧
    (isSafeMirrorUrl (text "https://" ++ (host ++ path)) = true ↔ ¬ LooksInternal host) ∧
    ∀ body mirrors, parseMirrorListResponse body = .ok mirrors →
      text "https://" ++ (host ++ path) ∈ (lines body).map trim →
        (text "https://" ++ (host ++ path) ∈ mirrors ↔ ¬ LooksInternal host) := by
  have hsafe : isSafeMirrorUrl (text "https://" ++ (host ++ path)) = true ↔ ¬ LooksInternal host := by
    have hafter : afterScheme (text "https://" ++ (host ++ path)) = some (host ++ path) :=
      afterScheme_eq_some_iff.mpr (.inl rfl)
    rw [isSafeMirrorUrl_iff, hafter, ← deniedHost_name h, Bool.not_eq_true]
    constructor
    · rintro ⟨-, -, _, ⟨⟩, hdenied, -⟩
      rwa [hostOf_append h hpath, hostNoPort_eq h] at hdenied
    · refine fun hdenied => ⟨?_, ?_, host ++ path, rfl, ?_, .inr ?_⟩
      · exact notMem_url h (by decide) hpath.newline (by decide)
      · exact notMem_url h (by decide) hpath.carriageReturn (by decide)
      · rwa [hostOf_append h hpath, hostNoPort_eq h]
      · rw [hostOf_append h hpath, hostNoPort_eq h]
        exact h.dot
  refine ⟨not_internalHost h, hsafe, fun body mirrors hparse hline => ?_⟩
  rw [← hsafe]
  refine ⟨safe_of_parse hparse _, fun hurl => ?_⟩
  unfold parseMirrorListResponse at hparse
  dsimp only at hparse
  split_ifs at hparse with hnone
  cases hparse
  exact List.mem_filter.mpr ⟨hline, decide_eq_true ⟨nofun, hurl⟩⟩

theorem name_safe_iff_cdn : isSafeMirrorUrl (text "https://cdn.example.com/cnc") = true := by
  have hname : HostName (text "cdn.example.com") := by decide +kernel
  have hpath : UrlPath (text "/cnc") := by decide +kernel
  have hlooks : ¬ LooksInternal (text "cdn.example.com") := by
    rw [← deniedHost_name hname]
    decide +kernel
  exact (name_safe_iff hname hpath).2.1.mpr hlooks

/-- A name that starts like a unique local address. -/
theorem fdroid_refused : HostName (text "fdroid.example.com") ∧ UrlPath (text "/cnc") ∧
    isSafeMirrorUrl (text "https://fdroid.example.com/cnc") = false :=
  ⟨by decide +kernel, by decide +kernel, by decide +kernel⟩

end Names

end CncContent.Downloads.MirrorNames
