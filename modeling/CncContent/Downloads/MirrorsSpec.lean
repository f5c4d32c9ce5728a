import CncContent.Downloads.Mirrors
import CncContent.Lib.IpAddresses
import Mathlib.Data.List.TakeWhile

/-! # Which internal hosts pass as mirrors

The host of a URL is defined by the grammar of URLs (`urlHost`), apart from how the checks cut it. Where no user
information, query or fragment stands before the first slash the two agree, and the internal hosts that the checks
miss are listed by their addresses and spellings (`Missed`, `mirror_guard_iff`). Elsewhere the checks look at
another text, and any host may be behind it (`user_info_hides_loopback`). -/

namespace CncContent.Downloads.MirrorsSpec

open CncContent.Lib.Bytes CncContent.Lib.Decimal CncContent.Lib.IpAddresses
open CncContent.Downloads.Mirrors
open CncContent.Workshop.Package (toAsciiLowercase)

/-! ### The host of a URL -/

/-- What is behind the scheme and two slashes. -/
def hierPart (url : List UInt8) : Option (List UInt8) :=
  match url.dropWhile (· ≠ byte ':') with
  | _ :: slash :: slash' :: rest => if slash = byte '/' ∧ slash' = byte '/' then some rest else none
  | _ => none

/-- Up to the first slash, question mark or hash. -/
def authority (rest : List UInt8) : List UInt8 :=
  rest.takeWhile fun b => b ≠ byte '/' ∧ b ≠ byte '?' ∧ b ≠ byte '#'

/-- The user information goes up to the last at sign. -/
def withoutUserInfo (authority : List UInt8) : List UInt8 := (authority.reverse.takeWhile (· ≠ byte '@')).reverse

/-- The port is what follows the brackets, or the first colon. -/
def withoutPort (host : List UInt8) : List UInt8 :=
  if host.head? = some (byte '[') ∧ byte ']' ∈ host then host.takeWhile (· ≠ byte ']') ++ [byte ']']
  else host.takeWhile (· ≠ byte ':')

def urlHost (url : List UInt8) : Option (List UInt8) :=
  (hierPart url).map fun rest => withoutPort (withoutUserInfo (authority rest))

def lower (s : List UInt8) : List UInt8 := s.map toAsciiLowercase

/-- The name of the machine itself, or an address that does not lead to a host of the public network. -/
def InternalHost (host : List UInt8) : Prop :=
  lower host = text "localhost" ∨ (∃ o : Ipv4, host = o.text ∧ o.Internal) ∨
    ∃ t g, host = byte '[' :: (t ++ [byte ']']) ∧ Ipv6 t g ∧ Internal g

def InternalUrl (url : List UInt8) : Prop := ∃ host ∈ urlHost url, InternalHost host

/-! ### What the checks miss -/

/-- The IPv4 addresses that are refused behind the prefix of mapped addresses. -/
def CaughtMapped (o : Ipv4) : Prop := o = ⟨127, 0, 0, 1⟩ ∨ o.Private ∨ o.LinkLocal

/-- The two spellings of mapped addresses that the checks know, in either case. -/
def SpeltMapped (t : List UInt8) (o : Ipv4) : Prop :=
  lower t = text "::ffff:" ++ o.text ∨ lower t = text "0:0:0:0:0:ffff:" ++ o.text

/-- `::`, other spellings of `::1`, the link-local addresses outside fe80::/16, and the mapped addresses that are in
another spelling or not among those refused. -/
def MissedIpv6 (t : List UInt8) (g : List ℕ) : Prop :=
  g = unspecified ∨ (g = loopback ∧ t ≠ text "::1") ∨ (LinkLocal g ∧ g.head? ≠ some 0xFE80) ∨
    ∃ o : Ipv4, g = mapped o ∧ o.Internal ∧ ¬ (CaughtMapped o ∧ SpeltMapped t o)

/-- 127/8 apart from 127.0.0.1, and the IPv6 addresses above. -/
def Missed (host : List UInt8) : Prop :=
  (∃ o : Ipv4, host = o.text ∧ o.Loopback ∧ o ≠ ⟨127, 0, 0, 1⟩) ∨
    ∃ t g, host = byte '[' :: (t ++ [byte ']']) ∧ Ipv6 t g ∧ MissedIpv6 t g

/-- No user information, query or fragment stands before the first slash. -/
def Plain (rest : List UInt8) : Prop :=
  let host := rest.takeWhile (· ≠ byte '/')
  byte '@' ∉ host ∧ byte '?' ∉ host ∧ byte '#' ∉ host

/-- Of a scheme that can be downloaded from, and on one line. -/
def WebUrl (url : List UInt8) : Prop :=
  (text "https://" <+: url ∨ text "http://" <+: url) ∧ byte '\n' ∉ url ∧ byte '\r' ∉ url

def PlainUrl (url : List UInt8) : Prop := ∀ rest ∈ hierPart url, Plain rest

/-- The host is one of those that the checks miss. -/
def MissedUrl (url : List UInt8) : Prop := ∃ host ∈ urlHost url, Missed host

/-- The text that is cut out passes the checks. -/
def Passes (host : List UInt8) : Prop :=
  deniedHost (hostNoPort host) = false ∧ (host.head? = some (byte '[') ∨ byte '.' ∈ hostNoPort host)

/-! ### IPv4 -/

section Ipv4

variable (o : Ipv4)

/-- A prefix up to a separator. -/
theorem prefix_iff {c : UInt8} {x y r r' : List UInt8} (hx : c ∉ x) (hy : c ∉ y) :
    x ++ c :: r <+: y ++ c :: r' ↔ x = y ∧ r <+: r' := by
  constructor
  · rintro ⟨s, hs⟩
    rw [List.append_assoc] at hs
    obtain ⟨hxy, hr⟩ := append_cons_inj hx hy hs
    exact ⟨hxy, s, hr⟩
  · rintro ⟨rfl, s, rfl⟩
    exact ⟨s, by rw [List.append_assoc, List.cons_append]⟩

theorem dot_notMem_printNat (n : ℕ) : byte '.' ∉ printNat n := notMem_printNat (by decide) n

theorem octet_iff {a n : UInt8} : printNat n.toNat = printNat a.toNat ↔ a = n :=
  ⟨fun h => (UInt8.toNat_inj.mp (printNat_inj h)).symm, fun h => by rw [h]⟩

theorem first_octet_iff (n : UInt8) : printNat n.toNat ++ [byte '.'] <+: o.text ↔ o.a = n := by
  unfold Ipv4.text
  rw [prefix_iff (dot_notMem_printNat _) (dot_notMem_printNat _), octet_iff]
  exact and_iff_left (List.nil_prefix)

theorem two_octets_iff (n m : UInt8) :
    printNat n.toNat ++ byte '.' :: (printNat m.toNat ++ [byte '.']) <+: o.text ↔ o.a = n ∧ o.b = m := by
  unfold Ipv4.text
  rw [prefix_iff (dot_notMem_printNat _) (dot_notMem_printNat _), octet_iff,
    prefix_iff (dot_notMem_printNat _) (dot_notMem_printNat _), octet_iff]
  exact and_congr_right fun _ => and_iff_left List.nil_prefix

theorem second_octet : (o.text.splitOn (byte '.'))[1]? = some (printNat o.b.toNat) := by
  unfold Ipv4.text
  rw [List.splitOn_append_cons_self_of_not_mem (dot_notMem_printNat _),
    List.splitOn_append_cons_self_of_not_mem (dot_notMem_printNat _)]
  rfl

theorem ite_true_iff {p : Prop} [Decidable p] {b : Bool} : (if p then true else b) = true ↔ p ∨ b = true := by
  split_ifs <;> simp_all

theorem ite_false_iff {p : Prop} [Decidable p] {b : Bool} : (if p then b else false) = true ↔ p ∧ b = true := by
  split_ifs <;> simp_all

theorem inPrivateRange_iff {host : List UInt8} : inPrivateRange host = true ↔
    text "10." <+: host ∨ text "192.168." <+: host ∨ text "169.254." <+: host ∨
      (text "172." <+: host ∧ ∃ s ∈ (host.splitOn (byte '.'))[1]?, ∃ n ∈ parseNat 255 s, 16 ≤ n ∧ n ≤ 31) := by
  unfold inPrivateRange
  rw [ite_true_iff, ite_false_iff, or_assoc, or_assoc]
  refine or_congr_right (or_congr_right (or_congr_right (and_congr_right fun _ => ?_)))
  rcases (host.splitOn (byte '.'))[1]? with _ | s
  · exact iff_of_false Bool.false_ne_true (by rintro ⟨s, hs, -⟩; cases hs)
  · dsimp only
    rcases hparse : parseNat 255 s with _ | n
    · refine iff_of_false Bool.false_ne_true ?_
      rintro ⟨_, ⟨⟩, n, hn, -⟩
      rw [hparse] at hn
      cases hn
    · refine decide_eq_true_iff.trans ⟨fun h => ⟨s, rfl, n, hparse, h⟩, ?_⟩
      rintro ⟨_, ⟨⟩, m, hm, h⟩
      rw [hparse] at hm
      cases hm
      exact h

theorem inPrivateRange_text : inPrivateRange o.text = true ↔ o.Private ∨ o.LinkLocal := by
  have h10 : text "10." <+: o.text ↔ o.a = 10 := first_octet_iff o 10
  have h172 : text "172." <+: o.text ↔ o.a = 172 := first_octet_iff o 172
  have h192 : text "192.168." <+: o.text ↔ o.a = 192 ∧ o.b = 168 := two_octets_iff o 192 168
  have h169 : text "169.254." <+: o.text ↔ o.a = 169 ∧ o.b = 254 := two_octets_iff o 169 254
  have hb : parseNat 255 (printNat o.b.toNat) = some o.b.toNat :=
    parseNat_printNat (Nat.le_of_lt_succ o.b.toNat_lt)
  rw [inPrivateRange_iff, second_octet, h10, h172, h192, h169]
  constructor
  · rintro (h | h | h | ⟨h, s, hs, n, hn, hrange⟩)
    · exact .inl (.inl h)
    · exact .inl (.inr (.inr h))
    · exact .inr h
    · cases hs
      rw [hb] at hn
      cases hn
      exact .inl (.inr (.inl ⟨h, hrange⟩))
  · rintro ((h | ⟨h, hrange⟩ | h) | h)
    · exact .inl h
    · exact .inr (.inr (.inr ⟨h, _, rfl, _, hb, hrange⟩))
    · exact .inr (.inl h)
    · exact .inr (.inr (.inl h))

end Ipv4

/-! ### Lower case -/

theorem toNat_toAsciiLowercase (b : UInt8) :
    (toAsciiLowercase b).toNat = if 65 ≤ b.toNat ∧ b.toNat ≤ 90 then b.toNat + 32 else b.toNat := by
  have hupper : within (byte 'A') (byte 'Z') b = true ↔ 65 ≤ b.toNat ∧ b.toNat ≤ 90 := within_iff
  unfold toAsciiLowercase
  simp only [hupper]
  split_ifs with hb
  · rw [UInt8.toNat_add, show (32 : UInt8).toNat = 32 from rfl]
    omega
  · rfl

theorem lower_digit {b : UInt8} (h : isDigit b = true ∨ b = byte '.') : toAsciiLowercase b = b := by
  have hnat : b.toNat ≤ 57 := by
    rcases h with h | rfl
    · exact (isDigit_iff.mp h).2
    · decide
  refine UInt8.toNat_inj.mp ?_
  rw [toNat_toAsciiLowercase]
  split_ifs <;> omega

theorem lower_text (o : Ipv4) : lower o.text = o.text := by
  have hdigit : ∀ (n : ℕ), ∀ b ∈ printNat n, isDigit b = true ∨ b = byte '.' := fun n b hb =>
    .inl ((isNumeral_iff.mp (isNumeral_printNat n)).2 b hb)
  have hall : ∀ b ∈ o.text, isDigit b = true ∨ b = byte '.' := by
    unfold Ipv4.text
    simp only [List.forall_mem_append, List.forall_mem_cons]
    exact ⟨hdigit _, .inr trivial, hdigit _, .inr trivial, hdigit _, .inr trivial, hdigit _⟩
  unfold lower
  exact (List.map_congr_left fun b hb => lower_digit (hall b hb)).trans (List.map_id _)

theorem isHexDigit_lower {b : UInt8} (h : isHexDigit b = true) : isHexDigit (toAsciiLowercase b) = true := by
  rw [isHexDigit_iff] at h ⊢
  rw [toNat_toAsciiLowercase]
  split_ifs <;> omega

theorem hexVal_lower {b : UInt8} (h : isHexDigit b = true) : hexVal (toAsciiLowercase b) = hexVal b := by
  rw [isHexDigit_iff] at h
  rw [hexVal_eq, hexVal_eq, toNat_toAsciiLowercase]
  split_ifs <;> omega

theorem foldl_hex_lower : ∀ {s : List UInt8}, (∀ b ∈ s, isHexDigit b = true) → ∀ n,
    (lower s).foldl (fun n b => 16 * n + hexVal b) n = s.foldl (fun n b => 16 * n + hexVal b) n
  | [], _, _ => rfl
  | b :: s, h, n => by
    have ih := foldl_hex_lower (List.forall_mem_cons.mp h).2 (16 * n + hexVal b)
    rw [lower, List.map_cons, List.foldl_cons, List.foldl_cons, hexVal_lower (h b List.mem_cons_self)]
    exact ih

theorem h16_lower {s : List UInt8} {n : ℕ} (h : h16 s = some n) : h16 (lower s) = some n := by
  obtain ⟨hne, hlen, hhex, hval⟩ := h16_eq_some_iff.mp h
  refine h16_eq_some_iff.mpr ⟨?_, ?_, ?_, ?_⟩
  · exact fun hnil => hne (List.map_eq_nil_iff.mp hnil)
  · rwa [lower, List.length_map]
  · exact List.forall_mem_map.mpr fun b hb => isHexDigit_lower (hhex b hb)
  · rw [foldl_hex_lower hhex, hval]

theorem tail_lower {ps : List (List UInt8)} {g : List ℕ} (h : Tail ps g) : Tail (ps.map lower) g := by
  induction h with
  | nil => exact .nil
  | ipv4 o =>
    rw [List.map_singleton, lower_text]
    exact .ipv4 o
  | cons hp _ ih => exact .cons (h16_lower hp) ih

theorem edge_lower (ps : List (List UInt8)) : (edge ps).map lower = edge (ps.map lower) := by
  cases ps with
  | nil => rfl
  | cons p ps => rfl

theorem spells_lower {ps : List (List UInt8)} {g : List ℕ} (h : Spells ps g) : Spells (ps.map lower) g := by
  cases h with
  | full h hlen => exact .full (tail_lower h) hlen
  | elided hl hr hlen =>
    rw [List.map_append, List.map_cons, edge_lower, edge_lower]
    refine .elided ?_ (tail_lower hr) hlen
    exact List.forall₂_map_left_iff.mpr (hl.imp fun _ _ => h16_lower)

theorem lower_eq_colon_iff {b : UInt8} : toAsciiLowercase b = byte ':' ↔ b = byte ':' := by
  rw [← UInt8.toNat_inj, ← UInt8.toNat_inj, toNat_toAsciiLowercase, show (byte ':').toNat = 58 from rfl]
  split_ifs <;> omega

theorem splitOn_lower : ∀ t : List UInt8, (lower t).splitOn (byte ':') = (t.splitOn (byte ':')).map lower
  | [] => rfl
  | b :: t => by
    have ih := splitOn_lower t
    have hstep : lower (b :: t) = toAsciiLowercase b :: lower t := rfl
    rw [hstep, List.splitOn_cons_eq_if_modifyHead, List.splitOn_cons_eq_if_modifyHead, ih]
    by_cases hb : b = byte ':'
    · subst hb
      rfl
    · rw [if_neg fun h => hb (lower_eq_colon_iff.mp (beq_iff_eq.mp h)), if_neg fun h => hb (beq_iff_eq.mp h)]
      cases t.splitOn (byte ':') with
      | nil => rfl
      | cons p ps => rfl

/-- The spelling in lower case is one of the same address. -/
theorem ipv6_lower {t : List UInt8} {g : List ℕ} (h : Ipv6 t g) : Ipv6 (lower t) g := by
  unfold Ipv6
  rw [splitOn_lower]
  exact spells_lower h

/-! ### The checks -/

theorem stripPrefix_eq_some_iff {start s m : List UInt8} : stripPrefix start s = some m ↔ s = start ++ m := by
  unfold stripPrefix
  rw [Option.ite_none_right_eq_some, Option.some.injEq]
  constructor
  · rintro ⟨hstart, rfl⟩
    exact (List.prefix_iff_eq_append.mp hstart).symm
  · rintro rfl
    exact ⟨List.prefix_append _ _, List.drop_left⟩

theorem mappedPart_eq_some_iff {s m : List UInt8} :
    mappedPart s = some m ↔ s = text "::ffff:" ++ m ∨ s = text "0:0:0:0:0:ffff:" ++ m := by
  unfold mappedPart
  rw [Option.or_eq_some_iff, stripPrefix_eq_some_iff, stripPrefix_eq_some_iff]
  refine or_congr_right ⟨And.right, fun h => ⟨?_, h⟩⟩
  rw [Option.eq_none_iff_forall_ne_some]
  intro m' h'
  rw [stripPrefix_eq_some_iff.mp h'] at h
  exact absurd (List.cons.inj h).1 (by decide)

theorem deniedMapped_iff {s : List UInt8} : deniedMapped s = true ↔
    ∃ m, mappedPart s = some m ∧ (m = text "127.0.0.1" ∨ inPrivateRange m = true) := by
  unfold deniedMapped
  cases mappedPart s with
  | none => exact iff_of_false Bool.false_ne_true (by rintro ⟨m, hm, -⟩; cases hm)
  | some m =>
    refine decide_eq_true_iff.trans ⟨fun h => ⟨m, rfl, h⟩, ?_⟩
    rintro ⟨_, ⟨⟩, h⟩
    exact h

theorem deniedHost_iff {host : List UInt8} : deniedHost host = true ↔
    (host = text "localhost" ∨ host = text "127.0.0.1" ∨ host = text "::1" ∨ host = text "0.0.0.0") ∨
      deniedMapped (lower host) = true ∨ text "fe80" <+: lower host ∨
      (text "fc" <+: lower host ∨ text "fd" <+: lower host) ∨ inPrivateRange host = true := by
  unfold deniedHost
  dsimp only
  rw [ite_true_iff, ite_true_iff, ite_true_iff, ite_true_iff]
  exact Iff.rfl

theorem not_loopback {o : Ipv4} (h : o.Private ∨ o.LinkLocal) : ¬ o.Loopback := by
  intro h127
  rcases h with (h | ⟨h, -⟩ | ⟨h, -⟩) | ⟨h, -⟩
  all_goals
    rw [show o.a = 127 from h127] at h
    revert h
    decide

/-- **The IPv4 addresses that are refused**: the internal ones, except for 127/8 apart from 127.0.0.1. -/
theorem deniedHost_text (o : Ipv4) :
    deniedHost o.text = true ↔ o.Internal ∧ ¬ (o.Loopback ∧ o ≠ ⟨127, 0, 0, 1⟩) := by
  have hcolon : byte ':' ∉ o.text := o.notMem_text (by decide) (by decide)
  have hf : byte 'f' ∉ o.text := o.notMem_text (by decide) (by decide)
  have hl : byte 'l' ∉ o.text := o.notMem_text (by decide) (by decide)
  have hloopback : o.text = text "127.0.0.1" ↔ o = ⟨127, 0, 0, 1⟩ :=
    (show text "127.0.0.1" = Ipv4.text ⟨127, 0, 0, 1⟩ by decide) ▸ Ipv4.text_injective.eq_iff
  have hzero : o.text = text "0.0.0.0" ↔ o = ⟨0, 0, 0, 0⟩ :=
    (show text "0.0.0.0" = Ipv4.text ⟨0, 0, 0, 0⟩ by decide) ▸ Ipv4.text_injective.eq_iff
  have hmapped : deniedMapped o.text ≠ true := by
    intro h
    obtain ⟨m, hm, -⟩ := deniedMapped_iff.mp h
    rcases mappedPart_eq_some_iff.mp hm with hm | hm
    · exact hcolon (by rw [hm]; exact List.mem_append_left m (by decide))
    · exact hcolon (by rw [hm]; exact List.mem_append_left m (by decide))
  rw [deniedHost_iff, lower_text, inPrivateRange_text, hloopback, hzero]
  constructor
  · rintro ((h | h | h | h) | h | h | (h | h) | h | h)
    · exact absurd (by rw [h]; decide) hl
    · exact ⟨.inl (by rw [h]; rfl), fun hmissed => hmissed.2 h⟩
    · exact absurd (by rw [h]; decide) hcolon
    · exact ⟨.inr (.inl h), fun hmissed => absurd hmissed.1 (by rw [h]; unfold Ipv4.Loopback; decide)⟩
    · exact absurd h hmapped
    · exact absurd (h.mem (by decide)) hf
    · exact absurd (h.mem (by decide)) hf
    · exact absurd (h.mem (by decide)) hf
    · exact ⟨.inr (.inr (.inl h)), fun hmissed => not_loopback (.inl h) hmissed.1⟩
    · exact ⟨.inr (.inr (.inr h)), fun hmissed => not_loopback (.inr h) hmissed.1⟩
  · rintro ⟨h | h | h | h, hmissed⟩
    · exact .inl (.inr (.inl (by_contra fun hne => hmissed ⟨h, hne⟩)))
    · exact .inl (.inr (.inr (.inr h)))
    · exact .inr (.inr (.inr (.inr (.inl h))))
    · exact .inr (.inr (.inr (.inr (.inr h))))

/-! ### IPv6 -/

/-- A prefix with a dot and no colon lies in the first piece. -/
theorem exists_dotted {start m : List UInt8} (hcolon : byte ':' ∉ start) (hdot : byte '.' ∈ start)
    (h : start <+: m) : ∃ q qs, m.splitOn (byte ':') = q :: qs ∧ byte '.' ∈ q := by
  obtain ⟨r, rfl⟩ := h
  by_cases hr : byte ':' ∈ r
  · obtain ⟨x, y, rfl, hx⟩ := List.eq_append_cons_of_mem hr
    refine ⟨start ++ x, y.splitOn (byte ':'), ?_, List.mem_append_left x hdot⟩
    rw [← List.append_assoc]
    exact List.splitOn_append_cons_self_of_not_mem (fun h => (List.mem_append.mp h).elim hcolon hx) y
  · refine ⟨start ++ r, [], ?_, List.mem_append_left r hdot⟩
    exact List.splitOn_eq_singleton fun h => (List.mem_append.mp h).elim hcolon hr

/-- What the IPv4 checks refuse has a dot in its first piece. -/
theorem dotted_of_refused {m : List UInt8} (h : m = text "127.0.0.1" ∨ inPrivateRange m = true) :
    ∃ q qs, m.splitOn (byte ':') = q :: qs ∧ byte '.' ∈ q := by
  rcases h with h | h
  · subst h
    exact exists_dotted (by decide) (by decide) (List.prefix_refl (text "127.0.0.1"))
  · rcases inPrivateRange_iff.mp h with h | h | h | ⟨h, -⟩
    · exact exists_dotted (by decide) (by decide) h
    · exact exists_dotted (by decide) (by decide) h
    · exact exists_dotted (by decide) (by decide) h
    · exact exists_dotted (by decide) (by decide) h

section Ipv6

variable {t : List UInt8} {g : List ℕ}

/-- The IPv4 checks do not apply to the text of an IPv6 address. -/
theorem not_inPrivateRange (h : Ipv6 t g) : inPrivateRange t ≠ true := by
  intro hrange
  obtain ⟨q, qs, hsplit, hq⟩ := dotted_of_refused (.inr hrange)
  obtain ⟨p, r, n, rfl, -, hp⟩ := exists_first h
  have hdot : byte '.' ∉ p := by
    rcases hp with hp | ⟨rfl, -⟩
    · exact dot_notMem hp
    · exact List.not_mem_nil
  have hcolon : byte ':' ∉ p := by
    rcases hp with hp | ⟨rfl, -⟩
    · exact notMem_of_h16 hp (by decide)
    · exact List.not_mem_nil
  rw [List.splitOn_append_cons_self_of_not_mem hcolon] at hsplit
  rw [← (List.cons.inj hsplit).1] at hq
  exact hdot hq

theorem eq_of_splitOn {m q : List UInt8} (h : m.splitOn (byte ':') = [q]) : m = q := by
  have hm : [byte ':'].intercalate (m.splitOn (byte ':')) = m := List.intercalate_splitOn _
  rw [← hm, h, List.intercalate_singleton]

/-- The groups of pieces of which each is a group. -/
theorem eq_of_groups {pre : List (List UInt8)} {gpre : List ℕ} (gs : List ℕ)
    (h : List.Forall₂ (fun p n => h16 p = some n) pre gpre) (hgs : pre.map h16 = gs.map some) : gpre = gs := by
  have hmap : pre.map h16 = gpre.map some := by
    clear hgs
    induction h with
    | nil => rfl
    | cons hp _ ih => rw [List.map_cons, List.map_cons, hp, ih]
  exact List.map_injective_iff.mpr (Option.some_injective _) (hmap.symm.trans hgs)

theorem splitOn_piece {p r : List UInt8} (hp : byte ':' ∉ p) :
    (p ++ byte ':' :: r).splitOn (byte ':') = p :: r.splitOn (byte ':') :=
  List.splitOn_append_cons_self_of_not_mem hp r

/-- Behind the prefix of a mapped address, what the IPv4 checks refuse is an IPv4 address. -/
theorem eq_mapped {m : List UInt8} (h : Ipv6 t g) (ht : t = text "::ffff:" ++ m ∨ t = text "0:0:0:0:0:ffff:" ++ m)
    (hm : m = text "127.0.0.1" ∨ inPrivateRange m = true) : ∃ o : Ipv4, m = o.text ∧ g = mapped o := by
  obtain ⟨q, qs, hsplit, hq⟩ := dotted_of_refused hm
  unfold Ipv6 at h
  rcases ht with rfl | rfl
  · have hpieces : (text "::ffff:" ++ m).splitOn (byte ':') = [] :: [] :: ([text "ffff"] ++ q :: qs) := by
      show ([] ++ byte ':' :: ([] ++ byte ':' :: (text "ffff" ++ byte ':' :: m))).splitOn (byte ':') = _
      rw [splitOn_piece (by decide), splitOn_piece (by decide), splitOn_piece (by decide), hsplit]
      rfl
    rw [hpieces] at h
    obtain ⟨gpre, o, hpre, hlast, rfl⟩ := spells_gap_dot hq h
    rw [eq_of_groups [0xFFFF] hpre (by decide)]
    exact ⟨o, eq_of_splitOn (hsplit.trans hlast), rfl⟩
  · have hpieces : (text "0:0:0:0:0:ffff:" ++ m).splitOn (byte ':') =
        [text "0", text "0", text "0", text "0", text "0", text "ffff"] ++ q :: qs := by
      show (text "0" ++ byte ':' :: (text "0" ++ byte ':' :: (text "0" ++ byte ':' :: (text "0" ++ byte ':' ::
        (text "0" ++ byte ':' :: (text "ffff" ++ byte ':' :: m)))))).splitOn (byte ':') = _
      rw [splitOn_piece (by decide), splitOn_piece (by decide), splitOn_piece (by decide),
        splitOn_piece (by decide), splitOn_piece (by decide), splitOn_piece (by decide), hsplit]
      rfl
    rw [hpieces] at h
    obtain ⟨gpre, o, hpre, hlast, rfl⟩ := spells_dot hq (by decide) h
    rw [eq_of_groups [0, 0, 0, 0, 0, 0xFFFF] hpre (by decide)]
    exact ⟨o, eq_of_splitOn (hsplit.trans hlast), rfl⟩

/-- **The mapped addresses that are refused** as such. -/
theorem deniedMapped_lower_iff (h : Ipv6 t g) :
    deniedMapped (lower t) = true ↔ ∃ o : Ipv4, g = mapped o ∧ CaughtMapped o ∧ SpeltMapped t o := by
  have htext : ∀ o : Ipv4, (o.text = text "127.0.0.1" ∨ inPrivateRange o.text = true) ↔ CaughtMapped o := by
    intro o
    rw [show text "127.0.0.1" = Ipv4.text ⟨127, 0, 0, 1⟩ by decide, Ipv4.text_injective.eq_iff, inPrivateRange_text]
    exact Iff.rfl
  rw [deniedMapped_iff]
  constructor
  · rintro ⟨m, hm, hrefused⟩
    obtain ⟨o, rfl, rfl⟩ := eq_mapped (ipv6_lower h) (mappedPart_eq_some_iff.mp hm) hrefused
    exact ⟨o, rfl, (htext o).mp hrefused, mappedPart_eq_some_iff.mp hm⟩
  · rintro ⟨o, -, hcaught, hspelt⟩
    exact ⟨o.text, mappedPart_eq_some_iff.mpr hspelt, (htext o).mpr hcaught⟩

/-- The lower case of a digit is determined by its value. -/
theorem lower_eq_of_hexVal {b c : UInt8} (hb : isHexDigit b = true)
    (hc : (48 ≤ c.toNat ∧ c.toNat ≤ 57) ∨ (97 ≤ c.toNat ∧ c.toNat ≤ 102)) (h : hexVal b = hexVal c) :
    toAsciiLowercase b = c := by
  rw [isHexDigit_iff] at hb
  rw [hexVal_eq, hexVal_eq] at h
  refine UInt8.toNat_inj.mp ?_
  rw [toNat_toAsciiLowercase]
  split_ifs at h ⊢ <;> omega

/-- The digits of a first group from f000 on. -/
theorem exists_first_digits (h : Ipv6 t g) {n : ℕ} (hg : g.head? = some n) (hn : 0xF000 ≤ n) :
    ∃ x y z r, lower t = byte 'f' :: toAsciiLowercase x :: toAsciiLowercase y :: toAsciiLowercase z :: r ∧
      isHexDigit x = true ∧ isHexDigit y = true ∧ isHexDigit z = true ∧
      n = 0xF000 + 256 * hexVal x + 16 * hexVal y + hexVal z := by
  obtain ⟨p, r, n', rfl, hg', hp⟩ := exists_first h
  rw [hg] at hg'
  cases hg'
  rcases hp with hp | ⟨-, -, rfl⟩
  · obtain ⟨w, x, y, z, rfl, hhex, hval⟩ := exists_digits hp (by omega)
    have hw := hexVal_lt (hhex w (by simp))
    have hx := hexVal_lt (hhex x (by simp))
    have hy := hexVal_lt (hhex y (by simp))
    have hz := hexVal_lt (hhex z (by simp))
    have hw15 : hexVal w = 15 := by omega
    have hlower : toAsciiLowercase w = byte 'f' := lower_eq_of_hexVal (hhex w (by simp)) (by decide) hw15
    refine ⟨x, y, z, lower (byte ':' :: r), ?_, hhex x (by simp), hhex y (by simp), hhex z (by simp),
      by omega⟩
    rw [← hlower]
    rfl
  · omega

/-- The texts of unique local addresses are refused. -/
theorem denied_uniqueLocal (h : Ipv6 t g) (hg : UniqueLocal g) : deniedHost t = true := by
  obtain ⟨n, hhead, hlo, hhi⟩ := hg
  obtain ⟨x, y, z, r, hlower, hx, hy, hz, hval⟩ := exists_first_digits h hhead (by omega)
  have hltx := hexVal_lt hx
  have hlty := hexVal_lt hy
  have hltz := hexVal_lt hz
  refine deniedHost_iff.mpr (.inr (.inr (.inr (.inl ?_))))
  rw [hlower]
  rcases (show hexVal x = 12 ∨ hexVal x = 13 by omega) with hx' | hx'
  · rw [lower_eq_of_hexVal (c := byte 'c') hx (by decide) hx']
    exact .inl ⟨_, rfl⟩
  · rw [lower_eq_of_hexVal (c := byte 'd') hx (by decide) hx']
    exact .inr ⟨_, rfl⟩

/-- Of the texts of link-local addresses, those whose first group is fe80 have a refused prefix. -/
theorem linkLocal_prefixes (h : Ipv6 t g) {n : ℕ} (hg : g.head? = some n) (hlo : 0xFE80 ≤ n) (hhi : n ≤ 0xFEBF) :
    (text "fe80" <+: lower t ↔ n = 0xFE80) ∧ ¬ text "fc" <+: lower t ∧ ¬ text "fd" <+: lower t := by
  obtain ⟨x, y, z, r, hlower, hx, hy, hz, hval⟩ := exists_first_digits h hg (by omega)
  have hltx := hexVal_lt hx
  have hlty := hexVal_lt hy
  have hltz := hexVal_lt hz
  have hx14 : hexVal x = 14 := by omega
  rw [hlower, lower_eq_of_hexVal (c := byte 'e') hx (by decide) hx14]
  refine ⟨⟨?_, ?_⟩, fun hfc => ?_, fun hfd => ?_⟩
  · intro hfe80
    have hstart : [byte 'f', byte 'e', byte '8', byte '0'] <+:
      byte 'f' :: byte 'e' :: toAsciiLowercase y :: toAsciiLowercase z :: r := hfe80
    obtain ⟨hy8, hrest⟩ := List.cons_prefix_cons.mp (List.cons_prefix_cons.mp (List.cons_prefix_cons.mp hstart).2).2
    have hz0 := (List.cons_prefix_cons.mp hrest).1
    have hyv := hexVal_lower hy
    have hzv := hexVal_lower hz
    rw [← hy8, show hexVal (byte '8') = 8 from rfl] at hyv
    rw [← hz0, show hexVal (byte '0') = 0 from rfl] at hzv
    omega
  · rintro rfl
    have hy8 : hexVal y = 8 := by omega
    have hz0 : hexVal z = 0 := by omega
    rw [lower_eq_of_hexVal (c := byte '8') hy (by decide) hy8,
      lower_eq_of_hexVal (c := byte '0') hz (by decide) hz0]
    exact ⟨r, rfl⟩
  · exact absurd (List.cons_prefix_cons.mp (List.cons_prefix_cons.mp hfc).2).1 (by decide)
  · exact absurd (List.cons_prefix_cons.mp (List.cons_prefix_cons.mp hfd).2).1 (by decide)

/-- The text of an address whose first group is zero has none of the refused prefixes. -/
theorem zero_prefixes (h : Ipv6 t g) (hg : g.head? = some 0) :
    ¬ text "fe80" <+: lower t ∧ ¬ text "fc" <+: lower t ∧ ¬ text "fd" <+: lower t := by
  obtain ⟨p, r, n, rfl, hg', hp⟩ := exists_first h
  rw [hg] at hg'
  cases hg'
  have hhead : ∃ c s, lower (p ++ byte ':' :: r) = c :: s ∧ (c = byte '0' ∨ c = byte ':') := by
    rcases hp with hp | ⟨rfl, -⟩
    · obtain ⟨s, rfl⟩ := List.head?_eq_some_iff.mp (head_of_h16_zero hp)
      exact ⟨_, _, rfl, .inl rfl⟩
    · exact ⟨_, _, rfl, .inr rfl⟩
  obtain ⟨c, s, hlower, hc⟩ := hhead
  have hf : c ≠ byte 'f' := by
    rcases hc with rfl | rfl <;> decide
  rw [hlower]
  exact ⟨fun h => hf (List.cons_prefix_cons.mp h).1.symm, fun h => hf (List.cons_prefix_cons.mp h).1.symm,
    fun h => hf (List.cons_prefix_cons.mp h).1.symm⟩

/-- Apart from the prefixes of the ranges, what is refused is `::1` and some of the mapped addresses. -/
theorem denied_ipv6_iff (h : Ipv6 t g) : deniedHost t = true ↔ t = text "::1" ∨
    (∃ o : Ipv4, g = mapped o ∧ CaughtMapped o ∧ SpeltMapped t o) ∨
    text "fe80" <+: lower t ∨ text "fc" <+: lower t ∨ text "fd" <+: lower t := by
  have hcolon : byte ':' ∈ t := by
    obtain ⟨p, r, n, rfl, -, -⟩ := exists_first h
    exact List.mem_append_right p List.mem_cons_self
  rw [deniedHost_iff, deniedMapped_lower_iff h]
  constructor
  · rintro ((h' | h' | h' | h') | h' | h' | h' | h')
    · exact absurd (h' ▸ hcolon) (by decide)
    · exact absurd (h' ▸ hcolon) (by decide)
    · exact .inl h'
    · exact absurd (h' ▸ hcolon) (by decide)
    · exact .inr (.inl h')
    · exact .inr (.inr (.inl h'))
    · exact .inr (.inr (.inr h'))
    · exact absurd h' (not_inPrivateRange h)
  · rintro (h' | h' | h' | h')
    · exact .inl (.inr (.inr (.inl h')))
    · exact .inr (.inl h')
    · exact .inr (.inr (.inl h'))
    · exact .inr (.inr (.inr (.inl h')))

/-- **The IPv6 addresses that the checks miss.** -/
theorem missedIpv6_iff (h : Ipv6 t g) : Internal g ∧ deniedHost t = false ↔ MissedIpv6 t g := by
  rw [← Bool.not_eq_true, denied_ipv6_iff h]
  constructor
  · rintro ⟨hg | hg | hg | ⟨n, hn, hlo, hhi⟩ | ⟨o, hg, ho⟩, hnot⟩
    · exact .inr (.inl ⟨hg, fun ht => hnot (.inl ht)⟩)
    · exact .inl hg
    · have hdenied := denied_uniqueLocal h hg
      exact absurd ((denied_ipv6_iff h).mp hdenied) hnot
    · refine .inr (.inr (.inl ⟨⟨n, hn, hlo, hhi⟩, fun hhead => hnot ?_⟩))
      rw [show g.head? = some n from hn] at hhead
      exact .inr (.inr (.inl ((linkLocal_prefixes h hn hlo hhi).1.mpr (Option.some.inj hhead))))
    · exact .inr (.inr (.inr ⟨o, hg, ho, fun hspelt => hnot (.inr (.inl ⟨o, hg, hspelt⟩))⟩))
  · have hzero : g.head? = some 0 → t ≠ text "::1" →
        (∀ o : Ipv4, g = mapped o → ¬ (CaughtMapped o ∧ SpeltMapped t o)) →
        ¬ (t = text "::1" ∨ (∃ o : Ipv4, g = mapped o ∧ CaughtMapped o ∧ SpeltMapped t o) ∨
          text "fe80" <+: lower t ∨ text "fc" <+: lower t ∨ text "fd" <+: lower t) := by
      intro hhead hone hmapped
      obtain ⟨hfe80, hfc, hfd⟩ := zero_prefixes h hhead
      rintro (h' | ⟨o, ho, hspelt⟩ | h' | h' | h')
      · exact hone h'
      · exact hmapped o ho hspelt
      · exact hfe80 h'
      · exact hfc h'
      · exact hfd h'
    have hone : g ≠ loopback → t ≠ text "::1" := by
      rintro hg rfl
      exact hg (eq_loopback_of_ipv6 h)
    rintro (rfl | ⟨rfl, ht⟩ | ⟨⟨n, hn, hlo, hhi⟩, hne⟩ | ⟨o, rfl, ho, hspelt⟩)
    · refine ⟨.inr (.inl rfl), hzero rfl (hone (by decide)) fun o ho => ?_⟩
      exact absurd (congrArg (·[5]?) ho) (by simp [unspecified, mapped])
    · refine ⟨.inl rfl, hzero rfl ht fun o ho => ?_⟩
      exact absurd (congrArg (·[5]?) ho) (by simp [loopback, mapped])
    · refine ⟨.inr (.inr (.inr (.inl ⟨n, hn, hlo, hhi⟩))), ?_⟩
      obtain ⟨hfe80, hfc, hfd⟩ := linkLocal_prefixes h hn hlo hhi
      have hhead : g.head? ≠ some 0 := by
        rw [show g.head? = some n from hn, Ne, Option.some.injEq]
        omega
      rintro (h' | ⟨o, rfl, -⟩ | h' | h' | h')
      · rw [h'] at h
        exact hhead (by rw [eq_loopback_of_ipv6 h]; rfl)
      · exact hhead rfl
      · exact hne (hfe80.mp h' ▸ hn)
      · exact hfc h'
      · exact hfd h'
    · refine ⟨.inr (.inr (.inr (.inr ⟨o, rfl, ho⟩))), hzero rfl (hone ?_) fun o' ho' => ?_⟩
      · exact fun heq => absurd (congrArg (·[5]?) heq) (by simp [loopback, mapped])
      · rwa [← mapped_injective ho']

end Ipv6

/-! ### Hosts -/

theorem text_ne_bracket (o : Ipv4) (s : List UInt8) : byte '[' :: s ≠ o.text := fun h =>
  o.notMem_text (b := byte '[') (by decide) (by decide) (by rw [← h]; exact List.mem_cons_self)

theorem lower_bracket_ne (s : List UInt8) : lower (byte '[' :: s) ≠ text "localhost" := fun h =>
  absurd (List.cons.inj h).1 (by decide)

section Hosts

variable {t host : List UInt8}

theorem internalHost_bracket :
    InternalHost (byte '[' :: (t ++ [byte ']'])) ↔ ∃ g, Ipv6 t g ∧ Internal g := by
  constructor
  · rintro (h | ⟨o, h, -⟩ | ⟨t', g, h, hg⟩)
    · exact absurd h (lower_bracket_ne _)
    · exact absurd h (text_ne_bracket o _)
    · rw [List.append_cancel_right (List.cons.inj h).2]
      exact ⟨g, hg⟩
  · rintro ⟨g, hg⟩
    exact .inr (.inr ⟨t, g, rfl, hg⟩)

theorem missed_bracket : Missed (byte '[' :: (t ++ [byte ']'])) ↔ ∃ g, Ipv6 t g ∧ MissedIpv6 t g := by
  constructor
  · rintro (⟨o, h, -⟩ | ⟨t', g, h, hg⟩)
    · exact absurd h (text_ne_bracket o _)
    · rw [List.append_cancel_right (List.cons.inj h).2]
      exact ⟨g, hg⟩
  · rintro ⟨g, hg⟩
    exact .inr ⟨t, g, rfl, hg⟩

/-- In brackets. -/
theorem passes_bracket_iff :
    InternalHost (byte '[' :: (t ++ [byte ']'])) ∧ deniedHost t = false ↔
      Missed (byte '[' :: (t ++ [byte ']'])) := by
  rw [internalHost_bracket, missed_bracket]
  constructor
  · rintro ⟨⟨g, h, hg⟩, hdenied⟩
    exact ⟨g, h, (missedIpv6_iff h).mp ⟨hg, hdenied⟩⟩
  · rintro ⟨g, h, hmissed⟩
    obtain ⟨hg, hdenied⟩ := (missedIpv6_iff h).mpr hmissed
    exact ⟨⟨g, h, hg⟩, hdenied⟩

/-- Not in brackets: a name without a dot is refused, and so `localhost`. -/
theorem passes_name_iff (hhost : host.head? ≠ some (byte '[')) :
    InternalHost host ∧ deniedHost host = false ∧ byte '.' ∈ host ↔ Missed host := by
  have hbracket : ∀ s, host ≠ byte '[' :: s := by
    rintro s rfl
    exact hhost rfl
  constructor
  · rintro ⟨h | ⟨o, rfl, ho⟩ | ⟨t, g, h, -⟩, hdenied, hdot⟩
    · have hmem : toAsciiLowercase (byte '.') ∈ lower host := List.mem_map_of_mem hdot
      rw [h] at hmem
      exact absurd hmem (by decide)
    · refine .inl ⟨o, rfl, by_contra fun hmissed => ?_⟩
      rw [(deniedHost_text o).mpr ⟨ho, hmissed⟩] at hdenied
      cases hdenied
    · exact absurd h (hbracket _)
  · rintro (⟨o, rfl, hloop, hne⟩ | ⟨t, g, h, -⟩)
    · refine ⟨.inr (.inl ⟨o, rfl, .inl hloop⟩), ?_, o.dot_mem_text⟩
      rw [← Bool.not_eq_true, deniedHost_text]
      exact fun hdenied => hdenied.2 ⟨hloop, hne⟩
    · exact absurd h (hbracket _)

/-- A bracket that is not closed. -/
theorem not_internal_open {s : List UInt8} (h : byte ']' ∉ byte '[' :: s) :
    ¬ InternalHost (byte '[' :: s) ∧ ¬ Missed (byte '[' :: s) := by
  have hclosed : ∀ t : List UInt8, byte '[' :: s ≠ byte '[' :: (t ++ [byte ']']) := fun t heq =>
    h (by rw [heq]; simp)
  constructor
  · rintro (h' | ⟨o, h', -⟩ | ⟨t, g, h', -⟩)
    · exact lower_bracket_ne s h'
    · exact text_ne_bracket o s h'
    · exact hclosed t h'
  · rintro (⟨o, h', -⟩ | ⟨t, g, h', -⟩)
    · exact text_ne_bracket o s h'
    · exact hclosed t h'

/-- **What is cut out at the first slash**, if it is the host and its port. -/
theorem passes_iff (host : List UInt8) :
    InternalHost (withoutPort host) ∧ Passes host ↔ Missed (withoutPort host) := by
  unfold Passes hostNoPort withoutPort
  by_cases hopen : host.head? = some (byte '[')
  · obtain ⟨s, rfl⟩ := List.head?_eq_some_iff.mp hopen
    rw [if_pos hopen, List.tail_cons, and_iff_left (Or.inl hopen)]
    by_cases hclose : byte ']' ∈ byte '[' :: s
    · rw [if_pos ⟨hopen, hclose⟩]
      exact passes_bracket_iff
    · rw [if_neg fun h => hclose h.2]
      have hno : byte ']' ∉ byte '[' :: s.takeWhile (· ≠ byte ':') := fun h => hclose <|
        (List.mem_cons.mp h).elim (fun h => absurd h (by decide)) fun h =>
          List.mem_cons_of_mem _ ((List.takeWhile_prefix _).mem h)
      exact iff_of_false (fun h => (not_internal_open hno).1 h.1) (not_internal_open hno).2
  · rw [if_neg hopen, if_neg fun h => hopen h.1]
    simp only [hopen, false_or]
    refine passes_name_iff fun h => hopen ?_
    rw [List.head?_takeWhile] at h
    exact Option.eq_some_of_filter_eq_some h

end Hosts

/-! ### URLs -/

section Urls

variable {url rest : List UInt8}

theorem afterScheme_eq_some_iff :
    afterScheme url = some rest ↔ url = text "https://" ++ rest ∨ url = text "http://" ++ rest := by
  unfold afterScheme
  rw [Option.or_eq_some_iff, stripPrefix_eq_some_iff, stripPrefix_eq_some_iff]
  refine or_congr_right ⟨And.right, fun h => ⟨?_, h⟩⟩
  rw [Option.eq_none_iff_forall_ne_some]
  intro rest' h'
  rw [stripPrefix_eq_some_iff.mp h'] at h
  have hhttp : text "http" ++ (text "s://" ++ rest') = text "http" ++ (text "://" ++ rest) := h
  have htail := List.append_cancel_left hhttp
  exact absurd (List.cons.inj htail).1 (by decide)

theorem hierPart_of_afterScheme (h : afterScheme url = some rest) : hierPart url = some rest := by
  rcases afterScheme_eq_some_iff.mp h with rfl | rfl
  · rfl
  · rfl

theorem webScheme_of_afterScheme (h : afterScheme url = some rest) :
    text "https://" <+: url ∨ text "http://" <+: url := by
  rcases afterScheme_eq_some_iff.mp h with rfl | rfl
  · exact .inl (List.prefix_append _ _)
  · exact .inr (List.prefix_append _ _)

theorem exists_afterScheme (h : text "https://" <+: url ∨ text "http://" <+: url) :
    ∃ rest, afterScheme url = some rest := by
  rcases h with ⟨rest, rfl⟩ | ⟨rest, rfl⟩
  · exact ⟨rest, afterScheme_eq_some_iff.mpr (.inl rfl)⟩
  · exact ⟨rest, afterScheme_eq_some_iff.mpr (.inr rfl)⟩

theorem urlHost_of_afterScheme (h : afterScheme url = some rest) :
    urlHost url = some (withoutPort (withoutUserInfo (authority rest))) := by
  rcases afterScheme_eq_some_iff.mp h with rfl | rfl
  · rfl
  · rfl

theorem isSafeMirrorUrl_iff : isSafeMirrorUrl url = true ↔
    byte '\n' ∉ url ∧ byte '\r' ∉ url ∧ ∃ rest ∈ afterScheme url, Passes (hostOf rest) := by
  unfold isSafeMirrorUrl Passes
  rcases hafter : afterScheme url with _ | rest
  · refine iff_of_false ?_ (by rintro ⟨-, -, rest, hrest, -⟩; cases hrest)
    dsimp only
    split_ifs <;> exact id
  · have hscheme : ¬ (¬ text "http://" <+: url ∧ ¬ text "https://" <+: url) := by
      rintro ⟨hhttp, hhttps⟩
      rcases afterScheme_eq_some_iff.mp hafter with rfl | rfl
      · exact hhttps (List.prefix_append _ _)
      · exact hhttp (List.prefix_append _ _)
    rw [if_neg hscheme]
    dsimp only
    split_ifs with hline hdenied hname
    · exact iff_of_false id fun h => hline.elim h.1 h.2.1
    · refine iff_of_false id ?_
      rintro ⟨-, -, _, ⟨⟩, h, -⟩
      rw [hdenied] at h
      cases h
    · refine iff_of_false id ?_
      rintro ⟨-, -, _, ⟨⟩, -, h⟩
      exact h.elim hname.1 hname.2
    · rw [not_or] at hline
      refine iff_of_true rfl ⟨hline.1, hline.2, rest, rfl, Bool.not_eq_true _ ▸ hdenied, ?_⟩
      by_contra h
      exact hname (not_or.mp h)

theorem takeWhile_plain : ∀ {l : List UInt8}, byte '?' ∉ l.takeWhile (· ≠ byte '/') →
    byte '#' ∉ l.takeWhile (· ≠ byte '/') → authority l = l.takeWhile (· ≠ byte '/')
  | [], _, _ => rfl
  | b :: l, hquery, hhash => by
    unfold authority
    by_cases hb : b = byte '/'
    · subst hb
      rfl
    · rw [List.takeWhile_cons, if_pos (decide_eq_true hb), List.mem_cons, not_or] at hquery hhash
      rw [List.takeWhile_cons, List.takeWhile_cons, if_pos (decide_eq_true hb),
        if_pos (decide_eq_true ⟨hb, Ne.symm hquery.1, Ne.symm hhash.1⟩)]
      exact congrArg (b :: ·) (takeWhile_plain hquery.2 hhash.2)

theorem withoutUserInfo_of_notMem {a : List UInt8} (h : byte '@' ∉ a) : withoutUserInfo a = a := by
  have hall : ∀ b ∈ a.reverse, decide (b ≠ byte '@') = true := fun b hb =>
    decide_eq_true fun heq => h (heq ▸ List.mem_reverse.mp hb)
  unfold withoutUserInfo
  rw [List.takeWhile_eq_self_iff.mpr hall, List.reverse_reverse]

theorem withoutUserInfo_authority (h : Plain rest) : withoutUserInfo (authority rest) = hostOf rest := by
  obtain ⟨hat, hquery, hhash⟩ := h
  rw [takeWhile_plain hquery hhash]
  exact withoutUserInfo_of_notMem hat

/-- **The internal URLs that are taken for safe**, if the checks look at the host. -/
theorem safe_internal_iff (h : WebUrl url → PlainUrl url) :
    isSafeMirrorUrl url = true ∧ InternalUrl url ↔ WebUrl url ∧ MissedUrl url := by
  rw [isSafeMirrorUrl_iff]
  unfold InternalUrl MissedUrl
  constructor
  · rintro ⟨⟨hnl, hcr, rest, hrest, hpasses⟩, host, hhost, hinternal⟩
    have hweb : WebUrl url := ⟨webScheme_of_afterScheme hrest, hnl, hcr⟩
    have hplain : Plain rest := h hweb rest (hierPart_of_afterScheme hrest)
    rw [urlHost_of_afterScheme hrest] at hhost
    cases hhost
    refine ⟨hweb, _, urlHost_of_afterScheme hrest, ?_⟩
    rw [withoutUserInfo_authority hplain] at hinternal ⊢
    exact (passes_iff _).mp ⟨hinternal, hpasses⟩
  · rintro ⟨hweb, host, hhost, hmissed⟩
    obtain ⟨rest, hrest⟩ := exists_afterScheme hweb.1
    have hplain : Plain rest := h hweb rest (hierPart_of_afterScheme hrest)
    have hthere := hhost
    rw [urlHost_of_afterScheme hrest] at hhost
    cases hhost
    rw [withoutUserInfo_authority hplain] at hmissed
    obtain ⟨hinternal, hpasses⟩ := (passes_iff _).mpr hmissed
    refine ⟨⟨hweb.2.1, hweb.2.2, rest, hrest, hpasses⟩, _, hthere, ?_⟩
    rwa [withoutUserInfo_authority hplain]

end Urls

/-- The mirrors of a response are URLs that are taken for safe. -/
theorem safe_of_parse {body : List UInt8} {mirrors : List (List UInt8)}
    (h : parseMirrorListResponse body = .ok mirrors) : ∀ url ∈ mirrors, isSafeMirrorUrl url = true := by
  unfold parseMirrorListResponse at h
  dsimp only at h
  split_ifs at h with hnone
  cases h
  exact fun url hurl => (of_decide_eq_true (List.mem_filter.mp hurl).2).2

/-- **The guard keeps internal hosts out** of the URLs without user information, query and fragment before the first
slash exactly if the host is not one of those that the checks miss, and so does the reading of mirror lists. -/
theorem mirror_guard_iff (url : List UInt8) (hplain : WebUrl url → PlainUrl url) :
    ((isSafeMirrorUrl url = true → ¬ InternalUrl url) ↔ ¬ (WebUrl url ∧ MissedUrl url)) ∧
      ∀ body mirrors, parseMirrorListResponse body = .ok mirrors → url ∈ mirrors →
        (¬ InternalUrl url ↔ ¬ (WebUrl url ∧ MissedUrl url)) := by
  have hguard : (isSafeMirrorUrl url = true → ¬ InternalUrl url) ↔ ¬ (WebUrl url ∧ MissedUrl url) :=
    not_and.symm.trans (not_congr (safe_internal_iff hplain))
  refine ⟨hguard, fun body mirrors h hurl => ?_⟩
  rw [← hguard]
  exact ⟨fun hnot _ => hnot, fun himp => himp (safe_of_parse h url hurl)⟩

/-- A private address behind a port and in front of a query. -/
theorem mirror_guard_iff_private :
    (isSafeMirrorUrl (text "http://10.1.2.3:8080/list?x=@y") = true →
      ¬ InternalUrl (text "http://10.1.2.3:8080/list?x=@y")) ↔
    ¬ (WebUrl (text "http://10.1.2.3:8080/list?x=@y") ∧ MissedUrl (text "http://10.1.2.3:8080/list?x=@y")) :=
  (mirror_guard_iff (text "http://10.1.2.3:8080/list?x=@y") fun _ rest hrest => by
    cases hrest
    unfold Plain
    decide +kernel).1

/-- User information hides the host. -/
theorem user_info_hides_loopback : isSafeMirrorUrl (text "http://cdn.example.com@127.0.0.1/") = true ∧
    InternalUrl (text "http://cdn.example.com@127.0.0.1/") :=
  ⟨by decide +kernel, text "127.0.0.1", by decide +kernel,
    .inr (.inl ⟨⟨127, 0, 0, 1⟩, by decide +kernel, by decide⟩)⟩

end CncContent.Downloads.MirrorsSpec
