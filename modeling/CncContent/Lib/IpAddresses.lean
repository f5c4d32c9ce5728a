import CncContent.Lib.Decimal
import Mathlib.Data.List.Basic
import Mathlib.Data.List.Forall2

/-! # IP addresses and their texts

The texts of IPv4 and IPv6 addresses in a URL: four numbers in decimal, and eight groups of hexadecimal digits, of
which two colons may stand for some that are zero and the last two may be written as an IPv4 address. An IPv6
address is the list of its groups. -/

namespace CncContent.Lib.IpAddresses

open CncContent.Lib.Bytes CncContent.Lib.Decimal

/-! ### IPv4 -/

structure Ipv4 where
  a : UInt8
  b : UInt8
  c : UInt8
  d : UInt8
deriving DecidableEq, Repr

namespace Ipv4

variable (o : Ipv4)

def text : List UInt8 :=
  printNat o.a.toNat ++ byte '.' :: (printNat o.b.toNat ++ byte '.' ::
    (printNat o.c.toNat ++ byte '.' :: printNat o.d.toNat))

/-- The last two groups of an IPv6 address. -/
def groups : List ℕ := [256 * o.a.toNat + o.b.toNat, 256 * o.c.toNat + o.d.toNat]

def Loopback : Prop := o.a = 127

def Unspecified : Prop := o = ⟨0, 0, 0, 0⟩

/-- 10/8, 172.16/12 and 192.168/16. -/
def Private : Prop := o.a = 10 ∨ (o.a = 172 ∧ 16 ≤ o.b ∧ o.b ≤ 31) ∨ (o.a = 192 ∧ o.b = 168)

/-- 169.254/16. -/
def LinkLocal : Prop := o.a = 169 ∧ o.b = 254

/-- An address that does not lead to a host of the public network. -/
def Internal : Prop := o.Loopback ∨ o.Unspecified ∨ o.Private ∨ o.LinkLocal

instance : Decidable o.Internal := by
  unfold Internal Loopback Unspecified Private LinkLocal
  infer_instance

end Ipv4

/-! ### IPv6 -/

def isHexDigit (b : UInt8) : Bool := isDigit b || within (byte 'a') (byte 'f') b || within (byte 'A') (byte 'F') b

/-- The value of a hexadecimal digit in either case. -/
def hexVal (b : UInt8) : ℕ :=
  if isDigit b then digitVal b else if within (byte 'a') (byte 'f') b then b.toNat - 87 else b.toNat - 55

/-- A group: one to four hexadecimal digits. -/
def h16 (s : List UInt8) : Option ℕ :=
  if s ≠ [] ∧ s.length ≤ 4 ∧ s.all isHexDigit then some (s.foldl (fun n b => 16 * n + hexVal b) 0) else none

/-- The groups that the pieces between colons spell; the last piece may be an IPv4 address. -/
inductive Tail : List (List UInt8) → List ℕ → Prop
  | nil : Tail [] []
  | ipv4 (o : Ipv4) : Tail [o.text] o.groups
  | cons {p : List UInt8} {n : ℕ} {ps : List (List UInt8)} {g : List ℕ} (hp : h16 p = some n) (h : Tail ps g) :
    Tail (p :: ps) (n :: g)

/-- The pieces of a text that may be empty. -/
def edge (ps : List (List UInt8)) : List (List UInt8) := if ps = [] then [[]] else ps

/-- The address that the pieces between colons spell. Two colons in a row stand for at least one group. -/
inductive Spells : List (List UInt8) → List ℕ → Prop
  | full {ps : List (List UInt8)} {g : List ℕ} (h : Tail ps g) (hlen : g.length = 8) : Spells ps g
  | elided {l r : List (List UInt8)} {gl gr : List ℕ} (hl : List.Forall₂ (fun p n => h16 p = some n) l gl)
    (hr : Tail r gr) (hlen : gl.length + gr.length ≤ 7) :
    Spells (edge l ++ [] :: edge r) (gl ++ List.replicate (8 - (gl.length + gr.length)) 0 ++ gr)

/-- The text spells the address. -/
def Ipv6 (t : List UInt8) (g : List ℕ) : Prop := Spells (t.splitOn (byte ':')) g

/-- `::`. -/
def unspecified : List ℕ := [0, 0, 0, 0, 0, 0, 0, 0]

/-- `::1`. -/
def loopback : List ℕ := [0, 0, 0, 0, 0, 0, 0, 1]

/-- The IPv4 address as an IPv6 address. -/
def mapped (o : Ipv4) : List ℕ := [0, 0, 0, 0, 0, 0xFFFF] ++ o.groups

/-- fc00::/7. -/
def UniqueLocal (g : List ℕ) : Prop := ∃ n ∈ g.head?, 0xFC00 ≤ n ∧ n ≤ 0xFDFF

/-- fe80::/10. -/
def LinkLocal (g : List ℕ) : Prop := ∃ n ∈ g.head?, 0xFE80 ≤ n ∧ n ≤ 0xFEBF

/-- An address that does not lead to a host of the public network. -/
def Internal (g : List ℕ) : Prop :=
  g = loopback ∨ g = unspecified ∨ UniqueLocal g ∨ LinkLocal g ∨ ∃ o : Ipv4, g = mapped o ∧ o.Internal

/-! ### The bytes of the texts -/

theorem isHexDigit_iff {b : UInt8} : isHexDigit b = true ↔
    (48 ≤ b.toNat ∧ b.toNat ≤ 57) ∨ (97 ≤ b.toNat ∧ b.toNat ≤ 102) ∨ (65 ≤ b.toNat ∧ b.toNat ≤ 70) := by
  unfold isHexDigit
  rw [Bool.or_eq_true, Bool.or_eq_true, isDigit_iff, within_iff, within_iff, or_assoc]
  exact Iff.rfl

theorem hexVal_eq (b : UInt8) : hexVal b = if 48 ≤ b.toNat ∧ b.toNat ≤ 57 then b.toNat - 48
    else if 97 ≤ b.toNat ∧ b.toNat ≤ 102 then b.toNat - 87 else b.toNat - 55 := by
  have hdigit : isDigit b = true ↔ 48 ≤ b.toNat ∧ b.toNat ≤ 57 := isDigit_iff
  have hlower : within (byte 'a') (byte 'f') b = true ↔ 97 ≤ b.toNat ∧ b.toNat ≤ 102 := within_iff
  unfold hexVal digitVal
  simp only [hdigit, hlower]

theorem hexVal_lt {b : UInt8} (h : isHexDigit b = true) : hexVal b < 16 := by
  rw [isHexDigit_iff] at h
  rw [hexVal_eq]
  split_ifs <;> omega

theorem h16_eq_some_iff {s : List UInt8} {n : ℕ} : h16 s = some n ↔
    s ≠ [] ∧ s.length ≤ 4 ∧ (∀ b ∈ s, isHexDigit b = true) ∧ s.foldl (fun n b => 16 * n + hexVal b) 0 = n := by
  unfold h16
  rw [Option.ite_none_right_eq_some, List.all_eq_true, Option.some.injEq]
  tauto

theorem notMem_of_h16 {s : List UInt8} {n : ℕ} (h : h16 s = some n) {b : UInt8} (hb : isHexDigit b = false) :
    b ∉ s := by
  intro hmem
  have := (h16_eq_some_iff.mp h).2.2.1 b hmem
  rw [hb] at this
  cases this

theorem dot_notMem {s : List UInt8} {n : ℕ} (h : h16 s = some n) : byte '.' ∉ s := notMem_of_h16 h (by decide)

theorem notMem_printNat {b : UInt8} (hb : isDigit b = false) (n : ℕ) : b ∉ printNat n := by
  intro hmem
  have := (isNumeral_iff.mp (isNumeral_printNat n)).2 b hmem
  rw [hb] at this
  cases this

namespace Ipv4

variable (o : Ipv4)

theorem text_injective : Function.Injective text := by
  have hdot : ∀ n : ℕ, byte '.' ∉ printNat n := notMem_printNat (by decide)
  intro o o' h
  obtain ⟨ha, h⟩ := append_cons_inj (hdot _) (hdot _) h
  obtain ⟨hb, h⟩ := append_cons_inj (hdot _) (hdot _) h
  obtain ⟨hc, hd⟩ := append_cons_inj (hdot _) (hdot _) h
  cases o
  cases o'
  rw [Ipv4.mk.injEq]
  exact ⟨UInt8.toNat_inj.mp (printNat_inj ha), UInt8.toNat_inj.mp (printNat_inj hb),
    UInt8.toNat_inj.mp (printNat_inj hc), UInt8.toNat_inj.mp (printNat_inj hd)⟩

theorem dot_mem_text : byte '.' ∈ o.text := List.mem_append_right _ List.mem_cons_self

theorem notMem_text {b : UInt8} (hb : isDigit b = false) (hdot : b ≠ byte '.') : b ∉ o.text := by
  unfold text
  simp only [List.mem_append, List.mem_cons, not_or]
  exact ⟨notMem_printNat hb _, hdot, notMem_printNat hb _, hdot, notMem_printNat hb _, hdot, notMem_printNat hb _⟩

end Ipv4

theorem mapped_injective : Function.Injective mapped := by
  intro o o' h
  have hgroups : o.groups = o'.groups := List.append_cancel_left h
  unfold Ipv4.groups at hgroups
  obtain ⟨hhigh, hlow⟩ := List.cons.inj hgroups
  obtain ⟨hlow, -⟩ := List.cons.inj hlow
  have ha := o.a.toNat_lt
  have hb := o.b.toNat_lt
  have hc := o.c.toNat_lt
  have hd := o.d.toNat_lt
  have ha' := o'.a.toNat_lt
  have hb' := o'.b.toNat_lt
  have hc' := o'.c.toNat_lt
  have hd' := o'.d.toNat_lt
  cases o
  cases o'
  rw [Ipv4.mk.injEq]
  simp only at hhigh hlow ha hb hc hd ha' hb' hc' hd'
  exact ⟨UInt8.toNat_inj.mp (by omega), UInt8.toNat_inj.mp (by omega), UInt8.toNat_inj.mp (by omega),
    UInt8.toNat_inj.mp (by omega)⟩

/-! ### A dot among the pieces -/

/-- A piece with a dot is the last, and an IPv4 address. -/
theorem tail_dot {q : List UInt8} (hq : byte '.' ∈ q) {qs : List (List UInt8)} :
    ∀ {pre : List (List UInt8)} {g : List ℕ}, Tail (pre ++ q :: qs) g → ∃ gpre, ∃ o : Ipv4,
      List.Forall₂ (fun p n => h16 p = some n) pre gpre ∧ q :: qs = [o.text] ∧ g = gpre ++ o.groups
  | [], g, h => by
    cases h with
    | ipv4 o => exact ⟨[], o, .nil, rfl, rfl⟩
    | cons hp h => exact absurd hq (dot_notMem hp)
  | p :: pre, g, h => by
    generalize hps : p :: pre ++ q :: qs = ps at h
    cases h with
    | nil => cases hps
    | ipv4 o =>
      have hnil := (List.cons.inj hps).2
      exact absurd hnil (List.append_ne_nil_of_right_ne_nil _ (List.cons_ne_nil _ _))
    | cons hp h =>
      cases hps
      obtain ⟨gpre, o, hpre, hlast, rfl⟩ := tail_dot hq h
      exact ⟨_ :: gpre, o, .cons hp hpre, hlast, rfl⟩

theorem dots_notMem {l : List (List UInt8)} {gl : List ℕ} (hl : List.Forall₂ (fun p n => h16 p = some n) l gl) :
    ∀ p ∈ l, byte '.' ∉ p := by
  induction hl with
  | nil => exact fun p hp => absurd hp List.not_mem_nil
  | cons hp _ ih => exact List.forall_mem_cons.mpr ⟨dot_notMem hp, ih⟩

/-- Two colons are not behind pieces of which none is empty, up to one with a dot. -/
theorem no_gap_behind {q : List UInt8} (hq : byte '.' ∈ q) {l pre qs rest : List (List UInt8)}
    (hl : ∀ p ∈ l, byte '.' ∉ p) (hpre : ∀ p ∈ pre, p ≠ []) : l ++ [] :: rest ≠ pre ++ q :: qs := by
  have hne : q ≠ [] := List.ne_nil_of_mem hq
  intro heq
  rcases List.append_eq_append_iff.mp heq with ⟨as, rfl, hq'⟩ | ⟨bs, rfl, hq'⟩
  · cases as with
    | nil => exact hne (List.cons.inj hq').1.symm
    | cons a as =>
      exact hpre a (List.mem_append_right _ List.mem_cons_self) (List.cons.inj hq').1.symm
  · cases bs with
    | nil => exact hne (List.cons.inj hq').1
    | cons b bs =>
      obtain ⟨rfl, -⟩ := List.cons.inj hq'
      exact hl q (List.mem_append_right _ List.mem_cons_self) hq

theorem dots_notMem_edge {l : List (List UInt8)} {gl : List ℕ}
    (hl : List.Forall₂ (fun p n => h16 p = some n) l gl) : ∀ p ∈ edge l, byte '.' ∉ p := by
  unfold edge
  split_ifs
  · intro p hp
    rw [List.mem_singleton.mp hp]
    exact List.not_mem_nil
  · exact dots_notMem hl

theorem h16_nil : h16 [] = none := rfl

/-- Groups up to an IPv4 address at the end. -/
theorem spells_dot {q : List UInt8} (hq : byte '.' ∈ q) {pre qs : List (List UInt8)} (hpre : ∀ p ∈ pre, p ≠ [])
    {g : List ℕ} (h : Spells (pre ++ q :: qs) g) : ∃ gpre, ∃ o : Ipv4,
      List.Forall₂ (fun p n => h16 p = some n) pre gpre ∧ q :: qs = [o.text] ∧ g = gpre ++ o.groups := by
  generalize hps : pre ++ q :: qs = ps at h
  cases h with
  | full h hlen =>
    subst hps
    exact tail_dot hq h
  | elided hl hr hlen => exact absurd hps.symm (no_gap_behind hq (dots_notMem_edge hl) hpre)

/-- Two colons in front. -/
theorem spells_gap {ps : List (List UInt8)} (hps : ps ≠ [[]]) {g : List ℕ} (h : Spells ([] :: [] :: ps) g) :
    ∃ gr, Tail ps gr ∧ g = List.replicate (8 - gr.length) 0 ++ gr := by
  generalize hall : [] :: [] :: ps = all at h
  cases h with
  | full h hlen =>
    cases h with
    | nil => cases hall
    | ipv4 o => exact absurd (List.cons.inj hall).2 (List.cons_ne_nil _ _)
    | cons hp h =>
      cases hall
      rw [h16_nil] at hp
      cases hp
  | @elided l r gl gr hl hr hlen =>
    cases hl with
    | nil =>
      have hedge : ps = edge r := (List.cons.inj (List.cons.inj hall).2).2
      unfold edge at hedge
      split_ifs at hedge
      · exact absurd hedge hps
      · subst hedge
        refine ⟨gr, hr, ?_⟩
        rw [List.nil_append, List.length_nil, Nat.zero_add]
    | @cons p n l gl hp hl =>
      unfold edge at hall
      rw [if_neg (List.cons_ne_nil _ _)] at hall
      rw [← (List.cons.inj hall).1, h16_nil] at hp
      cases hp

/-- Two colons in front of groups up to an IPv4 address at the end. -/
theorem spells_gap_dot {q : List UInt8} (hq : byte '.' ∈ q) {pre qs : List (List UInt8)} {g : List ℕ}
    (h : Spells ([] :: [] :: (pre ++ q :: qs)) g) : ∃ gpre, ∃ o : Ipv4,
      List.Forall₂ (fun p n => h16 p = some n) pre gpre ∧ q :: qs = [o.text] ∧
        g = List.replicate (6 - gpre.length) 0 ++ (gpre ++ o.groups) := by
  have hps : pre ++ q :: qs ≠ [[]] := by
    intro heq
    have hmem : q ∈ [[]] := by
      rw [← heq]
      exact List.mem_append_right _ List.mem_cons_self
    rw [List.mem_singleton.mp hmem] at hq
    cases hq
  obtain ⟨gr, hr, rfl⟩ := spells_gap hps h
  obtain ⟨gpre, o, hpre, hlast, rfl⟩ := tail_dot hq hr
  refine ⟨gpre, o, hpre, hlast, ?_⟩
  rw [List.length_append, show 8 - (gpre.length + o.groups.length) = 6 - gpre.length by
    rw [show o.groups.length = 2 from rfl]
    omega]

theorem eq_loopback_of_ipv6 {g : List ℕ} (h : Ipv6 (text "::1") g) : g = loopback := by
  have hspells : Spells ([] :: [] :: [text "1"]) g := h
  obtain ⟨gr, hr, rfl⟩ := spells_gap (by decide) hspells
  generalize hp : [text "1"] = ps at hr
  cases hr with
  | nil => cases hp
  | ipv4 o =>
    have hdot := o.dot_mem_text
    rw [← (List.cons.inj hp).1] at hdot
    exact absurd hdot (by decide)
  | cons hone htail =>
    cases hp
    cases htail
    cases hone
    rfl

/-! ### The first group -/

theorem edge_ne_nil (ps : List (List UInt8)) : edge ps ≠ [] := by
  unfold edge
  split_ifs with hnil
  · exact List.cons_ne_nil _ _
  · exact hnil

/-- The text has a colon; what is in front of the first is the first group, or nothing if the groups begin with
zeros that are left out. -/
theorem exists_first {t : List UInt8} {g : List ℕ} (h : Ipv6 t g) : ∃ p r, ∃ n, t = p ++ byte ':' :: r ∧
    g.head? = some n ∧ (h16 p = some n ∨ p = [] ∧ r.head? = some (byte ':') ∧ n = 0) := by
  have ht : [byte ':'].intercalate (t.splitOn (byte ':')) = t := List.intercalate_splitOn _
  unfold Ipv6 at h
  generalize t.splitOn (byte ':') = ps at h ht
  cases h with
  | full h hlen =>
    cases h with
    | nil => cases hlen
    | ipv4 o => cases hlen
    | @cons p n ps g hp h =>
      cases ps with
      | nil =>
        cases h
        cases hlen
      | cons p' ps => exact ⟨p, _, n, ht.symm, rfl, .inl hp⟩
  | @elided l r gl gr hl hr hlen =>
    obtain ⟨q, qs, hq⟩ := List.exists_cons_of_ne_nil (edge_ne_nil r)
    cases hl with
    | nil =>
      obtain ⟨k, hk⟩ : ∃ k, 8 - ([].length + gr.length) = k + 1 := ⟨7 - gr.length, by simp at hlen ⊢; omega⟩
      rw [hq] at ht
      refine ⟨[], _, 0, ht.symm, ?_, .inr ⟨rfl, rfl, rfl⟩⟩
      rw [List.nil_append, hk]
      rfl
    | @cons p n l gl hp hl =>
      unfold edge at ht
      rw [if_neg (List.cons_ne_nil _ _), List.cons_append,
        List.intercalate_cons_of_ne_nil (List.append_ne_nil_of_right_ne_nil _ (List.cons_ne_nil _ _)),
        List.append_assoc] at ht
      exact ⟨p, _, n, ht.symm, rfl, .inl hp⟩

/-- The digits of a group that is too large for three. -/
theorem exists_digits {s : List UInt8} {n : ℕ} (h : h16 s = some n) (hn : 4096 ≤ n) : ∃ w x y z, s = [w, x, y, z] ∧
    (∀ b ∈ s, isHexDigit b = true) ∧ n = 16 * (16 * (16 * hexVal w + hexVal x) + hexVal y) + hexVal z := by
  obtain ⟨hne, hlen, hhex, hval⟩ := h16_eq_some_iff.mp h
  have hlt : ∀ b ∈ s, hexVal b < 16 := fun b hb => hexVal_lt (hhex b hb)
  rcases s with _ | ⟨w, _ | ⟨x, _ | ⟨y, _ | ⟨z, _ | ⟨v, s⟩⟩⟩⟩⟩
  · exact absurd rfl hne
  · have hw := hlt w (by simp)
    have hval' : 16 * 0 + hexVal w = n := hval
    omega
  · have hw := hlt w (by simp)
    have hx := hlt x (by simp)
    have hval' : 16 * (16 * 0 + hexVal w) + hexVal x = n := hval
    omega
  · have hw := hlt w (by simp)
    have hx := hlt x (by simp)
    have hy := hlt y (by simp)
    have hval' : 16 * (16 * (16 * 0 + hexVal w) + hexVal x) + hexVal y = n := hval
    omega
  · have hval' : 16 * (16 * (16 * (16 * 0 + hexVal w) + hexVal x) + hexVal y) + hexVal z = n := hval
    exact ⟨w, x, y, z, rfl, hhex, by omega⟩
  · simp only [List.length_cons] at hlen
    omega

theorem foldl_hex_ge (s : List UInt8) : ∀ n, n ≤ s.foldl (fun n b => 16 * n + hexVal b) n := by
  induction s with
  | nil => exact fun n => le_rfl
  | cons b s ih => exact fun n => (show n ≤ 16 * n + hexVal b by omega).trans (ih _)

/-- A group that is zero starts with a zero. -/
theorem head_of_h16_zero {s : List UInt8} (h : h16 s = some 0) : s.head? = some (byte '0') := by
  obtain ⟨hne, -, hhex, hval⟩ := h16_eq_some_iff.mp h
  cases s with
  | nil => exact absurd rfl hne
  | cons b s =>
    have hle : 16 * 0 + hexVal b ≤ 0 := (foldl_hex_ge s (16 * 0 + hexVal b)).trans (le_of_eq hval)
    have hhex' := isHexDigit_iff.mp (hhex b List.mem_cons_self)
    have hzero : b.toNat = (byte '0').toNat := by
      rw [show (byte '0').toNat = 48 from rfl]
      rw [hexVal_eq] at hle
      split_ifs at hle <;> omega
    rw [UInt8.toNat_inj.mp hzero]
    rfl

end CncContent.Lib.IpAddresses
