import CncContent.Lib.Bytes
import Mathlib.Data.List.GetD

/-! # Keyed hashes

`hmac` is the keyed hash of RFC 2104 over any hash function `H` with blocks of `B` bytes: the key is
hashed if it is longer than a block and filled up with zeros (`keyBlock`), and the message is hashed
behind the key block, once under each of two masks. A key block has the length of a block
(`length_keyBlock`), so that the masks can be applied byte by byte (`mask_eq_map`).

`difference` collects the differing bits of two byte strings of one length, as a comparison does that
does not stop at the first difference. It is zero only for equal strings (`difference_eq_zero`). -/

namespace CncContent.Lib.Hmac

variable (H : List UInt8 → List UInt8) (B : ℕ)

/-- The key as it is masked: at most a block, filled up with zeros. -/
def keyBlock (key : List UInt8) : List UInt8 :=
  let key' := if B < key.length then H key else key
  key' ++ List.replicate (B - key'.length) 0

/-- HMAC over `H`. -/
def hmac (key message : List UInt8) : List UInt8 :=
  H ((keyBlock H B key).map (· ^^^ 0x5C) ++ H ((keyBlock H B key).map (· ^^^ 0x36) ++ message))

variable {H B}

theorem length_keyBlock (hH : ∀ l, (H l).length ≤ B) (key : List UInt8) :
    (keyBlock H B key).length = B := by
  have hlen : (if B < key.length then H key else key).length ≤ B := by
    split_ifs with h
    · exact hH key
    · exact Nat.le_of_not_lt h
  simp only [keyBlock, List.length_append, List.length_replicate]
  omega

/-- A mask applied at each place of a block. -/
theorem mask_eq_map {block : List UInt8} {n : ℕ} (h : block.length = n) (mask : UInt8) :
    ((List.range n).map fun i => block.getD i 0 ^^^ mask) = block.map (· ^^^ mask) := by
  subst h
  refine List.ext_getElem (by simp) fun i hi hi' => ?_
  rw [List.length_map, List.length_range] at hi
  rw [List.getElem_map, List.getElem_map, List.getElem_range, List.getD_eq_getElem _ _ hi]

/-! ### Comparison without an early end -/

/-- The bits in which two strings differ somewhere. -/
def difference (l m : List UInt8) : UInt8 := (List.zipWith (· ^^^ ·) l m).foldl (· ||| ·) 0

/-- The differences collected place by place. -/
theorem foldl_zipIdx_eq_difference {l m : List UInt8} (h : l.length = m.length) :
    l.zipIdx.foldl (fun diff b => diff ||| (b.1 ^^^ m.getD b.2 0)) 0 = difference l m := by
  have hmap : l.zipIdx.map (fun b => b.1 ^^^ m.getD b.2 0) = List.zipWith (· ^^^ ·) l m := by
    refine List.ext_getElem (by simp [h]) fun i hi hi' => ?_
    rw [List.length_map, List.length_zipIdx] at hi
    rw [List.getElem_map, List.getElem_zipIdx, List.getElem_zipWith, Nat.zero_add,
      List.getD_eq_getElem _ _ (h ▸ hi)]
  rw [difference, ← hmap, List.foldl_map]

theorem or_eq_zero_iff {a b : UInt8} : a ||| b = 0 ↔ a = 0 ∧ b = 0 := by
  constructor
  · intro h
    have hnat : a.toNat ||| b.toNat = 0 := by rw [← UInt8.toNat_or, h]; rfl
    obtain ⟨ha, hb⟩ := Nat.or_eq_zero_iff.mp hnat
    exact ⟨UInt8.toNat_inj.mp ha, UInt8.toNat_inj.mp hb⟩
  · rintro ⟨rfl, rfl⟩
    rfl

theorem foldl_or_eq_zero : ∀ (l : List UInt8) (a : UInt8),
    l.foldl (· ||| ·) a = 0 ↔ a = 0 ∧ ∀ b ∈ l, b = 0
  | [], a => by simp
  | b :: l, a => by
    rw [List.foldl_cons, foldl_or_eq_zero l (a ||| b), or_eq_zero_iff, List.forall_mem_cons, and_assoc]

/-- **Two strings of one length without a difference are equal.** -/
theorem difference_eq_zero : ∀ {l m : List UInt8}, l.length = m.length → (difference l m = 0 ↔ l = m)
  | [], [], _ => by simp [difference]
  | a :: l, b :: m, h => by
    have ih := difference_eq_zero (Nat.succ.inj h)
    have hxor : a ^^^ b = 0 ↔ a = b := UInt8.xor_eq_zero_iff
    unfold difference at ih ⊢
    rw [foldl_or_eq_zero] at ih ⊢
    simp only [List.zipWith_cons_cons, List.forall_mem_cons, hxor, true_and] at ih ⊢
    rw [ih, List.cons.injEq]

end CncContent.Lib.Hmac
