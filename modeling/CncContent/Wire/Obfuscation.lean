import CncContent.Lib.Bounded

/-! # The obfuscated stream

The pad of the key is laid over a stream buffer by buffer: each buffer starts in the pad where the stream has got
to. So the stream that results does not depend on the buffers it is written in (`flatten_mask`), and a reader who
lays the pad over it again, in any other buffers, has the stream itself (`stream_read`). -/

namespace CncContent.Wire.Obfuscation

open CncContent.Lib.Bounded

/-! ### The pad -/

def keyLen : ℕ := 20

abbrev ObfuscationKey := Vector UInt8 keyLen

/-- The byte of the pad at a position of the stream. -/
def padByte (key : ObfuscationKey) (position : ℕ) : UInt8 :=
  key.get ⟨position % keyLen, Nat.mod_lt _ (by decide)⟩

def xorWithKey (buf : List UInt8) (key : ObfuscationKey) (streamOffset : ℕ) : List UInt8 :=
  buf.mapIdx fun i byte => byte ^^^ padByte key (satAdd u64Max streamOffset i)

def obfuscateInPlace (buf : List UInt8) (key : ObfuscationKey) (streamOffset : ℕ) : List UInt8 :=
  xorWithKey buf key streamOffset

def deobfuscateInPlace (buf : List UInt8) (key : ObfuscationKey) (streamOffset : ℕ) : List UInt8 :=
  xorWithKey buf key streamOffset

variable {key : ObfuscationKey} {offset : ℕ}

/-- **The pad cancels itself.** -/
theorem deobfuscate_obfuscate (buf : List UInt8) :
    deobfuscateInPlace (obfuscateInPlace buf key offset) key offset = buf := by
  unfold deobfuscateInPlace obfuscateInPlace xorWithKey
  rw [List.mapIdx_mapIdx]
  refine List.ext_getElem? fun i => ?_
  rw [List.getElem?_mapIdx]
  rcases buf[i]? with _ | byte
  · rfl
  · rw [Option.map_some, Function.comp_apply, UInt8.xor_assoc, UInt8.xor_self, UInt8.xor_zero]

/-- The positions of a second buffer go on from those of the first. -/
theorem satAdd_satAdd (m a b c : ℕ) : satAdd m (satAdd m a b) c = satAdd m a (c + b) := by
  unfold satAdd
  omega

theorem xorWithKey_append (buf buf' : List UInt8) : xorWithKey (buf ++ buf') key offset =
    xorWithKey buf key offset ++ xorWithKey buf' key (satAdd u64Max offset buf.length) := by
  unfold xorWithKey
  rw [List.mapIdx_append]
  simp only [satAdd_satAdd]

/-! ### Streams -/

/-- The buffers of a stream, one after the other, with the offset counted up. -/
def mask (key : ObfuscationKey) (offset : ℕ) : List (List UInt8) → List (List UInt8)
  | [] => []
  | buf :: bufs => xorWithKey buf key offset :: mask key (satAdd u64Max offset buf.length) bufs

/-- **The buffers do not matter.** -/
theorem flatten_mask : ∀ {offset : ℕ} (bufs : List (List UInt8)),
    (mask key offset bufs).flatten = xorWithKey bufs.flatten key offset
  | _, [] => rfl
  | offset, buf :: bufs => by
    rw [mask, List.flatten_cons, List.flatten_cons, xorWithKey_append, flatten_mask bufs]

/-- **The stream is read.** The sender obfuscates it in some buffers and the reader gets the bytes in others, and
what the reader has in the end is what the sender had. -/
theorem stream_read {sent received : List (List UInt8)}
    (h : received.flatten = (mask key offset sent).flatten) :
    (mask key offset received).flatten = sent.flatten := by
  rw [flatten_mask, h, flatten_mask]
  exact deobfuscate_obfuscate sent.flatten

theorem stream_read_three_bytes : (mask (Vector.replicate 20 7) 18 [[6], [5, 4]]).flatten = [1, 2, 3] :=
  @stream_read (Vector.replicate 20 7) 18 [[1, 2], [3]] [[6], [5, 4]] (by decide)

end CncContent.Wire.Obfuscation
