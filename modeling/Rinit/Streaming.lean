import Mathlib.Order.Bounds.Defs
import Rinit.Digest

/-!
# Hashing at once

What a hash function is : the message is padded to whole blocks (`padded`), with no more zeros
than it takes, and the compression function is folded over them (`wholeBlocks`).

`Sha512`, `Sha256` and `Md5` take the message in pieces. A run of calls absorbs the message
(`BlockHash.updateAll_spec`), so it has compressed the whole blocks of what it was given, and the
buffer holds what is left (`bufferLen_eq_mod`). `finalize` counts its zeros from the buffer alone,
and they are the fewest (`isLeast_zeros`). `streaming_hashes` : for any pieces of less than
2^61 bytes together the digest is that of the whole message, and nothing is out of range.
-/

namespace Rinit

open Codec

/-! ## Blocks of a text -/

section Blocks

variable {n : ℕ}

theorem length_take_drop {bytes : List UInt8} (i : Fin (bytes.length / n)) :
    ((bytes.drop (i * n)).take n).length = n := by
  have hle : (i + 1) * n ≤ bytes.length :=
    (Nat.mul_le_mul_right n i.isLt).trans (Nat.div_mul_le_self _ n)
  rw [Nat.succ_mul] at hle
  rw [List.length_take, List.length_drop]
  omega

/-- The blocks of a text, without what is behind the last. -/
def wholeBlocks (n : ℕ) (bytes : List UInt8) : List (Block n) :=
  List.ofFn fun i : Fin (bytes.length / n) =>
    ⟨(bytes.drop (i * n)).take n, length_take_drop i⟩

theorem length_flatten_blocks (blocks : List (Block n)) :
    (blocks.map Subtype.val).flatten.length = blocks.length * n := by
  induction blocks with
  | nil => exact (Nat.zero_mul n).symm
  | cons b blocks ih =>
    rw [List.map_cons, List.flatten_cons, List.length_append, b.2, ih, List.length_cons,
      Nat.succ_mul, Nat.add_comm]

theorem take_drop_flatten (blocks : List (Block n)) {i : ℕ} (hi : i < blocks.length) :
    (((blocks.map Subtype.val).flatten).drop (i * n)).take n = blocks[i].1 := by
  induction blocks generalizing i with
  | nil => exact absurd hi (Nat.not_lt_zero i)
  | cons b blocks ih =>
    rw [List.map_cons, List.flatten_cons]
    cases i with
    | zero =>
      rw [Nat.zero_mul, List.drop_zero]
      exact List.take_left' b.2
    | succ i =>
      have hdrop : (b.1 ++ (blocks.map Subtype.val).flatten).drop ((i + 1) * n) =
          (blocks.map Subtype.val).flatten.drop (i * n) := by
        rw [Nat.succ_mul, Nat.add_comm, ← List.drop_drop, List.drop_left' b.2]
      rw [hdrop]
      exact ih (Nat.lt_of_succ_lt_succ hi)

/-- Blocks one behind the other are the blocks of their text. -/
theorem wholeBlocks_flatten (hn : 0 < n) (blocks : List (Block n)) :
    wholeBlocks n (blocks.map Subtype.val).flatten = blocks := by
  refine List.ext_getElem ?_ fun i h₁ h₂ => ?_
  · rw [wholeBlocks, List.length_ofFn, length_flatten_blocks, Nat.mul_div_cancel _ hn]
  · simp only [wholeBlocks, List.getElem_ofFn]
    exact Subtype.ext (take_drop_flatten blocks h₂)

end Blocks

/-- The message, one bit, zeros, and how long it was. -/
def padded (message : List UInt8) (zeros : ℕ) (lengthBytes : List UInt8) : List UInt8 :=
  message ++ [0x80] ++ List.replicate zeros 0 ++ lengthBytes

theorem length_padded (message : List UInt8) (zeros : ℕ) (lengthBytes : List UInt8) :
    (padded message zeros lengthBytes).length =
      message.length + 1 + zeros + lengthBytes.length := by
  simp only [padded, List.length_append, List.length_replicate, List.length_singleton]

variable {σ : Type} {block size : ℕ}

/-- A message is hashed in pieces as it is at once. Between the calls the buffer holds what does
not fill a block, and the digest is the fold of the compression function over the blocks of the
message with the fewest zeros that fill them. -/
structure Streams (H : BlockHash σ block size) (lengthBytes : ℕ → List UInt8)
    (pieces : List (List UInt8)) : Prop where
  between : ∀ now, now <+: pieces → ∃ h, H.updateAll H.new now = some h ∧ h.bufferLen < block ∧
    h.bufferLen = now.flatten.length % block
  at_once : ∃ zeros,
    IsLeast {z | block ∣
      (padded pieces.flatten z (lengthBytes (pieces.flatten.length * 8))).length} zeros ∧
    H.digest pieces = some (H.output ((wholeBlocks block
      (padded pieces.flatten zeros (lengthBytes (pieces.flatten.length * 8)))).foldl
        H.compress H.initial))

namespace BlockHash

theorem bufferLen_eq_mod {H : BlockHash σ block size} {h : Hasher σ block}
    {message : List UInt8} (habsorbs : H.Absorbs H.new message h) (hlt : h.bufferLen < block) :
    h.bufferLen = message.length % block := by
  obtain ⟨blocks, hbytes, -⟩ := habsorbs
  have hlen := congrArg List.length hbytes
  rw [List.length_append, List.length_append, length_flatten_blocks, List.length_take,
    List.length_take, h.buffer.2, Nat.min_eq_left hlt.le] at hlen
  have hmessage : message.length = h.bufferLen + blocks.length * block := by
    rw [Nat.add_comm, ← hlen]
    exact (Nat.zero_add _).symm
  rw [hmessage, Nat.add_mul_mod_self_right, Nat.mod_eq_of_lt hlt]

/-- The zeros of `padding`. -/
def zeros (H : BlockHash σ block size) (bufferLen : ℕ) : ℕ :=
  let remainder := (bufferLen + 1) % block
  if remainder ≤ H.lengthAt then H.lengthAt - remainder else H.lengthAtNext - remainder

theorem zeros_lt (H : BlockHash σ block size) (hat : H.lengthAt < block) (bufferLen : ℕ) :
    H.zeros bufferLen < block := by
  have hnext := H.lengthAtNext_eq
  unfold zeros
  dsimp only
  split_ifs <;> omega

/-- They fill the last block. -/
theorem dvd_zeros (H : BlockHash σ block size) (len bitLen : ℕ) :
    block ∣ len + 1 + H.zeros (len % block) + (H.lengthBytes bitLen).length := by
  have hlength := H.length_lengthBytes bitLen
  have hnext := H.lengthAtNext_eq
  have hlt := Nat.mod_lt (len + 1) H.block_pos
  have hlen := Nat.div_add_mod (len + 1) block
  unfold zeros
  dsimp only
  rw [Nat.mod_add_mod]
  split_ifs with hle
  · have hsum : len + 1 + (H.lengthAt - (len + 1) % block) + (H.lengthBytes bitLen).length =
        block * ((len + 1) / block) + block := by omega
    rw [hsum]
    exact Nat.dvd_add (Nat.dvd_mul_right _ _) (Nat.dvd_refl _)
  · have hsum : len + 1 + (H.lengthAtNext - (len + 1) % block) +
        (H.lengthBytes bitLen).length = block * ((len + 1) / block) + block + block := by omega
    rw [hsum]
    exact Nat.dvd_add (Nat.dvd_add (Nat.dvd_mul_right _ _) (Nat.dvd_refl _)) (Nat.dvd_refl _)

/-- And no fewer do. -/
theorem isLeast_zeros (H : BlockHash σ block size) (hat : H.lengthAt < block)
    (message : List UInt8) (bitLen : ℕ) :
    IsLeast {z | block ∣ (padded message z (H.lengthBytes bitLen)).length}
      (H.zeros (message.length % block)) := by
  have hfills := H.dvd_zeros message.length bitLen
  have hset : ∀ z, block ∣ (padded message z (H.lengthBytes bitLen)).length ↔
      block ∣ message.length + 1 + z + (H.lengthBytes bitLen).length := fun z => by
    rw [length_padded]
  refine ⟨(hset _).mpr hfills, fun z hz => ?_⟩
  replace hz := (hset z).mp hz
  refine Nat.le_of_not_lt fun hlt => ?_
  have hdvd := Nat.dvd_sub hfills hz
  have hpos := Nat.le_of_dvd (by omega) hdvd
  have := H.zeros_lt hat (message.length % block)
  omega

theorem streams (H : BlockHash σ block size) (hat : H.lengthAt < block)
    (pieces : List (List UInt8)) (hlen : pieces.flatten.length * 8 < 2 ^ H.lengthBits) :
    Streams H H.lengthBytes pieces := by
  refine ⟨fun now hnow => ?_, ?_⟩
  · obtain ⟨later, rfl⟩ := hnow
    rw [List.flatten_append, List.length_append] at hlen
    obtain ⟨h, hall, hready, habsorbs⟩ := H.updateAll_spec H.ready_new now (by omega)
    exact ⟨h, hall, hready.bufferLen_lt, bufferLen_eq_mod habsorbs hready.bufferLen_lt⟩
  obtain ⟨h, hall, hready, habsorbs⟩ := H.updateAll_spec H.ready_new pieces (by omega)
  have hbuffer := bufferLen_eq_mod habsorbs hready.bufferLen_lt
  rw [Nat.zero_add] at hready
  obtain ⟨h', hfinal, hlt, hpadding⟩ := H.finalize_spec hready hlen
  have hmessage := habsorbs.trans hpadding
  have hpadded : pieces.flatten ++ H.padding h.bufferLen (pieces.flatten.length * 8) =
      padded pieces.flatten (H.zeros (pieces.flatten.length % block))
        (H.lengthBytes (pieces.flatten.length * 8)) := by
    rw [hbuffer, padded, List.append_assoc, List.append_assoc]
    rfl
  have hleast := H.isLeast_zeros hat pieces.flatten (pieces.flatten.length * 8)
  rw [hpadded] at hmessage
  -- the padded message ends with a block, so the buffer is empty
  have hzero : h'.bufferLen = 0 :=
    (bufferLen_eq_mod hmessage hlt).trans (Nat.mod_eq_zero_of_dvd hleast.1)
  obtain ⟨blocks, hbytes, hstate⟩ := hmessage
  rw [hzero, List.take_zero, List.append_nil] at hbytes
  refine ⟨_, hleast, ?_⟩
  rw [digest, hall, show padded _ _ _ = _ from hbytes, wholeBlocks_flatten H.block_pos]
  exact hfinal.trans (congrArg (fun state => some (H.output state)) hstate)

end BlockHash

/-- A message of less than 2^61 bytes, in any pieces. The length is written in 16, 8 and 8
bytes. -/
theorem streaming_hashes (pieces : List (List UInt8)) (hlen : pieces.flatten.length < 2 ^ 61) :
    Streams Sha512 (beBytes 16) pieces ∧ Streams Sha256 (beBytes 8) pieces ∧
      Streams Md5 (leBytes 8) pieces := by
  have hbits : pieces.flatten.length * 8 < 2 ^ 64 := by omega
  refine ⟨Sha512.streams (by decide) pieces ?_, Sha256.streams (by decide) pieces ?_,
    Md5.streams (by decide) pieces hbits⟩
  · exact hbits.trans (by decide)
  · exact hbits.trans (by decide)

/-- A message in two pieces. -/
theorem streaming_hashes_two : [[0x61], [0x62, 0x63]].flatten.length < 2 ^ 61 ∧
    Streams Sha512 (beBytes 16) [[0x61], [0x62, 0x63]] ∧
      Streams Sha256 (beBytes 8) [[0x61], [0x62, 0x63]] ∧
      Streams Md5 (leBytes 8) [[0x61], [0x62, 0x63]] :=
  ⟨by decide, streaming_hashes [[0x61], [0x62, 0x63]] (by decide)⟩

end Rinit
