import Mathlib.Data.Nat.Notation
import Rinit.Codec

/-!
# Digests

The three hash functions that the password check of `rlogin` rests on : `Sha512`, `Sha256` and
`Md5`. Each takes its message in pieces (`Hasher.update`) and keeps what does not fill a block
in a buffer. They are one construction (`BlockHash`) with a compression function, a block size
and a way to write the length each, and SHA-512 and SHA-256 are one compression function with
other tables (`Sha2`).

`none` is a panic : the checked addition to the length, the checked product in `finalize`, or a
slice out of range.
-/

namespace Rinit

open Codec

/-- `[u8; n]`. -/
abbrev Block (n : ℕ) := { bytes : List UInt8 // bytes.length = n }

/-- `to_be_bytes` of a number of `width` bytes. -/
def beBytes (width n : ℕ) : List UInt8 := (leBytes width n).reverse

@[simp] theorem length_beBytes (width n : ℕ) : (beBytes width n).length = width := by
  rw [beBytes, List.length_reverse, length_leBytes]

/-! ## Hashing in pieces -/

/-- What `Sha512`, `Sha256` and `Md5` differ in. -/
structure BlockHash (σ : Type) (block size : ℕ) where
  block_pos : 0 < block
  size_pos : 0 < size
  /-- The width of the field `length`. -/
  lengthBits : ℕ
  initial : σ
  compress : σ → Block block → σ
  /-- Where the length starts in the last block, and the same position a block later. -/
  lengthAt : ℕ
  lengthAtNext : ℕ
  lengthBytes : ℕ → List UInt8
  output : σ → Block size
  lengthAtNext_eq : lengthAtNext = lengthAt + block
  length_lengthBytes : ∀ bitLen, lengthAt + (lengthBytes bitLen).length = block
  /-- Room for the padding behind any length whose bits can be counted. -/
  block_le : 4 * block ≤ 2 ^ lengthBits

/-- The fields of `Sha512`, `Sha256` and `Md5`. -/
structure Hasher (σ : Type) (block : ℕ) where
  state : σ
  buffer : Block block
  bufferLen : ℕ
  length : ℕ

theorem length_overwrite {n start : ℕ} {data : List UInt8} (buffer : Block n)
    (h : start + data.length ≤ n) :
    (buffer.1.take start ++ data ++ buffer.1.drop (start + data.length)).length = n := by
  simp only [List.length_append, List.length_take, List.length_drop, buffer.2]
  omega

/-- `buffer[start..start + data.len()].copy_from_slice(data)`. -/
def copyFromSlice {n : ℕ} (buffer : Block n) (start : ℕ) (data : List UInt8) : Option (Block n) :=
  if h : start + data.length ≤ n then
    some ⟨buffer.1.take start ++ data ++ buffer.1.drop (start + data.length),
      length_overwrite buffer h⟩
  else none

/-- `data[..count]` and `data[count..]`. -/
def splitSlice (data : List UInt8) (count : ℕ) : Option (List UInt8 × List UInt8) :=
  if count ≤ data.length then some (data.take count, data.drop count) else none

variable {σ : Type} {block size : ℕ}

namespace BlockHash

/-- `new`. -/
def new (H : BlockHash σ block size) : Hasher σ block where
  state := H.initial
  buffer := ⟨List.replicate block 0, List.length_replicate⟩
  bufferLen := 0
  length := 0

/-- The part of `update` for a buffer that holds something : it is filled first, and what is
left of the data is returned. -/
def fillBuffer (H : BlockHash σ block size) (h : Hasher σ block) (data : List UInt8) :
    Option (Hasher σ block × List UInt8) :=
  if 0 < h.bufferLen then do
    let take := min data.length (block - h.bufferLen)
    let (first, rest) ← splitSlice data take
    let buffer ← copyFromSlice h.buffer h.bufferLen first
    if h.bufferLen + take = block then
      return ({ h with buffer, state := H.compress h.state buffer, bufferLen := 0 }, rest)
    else
      return ({ h with buffer, bufferLen := h.bufferLen + take }, rest)
  else some (h, data)

/-- The loop of `update` over the whole blocks. -/
def absorb (H : BlockHash σ block size) (state : σ) (data : List UInt8) : σ × List UInt8 :=
  if h : block ≤ data.length then
    H.absorb (H.compress state ⟨data.take block, List.length_take_of_le h⟩) (data.drop block)
  else (state, data)
termination_by data.length
decreasing_by
  have := H.block_pos
  rw [List.length_drop]
  omega

/-- `update`. -/
def update (H : BlockHash σ block size) (h : Hasher σ block) (data : List UInt8) :
    Option (Hasher σ block) :=
  if h.length + data.length < 2 ^ H.lengthBits then do
    let (h, data) ← H.fillBuffer { h with length := h.length + data.length } data
    let (state, data) := H.absorb h.state data
    if data.isEmpty then return { h with state }
    else
      let buffer ← copyFromSlice h.buffer 0 data
      return { h with state, buffer, bufferLen := data.length }
  else none

/-- Calls of `update`, one a piece. -/
def updateAll (H : BlockHash σ block size) (h : Hasher σ block) (pieces : List (List UInt8)) :
    Option (Hasher σ block) :=
  pieces.foldlM H.update h

/-- What `finalize` appends to the message. -/
def padding (H : BlockHash σ block size) (bufferLen bitLen : ℕ) : List UInt8 :=
  let remainder := (bufferLen + 1) % block
  let zeros := if remainder ≤ H.lengthAt then H.lengthAt - remainder
    else H.lengthAtNext - remainder
  [0x80] ++ List.replicate zeros 0 ++ H.lengthBytes bitLen

/-- `finalize`. -/
def finalize (H : BlockHash σ block size) (h : Hasher σ block) : Option (Block size) :=
  if h.length * 8 < 2 ^ H.lengthBits then do
    let h ← H.update h (H.padding h.bufferLen (h.length * 8))
    return H.output h.state
  else none

/-- A hasher that is fed these pieces and finalized. -/
def digest (H : BlockHash σ block size) (pieces : List (List UInt8)) : Option (Block size) :=
  H.updateAll H.new pieces >>= H.finalize

/-! ### What a call does -/

/-- A hasher between two calls, after `total` bytes. -/
structure Ready (h : Hasher σ block) (total : ℕ) : Prop where
  bufferLen_lt : h.bufferLen < block
  length_eq : h.length = total

theorem ready_new (H : BlockHash σ block size) : Ready H.new 0 := ⟨H.block_pos, rfl⟩

/-- From `h` to `h'` the bytes in the buffer and the data are whole blocks, which are compressed,
and the bytes in the buffer. -/
def Absorbs (H : BlockHash σ block size) (h : Hasher σ block) (data : List UInt8)
    (h' : Hasher σ block) : Prop :=
  ∃ blocks : List (Block block),
    h.buffer.1.take h.bufferLen ++ data =
      (blocks.map Subtype.val).flatten ++ h'.buffer.1.take h'.bufferLen ∧
    h'.state = blocks.foldl H.compress h.state

theorem Absorbs.refl (H : BlockHash σ block size) (h : Hasher σ block) : H.Absorbs h [] h :=
  ⟨[], List.append_nil _, rfl⟩

theorem Absorbs.trans {H : BlockHash σ block size} {h h₁ h₂ : Hasher σ block}
    {data data' : List UInt8} (hfirst : H.Absorbs h data h₁) (hnext : H.Absorbs h₁ data' h₂) :
    H.Absorbs h (data ++ data') h₂ := by
  obtain ⟨blocks, hbytes, hstate⟩ := hfirst
  obtain ⟨blocks', hbytes', hstate'⟩ := hnext
  refine ⟨blocks ++ blocks', ?_, ?_⟩
  · rw [← List.append_assoc, hbytes, List.append_assoc, hbytes', List.map_append,
      List.flatten_append, List.append_assoc]
  · rw [hstate', hstate, List.foldl_append]

/-- The loop takes whole blocks until less than one is left. -/
theorem absorb_spec (H : BlockHash σ block size) (state : σ) (data : List UInt8) :
    (H.absorb state data).2.length < block ∧ ∃ blocks : List (Block block),
      data = (blocks.map Subtype.val).flatten ++ (H.absorb state data).2 ∧
      (H.absorb state data).1 = blocks.foldl H.compress state := by
  fun_induction absorb H state data with
  | case1 state data h ih =>
    obtain ⟨hlt, blocks, hdata, hstate⟩ := ih
    refine ⟨hlt, ⟨data.take block, List.length_take_of_le h⟩ :: blocks, ?_, hstate⟩
    rw [List.map_cons, List.flatten_cons, List.append_assoc, ← hdata, List.take_append_drop]
  | case2 state data h => exact ⟨Nat.lt_of_not_le h, [], rfl, rfl⟩

theorem absorb_nil (H : BlockHash σ block size) (state : σ) : H.absorb state [] = (state, []) := by
  rw [absorb, dif_neg]
  exact Nat.not_le.mpr H.block_pos

/-- A copy that is in range : the data follows what was in front of it. -/
theorem exists_copyFromSlice {n : ℕ} (start : ℕ) (buffer : Block n) {data : List UInt8}
    (h : start + data.length ≤ n) : ∃ buffer', copyFromSlice buffer start data = some buffer' ∧
      buffer'.1.take (start + data.length) = buffer.1.take start ++ data := by
  refine ⟨_, dif_pos h, List.take_left' ?_⟩
  rw [List.length_append, List.length_take, buffer.2]
  omega

/-- A buffer that holds something takes the front of the data. Only a buffer that was filled
leaves some. -/
theorem fillBuffer_spec (H : BlockHash σ block size) {h : Hasher σ block}
    (hlt : h.bufferLen < block) (data : List UInt8) : ∃ h' taken rest,
      H.fillBuffer h data = some (h', rest) ∧ data = taken ++ rest ∧ h'.bufferLen < block ∧
        h'.length = h.length ∧ H.Absorbs h taken h' ∧ (rest = [] ∨ h'.bufferLen = 0) := by
  unfold fillBuffer
  split_ifs with hpos
  case neg =>
    exact ⟨h, [], data, rfl, rfl, hlt, rfl, .refl H h, .inr (Nat.eq_zero_of_not_pos hpos)⟩
  set take := min data.length (block - h.bufferLen) with htake
  have hle : take ≤ data.length := Nat.min_le_left ..
  have hfirst : (data.take take).length = take := List.length_take_of_le hle
  obtain ⟨buffer, hcopy, hbuffer⟩ := exists_copyFromSlice h.bufferLen h.buffer
    (show h.bufferLen + (data.take take).length ≤ block by omega)
  rw [hfirst] at hbuffer
  simp only [splitSlice, hle, if_true, Option.bind_eq_bind, Option.bind_some, hcopy]
  have hdata : data = data.take take ++ data.drop take := (List.take_append_drop take data).symm
  split_ifs with hfull
  · refine ⟨_, _, _, rfl, hdata, H.block_pos, rfl, ⟨[buffer], ?_, rfl⟩, .inr rfl⟩
    rw [hfull, List.take_of_length_le buffer.2.le] at hbuffer
    simp [hbuffer]
  · have hall : take = data.length := by omega
    refine ⟨_, _, _, rfl, hdata, show h.bufferLen + take < block by omega, rfl,
      ⟨[], hbuffer.symm, rfl⟩, .inl ?_⟩
    rw [hall, List.drop_length]

/-- One call between two others. -/
theorem update_spec (H : BlockHash σ block size) {h : Hasher σ block} {total : ℕ}
    (hready : Ready h total) (data : List UInt8) (hlen : total + data.length < 2 ^ H.lengthBits) :
    ∃ h', H.update h data = some h' ∧ Ready h' (total + data.length) ∧ H.Absorbs h data h' := by
  obtain ⟨h', taken, rest, hfill, hdata, hlt, hlength, htaken, hrest⟩ :=
    H.fillBuffer_spec (show ({ h with length := h.length + data.length } : Hasher σ block).bufferLen
      < block from hready.bufferLen_lt) data
  obtain ⟨habsorb, blocks, hblocks, hstate⟩ := H.absorb_spec h'.state rest
  have hcount : h'.length = total + data.length := hlength.trans
    (congrArg (· + data.length) hready.length_eq)
  unfold update
  rw [if_pos (by rw [hready.length_eq]; exact hlen)]
  simp only [hfill, Option.bind_eq_bind, Option.bind_some]
  split_ifs with hempty
  · refine ⟨_, rfl, ⟨hlt, hcount⟩, ?_⟩
    rw [hdata]
    refine htaken.trans ?_
    rcases hrest with rfl | hzero
    · rw [absorb_nil]
      exact .refl H h'
    · refine ⟨blocks, ?_, hstate⟩
      rw [List.isEmpty_iff.mp hempty, List.append_nil] at hblocks
      rw [hblocks, hzero]
      simp
  · obtain ⟨buffer, hcopy, hbuffer⟩ := exists_copyFromSlice 0 h'.buffer
      (show 0 + (H.absorb h'.state rest).2.length ≤ block by omega)
    rw [Nat.zero_add, List.take_zero, List.nil_append] at hbuffer
    rw [hcopy]
    refine ⟨_, rfl, ⟨habsorb, hcount⟩, ?_⟩
    rw [hdata]
    refine htaken.trans ⟨blocks, ?_, hstate⟩
    have hzero : h'.bufferLen = 0 := hrest.resolve_left fun h => hempty (by
      rw [h, absorb_nil]
      rfl)
    rw [hzero, List.take_zero, List.nil_append, hbuffer]
    exact hblocks

theorem update_returns (H : BlockHash σ block size) {h : Hasher σ block} {total : ℕ}
    (hready : Ready h total) (data : List UInt8) (hlen : total + data.length < 2 ^ H.lengthBits) :
    ∃ h', H.update h data = some h' ∧ Ready h' (total + data.length) := by
  obtain ⟨h', hupdate, hready', -⟩ := H.update_spec hready data hlen
  exact ⟨h', hupdate, hready'⟩

/-- Any number of calls. -/
theorem updateAll_spec (H : BlockHash σ block size) {h : Hasher σ block} {total : ℕ}
    (hready : Ready h total) (pieces : List (List UInt8))
    (hlen : total + pieces.flatten.length < 2 ^ H.lengthBits) :
    ∃ h', H.updateAll h pieces = some h' ∧ Ready h' (total + pieces.flatten.length) ∧
      H.Absorbs h pieces.flatten h' := by
  induction pieces generalizing h total with
  | nil => exact ⟨h, rfl, hready, .refl H h⟩
  | cons data pieces ih =>
    rw [List.flatten_cons, List.length_append] at hlen ⊢
    obtain ⟨h₁, hfirst, hready₁, habsorbs₁⟩ := H.update_spec hready data (by omega)
    obtain ⟨h₂, hrest, hready₂, habsorbs₂⟩ := ih hready₁ (by omega)
    refine ⟨h₂, ?_, by rwa [← Nat.add_assoc], habsorbs₁.trans habsorbs₂⟩
    rw [updateAll, List.foldlM_cons, hfirst]
    exact hrest

theorem updateAll_returns (H : BlockHash σ block size) {h : Hasher σ block} {total : ℕ}
    (hready : Ready h total) (pieces : List (List UInt8))
    (hlen : total + pieces.flatten.length < 2 ^ H.lengthBits) :
    ∃ h', H.updateAll h pieces = some h' ∧ Ready h' (total + pieces.flatten.length) := by
  obtain ⟨h', hall, hready', -⟩ := H.updateAll_spec hready pieces hlen
  exact ⟨h', hall, hready'⟩

theorem length_padding_le (H : BlockHash σ block size) (bufferLen bitLen : ℕ) :
    (H.padding bufferLen bitLen).length ≤ 2 * block + 1 := by
  have hlen := H.length_lengthBytes bitLen
  have hnext := H.lengthAtNext_eq
  simp only [padding, List.length_append, List.length_replicate, List.length_singleton]
  split_ifs <;> omega

/-- The last call takes the padding. -/
theorem finalize_spec (H : BlockHash σ block size) {h : Hasher σ block} {total : ℕ}
    (hready : Ready h total) (hlen : total * 8 < 2 ^ H.lengthBits) :
    ∃ h', H.finalize h = some (H.output h'.state) ∧ h'.bufferLen < block ∧
      H.Absorbs h (H.padding h.bufferLen (total * 8)) h' := by
  have hpad := H.length_padding_le h.bufferLen (total * 8)
  have hblock := H.block_le
  have hpos := H.block_pos
  obtain ⟨h', hupdate, hready', habsorbs⟩ := H.update_spec hready
    (H.padding h.bufferLen (total * 8)) (by omega)
  refine ⟨h', ?_, hready'.bufferLen_lt, habsorbs⟩
  rw [finalize, hready.length_eq, if_pos hlen, hupdate]
  rfl

theorem finalize_returns (H : BlockHash σ block size) {h : Hasher σ block} {total : ℕ}
    (hready : Ready h total) (hlen : total * 8 < 2 ^ H.lengthBits) :
    ∃ d, H.finalize h = some d := by
  obtain ⟨h', hfinal, -⟩ := H.finalize_spec hready hlen
  exact ⟨_, hfinal⟩

/-- A message whose bits can be counted is hashed without a panic. -/
theorem digest_returns (H : BlockHash σ block size) (pieces : List (List UInt8))
    (hlen : pieces.flatten.length * 8 < 2 ^ H.lengthBits) : ∃ d, H.digest pieces = some d := by
  obtain ⟨h, hall, hready⟩ := H.updateAll_returns H.ready_new pieces (by omega)
  obtain ⟨d, hd⟩ := H.finalize_returns hready (by rwa [Nat.zero_add])
  exact ⟨d, by rw [digest, hall]; exact hd⟩

end BlockHash

/-! ## SHA-2 -/

/-- `[word; 8]`. -/
structure Eight (w : ℕ) where
  a : BitVec w
  b : BitVec w
  c : BitVec w
  d : BitVec w
  e : BitVec w
  f : BitVec w
  g : BitVec w
  h : BitVec w

namespace Eight

variable {w : ℕ}

def toList (s : Eight w) : List (BitVec w) := [s.a, s.b, s.c, s.d, s.e, s.f, s.g, s.h]

/-- The sum word by word. -/
def add (s t : Eight w) : Eight w :=
  ⟨s.a + t.a, s.b + t.b, s.c + t.c, s.d + t.d, s.e + t.e, s.f + t.f, s.g + t.g, s.h + t.h⟩

/-- The words as big-endian bytes. -/
def bytes (width : ℕ) (s : Eight w) : List UInt8 :=
  s.toList.flatMap fun word => beBytes width word.toNat

theorem length_bytes (width : ℕ) (s : Eight w) : (s.bytes width).length = 8 * width := by
  simp only [bytes, toList, List.flatMap_cons, List.flatMap_nil, List.length_append,
    length_beBytes, List.length_nil]
  omega

end Eight

/-- What `compress` and `compress256` differ in. -/
structure Sha2 (w : ℕ) where
  /-- The bytes of a word. -/
  width : ℕ
  rounds : ℕ
  k : Array (BitVec w)
  /-- Two rotations and a shift for each of `s0` and `s1`. -/
  s0 : ℕ × ℕ × ℕ
  s1 : ℕ × ℕ × ℕ
  /-- Three rotations for each of `sigma1` and `sigma0`. -/
  sigma1 : ℕ × ℕ × ℕ
  sigma0 : ℕ × ℕ × ℕ

namespace Sha2

variable {w : ℕ}

/-- `s0` and `s1` of the schedule. -/
def rotateShift (r : ℕ × ℕ × ℕ) (x : BitVec w) : BitVec w :=
  x.rotateRight r.1 ^^^ x.rotateRight r.2.1 ^^^ x >>> r.2.2

/-- `sigma1` and `sigma0` of a round. -/
def rotate (r : ℕ × ℕ × ℕ) (x : BitVec w) : BitVec w :=
  x.rotateRight r.1 ^^^ x.rotateRight r.2.1 ^^^ x.rotateRight r.2.2

/-- The word of the block at an index. -/
def word (P : Sha2 w) (block : List UInt8) (index : ℕ) : BitVec w :=
  BitVec.ofNat w (ofLeBytes ((block.drop (index * P.width)).take P.width).reverse)

/-- The schedule : the words of the block, then `rounds - 16` computed ones. -/
def schedule (P : Sha2 w) (block : List UInt8) : Array (BitVec w) :=
  (List.range' 16 (P.rounds - 16)).foldl
    (fun schedule index => schedule.push (schedule.getD (index - 16) 0 +
      rotateShift P.s0 (schedule.getD (index - 15) 0) + schedule.getD (index - 7) 0 +
      rotateShift P.s1 (schedule.getD (index - 2) 0)))
    ((List.range 16).map (P.word block)).toArray

/-- One round. -/
def round (P : Sha2 w) (schedule : Array (BitVec w)) (s : Eight w) (index : ℕ) : Eight w :=
  let choose := (s.e &&& s.f) ^^^ (~~~s.e &&& s.g)
  let temp1 := s.h + rotate P.sigma1 s.e + choose + P.k.getD index 0 + schedule.getD index 0
  let majority := (s.a &&& s.b) ^^^ (s.a &&& s.c) ^^^ (s.b &&& s.c)
  let temp2 := rotate P.sigma0 s.a + majority
  ⟨temp1 + temp2, s.a, s.b, s.c, s.d + temp1, s.e, s.f, s.g⟩

def compress (P : Sha2 w) (state : Eight w) (block : List UInt8) : Eight w :=
  state.add ((List.range P.rounds).foldl (P.round (P.schedule block)) state)

end Sha2

/-! ### SHA-512 -/

def K : Array (BitVec 64) := #[
  0x428a2f98d728ae22, 0x7137449123ef65cd, 0xb5c0fbcfec4d3b2f, 0xe9b5dba58189dbbc,
  0x3956c25bf348b538, 0x59f111f1b605d019, 0x923f82a4af194f9b, 0xab1c5ed5da6d8118,
  0xd807aa98a3030242, 0x12835b0145706fbe, 0x243185be4ee4b28c, 0x550c7dc3d5ffb4e2,
  0x72be5d74f27b896f, 0x80deb1fe3b1696b1, 0x9bdc06a725c71235, 0xc19bf174cf692694,
  0xe49b69c19ef14ad2, 0xefbe4786384f25e3, 0x0fc19dc68b8cd5b5, 0x240ca1cc77ac9c65,
  0x2de92c6f592b0275, 0x4a7484aa6ea6e483, 0x5cb0a9dcbd41fbd4, 0x76f988da831153b5,
  0x983e5152ee66dfab, 0xa831c66d2db43210, 0xb00327c898fb213f, 0xbf597fc7beef0ee4,
  0xc6e00bf33da88fc2, 0xd5a79147930aa725, 0x06ca6351e003826f, 0x142929670a0e6e70,
  0x27b70a8546d22ffc, 0x2e1b21385c26c926, 0x4d2c6dfc5ac42aed, 0x53380d139d95b3df,
  0x650a73548baf63de, 0x766a0abb3c77b2a8, 0x81c2c92e47edaee6, 0x92722c851482353b,
  0xa2bfe8a14cf10364, 0xa81a664bbc423001, 0xc24b8b70d0f89791, 0xc76c51a30654be30,
  0xd192e819d6ef5218, 0xd69906245565a910, 0xf40e35855771202a, 0x106aa07032bbd1b8,
  0x19a4c116b8d2d0c8, 0x1e376c085141ab53, 0x2748774cdf8eeb99, 0x34b0bcb5e19b48a8,
  0x391c0cb3c5c95a63, 0x4ed8aa4ae3418acb, 0x5b9cca4f7763e373, 0x682e6ff3d6b2b8a3,
  0x748f82ee5defb2fc, 0x78a5636f43172f60, 0x84c87814a1f0ab72, 0x8cc702081a6439ec,
  0x90befffa23631e28, 0xa4506cebde82bde9, 0xbef9a3f7b2c67915, 0xc67178f2e372532b,
  0xca273eceea26619c, 0xd186b8c721c0c207, 0xeada7dd6cde0eb1e, 0xf57d4f7fee6ed178,
  0x06f067aa72176fba, 0x0a637dc5a2c898a6, 0x113f9804bef90dae, 0x1b710b35131c471b,
  0x28db77f523047d84, 0x32caab7b40c72493, 0x3c9ebe0a15c9bebc, 0x431d67c49c100d4c,
  0x4cc5d4becb3e42b6, 0x597f299cfc657e2a, 0x5fcb6fab3ad6faec, 0x6c44198c4a475817]

def H0 : Eight 64 :=
  ⟨0x6a09e667f3bcc908, 0xbb67ae8584caa73b, 0x3c6ef372fe94f82b, 0xa54ff53a5f1d36f1,
    0x510e527fade682d1, 0x9b05688c2b3e6c1f, 0x1f83d9abfb41bd6b, 0x5be0cd19137e2179⟩

/-- `compress`. -/
def sha512Words : Sha2 64 where
  width := 8
  rounds := 80
  k := K
  s0 := (1, 8, 7)
  s1 := (19, 61, 6)
  sigma1 := (14, 18, 41)
  sigma0 := (28, 34, 39)

/-- `Sha512`. -/
def Sha512 : BlockHash (Eight 64) 128 64 where
  block_pos := Nat.succ_pos _
  size_pos := Nat.succ_pos _
  lengthBits := 128
  initial := H0
  compress := fun state block => sha512Words.compress state block.1
  lengthAt := 112
  lengthAtNext := 240
  lengthBytes := beBytes 16
  output := fun state => ⟨state.bytes 8, state.length_bytes 8⟩
  lengthAtNext_eq := rfl
  length_lengthBytes := fun bitLen => congrArg (112 + ·) (length_beBytes 16 bitLen)
  block_le := Nat.le_of_ble_eq_true rfl

/-! ### SHA-256 -/

def K256 : Array (BitVec 32) := #[
  0x428a2f98, 0x71374491, 0xb5c0fbcf, 0xe9b5dba5, 0x3956c25b, 0x59f111f1, 0x923f82a4, 0xab1c5ed5,
  0xd807aa98, 0x12835b01, 0x243185be, 0x550c7dc3, 0x72be5d74, 0x80deb1fe, 0x9bdc06a7, 0xc19bf174,
  0xe49b69c1, 0xefbe4786, 0x0fc19dc6, 0x240ca1cc, 0x2de92c6f, 0x4a7484aa, 0x5cb0a9dc, 0x76f988da,
  0x983e5152, 0xa831c66d, 0xb00327c8, 0xbf597fc7, 0xc6e00bf3, 0xd5a79147, 0x06ca6351, 0x14292967,
  0x27b70a85, 0x2e1b2138, 0x4d2c6dfc, 0x53380d13, 0x650a7354, 0x766a0abb, 0x81c2c92e, 0x92722c85,
  0xa2bfe8a1, 0xa81a664b, 0xc24b8b70, 0xc76c51a3, 0xd192e819, 0xd6990624, 0xf40e3585, 0x106aa070,
  0x19a4c116, 0x1e376c08, 0x2748774c, 0x34b0bcb5, 0x391c0cb3, 0x4ed8aa4a, 0x5b9cca4f, 0x682e6ff3,
  0x748f82ee, 0x78a5636f, 0x84c87814, 0x8cc70208, 0x90befffa, 0xa4506ceb, 0xbef9a3f7, 0xc67178f2]

def H256 : Eight 32 :=
  ⟨0x6a09e667, 0xbb67ae85, 0x3c6ef372, 0xa54ff53a, 0x510e527f, 0x9b05688c, 0x1f83d9ab, 0x5be0cd19⟩

/-- `compress256`. -/
def sha256Words : Sha2 32 where
  width := 4
  rounds := 64
  k := K256
  s0 := (7, 18, 3)
  s1 := (17, 19, 10)
  sigma1 := (6, 11, 25)
  sigma0 := (2, 13, 22)

/-- `Sha256`. Its length is the low 64 bits of the counter. -/
def Sha256 : BlockHash (Eight 32) 64 32 where
  block_pos := Nat.succ_pos _
  size_pos := Nat.succ_pos _
  lengthBits := 128
  initial := H256
  compress := fun state block => sha256Words.compress state block.1
  lengthAt := 56
  lengthAtNext := 120
  lengthBytes := beBytes 8
  output := fun state => ⟨state.bytes 4, state.length_bytes 4⟩
  lengthAtNext_eq := rfl
  length_lengthBytes := fun bitLen => congrArg (56 + ·) (length_beBytes 8 bitLen)
  block_le := Nat.le_of_ble_eq_true rfl

/-! ## MD5 -/

def MD5_K : Array (BitVec 32) := #[
  0xd76aa478, 0xe8c7b756, 0x242070db, 0xc1bdceee, 0xf57c0faf, 0x4787c62a, 0xa8304613, 0xfd469501,
  0x698098d8, 0x8b44f7af, 0xffff5bb1, 0x895cd7be, 0x6b901122, 0xfd987193, 0xa679438e, 0x49b40821,
  0xf61e2562, 0xc040b340, 0x265e5a51, 0xe9b6c7aa, 0xd62f105d, 0x02441453, 0xd8a1e681, 0xe7d3fbc8,
  0x21e1cde6, 0xc33707d6, 0xf4d50d87, 0x455a14ed, 0xa9e3e905, 0xfcefa3f8, 0x676f02d9, 0x8d2a4c8a,
  0xfffa3942, 0x8771f681, 0x6d9d6122, 0xfde5380c, 0xa4beea44, 0x4bdecfa9, 0xf6bb4b60, 0xbebfbc70,
  0x289b7ec6, 0xeaa127fa, 0xd4ef3085, 0x04881d05, 0xd9d4d039, 0xe6db99e5, 0x1fa27cf8, 0xc4ac5665,
  0xf4292244, 0x432aff97, 0xab9423a7, 0xfc93a039, 0x655b59c3, 0x8f0ccc92, 0xffeff47d, 0x85845dd1,
  0x6fa87e4f, 0xfe2ce6e0, 0xa3014314, 0x4e0811a1, 0xf7537e82, 0xbd3af235, 0x2ad7d2bb, 0xeb86d391]

def MD5_S : Array ℕ := #[
  7, 12, 17, 22, 7, 12, 17, 22, 7, 12, 17, 22, 7, 12, 17, 22, 5, 9, 14, 20, 5, 9, 14, 20, 5, 9, 14,
  20, 5, 9, 14, 20, 4, 11, 16, 23, 4, 11, 16, 23, 4, 11, 16, 23, 4, 11, 16, 23, 6, 10, 15, 21, 6,
  10, 15, 21, 6, 10, 15, 21, 6, 10, 15, 21]

/-- `[u32; 4]`. -/
structure Four where
  a : BitVec 32
  b : BitVec 32
  c : BitVec 32
  d : BitVec 32

namespace Four

/-- The words as little-endian bytes. -/
def bytes (s : Four) : List UInt8 :=
  [s.a, s.b, s.c, s.d].flatMap fun word => leBytes 4 word.toNat

theorem length_bytes (s : Four) : s.bytes.length = 16 := by
  simp only [bytes, List.flatMap_cons, List.flatMap_nil, List.length_append, length_leBytes,
    List.length_nil]

end Four

/-- The function of a round and the word it takes. -/
def md5Function (s : Four) (index : ℕ) : BitVec 32 × ℕ :=
  if index ≤ 15 then ((s.b &&& s.c) ||| (~~~s.b &&& s.d), index)
  else if index ≤ 31 then ((s.d &&& s.b) ||| (~~~s.d &&& s.c), (5 * index + 1) % 16)
  else if index ≤ 47 then (s.b ^^^ s.c ^^^ s.d, (3 * index + 5) % 16)
  else (s.c ^^^ (s.b ||| ~~~s.d), 7 * index % 16)

def md5Round (words : Array (BitVec 32)) (s : Four) (index : ℕ) : Four :=
  let (function, word) := md5Function s index
  let next := s.b +
    (s.a + function + MD5_K.getD index 0 + words.getD word 0).rotateLeft (MD5_S.getD index 0)
  ⟨s.d, next, s.b, s.c⟩

/-- `compress_md5`. -/
def compressMd5 (state : Four) (block : Block 64) : Four :=
  let words := ((List.range 16).map fun index =>
    BitVec.ofNat 32 (ofLeBytes ((block.1.drop (index * 4)).take 4))).toArray
  let s := (List.range 64).foldl (md5Round words) state
  ⟨state.a + s.a, state.b + s.b, state.c + s.c, state.d + s.d⟩

/-- `Md5`. -/
def Md5 : BlockHash Four 64 16 where
  block_pos := Nat.succ_pos _
  size_pos := Nat.succ_pos _
  lengthBits := 64
  initial := ⟨0x67452301, 0xefcdab89, 0x98badcfe, 0x10325476⟩
  compress := compressMd5
  lengthAt := 56
  lengthAtNext := 120
  lengthBytes := leBytes 8
  output := fun state => ⟨state.bytes, state.length_bytes⟩
  lengthAtNext_eq := rfl
  length_lengthBytes := fun bitLen => congrArg (56 + ·) (length_leBytes 8 bitLen)
  block_le := Nat.le_of_ble_eq_true rfl

end Rinit
