import Mathlib.Data.List.GetD
import Mathlib.Data.List.Induction
import Mathlib.Data.List.Nodup
import Mathlib.Tactic.IntervalCases
import Rinit.Digest

/-!
# Sextets

How a password hash writes its digest : three bytes are one number of 24 bits, and that is four
characters of six bits each, the lowest first (`b64From24bit`). Which bytes stand together is an
order of its own in each of the formats, `encodeSha512` and `encodeSha256` walk through it with
two jumps and a wrap.

An encoding that uses each byte once (`UsesEachOnce`) ends and loses nothing
(`UsesEachOnce.injective`), and all three do : `encodeSha512_once`, `encodeSha256_once`,
`encodeMd5_once`.
-/

namespace Rinit

def B64 : List Char := "./0123456789ABCDEFGHIJKLMNOPQRSTUVWXYZabcdefghijklmnopqrstuvwxyz".toList

theorem length_B64 : B64.length = 64 := by decide

theorem nodup_B64 : B64.Nodup := by decide

theorem and_lt_length_B64 (value : ℕ) : value &&& 0x3f < B64.length := by
  rw [length_B64]
  exact Nat.and_lt_two_pow value (show 0x3f < 2 ^ 6 by decide)

/-- `B64[(value & 0x3f) as usize]`. -/
def b64Char (value : ℕ) : Char := B64.get ⟨value &&& 0x3f, and_lt_length_B64 value⟩

/-- The characters that `b64_from_24bit` pushes. -/
def b64Digits : ℕ → ℕ → List Char
  | 0, _ => []
  | count + 1, value => b64Char value :: b64Digits count (value >>> 6)

def b64From24bit (out : List Char) (b2 b1 b0 : UInt8) (count : ℕ) : List Char :=
  out ++ b64Digits count (b2.toNat <<< 16 ||| b1.toNat <<< 8 ||| b0.toNat)

/-! ## Digits -/

@[simp] theorem length_b64Digits : ∀ count value, (b64Digits count value).length = count
  | 0, _ => rfl
  | count + 1, value => by rw [b64Digits, List.length_cons, length_b64Digits count]

theorem mod_eq_of_b64Char {value value' : ℕ} (h : b64Char value = b64Char value') :
    value % 64 = value' % 64 := by
  have hidx := congrArg Fin.val (List.nodup_iff_injective_get.mp nodup_B64 h)
  exact (Nat.and_two_pow_sub_one_eq_mod value 6).symm.trans
    (hidx.trans (Nat.and_two_pow_sub_one_eq_mod value' 6))

theorem eq_of_b64Digits : ∀ {count value value' : ℕ}, value < 64 ^ count → value' < 64 ^ count →
    b64Digits count value = b64Digits count value' → value = value'
  | 0, value, value', h, h', _ => by
    rw [pow_zero, Nat.lt_one_iff] at h h'
    rw [h, h']
  | count + 1, value, value', h, h', heq => by
    obtain ⟨hchar, hrest⟩ := List.cons.inj heq
    have hlow := mod_eq_of_b64Char hchar
    rw [Nat.shiftRight_eq_div_pow, Nat.shiftRight_eq_div_pow] at hrest
    have hhigh : value / 64 = value' / 64 :=
      eq_of_b64Digits (Nat.div_lt_of_lt_mul (by rwa [pow_succ'] at h))
        (Nat.div_lt_of_lt_mul (by rwa [pow_succ'] at h')) hrest
    rw [← Nat.div_add_mod value 64, ← Nat.div_add_mod value' 64, hlow, hhigh]

/-! ## Groups -/

/-- The bytes of a group as one number, the first the highest. -/
def groupValue (bytes : List UInt8) : ℕ :=
  bytes.foldl (fun value byte => value * 256 + byte.toNat) 0

/-- A group in one character more than it has bytes. -/
def groupCode (bytes : List UInt8) : List Char :=
  b64Digits (bytes.length + 1) (groupValue bytes)

theorem groupValue_concat (bytes : List UInt8) (byte : UInt8) :
    groupValue (bytes ++ [byte]) = groupValue bytes * 256 + byte.toNat := by
  rw [groupValue, List.foldl_append]
  rfl

theorem groupValue_lt (bytes : List UInt8) : groupValue bytes < 256 ^ bytes.length := by
  induction bytes using List.reverseRecOn with
  | nil => decide
  | append_singleton bytes byte ih =>
    have hbyte : byte.toNat < 256 := byte.toNat_lt
    rw [groupValue_concat, List.length_append, List.length_singleton, pow_succ]
    omega

theorem eq_of_groupValue {bytes bytes' : List UInt8} (hlen : bytes.length = bytes'.length)
    (h : groupValue bytes = groupValue bytes') : bytes = bytes' := by
  induction bytes using List.reverseRecOn generalizing bytes' with
  | nil => exact (List.length_eq_zero_iff.mp hlen.symm).symm
  | append_singleton bytes byte ih =>
    induction bytes' using List.reverseRecOn with
    | nil => simp at hlen
    | append_singleton bytes' byte' _ =>
      have hbyte : byte.toNat < 256 := byte.toNat_lt
      have hbyte' : byte'.toNat < 256 := byte'.toNat_lt
      rw [groupValue_concat, groupValue_concat] at h
      have hlast : byte = byte' := UInt8.toNat_inj.mp (by omega)
      have hinit : bytes = bytes' := ih (by simpa using hlen) (by omega)
      rw [hlast, hinit]

theorem eq_of_groupCode {bytes bytes' : List UInt8} (hlen : bytes.length = bytes'.length)
    (hthree : bytes.length ≤ 3) (h : groupCode bytes = groupCode bytes') : bytes = bytes' := by
  have hfits : 256 ^ bytes.length ≤ 64 ^ (bytes.length + 1) := by
    interval_cases bytes.length <;> decide
  rw [groupCode, groupCode, ← hlen] at h
  exact eq_of_groupValue hlen (eq_of_b64Digits ((groupValue_lt bytes).trans_le hfits)
    ((groupValue_lt bytes').trans_le (hlen ▸ hfits)) h)

/-- `b64_from_24bit` writes the group of its three bytes. -/
theorem b64Value_eq (b2 b1 b0 : UInt8) :
    b2.toNat <<< 16 ||| b1.toNat <<< 8 ||| b0.toNat = groupValue [b2, b1, b0] := by
  have h1 : b1.toNat < 256 := b1.toNat_lt
  have h0 : b0.toNat < 256 := b0.toNat_lt
  have hlow : b1.toNat <<< 8 < 2 ^ 16 := by
    rw [Nat.shiftLeft_eq]
    omega
  have hhigh : b2.toNat <<< 16 ||| b1.toNat <<< 8 = (b2.toNat * 256 + b1.toNat) <<< 8 := by
    refine (Nat.shiftLeft_add_eq_or_of_lt hlow b2.toNat).symm.trans ?_
    simp only [Nat.shiftLeft_eq]
    omega
  calc b2.toNat <<< 16 ||| b1.toNat <<< 8 ||| b0.toNat
      = (b2.toNat * 256 + b1.toNat) <<< 8 ||| b0.toNat := by rw [hhigh]
    _ = (b2.toNat * 256 + b1.toNat) <<< 8 + b0.toNat :=
      (Nat.shiftLeft_add_eq_or_of_lt (show b0.toNat < 2 ^ 8 from h0) _).symm
    _ = groupValue [b2, b1, b0] := by
      simp only [Nat.shiftLeft_eq, groupValue, List.foldl_cons, List.foldl_nil]
      omega

theorem b64From24bit_four (out : List Char) (b2 b1 b0 : UInt8) :
    b64From24bit out b2 b1 b0 4 = out ++ groupCode [b2, b1, b0] := by
  rw [b64From24bit, b64Value_eq]
  rfl

theorem b64From24bit_three (out : List Char) (b1 b0 : UInt8) :
    b64From24bit out 0 b1 b0 3 = out ++ groupCode [b1, b0] := by
  rw [b64From24bit, b64Value_eq]
  simp [groupCode, groupValue]

theorem b64From24bit_two (out : List Char) (b0 : UInt8) :
    b64From24bit out 0 0 b0 2 = out ++ groupCode [b0] := by
  rw [b64From24bit, b64Value_eq]
  simp [groupCode, groupValue]

/-! ## Encodings -/

variable {n : ℕ}

/-- The bytes of a digest at some positions. -/
def bytesAt (digest : Block n) (positions : List ℕ) : List UInt8 :=
  positions.map fun i => digest.1.getD i 0

/-- An encoding that writes groups of at most three bytes, and each byte in one of them. -/
def UsesEachOnce (encode : Block n → Option (List Char)) : Prop :=
  ∃ groups : List (List ℕ), groups.flatten.Perm (List.range n) ∧ (∀ g ∈ groups, g.length ≤ 3) ∧
    ∀ digest, encode digest = some (groups.flatMap fun g => groupCode (bytesAt digest g))

theorem getElem?_block (digest : Block n) {i : ℕ} (h : i < n) :
    digest.1[i]? = some (digest.1.getD i 0) := by
  have hi : i < digest.1.length := digest.2.symm ▸ h
  rw [List.getD_eq_getElem?_getD, List.getElem?_eq_getElem hi, Option.getD_some]

/-- Two lists of pieces of the same lengths that are one list when joined are the same. -/
theorem eq_of_flatMap {α β : Type*} {f f' : α → List β} :
    ∀ {l : List α}, (∀ a ∈ l, (f a).length = (f' a).length) → l.flatMap f = l.flatMap f' →
      ∀ a ∈ l, f a = f' a
  | [], _, _ => fun a ha => absurd ha List.not_mem_nil
  | b :: l, hlen, h => by
    rw [List.flatMap_cons, List.flatMap_cons] at h
    obtain ⟨hhead, htail⟩ := List.append_inj h (hlen b List.mem_cons_self)
    exact List.forall_mem_cons.mpr
      ⟨hhead, eq_of_flatMap (fun a ha => hlen a (List.mem_cons_of_mem b ha)) htail⟩

namespace UsesEachOnce

variable {encode : Block n → Option (List Char)}

/-- The encoding ends, with all its positions in range. -/
theorem returns (h : UsesEachOnce encode) (digest : Block n) :
    ∃ code, encode digest = some code := by
  obtain ⟨groups, -, -, hcode⟩ := h
  exact ⟨_, hcode digest⟩

theorem injective (h : UsesEachOnce encode) : Function.Injective encode := by
  obtain ⟨groups, hperm, hthree, hcode⟩ := h
  intro digest digest' heq
  rw [hcode, hcode, Option.some.injEq] at heq
  have hlen : ∀ g : List ℕ, (bytesAt digest g).length = (bytesAt digest' g).length := fun g => by
    rw [bytesAt, bytesAt, List.length_map, List.length_map]
  have hgroups := eq_of_flatMap (fun g _ => by
    rw [groupCode, groupCode, length_b64Digits, length_b64Digits, hlen]) heq
  apply Subtype.ext
  refine List.ext_getElem (digest.2.trans digest'.2.symm) fun i hi hi' => ?_
  -- the position stands in some group, and that group has the same bytes
  have hmem : i ∈ groups.flatten :=
    hperm.mem_iff.mpr (List.mem_range.mpr (digest.2 ▸ hi))
  obtain ⟨g, hg, hig⟩ := List.mem_flatten.mp hmem
  have hbytes := eq_of_groupCode (hlen g)
    (by rw [bytesAt, List.length_map]; exact hthree g hg) (hgroups g hg)
  have hat := List.map_inj_left.mp hbytes i hig
  rwa [List.getD_eq_getElem _ _ hi, List.getD_eq_getElem _ _ hi'] at hat

end UsesEachOnce

/-! ### SHA-2 -/

/-- What the loops of `encode_sha512` and `encode_sha256` differ in. -/
structure Jumps where
  second : ℕ
  third : ℕ
  /-- A position from here on is taken back by as much. -/
  whole : ℕ
  /-- Which of `j` and `k` is followed, and the value of it that ends the loop. -/
  follow : ℕ → ℕ → ℕ
  last : ℕ

namespace Jumps

def wrap (J : Jumps) (position : ℕ) : ℕ :=
  if J.whole ≤ position then position - J.whole else position

/-- The loop of `encode_sha512` and `encode_sha256`, with a bound on its rounds. `none` is an
index out of range, or a loop that is not over. -/
def encode (J : Jumps) (hash : List UInt8) : ℕ → ℕ → List Char → Option (List Char)
  | 0, _, _ => none
  | fuel + 1, index, out => do
    let j := J.wrap (index + J.second)
    let k := J.wrap (index + J.third)
    let out := b64From24bit out (← hash[index]?) (← hash[j]?) (← hash[k]?) 4
    if J.follow j k = J.last then return out
    else J.encode hash fuel (J.follow j k + 1) out

/-- The positions that the loop visits. -/
def visits (J : Jumps) : ℕ → ℕ → Option (List (List ℕ))
  | 0, _ => none
  | fuel + 1, index =>
    let j := J.wrap (index + J.second)
    let k := J.wrap (index + J.third)
    if J.follow j k = J.last then some [[index, j, k]]
    else (J.visits fuel (J.follow j k + 1)).map ([index, j, k] :: ·)

theorem encode_eq (J : Jumps) (digest : Block n) {fuel index : ℕ} {groups : List (List ℕ)}
    (out : List Char) (h : J.visits fuel index = some groups)
    (hrange : ∀ i ∈ groups.flatten, i < n) :
    J.encode digest.1 fuel index out =
      some (out ++ groups.flatMap fun g => groupCode (bytesAt digest g)) := by
  induction fuel generalizing index out groups with
  | zero => simp [visits] at h
  | succ fuel ih =>
    unfold visits at h
    unfold encode
    dsimp only at h ⊢
    split_ifs at h with hlast
    · obtain rfl := Option.some.inj h
      simp only [List.flatten_cons, List.flatten_nil, List.append_nil,
        List.forall_mem_cons] at hrange
      rw [getElem?_block digest hrange.1, getElem?_block digest hrange.2.1,
        getElem?_block digest hrange.2.2.1]
      simp only [Option.bind_eq_bind, Option.bind_some, if_pos hlast, b64From24bit_four]
      rw [List.flatMap_cons, List.flatMap_nil, List.append_nil]
      rfl
    · obtain ⟨rest, hrest, rfl⟩ := Option.map_eq_some_iff.mp h
      simp only [List.flatten_cons, List.cons_append, List.nil_append,
        List.forall_mem_cons] at hrange
      rw [getElem?_block digest hrange.1, getElem?_block digest hrange.2.1,
        getElem?_block digest hrange.2.2.1]
      simp only [Option.bind_eq_bind, Option.bind_some, if_neg hlast, b64From24bit_four]
      rw [ih _ hrest hrange.2.2.2, List.flatMap_cons, List.append_assoc]
      rfl

end Jumps

def sha512Jumps : Jumps where
  second := 21
  third := 42
  whole := 63
  follow := fun j _ => j
  last := 20

def encodeSha512 (hash : Block 64) : Option (List Char) := do
  let out ← sha512Jumps.encode hash.1 64 0 []
  return b64From24bit out 0 0 (← hash.1[63]?) 2

def sha256Jumps : Jumps where
  second := 10
  third := 20
  whole := 30
  follow := fun _ k => k
  last := 29

def encodeSha256 (hash : Block 32) : Option (List Char) := do
  let out ← sha256Jumps.encode hash.1 32 0 []
  return b64From24bit out 0 (← hash.1[31]?) (← hash.1[30]?) 3

theorem encodeSha512_once : UsesEachOnce encodeSha512 := by
  obtain ⟨groups, hvisits, hperm, hthree⟩ : ∃ groups, sha512Jumps.visits 64 0 = some groups ∧
      (groups ++ [[63]]).flatten.Perm (List.range 64) ∧ ∀ g ∈ groups ++ [[63]], g.length ≤ 3 :=
    ⟨_, rfl, by decide, by decide⟩
  refine ⟨groups ++ [[63]], hperm, hthree, fun digest => ?_⟩
  have hrange : ∀ i ∈ groups.flatten, i < 64 := fun i hi =>
    List.mem_range.mp (hperm.mem_iff.mp (by
      rw [List.flatten_append]
      exact List.mem_append_left _ hi))
  rw [encodeSha512, Jumps.encode_eq sha512Jumps digest [] hvisits hrange,
    getElem?_block digest (by decide)]
  simp only [Option.bind_eq_bind, Option.bind_some, b64From24bit_two, List.flatMap_append]
  rfl

theorem encodeSha256_once : UsesEachOnce encodeSha256 := by
  obtain ⟨groups, hvisits, hperm, hthree⟩ : ∃ groups, sha256Jumps.visits 32 0 = some groups ∧
      (groups ++ [[31, 30]]).flatten.Perm (List.range 32) ∧
      ∀ g ∈ groups ++ [[31, 30]], g.length ≤ 3 :=
    ⟨_, rfl, by decide, by decide⟩
  refine ⟨groups ++ [[31, 30]], hperm, hthree, fun digest => ?_⟩
  have hrange : ∀ i ∈ groups.flatten, i < 32 := fun i hi =>
    List.mem_range.mp (hperm.mem_iff.mp (by
      rw [List.flatten_append]
      exact List.mem_append_left _ hi))
  rw [encodeSha256, Jumps.encode_eq sha256Jumps digest [] hvisits hrange,
    getElem?_block digest (by decide), getElem?_block digest (by decide)]
  simp only [Option.bind_eq_bind, Option.bind_some, b64From24bit_three, List.flatMap_append]
  rfl

/-! ### MD5 -/

/-- The end of `md5_crypt` : the digest with its sixth byte once more as the last, five groups of
three bytes that are six apart, and the byte 11. -/
def encodeMd5 (finalResult : Block 16) : Option (List Char) := do
  let encoded := finalResult.1 ++ [← finalResult.1[5]?]
  let out ← (List.range 5).foldlM (fun out index => do
    let b2 ← encoded[index]?
    let b1 ← encoded[index + 6]?
    let b0 ← encoded[index + 12]?
    return b64From24bit out b2 b1 b0 4) []
  return b64From24bit out 0 0 (← finalResult.1[11]?) 2

theorem encodeMd5_once : UsesEachOnce encodeMd5 := by
  refine ⟨[[0, 6, 12], [1, 7, 13], [2, 8, 14], [3, 9, 15], [4, 10, 5], [11]], by decide, by decide,
    fun digest => ?_⟩
  have hfront : ∀ i < 16, (digest.1 ++ [digest.1.getD 5 0])[i]? = some (digest.1.getD i 0) :=
    fun i hi => by
      rw [List.getElem?_append_left (by rw [digest.2]; exact hi), getElem?_block digest hi]
  have hback : (digest.1 ++ [digest.1.getD 5 0])[16]? = some (digest.1.getD 5 0) := by
    rw [List.getElem?_append_right (by rw [digest.2]), digest.2]
    rfl
  have hfive : List.range 5 = [0, 1, 2, 3, 4] := by decide
  unfold encodeMd5
  rw [getElem?_block digest (by decide), getElem?_block digest (show 11 < 16 by decide), hfive]
  simp only [Option.bind_eq_bind, Option.bind_some, List.foldlM_cons, List.foldlM_nil,
    Nat.reduceAdd, hback, hfront _ (show 0 < 16 by decide)]
  simp (disch := decide) only [hfront, Option.bind_some, b64From24bit_four, b64From24bit_two]
  simp only [List.flatMap_cons, List.flatMap_nil, List.nil_append, List.append_nil]
  rfl

end Rinit
