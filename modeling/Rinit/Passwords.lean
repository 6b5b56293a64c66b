import Rinit.Crypt
import Rinit.Protocol

/-!
# Generated hashes

`password_hash_verifies` : a hash that one of the formats returns is a setting under which it
returns this hash again, and so `verify` accepts it. It accepts the hash for another password
exactly if the final digests are the same, as the three encodings lose nothing. A password of
less than 2 ^ 28 bytes is hashed without a panic (`sha512Crypt_returns`).

The header is what has to be read back : the rounds are written clamped, a salt is cut at its
first dollar sign and at a number of bytes, and one that would be read as rounds is only found
behind rounds (`sha_rereads`, `md5_rereads`).
-/

namespace Rinit

open Codec

/-! ## Reading text back -/

@[simp] theorem stripPrefix_append (start s : List Char) :
    stripPrefix start (start ++ s) = some s := by
  rw [stripPrefix, if_pos (List.isPrefixOf_iff_prefix.mpr (List.prefix_append start s)),
    List.drop_left]

theorem stripPrefix_eq_none {start s : List Char} : stripPrefix start s = none ↔ ¬start <+: s := by
  rw [stripPrefix, ← List.isPrefixOf_iff_prefix]
  split_ifs with h <;> simp [h]

/-- A prefix without the character `c` ends before it. -/
theorem isPrefix_of_append_cons {α : Type*} {c : α} {u a b : List α} (hc : c ∉ u)
    (h : u <+: a ++ c :: b) : u <+: a := by
  rcases Nat.le_total u.length a.length with hlen | hlen
  · exact List.prefix_of_prefix_length_le h (List.prefix_append a _) hlen
  · obtain ⟨v, rfl⟩ := List.prefix_of_prefix_length_le (List.prefix_append a (c :: b)) h hlen
    cases v with
    | nil => rw [List.append_nil]
    | cons d v =>
      obtain ⟨rfl, -⟩ := List.cons_prefix_cons.mp ((List.prefix_append_right_inj a).mp h)
      exact absurd (List.mem_append_right a List.mem_cons_self) hc

theorem takeWhile_append_cons {α : Type*} {p : α → Bool} {a : List α} (h : ∀ x ∈ a, p x = true)
    {c : α} (hc : p c = false) (b : List α) : (a ++ c :: b).takeWhile p = a := by
  rw [List.takeWhile_append_of_pos h, List.takeWhile_cons_of_neg (by simp [hc]), List.append_nil]

theorem utf8Bytes_of_fromUtf8 {bytes : List UInt8} {s : List Char} (h : fromUtf8 bytes = some s) :
    utf8Bytes s = bytes := by
  obtain ⟨t, ht, rfl⟩ := Option.map_eq_some_iff.mp h
  unfold String.fromUTF8? at ht
  split_ifs at ht with hvalid
  obtain rfl := Option.some.inj ht
  have hbytes : bytes.toByteArray =
      (utf8Bytes (String.fromUTF8 bytes.toByteArray hvalid).toList).toByteArray := by
    have htext := @String.toByteArray_ofList (String.fromUTF8 bytes.toByteArray hvalid).toList
    rwa [String.ofList_toList] at htext
  have hlist := congrArg (fun b : ByteArray => b.data.toList) hbytes
  simpa using hlist.symm

theorem decodeLossy_append (s : List Char) (bytes : List UInt8) :
    decodeLossy 0 (utf8Bytes s ++ bytes) = s ++ decodeLossy 0 bytes := by
  induction s with
  | nil => rfl
  | cons c s ih =>
    obtain ⟨b, bs, hc, hnext⟩ := nextChar_utf8EncodeChar c (utf8Bytes s ++ bytes)
    rw [utf8Bytes, List.flatMap_cons, hc, List.cons_append, List.cons_append, decodeLossy,
      ← utf8Bytes, List.append_assoc, hnext, decodeLossy_skip, ih, List.cons_append]

/-- The text of the first bytes of a text is a prefix of it. -/
theorem isPrefix_of_fromUtf8_take {s t : List Char} {count : ℕ}
    (h : fromUtf8 ((utf8Bytes t).take count) = some s) : s <+: t := by
  have hsplit : utf8Bytes s ++ (utf8Bytes t).drop count = utf8Bytes t := by
    rw [utf8Bytes_of_fromUtf8 h, List.take_append_drop]
  have hdecode := congrArg (decodeLossy 0) hsplit
  rw [decodeLossy_append, decodeLossy_utf8Bytes] at hdecode
  exact ⟨_, hdecode⟩

/-! ### Numbers -/

theorem digitsValue_toDigits (n : ℕ) : digitsValue (Nat.toDigits 10 n) = n := by
  have hdigit : ∀ d < 10, (Nat.digitChar d).toNat - '0'.toNat = d := by decide
  induction n using Nat.strongRecOn with
  | ind n ih =>
    rcases Nat.lt_or_ge n 10 with hlt | hge
    · rw [Nat.toDigits_of_lt_base hlt, digitsValue, List.foldl_cons, List.foldl_nil,
        hdigit n hlt, Nat.zero_mul, Nat.zero_add]
    · have hhigh := ih (n / 10) (Nat.div_lt_self (by omega) (by decide))
      rw [digitsValue] at hhigh
      rw [Nat.toDigits_of_base_le (by decide) hge, digitsValue, List.foldl_append, hhigh,
        List.foldl_cons, List.foldl_nil, hdigit _ (Nat.mod_lt n (by decide))]
      omega

/-- A number that fits is parsed back from its decimal digits. -/
theorem parseUnsigned_toDigits {bits n : ℕ} (h : n < 2 ^ bits) :
    parseUnsigned bits (Nat.toDigits 10 n) = some n := by
  have hdigit : ∀ c ∈ Nat.toDigits 10 n, c.isDigit = true := fun c hc =>
    Nat.isDigit_of_mem_toDigits (by decide) le_rfl hc
  have hne : Nat.toDigits 10 n ≠ [] := Nat.toDigits_ne_nil
  have hvalue := digitsValue_toDigits n
  generalize Nat.toDigits 10 n = digits at hdigit hne hvalue
  cases digits with
  | nil => exact absurd rfl hne
  | cons c digits =>
    have hplus : c ≠ '+' := by
      rintro rfl
      exact absurd (hdigit _ List.mem_cons_self) (by decide)
    have hall : (c :: digits).all Char.isDigit = true := List.all_eq_true.mpr hdigit
    unfold parseUnsigned
    split
    · rename_i heq
      exact absurd (List.cons.inj heq).1 hplus
    · simp [hall, hvalue, h]

/-! ### The comparison -/

theorem foldl_or_eq_zero (pairs : List (UInt8 × UInt8)) (difference : UInt8) :
    pairs.foldl (fun difference pair => difference ||| (pair.1 ^^^ pair.2)) difference = 0 ↔
      difference = 0 ∧ ∀ pair ∈ pairs, pair.1 = pair.2 := by
  induction pairs generalizing difference with
  | nil => simp
  | cons pair pairs ih =>
    rw [List.foldl_cons, ih, UInt8.or_eq_zero_iff, UInt8.xor_eq_zero_iff, List.forall_mem_cons,
      and_assoc]

theorem sameBytes_iff (left right : List UInt8) : sameBytes left right = true ↔ left = right := by
  rw [sameBytes, decide_eq_true_iff, foldl_or_eq_zero]
  constructor
  · rintro ⟨hlen, -, hpairs⟩
    refine List.ext_getElem hlen fun i hi hi' => hpairs (left[i], right[i]) ?_
    rw [List.mem_iff_getElem]
    exact ⟨i, by rw [List.length_zip]; omega, List.getElem_zip⟩
  · rintro rfl
    refine ⟨rfl, rfl, fun pair hpair => ?_⟩
    obtain ⟨i, hi, rfl⟩ := List.mem_iff_getElem.mp hpair
    rw [List.getElem_zip]

theorem isSameHash_iff (computed : Option (List Char)) (hash : List Char) :
    isSameHash computed hash = true ↔ computed = some hash := by
  cases computed with
  | none => simp [isSameHash]
  | some computed =>
    rw [isSameHash, sameBytes_iff, Option.some.injEq]
    refine ⟨fun h => ?_, congrArg utf8Bytes⟩
    have htext := congrArg fromUtf8 h
    rwa [fromUtf8_utf8Bytes, fromUtf8_utf8Bytes, Option.some.injEq] at htext

/-! ## Any format -/

namespace CryptFormat

variable {n : ℕ} {F : CryptFormat n} {p q s h : List Char}

/-- What a format writes in front of a digest it reads as the same setting. -/
def Rereads (F : CryptFormat n) : Prop :=
  ∀ ⦃setting : List Char⦄ ⦃x : F.Setting⦄ ⦃header : List Char⦄, F.parse setting = some x →
    F.header x = some header → ∀ code, F.parse (header ++ code) = some x

theorem crypt_eq_some : F.crypt p s = some (some h) ↔ ∃ x digest header code,
    F.parse s = some x ∧ F.finalDigest (utf8Bytes p) x = some digest ∧
      F.header x = some header ∧ F.encode digest = some code ∧ h = header ++ code := by
  unfold crypt
  constructor
  · intro hcrypt
    cases hparse : F.parse s with
    | none => simp [hparse] at hcrypt
    | some x =>
      rw [hparse] at hcrypt
      obtain ⟨digest, hdigest, hcrypt⟩ := Option.bind_eq_some_iff.mp hcrypt
      cases hheader : F.header x with
      | none => simp [hheader] at hcrypt
      | some header =>
        rw [hheader] at hcrypt
        obtain ⟨code, hcode, hcrypt⟩ := Option.bind_eq_some_iff.mp hcrypt
        obtain rfl := Option.some.inj (Option.some.inj hcrypt)
        exact ⟨x, digest, header, code, rfl, hdigest, hheader, hcode, rfl⟩
  · rintro ⟨x, digest, header, code, hparse, hdigest, hheader, hcode, rfl⟩
    simp [hparse, hdigest, hheader, hcode]

/-- A hash is read as the setting it was generated with. -/
theorem parse_crypt (hF : F.Rereads) (hcrypt : F.crypt p s = some (some h)) :
    F.parse h = F.parse s := by
  obtain ⟨x, digest, header, code, hparse, -, hheader, -, rfl⟩ := crypt_eq_some.mp hcrypt
  rw [hF hparse hheader code, hparse]

theorem crypt_crypt (hF : F.Rereads) (hcrypt : F.crypt p s = some (some h)) :
    F.crypt q h = F.crypt q s := by
  rw [crypt, crypt, parse_crypt hF hcrypt]

/-- Two passwords have one hash exactly if they have one final digest. -/
theorem crypt_eq_iff (hF : F.Rereads) (hencode : Function.Injective F.encode)
    (hcrypt : F.crypt p s = some (some h)) :
    F.crypt q h = some (some h) ↔ F.digestFor q h = F.digestFor p h := by
  obtain ⟨x, digest, header, code, hparse, hdigest, hheader, hcode, hh⟩ := crypt_eq_some.mp hcrypt
  have hread : F.parse h = some x := by rw [parse_crypt hF hcrypt, hparse]
  have hp : F.digestFor p h = some digest := by
    rw [digestFor, hread]
    exact hdigest
  have hq : F.digestFor q h = F.finalDigest (utf8Bytes q) x := by
    rw [digestFor, hread]
    rfl
  rw [hp, hq, crypt_eq_some]
  constructor
  · rintro ⟨x', digest', header', code', hparse', hdigest', hheader', hcode', hh'⟩
    obtain rfl := Option.some.inj (hread.symm.trans hparse')
    obtain rfl := Option.some.inj (hheader.symm.trans hheader')
    obtain rfl := List.append_cancel_left (hh.symm.trans hh')
    rw [hdigest', hencode (hcode'.trans hcode.symm)]
  · exact fun hsame => ⟨x, digest, header, code, hread, hsame, hheader, hcode, hh⟩

/-- What holds of a hash that was generated for a password. -/
structure Verifies (F : CryptFormat n) (p h : List Char) : Prop where
  again : F.crypt p h = some (some h)
  verify_self : verify p h = some true
  verify_iff : ∀ q, verify q h = some true ↔ F.digestFor q h = F.digestFor p h

/-- A hash of a format that `verify` finds the format of. -/
theorem verifies_of_rereads (hF : F.Rereads) (hencode : Function.Injective F.encode)
    (hverify : ∀ q, verify q h = (F.crypt q h).map (isSameHash · h))
    (hcrypt : F.crypt p s = some (some h)) : F.Verifies p h := by
  have hagain : F.crypt p h = some (some h) := by rwa [crypt_crypt hF hcrypt]
  have hsame : ∀ q, verify q h = some true ↔ F.crypt q h = some (some h) := fun q => by
    rw [hverify, Option.map_eq_some_iff]
    constructor
    · rintro ⟨computed, hcomputed, htrue⟩
      rw [hcomputed, (isSameHash_iff computed h).mp htrue]
    · exact fun hq => ⟨_, hq, (isSameHash_iff _ h).mpr rfl⟩
  exact ⟨hagain, (hsame p).mpr hagain, fun q => (hsame q).trans (crypt_eq_iff hF hencode hcrypt)⟩

end CryptFormat

/-! ## SHA-crypt -/

theorem parseShaSetting_spec {id setting : List Char} {x : ShaSetting}
    (h : parseShaSetting id setting = some x) : ∃ rest : List Char,
    x.salt = (utf8Bytes (rest.takeWhile (· ≠ '$'))).take 16 ∧
      ((x.explicitRounds = true ∧ 1000 ≤ x.rounds ∧ x.rounds ≤ 999999999) ∨
        (x.explicitRounds = false ∧ x.rounds = 5000 ∧ ¬"rounds=".toList <+: rest)) := by
  unfold parseShaSetting at h
  obtain ⟨rest, -, h⟩ := Option.bind_eq_some_iff.mp h
  dsimp only at h
  cases hrounds : stripPrefix "rounds=".toList rest with
  | none =>
    rw [hrounds] at h
    obtain rfl := Option.some.inj h
    exact ⟨rest, rfl, .inr ⟨rfl, rfl, stripPrefix_eq_none.mp hrounds⟩⟩
  | some value =>
    rw [hrounds] at h
    obtain ⟨⟨digits, behind⟩, -, h⟩ := Option.bind_eq_some_iff.mp h
    obtain ⟨rounds, -, h⟩ := Option.bind_eq_some_iff.mp h
    obtain rfl := Option.some.inj h
    exact ⟨behind, rfl, .inl ⟨rfl, Nat.le_max_left _ _, by dsimp only; omega⟩⟩

/-- The salt of a setting as text : without a dollar sign, and short. -/
theorem salt_spec {rest salt : List Char}
    (h : fromUtf8 ((utf8Bytes (rest.takeWhile (· ≠ '$'))).take 16) = some salt) :
    salt <+: rest ∧ '$' ∉ salt ∧ (utf8Bytes salt).length ≤ 16 := by
  have hpre := isPrefix_of_fromUtf8_take h
  refine ⟨hpre.trans (List.takeWhile_prefix _), fun hmem => ?_, ?_⟩
  · simpa using List.all_eq_true.mp List.all_takeWhile _ (hpre.subset hmem)
  · rw [utf8Bytes_of_fromUtf8 h, List.length_take]
    omega

theorem sha_rereads {σ : Type} {block size : ℕ} (id : List Char) (H : BlockHash σ block size)
    (encode : Block size → Option (List Char)) : (shaFormat id H encode).Rereads := by
  intro setting x header hparse hheader code
  obtain ⟨rest, hsalt, hrounds⟩ := parseShaSetting_spec hparse
  obtain ⟨salt, htext, hheader⟩ := Option.bind_eq_some_iff.mp hheader
  obtain rfl := Option.some.inj hheader
  obtain ⟨hpre, hdollar, hlen⟩ := salt_spec (hsalt ▸ htext)
  have hother : ∀ c ∈ salt, decide (c ≠ '$') = true := fun c hc =>
    decide_eq_true (show c ≠ '$' from fun h => hdollar (h ▸ hc))
  have hstop : (salt ++ '$' :: code).takeWhile (· ≠ '$') = salt :=
    takeWhile_append_cons hother (by simp) code
  have hback : (utf8Bytes salt).take 16 = x.salt := by
    rw [List.take_of_length_le hlen, utf8Bytes_of_fromUtf8 htext]
  obtain ⟨rounds, explicitRounds, saltBytes⟩ := x
  dsimp only at hrounds
  rcases hrounds with ⟨rfl, hlow, hhigh⟩ | ⟨rfl, rfl, hrest⟩
  · -- the clamped rounds are read back, and clamping them again changes nothing
    have hdigits : '$' ∉ Nat.toDigits 10 rounds := fun h =>
      absurd (Nat.isDigit_of_mem_toDigits (by decide) le_rfl h) (by decide)
    have hclamp : max 1000 (min rounds 999999999) = rounds := by omega
    have hnumber : parseUnsigned 32 (Nat.toDigits 10 rounds) = some rounds :=
      parseUnsigned_toDigits (by omega)
    have hwritten : id ++ ("rounds=".toList ++ Nat.toDigits 10 rounds ++ ['$']) ++ salt ++ ['$'] ++
        code = id ++ ("rounds=".toList ++ (Nat.toDigits 10 rounds ++
          '$' :: (salt ++ '$' :: code))) := by
      simp only [List.append_assoc, List.cons_append, List.nil_append]
    change parseShaSetting id (_ ++ code) = _
    dsimp only [if_true]
    rw [if_pos rfl, hwritten]
    unfold parseShaSetting
    simp only [stripPrefix_append, Option.bind_eq_bind, Option.bind_some, Option.pure_def,
      splitOnce_append hdigits, hnumber, hclamp, hstop, hback]
    rfl
  · -- without rounds, the salt is too short for `rounds=` or starts as the setting did
    have hnone : stripPrefix "rounds=".toList (salt ++ '$' :: code) = none :=
      stripPrefix_eq_none.mpr fun h =>
        hrest ((isPrefix_of_append_cons (by decide) h).trans hpre)
    have hwritten : id ++ [] ++ salt ++ ['$'] ++ code = id ++ (salt ++ '$' :: code) := by
      simp only [List.append_assoc, List.cons_append, List.nil_append]
    change parseShaSetting id (_ ++ code) = _
    rw [if_neg (by simp), hwritten]
    unfold parseShaSetting
    simp only [stripPrefix_append, Option.bind_eq_bind, Option.bind_some, Option.pure_def, hnone,
      hstop, hback]
    rfl

/-! ## MD5-crypt -/

theorem getTo_append (t r : List Char) : getTo (t ++ r) (utf8Len t) = some t := by
  induction t with
  | nil => cases r <;> rfl
  | cons c t ih =>
    have hsize : utf8Len (c :: t) = c.utf8Size + utf8Len t := rfl
    have hpos := c.utf8Size_pos
    obtain ⟨m, hm⟩ : ∃ m, utf8Len (c :: t) = m + 1 := ⟨utf8Len (c :: t) - 1, by omega⟩
    rw [hm, List.cons_append, getTo, if_pos (by omega),
      show m + 1 - c.utf8Size = utf8Len t by omega, ih, Option.map_some]

theorem getTo_spec {p : Char → Bool} {s t : List Char} {count : ℕ} (h : getTo s count = some t)
    (hcount : count ≤ utf8Len (s.takeWhile p)) : utf8Len t = count ∧ ∀ c ∈ t, p c = true := by
  induction s generalizing count t with
  | nil =>
    obtain rfl : count = 0 := Nat.le_zero.mp hcount
    obtain rfl := Option.some.inj h
    exact ⟨rfl, by simp⟩
  | cons c s ih =>
    cases count with
    | zero =>
      obtain rfl := Option.some.inj h
      exact ⟨rfl, by simp⟩
    | succ count =>
      rw [getTo] at h
      split_ifs at h with hfits
      obtain ⟨t, ht, rfl⟩ := Option.map_eq_some_iff.mp h
      cases hp : p c with
      | false =>
        rw [List.takeWhile_cons_of_neg (by simp [hp])] at hcount
        exact absurd hcount (Nat.not_succ_le_zero count)
      | true =>
        have hsize : ∀ s, utf8Len (c :: s) = c.utf8Size + utf8Len s := fun _ => rfl
        rw [List.takeWhile_cons_of_pos hp, hsize] at hcount
        obtain ⟨hlen, hall⟩ := ih ht (by omega)
        exact ⟨by rw [hsize, hlen]; omega, List.forall_mem_cons.mpr ⟨hp, hall⟩⟩

theorem md5_rereads : md5Format.Rereads := by
  intro setting (salt : List Char) header hparse hheader code
  obtain rfl := Option.some.inj hheader
  obtain ⟨rest, -, hget⟩ := Option.bind_eq_some_iff.mp hparse
  obtain ⟨hlen, hall⟩ := getTo_spec hget (Nat.min_le_left _ _)
  have hstop : (salt ++ '$' :: code).takeWhile (· ≠ '$') = salt :=
    takeWhile_append_cons hall (by simp) code
  have hwritten : "$1$".toList ++ salt ++ ['$'] ++ code =
      "$1$".toList ++ (salt ++ '$' :: code) := by
    simp only [List.append_assoc, List.cons_append, List.nil_append]
  change parseMd5Salt (_ ++ code) = some salt
  rw [hwritten, parseMd5Salt, stripPrefix_append, Option.bind_eq_bind, Option.bind_some, hstop,
    Nat.min_eq_left (by omega), getTo_append]

/-! ## The check finds the format -/

theorem shaHeader_isPrefix {id header : List Char} {x : ShaSetting}
    (h : shaHeader id x = some header) : id <+: header := by
  obtain ⟨salt, -, h⟩ := Option.bind_eq_some_iff.mp h
  obtain rfl := Option.some.inj h
  simp only [List.append_assoc]
  exact List.prefix_append id _

/-- `verify` takes the format whose three characters the hash starts with. -/
theorem verify_sha512 {h : List Char} (hstart : "$6$".toList <+: h) (q : List Char) :
    verify q h = (sha512Crypt q h).map (isSameHash · h) := by
  unfold verify
  rw [if_pos (List.isPrefixOf_iff_prefix.mpr hstart)]
  exact Option.map_eq_bind.symm

theorem not_isPrefixOf {a b h : List Char} (hb : b <+: h) (hlen : a.length ≤ b.length)
    (hne : ¬a <+: b) : ¬a.isPrefixOf h = true := fun ha =>
  hne (List.prefix_of_prefix_length_le (List.isPrefixOf_iff_prefix.mp ha) hb hlen)

theorem verify_sha256 {h : List Char} (hstart : "$5$".toList <+: h) (q : List Char) :
    verify q h = (sha256Crypt q h).map (isSameHash · h) := by
  unfold verify
  rw [if_neg (not_isPrefixOf hstart (by decide) (by decide)),
    if_pos (List.isPrefixOf_iff_prefix.mpr hstart)]
  exact Option.map_eq_bind.symm

theorem verify_md5 {h : List Char} (hstart : "$1$".toList <+: h) (q : List Char) :
    verify q h = (md5Crypt q h).map (isSameHash · h) := by
  unfold verify
  rw [if_neg (not_isPrefixOf hstart (by decide) (by decide)),
    if_neg (not_isPrefixOf hstart (by decide) (by decide)),
    if_pos (List.isPrefixOf_iff_prefix.mpr hstart)]
  exact Option.map_eq_bind.symm

theorem shaFormat_isPrefix {σ : Type} {block size : ℕ} {id p s h : List Char}
    {H : BlockHash σ block size} {encode : Block size → Option (List Char)}
    (hcrypt : (shaFormat id H encode).crypt p s = some (some h)) : id <+: h := by
  obtain ⟨x, digest, header, code, -, -, hheader, -, rfl⟩ := CryptFormat.crypt_eq_some.mp hcrypt
  exact (shaHeader_isPrefix hheader).trans (List.prefix_append header code)

theorem md5Format_isPrefix {p s h : List Char} (hcrypt : md5Crypt p s = some (some h)) :
    "$1$".toList <+: h := by
  obtain ⟨salt, digest, header, code, -, -, hheader, -, rfl⟩ :=
    CryptFormat.crypt_eq_some.mp hcrypt
  obtain rfl := Option.some.inj hheader
  simp only [List.append_assoc]
  exact List.prefix_append _ _

/-! ## No panic -/

namespace BlockHash

variable {σ : Type} {block size : ℕ}

theorem feedWhole_returns (H : BlockHash σ block size) (alt : Block size)
    {context : Hasher σ block} {total : ℕ} (hready : Ready context total) (count : ℕ)
    (hlen : total + count < 2 ^ H.lengthBits) : ∃ context' count' total',
      H.feedWhole alt context count = some (context', count') ∧ count' ≤ size ∧
        Ready context' total' ∧ total' + count' ≤ total + count := by
  induction count using Nat.strongRecOn generalizing context total with
  | ind count ih =>
    unfold feedWhole
    split_ifs with hlt
    · obtain ⟨context₁, hupdate, hready₁⟩ := H.update_returns hready alt.1
        (by rw [alt.2]; omega)
      rw [alt.2] at hready₁
      have hpos := H.size_pos
      obtain ⟨context', count', total', hrest, hcount, hready', htotal⟩ :=
        ih (count - size) (by omega) hready₁ (by omega)
      refine ⟨context', count', total', ?_, hcount, hready', by omega⟩
      rw [hupdate]
      exact hrest
    · exact ⟨context, count, total, rfl, by omega, hready, le_rfl⟩

theorem feedBits_returns (H : BlockHash σ block size) (pick : Bool → Option (List UInt8))
    (bits m : ℕ) {context : Hasher σ block} {total : ℕ}
    (hpick : bits ≠ 0 → ∀ odd, ∃ piece, pick odd = some piece ∧ piece.length ≤ m)
    (hready : Ready context total) (hlen : total + bits * m < 2 ^ H.lengthBits) :
    ∃ context' total', H.feedBits pick context bits = some context' ∧ Ready context' total' ∧
      total' ≤ total + bits * m := by
  induction bits using Nat.strongRecOn generalizing context total with
  | ind bits ih =>
    unfold feedBits
    split_ifs with hne
    · obtain ⟨piece, hpiece, hshort⟩ := hpick hne (decide (bits &&& 1 ≠ 0))
      have hhalf : bits >>> 1 < bits := by
        rw [Nat.shiftRight_eq_div_pow]
        omega
      have hmul : (bits >>> 1) * m + m ≤ bits * m := by
        rw [← Nat.succ_mul]
        exact Nat.mul_le_mul_right m hhalf
      obtain ⟨context₁, hupdate, hready₁⟩ := H.update_returns hready piece (by omega)
      obtain ⟨context', total', hrest, hready', htotal⟩ :=
        ih (bits >>> 1) hhalf (fun _ => hpick hne) hready₁ (by omega)
      refine ⟨context', total', ?_, hready', by omega⟩
      simp only [hpiece, Option.bind_eq_bind, Option.bind_some, hupdate]
      exact hrest
    · exact ⟨context, total, rfl, hready, Nat.le_add_right total _⟩

theorem length_repeatToLen (H : BlockHash σ block size) (bytes : Block size) (length : ℕ)
    (out : List UInt8) (h : out.length ≤ length) :
    (H.repeatToLen bytes length out).length = length := by
  fun_induction repeatToLen H bytes length out with
  | case1 out hlt _ ih =>
    apply ih
    rw [List.length_append, List.length_take, bytes.2]
    omega
  | case2 out hge => omega

theorem length_roundPieces (pBytes sBytes alt : List UInt8) (round : ℕ) :
    (roundPieces pBytes sBytes alt round).flatten.length ≤
      alt.length + sBytes.length + 2 * pBytes.length := by
  unfold roundPieces
  split_ifs <;>
    simp only [List.flatten_append, List.length_append, List.flatten_cons, List.flatten_nil,
      List.length_nil] <;> omega

theorem cryptRounds_returns (H : BlockHash σ block size) (pBytes sBytes : List UInt8)
    (rounds : ℕ) (alt : Block size)
    (hlen : (size + sBytes.length + 2 * pBytes.length) * 8 < 2 ^ H.lengthBits) :
    ∃ d, H.cryptRounds pBytes sBytes rounds alt = some d := by
  unfold cryptRounds
  generalize List.range rounds = l
  induction l generalizing alt with
  | nil => exact ⟨alt, rfl⟩
  | cons round l ih =>
    have hround := length_roundPieces pBytes sBytes alt.1 round
    rw [alt.2] at hround
    obtain ⟨alt', halt⟩ := H.digest_returns (roundPieces pBytes sBytes alt.1 round)
      (by omega)
    rw [List.foldlM_cons, halt]
    exact ih alt'

end BlockHash

theorem length_flatten_replicate (count : ℕ) (piece : List UInt8) :
    (List.replicate count piece).flatten.length = count * piece.length := by
  simp [List.length_flatten]

theorem splitSlice_of_le {data : List UInt8} {count : ℕ} (h : count ≤ data.length) :
    splitSlice data count = some (data.take count, data.drop count) := if_pos h

/-- A password of less than 2 ^ 28 bytes, where every length that is counted fits. -/
theorem shaFinalDigest_returns {σ : Type} {block size : ℕ} (H : BlockHash σ block size)
    (hbits : H.lengthBits = 128) (hsize : size ≤ 64) {key : List UInt8}
    (hkey : key.length < 2 ^ 28) {x : ShaSetting} (hsalt : x.salt.length ≤ 16) :
    ∃ d, shaFinalDigest H key x = some d := by
  have hsquare : key.length * (key.length + 64) ≤ 2 ^ 28 * (2 ^ 28 + 64) :=
    Nat.mul_le_mul (by omega) (by omega)
  have hself : key.length * key.length ≤ key.length * (key.length + 64) :=
    Nat.mul_le_mul_left _ (by omega)
  have hlimit : 2 ^ H.lengthBits = 2 ^ 128 := by rw [hbits]
  obtain ⟨context₀, hfed, hready₀⟩ := H.updateAll_returns H.ready_new [key, x.salt]
    (by simp only [List.flatten_cons, List.flatten_nil, List.length_append, List.length_nil]
        omega)
  obtain ⟨alt, halt⟩ := H.digest_returns [key, x.salt, key]
    (by simp only [List.flatten_cons, List.flatten_nil, List.length_append, List.length_nil]
        omega)
  simp only [List.flatten_cons, List.flatten_nil, List.length_append, List.length_nil] at hready₀
  obtain ⟨context₁, count, total₁, hwhole, hcount, hready₁, htotal₁⟩ :=
    H.feedWhole_returns alt hready₀ key.length (by omega)
  have htake : (alt.1.take count).length = count := by
    rw [List.length_take, alt.2]
    omega
  obtain ⟨context₂, hpart, hready₂⟩ := H.update_returns hready₁ (alt.1.take count)
    (by omega)
  rw [htake] at hready₂
  have hpick : ∀ odd : Bool, (if odd then alt.1 else key).length ≤ key.length + 64 := by
    intro odd
    cases odd with
    | false => exact Nat.le_add_right key.length 64
    | true =>
      rw [if_pos rfl, alt.2]
      omega
  obtain ⟨context₃, total₃, hloop, hready₃, htotal₃⟩ := H.feedBits_returns
    (fun odd => some (if odd then alt.1 else key)) key.length (key.length + 64)
    (fun _ odd => ⟨_, rfl, hpick odd⟩) hready₂ (by omega)
  obtain ⟨alt', hfinal⟩ := H.finalize_returns hready₃ (by omega)
  obtain ⟨pDigest, hp⟩ := H.digest_returns (List.replicate key.length key)
    (by rw [length_flatten_replicate]; omega)
  have hfirst := getElem?_block alt' H.size_pos
  have hbyte : (alt'.1.getD 0 0).toNat < 256 := (alt'.1.getD 0 0).toNat_lt
  have hrepeat : (16 + (alt'.1.getD 0 0).toNat) * x.salt.length ≤ 272 * 16 :=
    Nat.mul_le_mul (by omega) hsalt
  obtain ⟨sDigest, hs⟩ := H.digest_returns
    (List.replicate (16 + (alt'.1.getD 0 0).toNat) x.salt)
    (by rw [length_flatten_replicate]; omega)
  obtain ⟨d, hd⟩ := H.cryptRounds_returns (H.repeatToLen pDigest key.length [])
    (H.repeatToLen sDigest x.salt.length []) x.rounds alt'
    (by rw [H.length_repeatToLen _ _ _ (Nat.zero_le _), H.length_repeatToLen _ _ _ (Nat.zero_le _)]
        omega)
  refine ⟨d, ?_⟩
  unfold shaFinalDigest
  simp only [hfed, halt, hwhole, splitSlice_of_le (show count ≤ alt.1.length by rw [alt.2]; omega),
    hpart, hloop, hfinal, hp, hfirst, hs, hd, Option.bind_eq_bind, Option.bind_some]

theorem feedRemaining_returns (finalResult : Block 16) {context : Hasher Four 64}
    {total : ℕ} (hready : BlockHash.Ready context total) (remaining : ℕ)
    (hlen : total + remaining < 2 ^ 64) : ∃ context',
      feedRemaining finalResult context remaining = some context' ∧
        BlockHash.Ready context' (total + remaining) := by
  induction remaining using Nat.strongRecOn generalizing context total with
  | ind remaining ih =>
    unfold feedRemaining
    split_ifs with hpos
    · have htake : (finalResult.1.take (min remaining 16)).length = min remaining 16 := by
        rw [List.length_take, finalResult.2]
        omega
      obtain ⟨context₁, hupdate, hready₁⟩ := Md5.update_returns hready
        (finalResult.1.take (min remaining 16))
        (show total + _ < 2 ^ 64 by rw [htake]; omega)
      rw [htake] at hready₁
      obtain ⟨context', hrest, hready'⟩ :=
        ih (remaining - min remaining 16) (by omega) hready₁ (by omega)
      refine ⟨context', ?_, by rwa [show total + min remaining 16 +
        (remaining - min remaining 16) = total + remaining by omega] at hready'⟩
      simp only [splitSlice_of_le (show min remaining 16 ≤ finalResult.1.length by
        rw [finalResult.2]; omega), Option.bind_eq_bind, Option.bind_some, hupdate]
      exact hrest
    · obtain rfl : remaining = 0 := by omega
      exact ⟨context, rfl, hready⟩

theorem md5FinalDigest_returns {key salt : List UInt8} (hkey : key.length < 2 ^ 28)
    (hsalt : salt.length ≤ 8) : ∃ d, md5FinalDigest key salt = some d := by
  have hid : (utf8Bytes "$1$".toList).length = 3 := by decide
  have hlimit : 2 ^ Md5.lengthBits = 2 ^ 64 := rfl
  obtain ⟨context₀, hfed, hready₀⟩ := Md5.updateAll_returns Md5.ready_new
    [key, utf8Bytes "$1$".toList, salt]
    (by simp only [List.flatten_cons, List.flatten_nil, List.length_append, List.length_nil, hid]
        omega)
  obtain ⟨result, hresult⟩ := Md5.digest_returns [key, salt, key]
    (by simp only [List.flatten_cons, List.flatten_nil, List.length_append, List.length_nil]
        omega)
  simp only [List.flatten_cons, List.flatten_nil, List.length_append, List.length_nil,
    hid] at hready₀
  obtain ⟨context₁, hremaining, hready₁⟩ := feedRemaining_returns result hready₀
    key.length (by omega)
  have hpick : key.length ≠ 0 → ∀ odd : Bool, ∃ piece,
      (if odd then some [0] else (splitSlice key 1).map Prod.fst : Option (List UInt8)) =
        some piece ∧ piece.length ≤ 1 := by
    intro hne odd
    cases odd with
    | false =>
      rw [splitSlice_of_le (by omega)]
      exact ⟨_, rfl, List.length_take_le 1 key⟩
    | true => exact ⟨[0], rfl, le_rfl⟩
  obtain ⟨context₂, total₂, hloop, hready₂, htotal₂⟩ := Md5.feedBits_returns _
    key.length 1 hpick hready₁ (by omega)
  obtain ⟨result', hfinal⟩ := Md5.finalize_returns hready₂ (by omega)
  obtain ⟨d, hd⟩ := Md5.cryptRounds_returns key salt 1000 result' (by omega)
  refine ⟨d, ?_⟩
  unfold md5FinalDigest
  simp only [hfed, hresult, hremaining, hloop, hfinal, hd, Option.bind_eq_bind, Option.bind_some]

theorem CryptFormat.crypt_returns {n : ℕ} {F : CryptFormat n} {p s : List Char}
    (hencode : ∀ digest, ∃ code, F.encode digest = some code)
    (hdigest : ∀ x, F.parse s = some x → ∃ d, F.finalDigest (utf8Bytes p) x = some d) :
    ∃ result, F.crypt p s = some result := by
  unfold CryptFormat.crypt
  cases hparse : F.parse s with
  | none => exact ⟨none, rfl⟩
  | some x =>
    obtain ⟨d, hd⟩ := hdigest x hparse
    obtain ⟨code, hcode⟩ := hencode d
    cases hheader : F.header x with
    | none => exact ⟨none, by simp [hd, hheader]⟩
    | some header => exact ⟨some (header ++ code), by simp [hd, hheader, hcode]⟩

theorem length_salt_of_parseShaSetting {id s : List Char} {x : ShaSetting}
    (h : parseShaSetting id s = some x) : x.salt.length ≤ 16 := by
  obtain ⟨rest, hsalt, -⟩ := parseShaSetting_spec h
  rw [hsalt, List.length_take]
  omega

/-- The three functions return for every setting and every password of less than 2 ^ 28
bytes. -/
theorem crypts_return {p : List Char} (hp : (utf8Bytes p).length < 2 ^ 28) (s : List Char) :
    (∃ result, sha512Crypt p s = some result) ∧ (∃ result, sha256Crypt p s = some result) ∧
      ∃ result, md5Crypt p s = some result := by
  refine ⟨CryptFormat.crypt_returns encodeSha512_once.returns fun x hx => ?_,
    CryptFormat.crypt_returns encodeSha256_once.returns fun x hx => ?_,
    CryptFormat.crypt_returns encodeMd5_once.returns fun (salt : List Char) hsalt => ?_⟩
  · exact shaFinalDigest_returns Sha512 rfl le_rfl hp (length_salt_of_parseShaSetting hx)
  · exact shaFinalDigest_returns Sha256 rfl (by decide) hp (length_salt_of_parseShaSetting hx)
  · obtain ⟨rest, -, hget⟩ := Option.bind_eq_some_iff.mp hsalt
    obtain ⟨hlen, -⟩ := getTo_spec hget (Nat.min_le_left _ _)
    exact md5FinalDigest_returns hp (by rw [Protocol.length_utf8Bytes, hlen]; omega)

/-! ## Generated hashes verify -/

/-- A hash that one of the functions returns is one that it returns for itself as the setting,
that `verify` accepts, and that it accepts for another password exactly if the final digests
are the same. The encodings end, and use each byte of the digest once. -/
theorem password_hash_verifies (p s h : List Char) :
    (sha512Crypt p s = some (some h) → sha512Format.Verifies p h) ∧
    (sha256Crypt p s = some (some h) → sha256Format.Verifies p h) ∧
    (md5Crypt p s = some (some h) → md5Format.Verifies p h) ∧
    (UsesEachOnce encodeSha512 ∧ Function.Injective encodeSha512) ∧
    (UsesEachOnce encodeSha256 ∧ Function.Injective encodeSha256) ∧
    (UsesEachOnce encodeMd5 ∧ Function.Injective encodeMd5) := by
  refine ⟨fun hcrypt => ?_, fun hcrypt => ?_, fun hcrypt => ?_,
    ⟨encodeSha512_once, encodeSha512_once.injective⟩,
    ⟨encodeSha256_once, encodeSha256_once.injective⟩, ⟨encodeMd5_once, encodeMd5_once.injective⟩⟩
  · exact CryptFormat.verifies_of_rereads (sha_rereads _ _ _) encodeSha512_once.injective
      (verify_sha512 (shaFormat_isPrefix hcrypt)) hcrypt
  · exact CryptFormat.verifies_of_rereads (sha_rereads _ _ _) encodeSha256_once.injective
      (verify_sha256 (shaFormat_isPrefix hcrypt)) hcrypt
  · exact CryptFormat.verifies_of_rereads md5_rereads encodeMd5_once.injective
      (verify_md5 (md5Format_isPrefix hcrypt)) hcrypt

theorem password_hash_verifies_toor : ∃ h,
    sha512Crypt "toor".toList "$6$rinit".toList = some (some h) ∧
      sha512Format.Verifies "toor".toList h := by
  have hparse : sha512Format.parse "$6$rinit".toList =
      some (⟨5000, false, utf8Bytes "rinit".toList⟩ : ShaSetting) := by
    change parseShaSetting _ _ = some (_ : ShaSetting)
    decide
  obtain ⟨d, hd⟩ := shaFinalDigest_returns Sha512 rfl le_rfl
    (show (utf8Bytes "toor".toList).length < 2 ^ 28 by decide)
    (show (⟨5000, false, utf8Bytes "rinit".toList⟩ : ShaSetting).salt.length ≤ 16 by decide)
  obtain ⟨code, hcode⟩ := encodeSha512_once.returns d
  have hheader : sha512Format.header (⟨5000, false, utf8Bytes "rinit".toList⟩ : ShaSetting) =
      some "$6$rinit$".toList := by
    change shaHeader _ _ = _
    rw [shaHeader, fromUtf8_utf8Bytes]
    decide
  have hcrypt : sha512Crypt "toor".toList "$6$rinit".toList =
      some (some ("$6$rinit$".toList ++ code)) :=
    CryptFormat.crypt_eq_some.mpr ⟨_, d, _, code, hparse, hd, hheader, hcode, rfl⟩
  exact ⟨_, hcrypt, (password_hash_verifies _ _ _).1 hcrypt⟩

end Rinit
