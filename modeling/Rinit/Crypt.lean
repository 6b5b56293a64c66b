import Rinit.Lines
import Rinit.Lossy
import Rinit.Sextets

/-!
# Password hashes

`rlogin` checks a password against a stored hash by hashing it once more with the hash as the
setting (`verify`). There are three formats : `sha512Crypt` (`$6$`), `sha256Crypt` (`$5$`) and
`md5Crypt` (`$1$`). A format (`CryptFormat`) reads a setting, computes a digest with it, and
writes the setting back in front of the encoded digest.

What a format writes it reads as the same setting (`CryptFormat.Rereads`), so a hash is a
setting that gives this hash again : `password_hash_verifies`.
-/

namespace Rinit

open Codec

/-! ## Formats -/

/-- `strip_prefix`. -/
def stripPrefix (start s : List Char) : Option (List Char) :=
  if start.isPrefixOf s then some (s.drop start.length) else none

/-- What `sha512_crypt`, `sha256_crypt` and `md5_crypt` differ in. -/
structure CryptFormat (n : ℕ) where
  Setting : Type
  parse : List Char → Option Setting
  finalDigest : List UInt8 → Setting → Option (Block n)
  /-- What stands in front of the digest, with its dollar sign. -/
  header : Setting → Option (List Char)
  encode : Block n → Option (List Char)

namespace CryptFormat

variable {n : ℕ}

/-- The digest of a password under a setting, encoded behind the header. The outer `none` is a
panic, the inner one a setting of another format. -/
def crypt (F : CryptFormat n) (password setting : List Char) : Option (Option (List Char)) :=
  match F.parse setting with
  | none => some none
  | some s => do
    let digest ← F.finalDigest (utf8Bytes password) s
    match F.header s with
    | none => return none
    | some header => return some (header ++ (← F.encode digest))

/-- The final digest that `crypt` computes. -/
def digestFor (F : CryptFormat n) (password setting : List Char) : Option (Block n) := do
  F.finalDigest (utf8Bytes password) (← F.parse setting)

end CryptFormat

namespace BlockHash

variable {σ : Type} {block size : ℕ}

/-- `while count > 64 { context.update(&alt); count -= 64; }`. -/
def feedWhole (H : BlockHash σ block size) (alt : Block size) (context : Hasher σ block)
    (count : ℕ) : Option (Hasher σ block × ℕ) :=
  if h : size < count then do
    have : count - size < count := Nat.sub_lt (Nat.zero_lt_of_lt h) H.size_pos
    let context ← H.update context alt.1
    H.feedWhole alt context (count - size)
  else some (context, count)
termination_by count

/-- The loop over the bits of the password's length. -/
def feedBits (H : BlockHash σ block size) (pick : Bool → Option (List UInt8))
    (context : Hasher σ block) (bits : ℕ) : Option (Hasher σ block) :=
  if bits ≠ 0 then do
    let piece ← pick (bits &&& 1 ≠ 0)
    let context ← H.update context piece
    H.feedBits pick context (bits >>> 1)
  else some context
termination_by bits
decreasing_by
  rw [Nat.shiftRight_eq_div_pow]
  omega

/-- `repeat_to_len`. -/
def repeatToLen (H : BlockHash σ block size) (bytes : Block size) (length : ℕ)
    (out : List UInt8) : List UInt8 :=
  if out.length < length then
    have := H.size_pos
    H.repeatToLen bytes length (out ++ bytes.1.take (min (length - out.length) size))
  else out
termination_by length - out.length
decreasing_by
  rw [List.length_append, List.length_take, bytes.2]
  omega

/-- What a round feeds to its context. -/
def roundPieces (pBytes sBytes alt : List UInt8) (round : ℕ) : List (List UInt8) :=
  [if round &&& 1 ≠ 0 then pBytes else alt] ++ (if round % 3 ≠ 0 then [sBytes] else []) ++
    (if round % 7 ≠ 0 then [pBytes] else []) ++ [if round &&& 1 ≠ 0 then alt else pBytes]

def cryptRounds (H : BlockHash σ block size) (pBytes sBytes : List UInt8) (rounds : ℕ)
    (alt : Block size) : Option (Block size) :=
  (List.range rounds).foldlM (fun alt round => H.digest (roundPieces pBytes sBytes alt.1 round)) alt

end BlockHash

/-! ## SHA-crypt -/

/-- What a setting of `sha512_crypt` and `sha256_crypt` holds. -/
structure ShaSetting where
  rounds : ℕ
  explicitRounds : Bool
  salt : List UInt8
deriving DecidableEq

/-- The start of `sha512_crypt` and `sha256_crypt`. -/
def parseShaSetting (id setting : List Char) : Option ShaSetting := do
  let rest ← stripPrefix id setting
  let (rounds, explicitRounds, rest) ←
    match stripPrefix "rounds=".toList rest with
    | some value => do
      let (digits, rest) ← splitOnce '$' value
      let rounds ← parseUnsigned 32 digits
      pure (max 1000 (min rounds 999999999), true, rest)
    | none => pure (5000, false, rest)
  return { rounds, explicitRounds, salt := (utf8Bytes (rest.takeWhile (· ≠ '$'))).take 16 }

/-- The start of what `sha512_crypt` and `sha256_crypt` return. -/
def shaHeader (id : List Char) (s : ShaSetting) : Option (List Char) := do
  let rounds :=
    if s.explicitRounds then "rounds=".toList ++ Nat.toDigits 10 s.rounds ++ ['$'] else []
  return id ++ rounds ++ (← fromUtf8 s.salt) ++ ['$']

/-- The middle of `sha512_crypt` and `sha256_crypt`. -/
def shaFinalDigest {σ : Type} {block size : ℕ} (H : BlockHash σ block size) (key : List UInt8)
    (s : ShaSetting) : Option (Block size) := do
  let context ← H.updateAll H.new [key, s.salt]
  let alt ← H.digest [key, s.salt, key]
  let (context, count) ← H.feedWhole alt context key.length
  let (part, _) ← splitSlice alt.1 count
  let context ← H.update context part
  let context ← H.feedBits (fun odd => some (if odd then alt.1 else key)) context key.length
  let alt ← H.finalize context
  let pDigest ← H.digest (List.replicate key.length key)
  let first ← alt.1[0]?
  let sDigest ← H.digest (List.replicate (16 + first.toNat) s.salt)
  H.cryptRounds (H.repeatToLen pDigest key.length []) (H.repeatToLen sDigest s.salt.length [])
    s.rounds alt

def shaFormat {σ : Type} {block size : ℕ} (id : List Char) (H : BlockHash σ block size)
    (encode : Block size → Option (List Char)) : CryptFormat size where
  Setting := ShaSetting
  parse := parseShaSetting id
  finalDigest := shaFinalDigest H
  header := shaHeader id
  encode := encode

def sha512Format : CryptFormat 64 := shaFormat "$6$".toList Sha512 encodeSha512

def sha512Crypt : List Char → List Char → Option (Option (List Char)) := sha512Format.crypt

def sha256Format : CryptFormat 32 := shaFormat "$5$".toList Sha256 encodeSha256

def sha256Crypt : List Char → List Char → Option (Option (List Char)) := sha256Format.crypt

/-! ## MD5-crypt -/

/-- `s.get(..count)`. -/
def getTo : List Char → ℕ → Option (List Char)
  | _, 0 => some []
  | [], _ + 1 => none
  | c :: s, count + 1 =>
    if c.utf8Size ≤ count + 1 then (getTo s (count + 1 - c.utf8Size)).map (c :: ·) else none

/-- The start of `md5_crypt`. -/
def parseMd5Salt (setting : List Char) : Option (List Char) := do
  let rest ← stripPrefix "$1$".toList setting
  getTo rest (min (utf8Len (rest.takeWhile (· ≠ '$'))) 8)

/-- `while remaining > 0` of `md5_crypt`. -/
def feedRemaining (finalResult : Block 16) (context : Hasher Four 64) (remaining : ℕ) :
    Option (Hasher Four 64) :=
  if 0 < remaining then do
    let take := min remaining 16
    let (part, _) ← splitSlice finalResult.1 take
    let context ← Md5.update context part
    feedRemaining finalResult context (remaining - take)
  else some context
termination_by remaining

/-- The middle of `md5_crypt`. -/
def md5FinalDigest (key salt : List UInt8) : Option (Block 16) := do
  let context ← Md5.updateAll Md5.new [key, utf8Bytes "$1$".toList, salt]
  let finalResult ← Md5.digest [key, salt, key]
  let context ← feedRemaining finalResult context key.length
  let context ← Md5.feedBits
    (fun odd => if odd then some [0] else (splitSlice key 1).map Prod.fst) context key.length
  let finalResult ← Md5.finalize context
  Md5.cryptRounds key salt 1000 finalResult

def md5Format : CryptFormat 16 where
  Setting := List Char
  parse := parseMd5Salt
  finalDigest := fun key salt => md5FinalDigest key (utf8Bytes salt)
  header := fun salt => some ("$1$".toList ++ salt ++ ['$'])
  encode := encodeMd5

def md5Crypt : List Char → List Char → Option (Option (List Char)) := md5Format.crypt

/-! ## The check -/

/-- The comparison at the end of `verify`, in constant time. -/
def sameBytes (left right : List UInt8) : Bool :=
  left.length = right.length ∧
    (left.zip right).foldl (fun difference pair => difference ||| (pair.1 ^^^ pair.2)) 0 = 0

/-- The end of `verify`. -/
def isSameHash (computed : Option (List Char)) (hash : List Char) : Bool :=
  match computed with
  | none => false
  | some computed => sameBytes (utf8Bytes computed) (utf8Bytes hash)

/-- Compare a password against a hash. `none` is a panic. -/
def verify (password hash : List Char) : Option Bool := do
  let computed ←
    if "$6$".toList.isPrefixOf hash then sha512Crypt password hash
    else if "$5$".toList.isPrefixOf hash then sha256Crypt password hash
    else if "$1$".toList.isPrefixOf hash then md5Crypt password hash
    else some none
  return isSameHash computed hash

end Rinit
