import Rinit.Codec
import Rinit.Notify

/-!
# Lossy decoding

What `decodeLossy` makes of bytes. The encoding of a text decodes to that text
(`decodeLossy_utf8Bytes`). Of any bytes it makes at least one character that ends no line for
every byte that starts such a character (`startCount_le_decodeLossy`), and one more if the bytes
begin in the middle of a character (`startCount_lt_decodeLossy`).
-/

namespace Rinit

open Codec (utf8Bytes utf8EncodeChar_eq_cons isContinuation)

/-- A character that ends no line. -/
def isInner (c : Char) : Bool := c ≠ '\n' && c ≠ '\r'

/-- A byte that starts a character that ends no line. -/
def isStart (b : UInt8) : Bool := !isContinuation b && b ≠ 0x0A && b ≠ 0x0D

theorem toNat_byte {n : ℕ} (h : n < 256) : (UInt8.ofNat n).toNat = n :=
  UInt8.toNat_ofNat_of_lt' h

theorem byte_lt {n : ℕ} (h : n < 256) (b : UInt8) : UInt8.ofNat n < b ↔ n < b.toNat := by
  rw [UInt8.lt_iff_toNat_lt, toNat_byte h]

theorem byte_le {n : ℕ} (h : n < 256) (b : UInt8) : UInt8.ofNat n ≤ b ↔ n ≤ b.toNat := by
  rw [UInt8.le_iff_toNat_le, toNat_byte h]

theorem le_byte {n : ℕ} (h : n < 256) (b : UInt8) : b ≤ UInt8.ofNat n ↔ b.toNat ≤ n := by
  rw [UInt8.le_iff_toNat_le, toNat_byte h]

theorem isContinuation_iff {b : UInt8} :
    isContinuation b = true ↔ 128 ≤ b.toNat ∧ b.toNat ≤ 191 := by
  rw [isContinuation, Bool.and_eq_true, decide_eq_true_iff, decide_eq_true_iff, Nat.lt_succ_iff]

theorem isContinuation_byte (n : ℕ) : isContinuation (UInt8.ofNat (n % 64 + 128)) = true := by
  have hn : n % 64 + 128 < 256 := by omega
  rw [isContinuation_iff, toNat_byte hn]
  omega

/-- The first two bytes of a character of three. -/
theorem follows3_byte {v : ℕ} (hlow : ¬v ≤ 0x7FF) (hhigh : v ≤ 0xFFFF)
    (hval : v < 0xD800 ∨ 0xDFFF < v ∧ v < 0x110000) :
    follows3 (UInt8.ofNat (v / 4096 % 16 + 224)) (UInt8.ofNat (v / 64 % 64 + 128)) = true := by
  have hfirst : v / 4096 % 16 + 224 < 256 := by omega
  have hnext : v / 64 % 64 + 128 < 256 := by omega
  unfold follows3
  split_ifs with hE0 hED
  · have h : v / 4096 % 16 + 224 = 224 := (toNat_byte hfirst).symm.trans (congrArg _ hE0)
    rw [Bool.and_eq_true, decide_eq_true_iff, decide_eq_true_iff, le_byte hnext, byte_le hnext]
    exact ⟨show 160 ≤ v / 64 % 64 + 128 by omega, show v / 64 % 64 + 128 ≤ 191 by omega⟩
  · have h : v / 4096 % 16 + 224 = 237 := (toNat_byte hfirst).symm.trans (congrArg _ hED)
    rw [Bool.and_eq_true, decide_eq_true_iff, decide_eq_true_iff, le_byte hnext, byte_le hnext]
    exact ⟨show 128 ≤ v / 64 % 64 + 128 by omega, show v / 64 % 64 + 128 ≤ 159 by omega⟩
  · exact isContinuation_byte _

/-- The first two bytes of a character of four. -/
theorem follows4_byte {v : ℕ} (hlow : ¬v ≤ 0xFFFF) (hhigh : v < 0x110000) :
    follows4 (UInt8.ofNat (v / 262144 % 8 + 240)) (UInt8.ofNat (v / 4096 % 64 + 128)) = true := by
  have hfirst : v / 262144 % 8 + 240 < 256 := by omega
  have hnext : v / 4096 % 64 + 128 < 256 := by omega
  unfold follows4
  split_ifs with hF0 hF4
  · have h : v / 262144 % 8 + 240 = 240 := (toNat_byte hfirst).symm.trans (congrArg _ hF0)
    rw [Bool.and_eq_true, decide_eq_true_iff, decide_eq_true_iff, le_byte hnext, byte_le hnext]
    exact ⟨show 144 ≤ v / 4096 % 64 + 128 by omega, show v / 4096 % 64 + 128 ≤ 191 by omega⟩
  · have h : v / 262144 % 8 + 240 = 244 := (toNat_byte hfirst).symm.trans (congrArg _ hF4)
    rw [Bool.and_eq_true, decide_eq_true_iff, decide_eq_true_iff, le_byte hnext, byte_le hnext]
    exact ⟨show 128 ≤ v / 4096 % 64 + 128 by omega, show v / 4096 % 64 + 128 ≤ 143 by omega⟩
  · exact isContinuation_byte _

/-- Decoding the first character of an encoded text. -/
theorem nextChar_utf8EncodeChar (c : Char) (rest : List UInt8) : ∃ b bs,
    String.utf8EncodeChar c = b :: bs ∧ nextChar b (bs ++ rest) = (c, bs.length) := by
  have hval : c.val.toNat < 0xD800 ∨ 0xDFFF < c.val.toNat ∧ c.val.toNat < 0x110000 := c.valid
  have hchar : Char.ofNat c.val.toNat = c := Char.ofNat_toNat c
  unfold String.utf8EncodeChar
  dsimp only
  generalize c.val.toNat = v at *
  split_ifs with h₁ h₂ h₃
  · refine ⟨_, _, rfl, ?_⟩
    have ha : UInt8.ofNat v < 0x80 := (byte_lt (by omega) _).mpr (show v < 128 by omega)
    rw [nextChar, if_pos ha, codePoint, toNat_byte (by omega)]
    exact congrArg (·, 0) hchar
  · refine ⟨_, _, rfl, ?_⟩
    have hlt : v / 64 % 32 + 192 < 256 := by omega
    have ha : ¬UInt8.ofNat (v / 64 % 32 + 192) < 0x80 := fun h =>
      absurd ((byte_lt hlt _).mp h) (show ¬v / 64 % 32 + 192 < 128 by omega)
    have ha' : 0xC2 ≤ UInt8.ofNat (v / 64 % 32 + 192) ∧ UInt8.ofNat (v / 64 % 32 + 192) ≤ 0xDF :=
      ⟨(le_byte hlt _).mpr (show 194 ≤ v / 64 % 32 + 192 by omega),
        (byte_le hlt _).mpr (show v / 64 % 32 + 192 ≤ 223 by omega)⟩
    have hcode : (v / 64 % 32 + 192) % 32 * 64 + (v % 64 + 128) % 64 = v := by omega
    rw [nextChar, if_neg ha]
    simp only [Bool.and_eq_true, decide_eq_true_eq, if_pos ha', List.cons_append, List.nil_append,
      List.getD_cons_zero, isContinuation_byte, if_true, codePoint, List.foldl_cons,
      List.foldl_nil, toNat_byte hlt, toNat_byte (show v % 64 + 128 < 256 by omega), hcode, hchar]
    rfl
  · refine ⟨_, _, rfl, ?_⟩
    have hlt : v / 4096 % 16 + 224 < 256 := by omega
    have hlt' : v / 64 % 64 + 128 < 256 := by omega
    have ha : ¬UInt8.ofNat (v / 4096 % 16 + 224) < 0x80 := fun h =>
      absurd ((byte_lt hlt _).mp h) (show ¬v / 4096 % 16 + 224 < 128 by omega)
    have ha' : ¬(0xC2 ≤ UInt8.ofNat (v / 4096 % 16 + 224) ∧
        UInt8.ofNat (v / 4096 % 16 + 224) ≤ 0xDF) := fun h =>
      absurd ((byte_le hlt _).mp h.2) (show ¬v / 4096 % 16 + 224 ≤ 223 by omega)
    have ha'' : 0xE0 ≤ UInt8.ofNat (v / 4096 % 16 + 224) ∧
        UInt8.ofNat (v / 4096 % 16 + 224) ≤ 0xEF :=
      ⟨(le_byte hlt _).mpr (show 224 ≤ v / 4096 % 16 + 224 by omega),
        (byte_le hlt _).mpr (show v / 4096 % 16 + 224 ≤ 239 by omega)⟩
    have hcode : ((v / 4096 % 16 + 224) % 16 * 64 + (v / 64 % 64 + 128) % 64) * 64 +
        (v % 64 + 128) % 64 = v := by omega
    rw [nextChar, if_neg ha]
    simp only [Bool.and_eq_true, decide_eq_true_eq, if_neg ha', if_pos ha'', List.cons_append,
      List.nil_append, List.getD_cons_zero, List.getD_cons_succ, follows3_byte h₂ h₃ hval,
      isContinuation_byte,
      Bool.not_true, Bool.false_eq_true, if_false, codePoint, List.foldl_cons, List.foldl_nil,
      toNat_byte hlt, toNat_byte hlt', toNat_byte (show v % 64 + 128 < 256 by omega), hcode, hchar]
    rfl
  · refine ⟨_, _, rfl, ?_⟩
    have hlt : v / 262144 % 8 + 240 < 256 := by omega
    have ha : ¬UInt8.ofNat (v / 262144 % 8 + 240) < 0x80 := fun h =>
      absurd ((byte_lt hlt _).mp h) (show ¬v / 262144 % 8 + 240 < 128 by omega)
    have ha' : ¬(0xC2 ≤ UInt8.ofNat (v / 262144 % 8 + 240) ∧
        UInt8.ofNat (v / 262144 % 8 + 240) ≤ 0xDF) := fun h =>
      absurd ((byte_le hlt _).mp h.2) (show ¬v / 262144 % 8 + 240 ≤ 223 by omega)
    have ha'' : ¬(0xE0 ≤ UInt8.ofNat (v / 262144 % 8 + 240) ∧
        UInt8.ofNat (v / 262144 % 8 + 240) ≤ 0xEF) := fun h =>
      absurd ((byte_le hlt _).mp h.2) (show ¬v / 262144 % 8 + 240 ≤ 239 by omega)
    have ha''' : 0xF0 ≤ UInt8.ofNat (v / 262144 % 8 + 240) ∧
        UInt8.ofNat (v / 262144 % 8 + 240) ≤ 0xF4 :=
      ⟨(le_byte hlt _).mpr (show 240 ≤ v / 262144 % 8 + 240 by omega),
        (byte_le hlt _).mpr (show v / 262144 % 8 + 240 ≤ 244 by omega)⟩
    have hcode : (((v / 262144 % 8 + 240) % 8 * 64 + (v / 4096 % 64 + 128) % 64) * 64 +
        (v / 64 % 64 + 128) % 64) * 64 + (v % 64 + 128) % 64 = v := by omega
    rw [nextChar, if_neg ha]
    simp only [Bool.and_eq_true, decide_eq_true_eq, if_neg ha', if_neg ha'', if_pos ha''',
      List.cons_append, List.nil_append, List.getD_cons_zero, List.getD_cons_succ,
      follows4_byte h₃ (show v < 0x110000 by omega), isContinuation_byte, Bool.not_true,
      Bool.false_eq_true, if_false, codePoint, List.foldl_cons, List.foldl_nil, toNat_byte hlt,
      toNat_byte (show v / 4096 % 64 + 128 < 256 by omega),
      toNat_byte (show v / 64 % 64 + 128 < 256 by omega),
      toNat_byte (show v % 64 + 128 < 256 by omega), hcode, hchar]
    rfl

theorem decodeLossy_skip (skipped rest : List UInt8) :
    decodeLossy skipped.length (skipped ++ rest) = decodeLossy 0 rest := by
  induction skipped with
  | nil => rfl
  | cons b skipped ih => exact ih

/-- An encoded text decodes to that text. -/
theorem decodeLossy_utf8Bytes (text : List Char) : decodeLossy 0 (utf8Bytes text) = text := by
  induction text with
  | nil => rfl
  | cons c text ih =>
    obtain ⟨b, bs, hc, hnext⟩ := nextChar_utf8EncodeChar c (utf8Bytes text)
    rw [utf8Bytes, List.flatMap_cons, hc, List.cons_append, decodeLossy, ← utf8Bytes, hnext,
      decodeLossy_skip, ih]

/-! ## Any bytes -/

/-- How many characters end no line. -/
def innerCount (s : List Char) : ℕ := s.countP isInner

def startCount (bytes : List UInt8) : ℕ := bytes.countP isStart

theorem isInner_ofNat {n : ℕ} (h : 13 < n ∨ n ≠ 10 ∧ n ≠ 13) : isInner (Char.ofNat n) = true := by
  have hne : ∀ c : Char, (c = '\n' ∨ c = '\r') → Char.ofNat n = c → n = c.toNat := by
    rintro c hc rfl
    by_cases hv : n.isValidChar
    · rw [Char.ofNat, dif_pos hv]
      rfl
    · rw [Char.ofNat, dif_neg hv] at hc
      exact absurd hc (by decide)
  rw [isInner, Bool.and_eq_true, decide_eq_true_iff, decide_eq_true_iff]
  refine ⟨fun hc => ?_, fun hc => ?_⟩
  · have hn : n = 10 := hne '\n' (.inl rfl) hc
    omega
  · have hn : n = 13 := hne '\r' (.inr rfl) hc
    omega

theorem follows3_spec {a b : UInt8} (ha : 0xE0 ≤ a) (ha' : a ≤ 0xEF)
    (h : follows3 a b = true) : isContinuation b = true ∧
      0 < a.toNat % 16 * 64 + b.toNat % 64 / 32 := by
  have hlow : 224 ≤ a.toNat := UInt8.le_iff_toNat_le.mp ha
  have hhigh : a.toNat ≤ 239 := UInt8.le_iff_toNat_le.mp ha'
  unfold follows3 at h
  rw [isContinuation_iff]
  split_ifs at h with hE0 hED
  · rw [Bool.and_eq_true, decide_eq_true_iff, decide_eq_true_iff] at h
    have hb : 160 ≤ b.toNat := UInt8.le_iff_toNat_le.mp h.1
    have hb' : b.toNat ≤ 191 := UInt8.le_iff_toNat_le.mp h.2
    omega
  · rw [Bool.and_eq_true, decide_eq_true_iff, decide_eq_true_iff] at h
    have hb : 128 ≤ b.toNat := UInt8.le_iff_toNat_le.mp h.1
    have hb' : b.toNat ≤ 159 := UInt8.le_iff_toNat_le.mp h.2
    have haeq : a.toNat = 237 := congrArg UInt8.toNat hED
    omega
  · have hne : a.toNat ≠ 224 := fun h => hE0 (UInt8.toNat_inj.mp h)
    have hb := isContinuation_iff.mp h
    omega

theorem follows4_spec {a b : UInt8} (ha : 0xF0 ≤ a) (ha' : a ≤ 0xF4)
    (h : follows4 a b = true) : isContinuation b = true ∧
      0 < a.toNat % 8 * 64 + b.toNat % 64 / 16 := by
  have hlow : 240 ≤ a.toNat := UInt8.le_iff_toNat_le.mp ha
  have hhigh : a.toNat ≤ 244 := UInt8.le_iff_toNat_le.mp ha'
  unfold follows4 at h
  rw [isContinuation_iff]
  split_ifs at h with hF0 hF4
  · rw [Bool.and_eq_true, decide_eq_true_iff, decide_eq_true_iff] at h
    have hb : 144 ≤ b.toNat := UInt8.le_iff_toNat_le.mp h.1
    have hb' : b.toNat ≤ 191 := UInt8.le_iff_toNat_le.mp h.2
    omega
  · rw [Bool.and_eq_true, decide_eq_true_iff, decide_eq_true_iff] at h
    have hb : 128 ≤ b.toNat := UInt8.le_iff_toNat_le.mp h.1
    have hb' : b.toNat ≤ 143 := UInt8.le_iff_toNat_le.mp h.2
    have haeq : a.toNat = 244 := congrArg UInt8.toNat hF4
    omega
  · have hne : a.toNat ≠ 240 := fun h => hF0 (UInt8.toNat_inj.mp h)
    have hb := isContinuation_iff.mp h
    omega

/-- Bytes that are there and continue a character. -/
theorem forall_mem_take {rest : List UInt8} {n : ℕ}
    (h : ∀ i < n, isContinuation (rest.getD i 0) = true) :
    ∀ b ∈ rest.take n, isContinuation b = true := by
  intro b hb
  obtain ⟨i, hi, rfl⟩ := List.mem_iff_getElem.mp hb
  rw [List.length_take] at hi
  have hget := h i (by omega)
  rwa [List.getD_eq_getElem?_getD, List.getElem?_eq_getElem (by omega), Option.getD_some,
    ← List.getElem_take] at hget

/-- The next character ends a line only if its byte does, and the bytes it takes start no
character. -/
theorem nextChar_spec (a : UInt8) (rest : List UInt8) :
    (a ≠ 0x0A → a ≠ 0x0D → isInner (nextChar a rest).1 = true) ∧
      ∀ b ∈ rest.take (nextChar a rest).2, isContinuation b = true := by
  have hreplacement : isInner replacement = true := by decide
  have hnone : ∀ b ∈ rest.take 0, isContinuation b = true := fun b h => by simp at h
  unfold nextChar
  dsimp only
  split_ifs with h₁ h₂ h₃ h₄ h₅ h₆ h₇ h₈ h₉ h₁₀
  · -- a byte of its own
    refine ⟨fun hn hr => isInner_ofNat (.inr ⟨fun h => hn ?_, fun h => hr ?_⟩), hnone⟩
    · exact UInt8.toNat_inj.mp h
    · exact UInt8.toNat_inj.mp h
  · rw [Bool.and_eq_true, decide_eq_true_iff, decide_eq_true_iff] at h₂
    have hlow : 194 ≤ a.toNat := UInt8.le_iff_toNat_le.mp h₂.1
    have hhigh : a.toNat ≤ 223 := UInt8.le_iff_toNat_le.mp h₂.2
    refine ⟨fun _ _ => isInner_ofNat (.inl ?_), forall_mem_take fun i hi => ?_⟩
    · simp only [List.foldl_cons, List.foldl_nil]
      omega
    · obtain rfl : i = 0 := by omega
      exact h₃
  · exact ⟨fun _ _ => hreplacement, hnone⟩
  · exact ⟨fun _ _ => hreplacement, hnone⟩
  · rw [Bool.not_eq_true', Bool.not_eq_false] at h₅
    rw [Bool.and_eq_true, decide_eq_true_iff, decide_eq_true_iff] at h₄
    refine ⟨fun _ _ => hreplacement, forall_mem_take fun i hi => ?_⟩
    obtain rfl : i = 0 := by omega
    exact (follows3_spec h₄.1 h₄.2 h₅).1
  · rw [Bool.not_eq_true', Bool.not_eq_false] at h₅ h₆
    rw [Bool.and_eq_true, decide_eq_true_iff, decide_eq_true_iff] at h₄
    obtain ⟨hb, hcode⟩ := follows3_spec h₄.1 h₄.2 h₅
    refine ⟨fun _ _ => isInner_ofNat (.inl ?_), forall_mem_take fun i hi => ?_⟩
    · simp only [List.foldl_cons, List.foldl_nil]
      omega
    · obtain rfl | rfl : i = 0 ∨ i = 1 := by omega
      · exact hb
      · exact h₆
  · exact ⟨fun _ _ => hreplacement, hnone⟩
  · rw [Bool.not_eq_true', Bool.not_eq_false] at h₈
    rw [Bool.and_eq_true, decide_eq_true_iff, decide_eq_true_iff] at h₇
    refine ⟨fun _ _ => hreplacement, forall_mem_take fun i hi => ?_⟩
    obtain rfl : i = 0 := by omega
    exact (follows4_spec h₇.1 h₇.2 h₈).1
  · rw [Bool.not_eq_true', Bool.not_eq_false] at h₈ h₉
    rw [Bool.and_eq_true, decide_eq_true_iff, decide_eq_true_iff] at h₇
    refine ⟨fun _ _ => hreplacement, forall_mem_take fun i hi => ?_⟩
    obtain rfl | rfl : i = 0 ∨ i = 1 := by omega
    · exact (follows4_spec h₇.1 h₇.2 h₈).1
    · exact h₉
  · rw [Bool.not_eq_true', Bool.not_eq_false] at h₈ h₉ h₁₀
    rw [Bool.and_eq_true, decide_eq_true_iff, decide_eq_true_iff] at h₇
    obtain ⟨hb, hcode⟩ := follows4_spec h₇.1 h₇.2 h₈
    refine ⟨fun _ _ => isInner_ofNat (.inl ?_), forall_mem_take fun i hi => ?_⟩
    · simp only [List.foldl_cons, List.foldl_nil]
      omega
    · obtain rfl | rfl | rfl : i = 0 ∨ i = 1 ∨ i = 2 := by omega
      · exact hb
      · exact h₉
      · exact h₁₀
  · exact ⟨fun _ _ => hreplacement, hnone⟩

theorem startCount_of_continuation {bytes : List UInt8}
    (h : ∀ b ∈ bytes, isContinuation b = true) : startCount bytes = 0 := by
  refine List.countP_eq_zero.mpr fun b hb hstart => ?_
  rw [isStart, h b hb] at hstart
  exact absurd hstart (by simp)

/-- Every byte that starts a character makes one. -/
theorem startCount_le_decodeLossy (skip : ℕ) (bytes : List UInt8)
    (h : ∀ b ∈ bytes.take skip, isContinuation b = true) :
    startCount bytes ≤ innerCount (decodeLossy skip bytes) := by
  induction bytes generalizing skip with
  | nil => exact Nat.zero_le _
  | cons a rest ih =>
    cases skip with
    | succ skip =>
      have ha : startCount [a] = 0 := startCount_of_continuation fun b hb => by
        rw [List.mem_singleton.mp hb]
        exact h a List.mem_cons_self
      have hrest := ih skip fun b hb => h b (List.mem_cons_of_mem a hb)
      rw [startCount, ← List.singleton_append, List.countP_append]
      rw [startCount] at ha hrest
      rw [ha, Nat.zero_add]
      exact hrest
    | zero =>
      obtain ⟨hinner, htaken⟩ := nextChar_spec a rest
      have hrest := ih (nextChar a rest).2 htaken
      rw [decodeLossy, startCount, innerCount, List.countP_cons, List.countP_cons]
      rw [startCount, innerCount] at hrest
      refine Nat.add_le_add hrest ?_
      by_cases ha : isStart a = true
      · have ha' := ha
        simp only [isStart, Bool.and_eq_true, decide_eq_true_eq, ne_eq] at ha'
        rw [if_pos (hinner ha'.1.2 ha'.2)]
        split <;> omega
      · rw [if_neg ha]
        exact Nat.zero_le _

/-- And so does a byte in the middle of a character, if it is the first. -/
theorem startCount_lt_decodeLossy {a : UInt8} (ha : isContinuation a = true)
    (rest : List UInt8) :
    startCount (a :: rest) < innerCount (decodeLossy 0 (a :: rest)) := by
  obtain ⟨hinner, htaken⟩ := nextChar_spec a rest
  have hrest := startCount_le_decodeLossy (nextChar a rest).2 rest htaken
  have hrange := isContinuation_iff.mp ha
  have hnext : isInner (nextChar a rest).1 = true :=
    hinner (fun h => by rw [h] at ha; exact absurd ha (by decide))
      fun h => by rw [h] at ha; exact absurd ha (by decide)
  have hzero : startCount [a] = 0 := startCount_of_continuation fun b hb => by
    rw [List.mem_singleton.mp hb]
    exact ha
  rw [startCount, List.countP_singleton] at hzero
  rw [decodeLossy, startCount, innerCount, List.countP_cons, List.countP_cons, hnext, hzero]
  rw [startCount, innerCount] at hrest
  simpa using Nat.lt_succ_of_le hrest

/-- The bytes of one character : one that starts it, and none more. -/
theorem startCount_utf8EncodeChar (c : Char) :
    startCount (String.utf8EncodeChar c) = if isInner c then 1 else 0 := by
  obtain ⟨b, bs, hc, hb, hbs⟩ := utf8EncodeChar_eq_cons c
  obtain ⟨b', bs', hc', hnext⟩ := nextChar_utf8EncodeChar c []
  obtain ⟨rfl, rfl⟩ : b = b' ∧ bs = bs' := List.cons.inj (hc.symm.trans hc')
  have htail : startCount bs = 0 := startCount_of_continuation hbs
  have hinner := (nextChar_spec b (bs ++ [])).1
  rw [hnext] at hinner
  rw [startCount] at htail
  rw [hc, startCount, List.countP_cons, htail, Nat.zero_add]
  refine if_congr ?_ rfl rfl
  rw [isStart, hb]
  by_cases hn : b = 0x0A
  · subst hn
    obtain rfl : c = '\n' := congrArg Prod.fst hnext.symm
    decide
  by_cases hr : b = 0x0D
  · subst hr
    obtain rfl : c = '\r' := congrArg Prod.fst hnext.symm
    decide
  · simp [hinner hn hr, hn, hr]

/-- In an encoded text every character that ends no line has its byte. -/
theorem startCount_utf8Bytes (text : List Char) :
    startCount (utf8Bytes text) = innerCount text := by
  induction text with
  | nil => rfl
  | cons c text ih =>
    rw [utf8Bytes, List.flatMap_cons, ← utf8Bytes, startCount, List.countP_append, ← startCount,
      ← startCount, startCount_utf8EncodeChar, ih, innerCount, innerCount, List.countP_cons,
      Nat.add_comm]

end Rinit
