import Mathlib.Algebra.Order.Ring.Nat
import Mathlib.Data.Nat.Basic
import Mathlib.Tactic.Ring

/-!
# Bytes and decoders

A decoder reads from the front of a list of bytes and returns the bytes it left. `Reads`
says that a decoder takes exactly the given bytes for a value, whatever follows them, and
`Local` that bytes after the ones it looked at make no difference. Both go through `bind`,
so a message decoder has them because its fields do. A decoder that has to use up its input
(`runAll`) then accepts what was written, refuses every proper part of it
(`runAll_ne_ok_of_prefix`) and everything with more bytes behind it (`Reads.runAll_append`).

The fields are little-endian numbers (`leBytes`) and UTF-8 text (`utf8Bytes`).
-/

namespace Codec

/-- Read a value from the front of the bytes. -/
abbrev Decoder (ε α : Type) := StateT (List UInt8) (Except ε) α

section Decoder

variable {ε α β : Type} {d : Decoder ε α} {f : α → Decoder ε β}

/-- The decoder takes exactly `used` for the value. -/
def Reads (d : Decoder ε α) (used : List UInt8) (a : α) : Prop :=
  ∀ more, d (used ++ more) = .ok (a, more)

/-- What the decoder does not look at makes no difference. -/
def Local (d : Decoder ε α) : Prop :=
  ∀ bytes a rest, d bytes = .ok (a, rest) → ∀ more, d (bytes ++ more) = .ok (a, rest ++ more)

theorem bind_eq_ok {bytes rest : List UInt8} {b : β} : (d >>= f) bytes = .ok (b, rest) ↔
    ∃ a mid, d bytes = .ok (a, mid) ∧ f a mid = .ok (b, rest) := by
  change (d bytes >>= fun p => f p.1 p.2) = _ ↔ _
  cases h : d bytes with
  | error e => simp [bind, Except.bind]
  | ok p =>
    obtain ⟨a, mid⟩ := p
    simp [bind, Except.bind]

theorem reads_pure (a : α) : Reads (pure a : Decoder ε α) [] a := fun _ => rfl

theorem Reads.bind {used used' : List UInt8} {a : α} {b : β} (h : Reads d used a)
    (h' : Reads (f a) used' b) : Reads (d >>= f) (used ++ used') b := by
  intro more
  rw [List.append_assoc]
  exact bind_eq_ok.mpr ⟨a, used' ++ more, h _, h' more⟩

theorem Reads.map {used : List UInt8} {a : α} (h : Reads d used a) (g : α → β) :
    Reads (d >>= fun a => pure (g a)) used (g a) := by
  simpa using h.bind (f := fun a => pure (g a)) (reads_pure (g a))

theorem local_pure (a : α) : Local (pure a : Decoder ε α) := by
  rintro bytes b rest h more
  obtain ⟨rfl, rfl⟩ := Prod.mk.inj (Except.ok.inj h)
  rfl

theorem local_throw (e : ε) : Local (throw e : Decoder ε α) := by
  intro bytes a rest h
  cases h

theorem Local.bind (h : Local d) (h' : ∀ a, Local (f a)) : Local (d >>= f) := by
  intro bytes b rest hb more
  obtain ⟨a, mid, hd, hf⟩ := bind_eq_ok.mp hb
  exact bind_eq_ok.mpr ⟨a, mid ++ more, h _ _ _ hd more, h' a _ _ _ hf more⟩

/-- Read a value and insist that nothing is left. -/
def runAll (trailing : ε) (d : Decoder ε α) (bytes : List UInt8) : Except ε α :=
  match d bytes with
  | .error e => .error e
  | .ok (a, rest) => if rest.isEmpty then .ok a else .error trailing

theorem runAll_eq_ok {trailing : ε} {bytes : List UInt8} {a : α} :
    runAll trailing d bytes = .ok a ↔ d bytes = .ok (a, []) := by
  unfold runAll
  cases h : d bytes with
  | error e => simp
  | ok p =>
    obtain ⟨b, rest⟩ := p
    cases rest <;> simp

theorem Reads.runAll {used : List UInt8} {a : α} (h : Reads d used a) (trailing : ε) :
    runAll trailing d used = .ok a :=
  runAll_eq_ok.mpr (by simpa using h [])

theorem Reads.runAll_append {used more : List UInt8} {a : α} (h : Reads d used a) (trailing : ε)
    (hm : more ≠ []) : Codec.runAll trailing d (used ++ more) = .error trailing := by
  unfold Codec.runAll
  rw [h more]
  cases more with
  | nil => exact absurd rfl hm
  | cons b more => rfl

/-- No proper part from the front of a message is a message. -/
theorem runAll_ne_ok_of_prefix {used part : List UInt8} {a : α} (hl : Local d)
    (hr : Reads d used a) (hp : part <+: used) (hne : part ≠ used) (trailing : ε) (b : α) :
    runAll trailing d part ≠ .ok b := by
  intro h
  obtain ⟨rest, rfl⟩ := hp
  have hlocal := hl _ _ _ (runAll_eq_ok.mp h) rest
  have hread := hr []
  rw [List.append_nil, hlocal] at hread
  obtain ⟨-, hrest⟩ := Prod.mk.inj (Except.ok.inj hread)
  exact hne (by simpa using hrest)

/-- The next `count` bytes. -/
def take (tooShort : ε) (count : ℕ) : Decoder ε (List UInt8) := fun bytes =>
  if count ≤ bytes.length then .ok (bytes.take count, bytes.drop count) else .error tooShort

theorem reads_take (tooShort : ε) (used : List UInt8) :
    Reads (take tooShort used.length) used used := by
  intro more
  rw [take, if_pos (by simp)]
  simp

theorem local_take (tooShort : ε) (count : ℕ) : Local (take tooShort count) := by
  intro bytes used rest h more
  unfold take at h ⊢
  split_ifs at h with hc
  obtain ⟨rfl, rfl⟩ := Prod.mk.inj (Except.ok.inj h)
  rw [if_pos (by simp; omega), List.take_append_of_le_length hc, List.drop_append_of_le_length hc]

/-- The value of an option, or the error. -/
def orThrow (e : ε) : Option α → Decoder ε α
  | some a => pure a
  | none => throw e

theorem local_orThrow (e : ε) (o : Option α) : Local (orThrow e o) := by
  cases o with
  | none => exact local_throw e
  | some a => exact local_pure a

theorem reads_orThrow {e : ε} {o : Option α} {a : α} (h : o = some a) :
    Reads (orThrow e o) [] a := by
  subst h
  exact reads_pure a

end Decoder

/-! ## Numbers -/

/-- The `width` low bytes of a number, lowest first. -/
def leBytes : ℕ → ℕ → List UInt8
  | 0, _ => []
  | width + 1, n => UInt8.ofNat n :: leBytes width (n / 256)

def ofLeBytes : List UInt8 → ℕ
  | [] => 0
  | b :: bytes => b.toNat + 256 * ofLeBytes bytes

@[simp] theorem length_leBytes : ∀ width n, (leBytes width n).length = width
  | 0, _ => rfl
  | width + 1, n => by rw [leBytes, List.length_cons, length_leBytes width]

theorem ofLeBytes_leBytes : ∀ width n, ofLeBytes (leBytes width n) = n % 256 ^ width
  | 0, n => by simp [leBytes, ofLeBytes, Nat.mod_one]
  | width + 1, n => by
    have hb : (UInt8.ofNat n).toNat = n % 256 := rfl
    rw [leBytes, ofLeBytes, ofLeBytes_leBytes width, hb, pow_succ, Nat.mul_comm (256 ^ width),
      Nat.mod_mul]

theorem ofLeBytes_leBytes_of_lt {width n : ℕ} (h : n < 256 ^ width) :
    ofLeBytes (leBytes width n) = n := by
  rw [ofLeBytes_leBytes, Nat.mod_eq_of_lt h]

/-! ## Text -/

/-- The UTF-8 encoding of a text. -/
def utf8Bytes (text : List Char) : List UInt8 := text.flatMap String.utf8EncodeChar

/-- The text of UTF-8 bytes, if they are well formed. -/
def fromUtf8 (bytes : List UInt8) : Option (List Char) :=
  (String.fromUTF8? bytes.toByteArray).map String.toList

theorem fromUtf8_utf8Bytes (text : List Char) : fromUtf8 (utf8Bytes text) = some text := by
  have hbytes : (utf8Bytes text).toByteArray = (String.ofList text).toByteArray := by
    rw [String.toByteArray_ofList]
    rfl
  have hvalid : (utf8Bytes text).toByteArray.IsValidUTF8 :=
    hbytes ▸ (String.ofList text).isValidUTF8
  have hstr : String.fromUTF8 _ hvalid = String.ofList text :=
    String.toByteArray_inj.mp hbytes
  simp only [fromUtf8, String.fromUTF8?, hvalid, dite_true, hstr, Option.map_some,
    String.toList_ofList]

theorem utf8Bytes_append (s t : List Char) : utf8Bytes (s ++ t) = utf8Bytes s ++ utf8Bytes t :=
  List.flatMap_append

/-! ### Character boundaries -/

/-- A byte that does not start a character. -/
def isContinuation (byte : UInt8) : Bool := 128 ≤ byte.toNat && byte.toNat < 192

/-- Whether a character starts at the index, or the text ends there. -/
def isCharBoundary (text : List UInt8) (index : ℕ) : Bool :=
  match text[index]? with
  | some byte => index = 0 || !isContinuation byte
  | none => index = text.length

/-- The last character boundary up to an index. -/
def floorBoundary (text : List UInt8) : ℕ → ℕ
  | 0 => 0
  | last + 1 => if isCharBoundary text (last + 1) then last + 1 else floorBoundary text last

/-- A character is one byte that starts it and continuation bytes. -/
theorem utf8EncodeChar_eq_cons (c : Char) : ∃ b bs, String.utf8EncodeChar c = b :: bs ∧
    isContinuation b = false ∧ ∀ x ∈ bs, isContinuation x = true := by
  have hcont : ∀ n : ℕ, isContinuation (UInt8.ofNat (n % 64 + 128)) = true := by
    intro n
    have h : (UInt8.ofNat (n % 64 + 128)).toNat = n % 64 + 128 :=
      UInt8.toNat_ofNat_of_lt (show _ < 256 by omega)
    simp only [isContinuation, h, Bool.and_eq_true, decide_eq_true_eq]
    omega
  have hstart : ∀ n : ℕ, n < 128 ∨ 192 ≤ n ∧ n < 256 → isContinuation (UInt8.ofNat n) = false := by
    intro n hn
    have h : (UInt8.ofNat n).toNat = n := UInt8.toNat_ofNat_of_lt (show n < 256 by omega)
    simp only [isContinuation, h, Bool.and_eq_false_iff, decide_eq_false_iff_not]
    omega
  unfold String.utf8EncodeChar
  dsimp only
  generalize c.val.toNat = v
  split_ifs
  all_goals refine ⟨_, _, rfl, hstart _ (by omega), ?_⟩
  all_goals simp only [List.forall_mem_cons, hcont, List.not_mem_nil, false_implies, implies_true,
    and_self]

theorem isCharBoundary_zero (bytes : List UInt8) : isCharBoundary bytes 0 = true := by
  cases bytes <;> simp [isCharBoundary]

/-- A text does not start in the middle of a character. -/
theorem isCharBoundary_append (bytes : List UInt8) (text : List Char) (i : ℕ) :
    isCharBoundary (bytes ++ utf8Bytes text) (bytes.length + i) =
      isCharBoundary (utf8Bytes text) i := by
  have hidx : (bytes ++ utf8Bytes text)[bytes.length + i]? = (utf8Bytes text)[i]? := by
    rw [List.getElem?_append_right (by omega), Nat.add_sub_cancel_left]
  unfold isCharBoundary
  rw [hidx]
  cases i with
  | zero =>
    cases text with
    | nil => simp [utf8Bytes]
    | cons c text =>
      obtain ⟨b, bs, hc, hb, -⟩ := utf8EncodeChar_eq_cons c
      simp [utf8Bytes, hc, hb]
  | succ i =>
    cases (utf8Bytes text)[i + 1]? with
    | none => simp
    | some b => simp

/-- The boundaries of a text are the lengths of what stands in front of a character. -/
theorem isCharBoundary_iff (text : List Char) (i : ℕ) : isCharBoundary (utf8Bytes text) i = true ↔
    ∃ pre, pre <+: text ∧ (utf8Bytes pre).length = i := by
  induction text generalizing i with
  | nil => simp [isCharBoundary, utf8Bytes, eq_comm]
  | cons c text ih =>
    obtain ⟨b, bs, hc, hb, hbs⟩ := utf8EncodeChar_eq_cons c
    have hcons : ∀ s, utf8Bytes (c :: s) = (b :: bs) ++ utf8Bytes s := by
      intro s
      rw [utf8Bytes, List.flatMap_cons, hc]
      rfl
    rcases Nat.lt_or_ge i (b :: bs).length with hlt | hge
    · -- inside the first character only its start is a boundary
      cases i with
      | zero => exact ⟨fun _ => ⟨[], by simp, rfl⟩, fun _ => isCharBoundary_zero _⟩
      | succ i =>
        have hi : i < bs.length := by simpa using hlt
        have hno : isCharBoundary (utf8Bytes (c :: text)) (i + 1) = false := by
          have hget : (utf8Bytes (c :: text))[i + 1]? = some bs[i] := by
            rw [hcons, List.cons_append, List.getElem?_cons_succ, List.getElem?_append_left hi,
              List.getElem?_eq_getElem hi]
          simp [isCharBoundary, hget, hbs _ (List.getElem_mem hi)]
        rw [hno]
        refine iff_of_false (by simp) ?_
        rintro ⟨pre, hpre, hlen⟩
        cases pre with
        | nil => simp [utf8Bytes] at hlen
        | cons c' pre =>
          obtain ⟨rfl, -⟩ := List.cons_prefix_cons.mp hpre
          rw [hcons, List.length_append] at hlen
          omega
    · obtain ⟨j, rfl⟩ := Nat.exists_eq_add_of_le hge
      rw [hcons, isCharBoundary_append, ih]
      constructor
      · rintro ⟨pre, hpre, rfl⟩
        exact ⟨c :: pre, List.cons_prefix_cons.mpr ⟨rfl, hpre⟩, by rw [hcons, List.length_append]⟩
      · rintro ⟨pre, hpre, hlen⟩
        cases pre with
        | nil =>
          simp only [utf8Bytes, List.flatMap_nil, List.length_nil, List.length_cons] at hlen
          omega
        | cons c' pre =>
          obtain ⟨rfl, htail⟩ := List.cons_prefix_cons.mp hpre
          rw [hcons, List.length_append] at hlen
          exact ⟨pre, htail, by omega⟩

/-- The last boundary up to an index is one, and there is none after it. -/
theorem floorBoundary_spec (bytes : List UInt8) : ∀ n : ℕ,
    isCharBoundary bytes (floorBoundary bytes n) = true ∧ floorBoundary bytes n ≤ n ∧
      ∀ i ≤ n, isCharBoundary bytes i = true → i ≤ floorBoundary bytes n
  | 0 => ⟨isCharBoundary_zero bytes, le_refl 0, fun i hi _ => hi⟩
  | n + 1 => by
    obtain ⟨hb, hle, hmax⟩ := floorBoundary_spec bytes n
    unfold floorBoundary
    split
    · next h => exact ⟨h, le_refl _, fun i hi _ => hi⟩
    · next h =>
      refine ⟨hb, hle.trans (Nat.le_succ n), fun i hi hbi => ?_⟩
      rcases Nat.lt_or_eq_of_le hi with hlt | rfl
      · exact hmax i (Nat.le_of_lt_succ hlt) hbi
      · exact absurd hbi h

end Codec
