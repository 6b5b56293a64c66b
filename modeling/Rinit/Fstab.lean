import Rinit.Mounts

/-!
# The fstab

The file is parsed a line at a time into four fields, and a line that cannot be used is a warning
(`parse`). The options of an entry are cut into the flags of `mount(2)` and what is left for the
filesystem (`flagsAndData`).

`flagsAndData_spec` : the last word on a flag decides it, no other bit is set, and the data is
the words that are on no flag, in order. `parse_append` : a line has no effect on another one.
`parse_procMounts` : the lines that the kernel would write for some mounts are read back, up to
the ones that are not wanted. `swapEntries_eq` : `swapon -a`, which has a parser of its own,
takes of such a file exactly the entries that the mount pass leaves to it.
-/

namespace Rinit

open Codec

/-! ## Options -/

/-- A flag of `mount(2)` that an option can set. -/
inductive MountFlag where
  | rdonly
  | nosuid
  | nodev
  | noexec
  | synchronous
  | dirsync
  | noatime
  | nodiratime
  | relatime
  | strictatime
deriving DecidableEq, Repr

namespace MountFlag

/-- Its bit. -/
def bit : MountFlag → ℕ
  | rdonly => 0
  | nosuid => 1
  | nodev => 2
  | noexec => 3
  | synchronous => 4
  | dirsync => 7
  | noatime => 10
  | nodiratime => 11
  | relatime => 21
  | strictatime => 24

/-- The flag as an argument of the system call. -/
def mask (flag : MountFlag) : BitVec 64 := .twoPow 64 flag.bit

theorem bit_lt (flag : MountFlag) : flag.bit < 64 := by cases flag <;> decide

theorem bit_injective : Function.Injective bit := by
  intro a b h
  cases a <;> cases b <;> first | rfl | cases h

end MountFlag

/-- What an option does. -/
inductive OptionEffect where
  | set (flag : MountFlag)
  | clear (flag : MountFlag)
  | ignored
  | data
deriving DecidableEq, Repr

/-- The options with a meaning of their own. -/
def optionEffects : List (List Char × OptionEffect) :=
  [("ro".toList, .set .rdonly), ("rw".toList, .clear .rdonly),
    ("sync".toList, .set .synchronous), ("async".toList, .clear .synchronous),
    ("dirsync".toList, .set .dirsync),
    ("noatime".toList, .set .noatime), ("atime".toList, .clear .noatime),
    ("nodiratime".toList, .set .nodiratime), ("diratime".toList, .clear .nodiratime),
    ("relatime".toList, .set .relatime), ("norelatime".toList, .clear .relatime),
    ("strictatime".toList, .set .strictatime), ("nostrictatime".toList, .clear .strictatime),
    ("suid".toList, .clear .nosuid), ("nosuid".toList, .set .nosuid),
    ("dev".toList, .clear .nodev), ("nodev".toList, .set .nodev),
    ("exec".toList, .clear .noexec), ("noexec".toList, .set .noexec),
    ("defaults".toList, .ignored), ("auto".toList, .ignored), ("noauto".toList, .ignored),
    ("nofail".toList, .ignored), ("user".toList, .ignored), ("users".toList, .ignored),
    ("owner".toList, .ignored), ("group".toList, .ignored), ("_netdev".toList, .ignored)]

def optionEffect (option : List Char) : OptionEffect :=
  match optionEffects.lookup option with
  | some effect => effect
  | none =>
    if "x-".toList.isPrefixOf option || "comment=".toList.isPrefixOf option then .ignored
    else .data

/-- The options that are not blank. -/
def optionWords (options : List Char) : List (List Char) :=
  ((options.splitOn ',').map trim).filter fun option => !option.isEmpty

/-- The loop over the options, which collects the flags and the data. -/
def applyOption (acc : BitVec 64 × List (List Char)) (option : List Char) :
    BitVec 64 × List (List Char) :=
  match optionEffect option with
  | .set flag => (acc.1 ||| flag.mask, acc.2)
  | .clear flag => (acc.1 &&& ~~~flag.mask, acc.2)
  | .ignored => acc
  | .data => (acc.1, acc.2 ++ [option])

/-- The options split into flags and what is left for the filesystem. -/
def flagsAndData (options : List Char) : BitVec 64 × Option (List Char) :=
  let acc := (optionWords options).foldl applyOption (0, [])
  (acc.1, if acc.2.isEmpty then none else some ([','].intercalate acc.2))

/-- What an option says about a flag. -/
def OptionEffect.on (flag : MountFlag) : OptionEffect → Option Bool
  | set f => if f = flag then some true else none
  | clear f => if f = flag then some false else none
  | ignored => none
  | data => none

/-- What the words say about a flag : the last one that says something. -/
def lastWord (flag : MountFlag) (words : List (List Char)) : Option Bool :=
  (words.filterMap fun word => (optionEffect word).on flag).getLast?

/-- The words for the filesystem. -/
def dataWords (words : List (List Char)) : List (List Char) :=
  words.filter fun word => optionEffect word = .data

theorem getLsbD_mask (flag : MountFlag) (i : ℕ) :
    flag.mask.getLsbD i = decide (flag.bit = i) := by
  rw [MountFlag.mask, BitVec.getLsbD_twoPow, decide_eq_true flag.bit_lt, Bool.true_and]

/-- An option leaves the bits of other flags alone and decides the bit of its own. -/
theorem getLsbD_applyOption (acc : BitVec 64 × List (List Char)) (option : List Char)
    (flag : MountFlag) : (applyOption acc option).1.getLsbD flag.bit =
      ((optionEffect option).on flag).getD (acc.1.getLsbD flag.bit) := by
  unfold applyOption
  cases optionEffect option with
  | set f =>
    simp only [BitVec.getLsbD_or, getLsbD_mask, MountFlag.bit_injective.eq_iff, OptionEffect.on]
    by_cases hf : f = flag <;> simp [hf]
  | clear f =>
    simp only [BitVec.getLsbD_and, BitVec.getLsbD_not, getLsbD_mask, flag.bit_lt,
      MountFlag.bit_injective.eq_iff, OptionEffect.on]
    by_cases hf : f = flag <;> simp [hf]
  | ignored => rfl
  | data => rfl

/-- The bits of no flag stay clear. -/
theorem getLsbD_applyOption_of_ne {acc : BitVec 64 × List (List Char)} {i : ℕ}
    (h : acc.1.getLsbD i = false) (hi : ∀ flag : MountFlag, flag.bit ≠ i) (option : List Char) :
    (applyOption acc option).1.getLsbD i = false := by
  unfold applyOption
  cases optionEffect option with
  | set f => simp only [BitVec.getLsbD_or, getLsbD_mask, h, hi f, decide_false, Bool.or_false]
  | clear f => simp only [BitVec.getLsbD_and, h, Bool.false_and]
  | ignored => exact h
  | data => exact h

theorem applyOption_snd (acc : BitVec 64 × List (List Char)) (option : List Char) :
    (applyOption acc option).2 = acc.2 ++ dataWords [option] := by
  unfold applyOption
  cases h : optionEffect option <;> simp [dataWords, h]

theorem getLsbD_foldl_applyOption (flag : MountFlag) (words : List (List Char))
    (acc : BitVec 64 × List (List Char)) : (words.foldl applyOption acc).1.getLsbD flag.bit =
      (lastWord flag words).getD (acc.1.getLsbD flag.bit) := by
  induction words using List.reverseRecOn with
  | nil => rfl
  | append_singleton words word ih =>
    rw [List.foldl_concat, getLsbD_applyOption, ih, lastWord, lastWord, List.filterMap_append,
      List.getLast?_append]
    cases h : (optionEffect word).on flag with
    | none => simp [h]
    | some on => simp [h]

theorem getLsbD_foldl_applyOption_of_ne {i : ℕ} (hi : ∀ flag : MountFlag, flag.bit ≠ i)
    (words : List (List Char)) : (words.foldl applyOption (0, [])).1.getLsbD i = false := by
  induction words using List.reverseRecOn with
  | nil => exact BitVec.getLsbD_zero
  | append_singleton words word ih =>
    rw [List.foldl_concat]
    exact getLsbD_applyOption_of_ne ih hi word

theorem foldl_applyOption_snd (words : List (List Char)) (acc : BitVec 64 × List (List Char)) :
    (words.foldl applyOption acc).2 = acc.2 ++ dataWords words := by
  induction words generalizing acc with
  | nil => exact (List.append_nil _).symm
  | cons word words ih =>
    rw [List.foldl_cons, ih, applyOption_snd, List.append_assoc]
    exact congrArg _ (List.filter_append [word] words).symm

/-! ## The words of the data -/

/-- A word is trimmed, has something in it and no comma. -/
theorem of_mem_optionWords {options word : List Char} (h : word ∈ optionWords options) :
    trim word = word ∧ word ≠ [] ∧ ',' ∉ word := by
  obtain ⟨hmem, hne⟩ := List.mem_filter.mp h
  obtain ⟨part, hpart, rfl⟩ := List.mem_map.mp hmem
  refine ⟨trim_trim part, by simpa using hne, fun hcomma => ?_⟩
  rw [List.splitOn_eq_splitOnP] at hpart
  simpa using forall_mem_splitOnP hpart ',' (trim_subset part hcomma)

theorem of_mem_dataWords {words : List (List Char)} {word : List Char} (h : word ∈ dataWords words) :
    word ∈ words ∧ optionEffect word = .data := by
  simpa [dataWords] using h

/-- The data is read as the words it was put together of. -/
theorem optionWords_intercalate {words : List (List Char)} (hne : words ≠ [])
    (h : ∀ word ∈ words, trim word = word ∧ word ≠ [] ∧ ',' ∉ word) :
    optionWords ([','].intercalate words) = words := by
  rw [optionWords, List.splitOn_intercalate ',' (fun word hw => (h word hw).2.2) hne,
    List.map_congr_left fun word hw => (h word hw).1, List.map_id']
  exact List.filter_eq_self.mpr fun word hw => by simpa using (h word hw).2.1

/-- The last word on a flag decides its bit, no other bit is set, and the data is the words that
are on no flag, in the order they stand in. -/
theorem flagsAndData_spec (options : List Char) :
    (∀ flag : MountFlag, (flagsAndData options).1.getLsbD flag.bit =
      (lastWord flag (optionWords options)).getD false) ∧
    (∀ i, (∀ flag : MountFlag, flag.bit ≠ i) → (flagsAndData options).1.getLsbD i = false) ∧
    ((flagsAndData options).2 = none ↔ dataWords (optionWords options) = []) ∧
    ((flagsAndData options).2.map optionWords).getD [] = dataWords (optionWords options) := by
  have hdata : ((optionWords options).foldl applyOption (0, [])).2 =
      dataWords (optionWords options) := by
    rw [foldl_applyOption_snd, List.nil_append]
  refine ⟨fun flag => ?_, fun i hi => getLsbD_foldl_applyOption_of_ne hi _, ?_, ?_⟩
  · rw [flagsAndData, getLsbD_foldl_applyOption]
    exact congrArg _ BitVec.getLsbD_zero
  · rw [flagsAndData, hdata]
    cases dataWords (optionWords options) <;> simp
  · rw [flagsAndData, hdata]
    by_cases hnil : dataWords (optionWords options) = []
    · rw [hnil]
      rfl
    · have hwords := optionWords_intercalate hnil fun word hw =>
        of_mem_optionWords (of_mem_dataWords hw).1
      rw [if_neg (by simpa using hnil)]
      exact hwords

example : flagsAndData "ro,nosuid,suid, mode=0755".toList =
    (MountFlag.rdonly.mask, some "mode=0755".toList) := by decide

/-! ## Decoded fields -/

/-- The first byte of a text, when it is one of ASCII, is its first character. -/
theorem cons_of_utf8Bytes {a : UInt8} {text : List Char} {bytes : List UInt8} (ha : a < 0x80)
    (h : utf8Bytes text = a :: bytes) :
    ∃ c rest, text = c :: rest ∧ String.utf8EncodeChar c = [a] ∧ utf8Bytes rest = bytes := by
  obtain _ | ⟨c, rest⟩ := text
  · cases h
  obtain ⟨b, bs, hc, hnext⟩ := nextChar_utf8EncodeChar c (utf8Bytes rest)
  rw [utf8Bytes, List.flatMap_cons, hc, List.cons_append] at h
  obtain ⟨rfl, hbytes⟩ := List.cons.inj h
  rw [nextChar, if_pos ha] at hnext
  obtain rfl : bs = [] := List.eq_nil_of_length_eq_zero (congrArg Prod.snd hnext).symm
  exact ⟨c, rest, rfl, hc, hbytes⟩

/-- A backslash that begins no escape stays. -/
theorem unescapeBytes_cons_of_none {bytes : List UInt8}
    (h : ∀ a b c rest, bytes = a :: b :: c :: rest → decodeEscape a b c = none) :
    unescapeBytes (0x5C :: bytes) = 0x5C :: unescapeBytes bytes := by
  rcases bytes with _ | ⟨a, _ | ⟨b, _ | ⟨c, rest⟩⟩⟩
  · rfl
  · rfl
  · rfl
  · rw [unescapeBytes, if_pos rfl, h a b c rest rfl]

theorem decodeEscape_eq_some {a b c byte : UInt8} (h : decodeEscape a b c = some byte) :
    (a < 0x80 ∧ b < 0x80 ∧ c < 0x80) ∧
      ∃ d ∈ [' ', '\t', '\n', '\\'], String.utf8EncodeChar d = [byte] := by
  unfold decodeEscape at h
  split_ifs at h with h₁ h₂ h₃ h₄
  · obtain ⟨rfl, rfl, rfl⟩ : a = 0x30 ∧ b = 0x34 ∧ c = 0x30 := by simpa using h₁
    exact ⟨by decide, ' ', by decide, (congrArg (fun b => [b]) (Option.some.inj h))⟩
  · obtain ⟨rfl, rfl, rfl⟩ : a = 0x30 ∧ b = 0x31 ∧ c = 0x31 := by simpa using h₂
    exact ⟨by decide, '\t', by decide, (congrArg (fun b => [b]) (Option.some.inj h))⟩
  · obtain ⟨rfl, rfl, rfl⟩ : a = 0x30 ∧ b = 0x31 ∧ c = 0x32 := by simpa using h₃
    exact ⟨by decide, '\n', by decide, (congrArg (fun b => [b]) (Option.some.inj h))⟩
  · obtain ⟨rfl, rfl, rfl⟩ : a = 0x31 ∧ b = 0x33 ∧ c = 0x34 := by simpa using h₄
    exact ⟨by decide, '\\', by decide, (congrArg (fun b => [b]) (Option.some.inj h))⟩

/-- What a text is decoded to is a text again, of its characters and the ones with an escape. -/
theorem exists_unescapeBytes (text : List Char) : ∃ decoded,
    unescapeBytes (utf8Bytes text) = utf8Bytes decoded ∧
      ∀ c ∈ decoded, c ∈ text ∨ c ∈ [' ', '\t', '\n', '\\'] := by
  induction h : text.length using Nat.strong_induction_on generalizing text with
  | _ n ih =>
    subst h
    obtain _ | ⟨c, rest⟩ := text
    · exact ⟨[], rfl, fun c hc => absurd hc List.not_mem_nil⟩
    have hrest : utf8Bytes (c :: rest) = String.utf8EncodeChar c ++ utf8Bytes rest := rfl
    -- the character stays and the rest is decoded
    have hkeep : unescapeBytes (utf8Bytes (c :: rest)) =
        String.utf8EncodeChar c ++ unescapeBytes (utf8Bytes rest) → ∃ decoded,
          unescapeBytes (utf8Bytes (c :: rest)) = utf8Bytes decoded ∧
            ∀ d ∈ decoded, d ∈ c :: rest ∨ d ∈ [' ', '\t', '\n', '\\'] := fun hstep => by
      obtain ⟨decoded, hdecoded, hmem⟩ := ih rest.length (Nat.lt_succ_self _) rest rfl
      refine ⟨c :: decoded, by rw [hstep, hdecoded]; rfl, fun d hd => ?_⟩
      rcases List.mem_cons.mp hd with rfl | hd
      · exact .inl List.mem_cons_self
      · exact (hmem d hd).imp_left (List.mem_cons_of_mem c)
    by_cases hc : c = '\\'
    · subst hc
      by_cases hescape : ∃ a b d bytes byte, utf8Bytes rest = a :: b :: d :: bytes ∧
          decodeEscape a b d = some byte
      · obtain ⟨a, b, d, bytes, byte, hbytes, hbyte⟩ := hescape
        obtain ⟨⟨ha, hb, hd⟩, e, he, hebyte⟩ := decodeEscape_eq_some hbyte
        obtain ⟨c₁, rest₁, rfl, -, h₁⟩ := cons_of_utf8Bytes ha hbytes
        obtain ⟨c₂, rest₂, rfl, -, h₂⟩ := cons_of_utf8Bytes hb h₁
        obtain ⟨c₃, rest₃, rfl, -, h₃⟩ := cons_of_utf8Bytes hd h₂
        obtain ⟨decoded, hdecoded, hmem⟩ := ih rest₃.length
          (by simp only [List.length_cons]; omega) rest₃ rfl
        have hstep : unescapeBytes (utf8Bytes ('\\' :: c₁ :: c₂ :: c₃ :: rest₃)) =
            byte :: unescapeBytes (utf8Bytes rest₃) := by
          rw [hrest, hbytes, ← h₃]
          exact unescapeBytes_escape hbyte _
        refine ⟨e :: decoded, ?_, fun x hx => ?_⟩
        · rw [hstep, hdecoded, utf8Bytes, utf8Bytes, List.flatMap_cons, hebyte]
          rfl
        · rcases List.mem_cons.mp hx with rfl | hx
          · exact .inr he
          · exact (hmem x hx).imp_left fun hx => by simp [hx]
      · exact hkeep (unescapeBytes_cons_of_none fun a b d bytes hbytes =>
          Option.eq_none_iff_forall_ne_some.mpr fun byte hbyte =>
            hescape ⟨a, b, d, bytes, byte, hbytes, hbyte⟩)
    · exact hkeep (by rw [hrest, unescapeBytes_append (backslash_not_mem hc)])

/-- A decoded field has the characters of the field and the ones with an escape. -/
theorem mem_unescapeMountField {field : List Char} {c : Char}
    (h : c ∈ unescapeMountField field) : c ∈ field ∨ c ∈ [' ', '\t', '\n', '\\'] := by
  obtain ⟨decoded, hdecoded, hmem⟩ := exists_unescapeBytes field
  unfold unescapeMountField at h
  dsimp only at h
  split_ifs at h
  · rw [hdecoded, fromUtf8_utf8Bytes] at h
    exact hmem c h
  · exact .inl h

/-! ## The file -/

namespace Fstab

/-- One parsed line of the file. -/
structure Entry where
  device : List Char
  mountpoint : List Char
  fstype : List Char
  options : List Char
deriving DecidableEq, Repr

/-- The four fields that matter, if the line has them. -/
def readEntry (line : List Char) : Option (List Char × List Char × List Char × List Char) :=
  match splitWhitespace line with
  | device :: mountpoint :: fstype :: options :: _ =>
    some (unescapeMountField device, unescapeMountField mountpoint, unescapeMountField fstype,
      unescapeMountField options)
  | _ => none

/-- The entry or the warning that a line comes to, if any. -/
def readLine (index : ℕ) (line : List Char) : Option (Except String Entry) :=
  let line := trim line
  if line.isEmpty || line.head? = some '#' then none
  else
    match readEntry line with
    | none => some (.error (s!"/etc/fstab:{index + 1}: expected at least four fields, " ++
        s!"skipping: {String.ofList line}"))
    | some (device, mountpoint, fstype, options) =>
      if fstype ≠ "swap".toList ∧ mountpoint.head? ≠ some '/' then
        some (.error (s!"/etc/fstab:{index + 1}: mountpoint '{String.ofList mountpoint}' " ++
          "is not absolute, skipping"))
      else if (options.splitOn ',').any fun option => trim option = "noauto".toList then none
      else some (.ok { device, mountpoint, fstype, options })

/-- The loop over the lines. -/
def parseFrom : ℕ → List (List Char) → List Entry × List String
  | _, [] => ([], [])
  | index, line :: rest =>
    let later := parseFrom (index + 1) rest
    match readLine index line with
    | none => later
    | some (.ok entry) => (entry :: later.1, later.2)
    | some (.error warning) => (later.1, warning :: later.2)

/-- The entries of the file in order, and a warning for each line that could not be used. -/
def parse (text : List Char) : List Entry × List String := parseFrom 0 (lines text)

/-- Whether the boot wants the second wave at all. -/
def enabled (cmdline : List Char) : Bool :=
  !(splitWhitespace cmdline).any fun token => token = "nofstab".toList

/-! ## Lines are read on their own -/

/-- The entry of a line. -/
def entryOf (line : List Char) : Option Entry := (readLine 0 line).bind Except.toOption

/-- The number of a line is only told. -/
theorem readLine_toOption (index : ℕ) (line : List Char) :
    (readLine index line).bind Except.toOption = entryOf line := by
  unfold entryOf readLine
  dsimp only
  by_cases hskip : ((trim line).isEmpty || (trim line).head? = some '#') = true
  · rw [if_pos hskip, if_pos hskip]
  · rw [if_neg hskip, if_neg hskip]
    cases readEntry (trim line) with
    | none => simp only [Option.bind_some, Except.toOption]
    | some fields =>
      obtain ⟨device, mountpoint, fstype, options⟩ := fields
      dsimp only
      split_ifs <;> simp only [Option.bind_some, Option.bind_none, Except.toOption]

theorem parseFrom_fst (index : ℕ) (ls : List (List Char)) :
    (parseFrom index ls).1 = ls.filterMap entryOf := by
  induction ls generalizing index with
  | nil => rfl
  | cons line rest ih =>
    rw [parseFrom, List.filterMap_cons, ← readLine_toOption index, ← ih (index + 1)]
    cases readLine index line with
    | none => rfl
    | some read => cases read <;> rfl

theorem parse_fst (text : List Char) : (parse text).1 = (lines text).filterMap entryOf :=
  parseFrom_fst 0 _

/-- What stands on the lines before has no effect on an entry, and neither has what comes after. -/
theorem parse_append {a : List Char} (h : a = [] ∨ a.getLast? = some '\n') (b : List Char) :
    (parse (a ++ b)).1 = (parse a).1 ++ (parse b).1 := by
  rw [parse_fst, parse_fst, parse_fst, lines, splitInclusive_append_of_ends h, List.map_append,
    List.filterMap_append]
  rfl

/-- No white space that is left as it is gets into a field. -/
theorem not_kept_of_mem_splitWhitespace {line piece : List Char}
    (h : piece ∈ splitWhitespace line) : ∀ c ∈ unescapeMountField piece, isKept c = false := by
  intro c hc
  rcases mem_unescapeMountField hc with hc | hc
  · have hwhite := forall_mem_splitOnP (List.mem_filter.mp h).1 c hc
    rw [isKept, hwhite]
    rfl
  · simp only [List.mem_cons, List.not_mem_nil, or_false] at hc
    rcases hc with rfl | rfl | rfl | rfl <;> decide

theorem readEntry_eq_some {line device mountpoint fstype options : List Char}
    (h : readEntry line = some (device, mountpoint, fstype, options)) :
    (∀ c ∈ device, isKept c = false) ∧ ∀ c ∈ mountpoint, isKept c = false := by
  unfold readEntry at h
  split at h
  · next d m f o rest hwords =>
    have hfields := Option.some.inj h
    simp only [Prod.mk.injEq] at hfields
    obtain ⟨rfl, rfl, -, -⟩ := hfields
    exact ⟨not_kept_of_mem_splitWhitespace (by rw [hwords]; simp),
      not_kept_of_mem_splitWhitespace (by rw [hwords]; simp)⟩
  · cases h

/-- An entry that is not for swap has an absolute mount point, and the kernel's table of mounts
can show its paths. -/
theorem of_mem_parse {text : List Char} {e : Entry} (h : e ∈ (parse text).1) :
    ((∀ c ∈ e.device, isKept c = false) ∧ ∀ c ∈ e.mountpoint, isKept c = false) ∧
      (e.fstype ≠ "swap".toList → e.mountpoint.head? = some '/') := by
  rw [parse_fst] at h
  obtain ⟨line, -, hline⟩ := List.mem_filterMap.mp h
  unfold entryOf readLine at hline
  dsimp only at hline
  by_cases hskip : ((trim line).isEmpty || (trim line).head? = some '#') = true
  · rw [if_pos hskip] at hline
    cases hline
  · rw [if_neg hskip] at hline
    cases hread : readEntry (trim line) with
    | none =>
      rw [hread] at hline
      cases hline
    | some fields =>
      obtain ⟨device, mountpoint, fstype, options⟩ := fields
      rw [hread] at hline
      dsimp only at hline
      split_ifs at hline with hrel hauto
      · cases hline
      · cases hline
      · obtain rfl := Option.some.inj hline
        exact ⟨readEntry_eq_some hread, fun hswap => by
          by_contra hhead
          exact hrel ⟨hswap, hhead⟩⟩

/-! ## Written files -/

theorem not_kept_of_all {field : List Char} (h : field.all (fun c => !isKept c) = true) :
    ∀ c ∈ field, isKept c = false := by
  simpa using h

/-- A mount can be written as a line of the file : its fields have no white space that is not
escaped, there are options, and it does not begin as a comment does. -/
structure Written (m : Mount) : Prop where
  device : ∀ c ∈ m.device, isKept c = false
  point : ∀ c ∈ m.point, isKept c = false
  fstype : ∀ c ∈ m.fstype, isKept c = false
  options : ∀ c ∈ m.options, isKept c = false
  options_ne : m.options ≠ []
  noComment : m.device.head? ≠ some '#'

/-- The entry for a mount. -/
def entry (m : Mount) : Entry where
  device := m.device
  mountpoint := m.point
  fstype := m.fstype
  options := m.options

/-- An entry that is kept. -/
def Entry.wanted (e : Entry) : Bool :=
  (e.fstype = "swap".toList || e.mountpoint.head? = some '/') &&
    !(e.options.splitOn ',').any fun option => trim option = "noauto".toList

theorem Entry.wanted_iff (e : Entry) : e.wanted = true ↔
    ¬ (e.fstype ≠ "swap".toList ∧ e.mountpoint.head? ≠ some '/') ∧
      ¬ ((e.options.splitOn ',').any fun option => trim option = "noauto".toList) = true := by
  rw [Entry.wanted, Bool.and_eq_true, Bool.or_eq_true, decide_eq_true_iff, decide_eq_true_iff,
    Bool.not_eq_true', Bool.not_eq_true, not_and_or, not_not, not_not]

theorem Written.splitWhitespace_line {m : Mount} (h : Written m) :
    splitWhitespace m.line = escapeField m.device :: escapeField m.point ::
      escapeField m.fstype :: escapeField m.options :: [['0'], ['0']] := by
  rw [Rinit.splitWhitespace_line, Mount.pieces, pieces_of_not_kept m.device_ne h.device,
    pieces_of_not_kept m.point_ne h.point, pieces_of_not_kept m.fstype_ne h.fstype,
    pieces_of_not_kept h.options_ne h.options]
  rfl

theorem getLast?_line (m : Mount) : m.line.getLast? = some '0' := by
  simp [Mount.line, List.getLast?_append, List.getLast?_cons]

/-- The line begins with the device. -/
theorem Written.head?_line {m : Mount} (h : Written m) :
    ∃ c, m.line.head? = some c ∧ isWhitespace c = false ∧ c ≠ '#' := by
  obtain ⟨c, device, hdevice⟩ := List.exists_cons_of_ne_nil m.device_ne
  have hplain := escapeChar_plain (h.device c (hdevice ▸ List.mem_cons_self))
  have hhash : c ≠ '#' := by
    rintro rfl
    exact h.noComment (by rw [hdevice]; rfl)
  have hline : ∃ more, m.line = escapeChar c ++ more := by
    rw [Mount.line, hdevice, escapeField, List.flatMap_cons, List.append_assoc]
    exact ⟨_, rfl⟩
  obtain ⟨more, hline⟩ := hline
  have hescape : ∃ d ds, escapeChar c = d :: ds ∧ d ≠ '#' := by
    unfold escapeChar
    split_ifs
    · exact ⟨_, _, rfl, by decide⟩
    · exact ⟨_, _, rfl, by decide⟩
    · exact ⟨_, _, rfl, by decide⟩
    · exact ⟨_, _, rfl, by decide⟩
    · exact ⟨_, _, rfl, hhash⟩
  obtain ⟨d, ds, hd, hne⟩ := hescape
  refine ⟨d, by rw [hline, hd]; rfl, hplain d (by rw [hd]; exact List.mem_cons_self), hne⟩

theorem Written.trim_line {m : Mount} (h : Written m) : trim m.line = m.line := by
  obtain ⟨c, hc, hplain, -⟩ := h.head?_line
  exact trim_eq_self_of_ends hc (getLast?_line m) hplain (by decide)

theorem Written.entryOf_line {m : Mount} (h : Written m) :
    entryOf m.line = if (entry m).wanted then some (entry m) else none := by
  obtain ⟨c, hc, -, hhash⟩ := h.head?_line
  have hread : readEntry m.line = some (m.device, m.point, m.fstype, m.options) := by
    rw [readEntry, h.splitWhitespace_line]
    simp only [unescapeMountField_escape]
  have hskip : ¬ (m.line.isEmpty || m.line.head? = some '#') = true := by
    obtain ⟨rest, hrest⟩ := List.head?_eq_some_iff.mp hc
    simpa [hrest] using hhash
  unfold entryOf readLine
  dsimp only
  rw [h.trim_line, if_neg hskip, hread]
  dsimp only
  have hwanted := (entry m).wanted_iff
  by_cases hrel : m.fstype ≠ "swap".toList ∧ m.point.head? ≠ some '/'
  · rw [if_pos hrel, if_neg fun hw => (hwanted.mp hw).1 hrel]
    rfl
  · rw [if_neg hrel]
    by_cases hauto : ((m.options.splitOn ',').any fun option => trim option = "noauto".toList) = true
    · rw [if_pos hauto, if_neg fun hw => (hwanted.mp hw).2 hauto]
      rfl
    · rw [if_neg hauto, if_pos (hwanted.mpr ⟨hrel, hauto⟩)]
      rfl

/-- The lines the kernel would write are read back, up to the ones that are not wanted. -/
theorem parse_procMounts {mounts : List Mount} (h : ∀ m ∈ mounts, Written m) :
    (parse (procMounts mounts)).1 = (mounts.map entry).filter Entry.wanted := by
  rw [parse_fst, lines_procMounts, List.filterMap_map]
  induction mounts with
  | nil => rfl
  | cons m mounts ih =>
    have hm := (h m List.mem_cons_self).entryOf_line
    rw [List.filterMap_cons, Function.comp_apply, hm, List.map_cons,
      ih fun m' hm' => h m' (List.mem_cons_of_mem m hm')]
    by_cases hw : (entry m).wanted = true
    · rw [if_pos hw, List.filter_cons_of_pos hw]
    · rw [if_neg hw, List.filter_cons_of_neg hw]

/-! ## The swap tools -/

namespace Tools

/-- A line as the tools read it. The device and the mount point are bytes. -/
structure Entry where
  device : List UInt8
  mountpoint : List UInt8
  fstype : List Char
  options : List Char
deriving DecidableEq, Repr

def isOctal (b : UInt8) : Bool := 0x30 ≤ b && b ≤ 0x37

/-- Decode escapes of three octal digits. The first digit is multiplied in a byte, and the build
stops at an overflow, which is `none`. -/
def unescape : List UInt8 → Option (List UInt8)
  | byte :: a :: b :: c :: rest =>
    if byte = 0x5C ∧ isOctal a ∧ isOctal b ∧ isOctal c then
      if (a - 0x30).toNat * 64 < 256 then
        (unescape rest).map (((a - 0x30) * 64 + (b - 0x30) * 8 + (c - 0x30)) :: ·)
      else none
    else (unescape (a :: b :: c :: rest)).map (byte :: ·)
  | short => some short

/-- The entry or the warning that a line comes to, if any. A comment may stand behind an entry. -/
def readLine (number : ℕ) (line : List Char) : Option (Option (Except String Entry)) :=
  let line := trim (line.takeWhile fun c => c ≠ '#')
  if line.isEmpty then some none
  else
    match splitWhitespace line with
    | device :: mountpoint :: fstype :: options :: _ => do
      let device ← unescape (utf8Bytes device)
      let mountpoint ← unescape (utf8Bytes mountpoint)
      return some (.ok { device, mountpoint, fstype, options })
    | _ => some (some (.error s!"line {number + 1}: malformed fstab entry: {String.ofList line}"))

def parseFrom : ℕ → List (List Char) → Option (List Entry × List String)
  | _, [] => some ([], [])
  | number, line :: rest => do
    match ← readLine number line with
    | none => parseFrom (number + 1) rest
    | some (.ok entry) =>
      let later ← parseFrom (number + 1) rest
      return (entry :: later.1, later.2)
    | some (.error warning) =>
      let later ← parseFrom (number + 1) rest
      return (later.1, warning :: later.2)

def parse (text : List Char) : Option (List Entry × List String) := parseFrom 0 (lines text)

def hasOption (options option : List Char) : Bool :=
  (options.splitOn ',').any fun value => value = option

/-- The swap entries of the file. `swapoff -a` takes the ones with `noauto` as well. -/
def readSwapEntries (text : List Char) (includeNoauto : Bool) :
    Option (List Entry × List String) := do
  let (entries, warnings) ← parse text
  return ((entries.filter fun entry => entry.fstype = "swap".toList).filter fun entry =>
    includeNoauto || !hasOption entry.options "noauto".toList, warnings)

theorem unescape_cons {byte : UInt8} (h : byte ≠ 0x5C) (rest : List UInt8) :
    unescape (byte :: rest) = (unescape rest).map (byte :: ·) := by
  rcases rest with _ | ⟨a, _ | ⟨b, _ | ⟨c, rest⟩⟩⟩
  · rfl
  · rfl
  · rfl
  · rw [unescape, if_neg fun hbyte => h hbyte.1]

theorem unescape_append {bytes : List UInt8} (h : 0x5C ∉ bytes) (rest : List UInt8) :
    unescape (bytes ++ rest) = (unescape rest).map (bytes ++ ·) := by
  induction bytes with
  | nil => exact (Option.map_id' (x := unescape rest)).symm
  | cons byte bytes ih =>
    rw [List.mem_cons, not_or] at h
    rw [List.cons_append, unescape_cons (Ne.symm h.1), ih h.2, Option.map_map]
    rfl

/-- A character is read back from the escape of the kernel. -/
theorem unescape_escapeChar (c : Char) (rest : List UInt8) :
    unescape (utf8Bytes (escapeChar c) ++ rest) =
      (unescape rest).map (String.utf8EncodeChar c ++ ·) := by
  unfold escapeChar
  split_ifs with h₁ h₂ h₃ h₄
  · subst h₁
    exact if_pos (by decide)
  · subst h₂
    exact if_pos (by decide)
  · subst h₃
    exact if_pos (by decide)
  · subst h₄
    exact if_pos (by decide)
  · rw [utf8Bytes, List.flatMap_singleton, unescape_append (backslash_not_mem h₄)]

theorem unescape_escapeField (field : List Char) :
    unescape (utf8Bytes (escapeField field)) = some (utf8Bytes field) := by
  induction field with
  | nil => rfl
  | cons c field ih =>
    rw [escapeField, List.flatMap_cons, ← escapeField, utf8Bytes_append, unescape_escapeChar, ih]
    rfl

end Tools

/-- A mount can be written for the tools as well : there is no comment in it, and its type and its
options, which they do not decode, need no escape. -/
structure Common (m : Mount) : Prop extends Written m where
  noHash : '#' ∉ m.device ++ m.point ++ m.fstype ++ m.options
  fstype_raw : ∀ c ∈ m.fstype, escapeChar c = [c]
  options_raw : ∀ c ∈ m.options, escapeChar c = [c]

/-- An entry with its paths as bytes. -/
def Entry.bytes (e : Entry) : Tools.Entry where
  device := utf8Bytes e.device
  mountpoint := utf8Bytes e.mountpoint
  fstype := e.fstype
  options := e.options

theorem escapeField_raw {field : List Char} (h : ∀ c ∈ field, escapeChar c = [c]) :
    escapeField field = field := by
  rw [escapeField, List.flatMap_congr h, List.flatMap_singleton']

theorem raw_of_all {field : List Char} (h : field.all (fun c => escapeChar c = [c]) = true) :
    ∀ c ∈ field, escapeChar c = [c] := by
  simpa using h

theorem hash_not_mem_escapeField {field : List Char} (h : '#' ∉ field) :
    '#' ∉ escapeField field := by
  intro hmem
  obtain ⟨c, hc, hmem⟩ := List.mem_flatMap.mp hmem
  have hne : c ≠ '#' := fun heq => h (heq ▸ hc)
  unfold escapeChar at hmem
  split_ifs at hmem
  · exact absurd hmem (by decide)
  · exact absurd hmem (by decide)
  · exact absurd hmem (by decide)
  · exact absurd hmem (by decide)
  · exact hne (List.mem_singleton.mp hmem).symm

theorem Common.takeWhile_line {m : Mount} (h : Common m) :
    m.line.takeWhile (fun c => c ≠ '#') = m.line := by
  have hhash := h.noHash
  simp only [List.mem_append, not_or] at hhash
  have hline : '#' ∉ m.line := by
    simp [Mount.line, hash_not_mem_escapeField hhash.1.1.1, hash_not_mem_escapeField hhash.1.1.2,
      hash_not_mem_escapeField hhash.1.2, hash_not_mem_escapeField hhash.2]
  exact List.takeWhile_eq_self_iff.mpr fun c hc => by
    simpa using fun heq : c = '#' => hline (heq ▸ hc)

/-- The tools read the line as the mount pass does. -/
theorem Common.readLine_line {m : Mount} (h : Common m) (number : ℕ) :
    Tools.readLine number m.line = some (some (.ok (entry m).bytes)) := by
  obtain ⟨c, hc, -, -⟩ := h.head?_line
  have hne : ¬ m.line.isEmpty = true := by
    obtain ⟨rest, hrest⟩ := List.head?_eq_some_iff.mp hc
    simp [hrest]
  unfold Tools.readLine
  dsimp only
  rw [h.takeWhile_line, h.trim_line, if_neg hne, h.splitWhitespace_line]
  dsimp only
  rw [Tools.unescape_escapeField, Tools.unescape_escapeField, escapeField_raw h.fstype_raw,
    escapeField_raw h.options_raw]
  rfl

theorem parseFrom_tools {mounts : List Mount} (h : ∀ m ∈ mounts, Common m) (number : ℕ) :
    Tools.parseFrom number (mounts.map Mount.line) =
      some (mounts.map fun m => (entry m).bytes, []) := by
  induction mounts generalizing number with
  | nil => rfl
  | cons m mounts ih =>
    have hm := (h m List.mem_cons_self).readLine_line number
    have hrest := ih (fun m' hm' => h m' (List.mem_cons_of_mem m hm')) (number + 1)
    simp only [List.map_cons, Tools.parseFrom, hm, hrest, Option.bind_eq_bind, Option.bind_some]
    rfl

theorem mem_of_mem_splitOnP {α : Type*} {p : α → Bool} {field piece : List α}
    (h : piece ∈ field.splitOnP p) : piece ⊆ field := by
  induction field generalizing piece with
  | nil =>
    rw [List.splitOnP_nil, List.mem_singleton] at h
    rw [h]
    exact List.Subset.refl _
  | cons d field ih =>
    rw [List.splitOnP_cons_eq_if_modifyHead] at h
    split at h
    · rcases List.mem_cons.mp h with rfl | h
      · exact List.nil_subset _
      · exact List.Subset.trans (ih h) (List.subset_cons_self d field)
    · cases hsplit : field.splitOnP p with
      | nil => exact absurd hsplit (List.splitOnP_ne_nil _ _)
      | cons first rest =>
        rw [hsplit] at h ih
        rcases List.mem_cons.mp h with rfl | h
        · exact List.cons_subset_cons d (ih List.mem_cons_self)
        · exact List.Subset.trans (ih (List.mem_cons_of_mem _ h)) (List.subset_cons_self d field)

/-- No option of a common line has blanks around it. -/
theorem Common.trim_option {m : Mount} (h : Common m) {option : List Char}
    (hmem : option ∈ m.options.splitOn ',') : trim option = option := by
  refine trim_eq_self fun c hc => ?_
  rw [List.splitOn_eq_splitOnP] at hmem
  have hc := mem_of_mem_splitOnP hmem hc
  have hraw := escapeChar_plain (h.options c hc)
  rw [h.options_raw c hc] at hraw
  exact hraw c List.mem_cons_self

theorem Common.hasOption_eq {m : Mount} (h : Common m) :
    Tools.hasOption m.options "noauto".toList =
      (m.options.splitOn ',').any fun option => trim option = "noauto".toList := by
  rw [Tools.hasOption, Bool.eq_iff_iff, List.any_eq_true, List.any_eq_true]
  refine exists_congr fun option => and_congr_right fun hmem => ?_
  rw [h.trim_option hmem]

/-- `swapon -a` takes exactly the entries that the mount pass leaves to it. -/
theorem swapEntries_eq {mounts : List Mount} (h : ∀ m ∈ mounts, Common m) :
    Tools.readSwapEntries (procMounts mounts) false =
      some ((((parse (procMounts mounts)).1.filter fun e => e.fstype = "swap".toList).map
        Entry.bytes), []) := by
  rw [Tools.readSwapEntries, Tools.parse, lines_procMounts, parseFrom_tools h,
    parse_procMounts fun m hm => (h m hm).toWritten, List.filter_filter, List.filter_map,
    List.map_map]
  simp only [Option.bind_eq_bind, Option.bind_some, List.filter_filter, List.filter_map]
  refine congrArg (fun entries => some (entries, [])) (congrArg _ (List.filter_congr fun m hm => ?_))
  have hoption := (h m hm).hasOption_eq
  by_cases hswap : m.fstype = "swap".toList
  · simp only [Function.comp_apply, Entry.bytes, entry, Entry.wanted, hswap, hoption]
    simp
  · simp only [Function.comp_apply, Entry.bytes, entry, hswap, decide_false, Bool.false_and,
      Bool.and_false]

/-- A swap partition. -/
def swapMount : Mount where
  device := "/dev/vda3".toList
  point := "none".toList
  fstype := "swap".toList
  options := "sw,pri=5".toList
  device_ne := by decide
  point_ne := by decide
  fstype_ne := by decide
  noNul := by decide

/-- A partition with a space in the name of its mount point. -/
def dataMount : Mount where
  device := "/dev/vda2".toList
  point := "/my data".toList
  fstype := "f2fs".toList
  options := "ro".toList
  device_ne := by decide
  point_ne := by decide
  fstype_ne := by decide
  noNul := by decide

theorem swapEntries_two : (∀ m ∈ [dataMount, swapMount], Common m) ∧
    Tools.readSwapEntries (procMounts [dataMount, swapMount]) false =
      some ((((parse (procMounts [dataMount, swapMount])).1.filter fun e =>
        e.fstype = "swap".toList).map Entry.bytes), []) := by
  have hcommon : ∀ m ∈ [dataMount, swapMount], Common m := by
    intro m hm
    simp only [List.mem_cons, List.not_mem_nil, or_false] at hm
    rcases hm with rfl | rfl <;>
      exact ⟨⟨not_kept_of_all (by decide), not_kept_of_all (by decide),
        not_kept_of_all (by decide), not_kept_of_all (by decide), by decide, by decide⟩,
        by decide, raw_of_all (by decide), raw_of_all (by decide)⟩
  exact ⟨hcommon, swapEntries_eq hcommon⟩

end Fstab

end Rinit
