import Rinit.Lines
import Rinit.Lossy
import Rinit.Parser

/-!
# The mount table

At shutdown everything that `/proc/mounts` lists is unmounted, the last first (`unmountOrder`).
The kernel writes a mount a line and escapes space, tab, line feed and backslash in a field
(`procMounts`), and the reader undoes that (`unescapeMountField_escape`).

The reader splits a line at every white space, and the kernel leaves some of it as it is :
that is what the two disagree on (`isKept`). `unmount_order_iff` : a table is read back, and
with it every selection of its lines, exactly if the second piece of each line is the mount
point (`Mount.Plain`), as it is when device and mount point have no such character
(`Mount.plain_of_not_kept`).
-/

namespace Rinit

open Codec

/-! ## The reader -/

/-- The byte that an escape stands for. -/
def decodeEscape (a b c : UInt8) : Option UInt8 :=
  if (a, b, c) = (0x30, 0x34, 0x30) then some 0x20
  else if (a, b, c) = (0x30, 0x31, 0x31) then some 0x09
  else if (a, b, c) = (0x30, 0x31, 0x32) then some 0x0A
  else if (a, b, c) = (0x31, 0x33, 0x34) then some 0x5C
  else none

/-- The bytes of a field with its escapes decoded. Three bytes or less have none. -/
def unescapeBytes : List UInt8 → List UInt8
  | byte :: a :: b :: c :: rest =>
    match if byte = 0x5C then decodeEscape a b c else none with
    | some decoded => decoded :: unescapeBytes rest
    | none => byte :: unescapeBytes (a :: b :: c :: rest)
  | short => short

/-- Decode the octal escapes of a field. -/
def unescapeMountField (field : List Char) : List Char :=
  let bytes := utf8Bytes field
  if 0x5C ∈ bytes then (fromUtf8 (unescapeBytes bytes)).getD field else field

/-- The mount points to unmount at shutdown, most recently mounted first. -/
def unmountOrder (procMounts : List Char) : List (List Char) :=
  (((lines procMounts).filterMap fun line => (splitWhitespace line)[1]?).map
    unescapeMountField |>.filter fun point => point ≠ ['/']).reverse

/-! ## The kernel -/

/-- A mount. -/
structure Mount where
  device : List Char
  point : List Char
  fstype : List Char
  options : List Char
  device_ne : device ≠ []
  point_ne : point ≠ []
  fstype_ne : fstype ≠ []
  noNul : '\x00' ∉ device ++ point ++ fstype ++ options

def escapeChar (c : Char) : List Char :=
  if c = ' ' then ['\\', '0', '4', '0']
  else if c = '\t' then ['\\', '0', '1', '1']
  else if c = '\n' then ['\\', '0', '1', '2']
  else if c = '\\' then ['\\', '1', '3', '4']
  else [c]

def escapeField (field : List Char) : List Char := field.flatMap escapeChar

namespace Mount

/-- The line of a mount. -/
def line (m : Mount) : List Char :=
  escapeField m.device ++ ' ' :: (escapeField m.point ++ ' ' :: (escapeField m.fstype ++
    ' ' :: (escapeField m.options ++ " 0 0".toList)))

end Mount

/-- `/proc/mounts`. -/
def procMounts (mounts : List Mount) : List Char := mounts.flatMap fun m => m.line ++ ['\n']

/-- What there is to unmount. -/
def mountPoints (mounts : List Mount) : List (List Char) :=
  ((mounts.map Mount.point).filter fun point => point ≠ ['/']).reverse

/-- White space that the kernel does not escape. -/
def isKept (c : Char) : Bool := isWhitespace c && c ≠ ' ' && c ≠ '\t' && c ≠ '\n'

/-- The parts of a field between the white space that is kept. -/
def fieldPieces (field : List Char) : List (List Char) :=
  (field.splitOnP isKept).filter fun piece => !piece.isEmpty

/-- The mount point has no white space that is kept, and what stands in front of it on the line is
one piece, or else the second piece of the line happens to be the mount point. -/
def Mount.Plain (m : Mount) : Prop :=
  (∀ c ∈ m.point, isKept c = false) ∧
    ((fieldPieces m.device).length = 1 ∨
      (fieldPieces m.device = [] ∧
        (fieldPieces m.fstype ++ fieldPieces m.options ++ [['0']]).head? = some m.point) ∨
      (fieldPieces m.device)[1]? = some m.point)

/-! ## Escapes -/

theorem unescapeBytes_cons {byte : UInt8} (h : byte ≠ 0x5C) (rest : List UInt8) :
    unescapeBytes (byte :: rest) = byte :: unescapeBytes rest := by
  rcases rest with _ | ⟨a, _ | ⟨b, _ | ⟨c, rest⟩⟩⟩
  · rfl
  · rfl
  · rfl
  · rw [unescapeBytes, if_neg h]

theorem unescapeBytes_append {bytes : List UInt8} (h : 0x5C ∉ bytes) (rest : List UInt8) :
    unescapeBytes (bytes ++ rest) = bytes ++ unescapeBytes rest := by
  induction bytes with
  | nil => rfl
  | cons byte bytes ih =>
    rw [List.mem_cons, not_or] at h
    rw [List.cons_append, unescapeBytes_cons (Ne.symm h.1), ih h.2]
    rfl

theorem unescapeBytes_escape {a b c byte : UInt8} (h : decodeEscape a b c = some byte)
    (rest : List UInt8) :
    unescapeBytes (0x5C :: a :: b :: c :: rest) = byte :: unescapeBytes rest := by
  rw [unescapeBytes, if_pos rfl, h]

/-- Only the backslash has the byte of the backslash in it. -/
theorem backslash_not_mem {c : Char} (h : c ≠ '\\') : 0x5C ∉ String.utf8EncodeChar c := by
  intro hmem
  obtain ⟨b, bs, hc, -, hbs⟩ := utf8EncodeChar_eq_cons c
  obtain ⟨b', bs', hc', hnext⟩ := nextChar_utf8EncodeChar c []
  obtain ⟨rfl, rfl⟩ : b = b' ∧ bs = bs' := List.cons.inj (hc.symm.trans hc')
  rw [hc] at hmem
  rcases List.mem_cons.mp hmem with rfl | hmem
  · exact h (congrArg Prod.fst hnext.symm)
  · exact absurd (hbs _ hmem) (by decide)

/-- A character is read back from its escape. -/
theorem unescapeBytes_escapeChar (c : Char) (rest : List UInt8) :
    unescapeBytes (utf8Bytes (escapeChar c) ++ rest) =
      String.utf8EncodeChar c ++ unescapeBytes rest := by
  unfold escapeChar
  split_ifs with h₁ h₂ h₃ h₄
  · subst h₁
    exact unescapeBytes_escape (by decide) rest
  · subst h₂
    exact unescapeBytes_escape (by decide) rest
  · subst h₃
    exact unescapeBytes_escape (by decide) rest
  · subst h₄
    exact unescapeBytes_escape (by decide) rest
  · rw [utf8Bytes, List.flatMap_singleton, unescapeBytes_append (backslash_not_mem h₄)]

theorem unescapeBytes_escapeField (field : List Char) :
    unescapeBytes (utf8Bytes (escapeField field)) = utf8Bytes field := by
  induction field with
  | nil => rfl
  | cons c field ih =>
    rw [escapeField, List.flatMap_cons, ← escapeField, utf8Bytes_append,
      unescapeBytes_escapeChar, ih, utf8Bytes, utf8Bytes, List.flatMap_cons]

/-- The reader undoes the escapes of the kernel. -/
theorem unescapeMountField_escape (field : List Char) :
    unescapeMountField (escapeField field) = field := by
  unfold unescapeMountField
  dsimp only
  have hbytes := unescapeBytes_escapeField field
  split_ifs with h
  · rw [hbytes, fromUtf8_utf8Bytes]
    rfl
  · -- without a backslash there was nothing to escape
    have hself := unescapeBytes_append h []
    rw [List.append_nil] at hself
    have htext := congrArg fromUtf8 (hself.symm.trans hbytes)
    simp only [unescapeBytes, List.append_nil, fromUtf8_utf8Bytes, Option.some.injEq] at htext
    exact htext

/-! ## Lines -/

theorem splitOnP_append_plain {word : List Char} (h : ∀ c ∈ word, isWhitespace c = false)
    (s : List Char) : (word ++ s).splitOnP isWhitespace =
      (s.splitOnP isWhitespace).modifyHead (word ++ ·) := by
  induction word with
  | nil =>
    rw [List.nil_append]
    cases s.splitOnP isWhitespace <;> rfl
  | cons c word ih =>
    rw [List.cons_append, List.splitOnP_cons_eq_if_modifyHead, h c List.mem_cons_self,
      ih fun d hd => h d (List.mem_cons_of_mem c hd)]
    cases s.splitOnP isWhitespace <;> rfl

/-- Only white space that is kept is white space in an escape. -/
theorem escapeChar_plain {c : Char} (h : isKept c = false) :
    ∀ d ∈ escapeChar c, isWhitespace d = false := by
  simp only [← Bool.not_eq_true, ← List.any_eq_false]
  unfold escapeChar
  split_ifs with h₁ h₂ h₃ h₄
  · decide
  · decide
  · decide
  · decide
  · rw [List.any_cons, List.any_nil, Bool.or_false]
    simpa [isKept, h₁, h₂, h₃] using h

theorem escapeChar_kept {c : Char} (h : isKept c = true) :
    escapeChar c = [c] ∧ isWhitespace c = true := by
  simp only [isKept, Bool.and_eq_true, decide_eq_true_eq, ne_eq] at h
  obtain ⟨⟨⟨hwhite, h₁⟩, h₂⟩, h₃⟩ := h
  have h₄ : c ≠ '\\' := by
    rintro rfl
    exact absurd hwhite (by decide)
  exact ⟨by rw [escapeChar, if_neg h₁, if_neg h₂, if_neg h₃, if_neg h₄], hwhite⟩

/-- Splitting an escaped field splits the field where white space is kept. -/
theorem splitOnP_escapeField (field : List Char) :
    (escapeField field).splitOnP isWhitespace =
      (field.splitOnP isKept).map escapeField := by
  induction field with
  | nil => rfl
  | cons c field ih =>
    rw [escapeField, List.flatMap_cons, ← escapeField, List.splitOnP_cons_eq_if_modifyHead]
    by_cases hc : isKept c = true
    · obtain ⟨hescape, hwhite⟩ := escapeChar_kept hc
      rw [hescape, List.singleton_append, List.splitOnP_cons_eq_if_modifyHead, if_pos hwhite,
        if_pos hc, ih]
      rfl
    · rw [splitOnP_append_plain (escapeChar_plain (Bool.not_eq_true _ ▸ hc)), ih, if_neg hc]
      cases field.splitOnP isKept <;> rfl

theorem escapeField_eq_nil {field : List Char} : escapeField field = [] ↔ field = [] := by
  refine ⟨fun h => ?_, by rintro rfl; rfl⟩
  have hfield := unescapeMountField_escape field
  rw [h] at hfield
  exact hfield.symm.trans (unescapeMountField_escape [])

theorem splitWhitespace_escapeField (field : List Char) :
    splitWhitespace (escapeField field) = (fieldPieces field).map escapeField := by
  rw [splitWhitespace, splitOnP_escapeField, fieldPieces, List.filter_map]
  refine congrArg _ (List.filter_congr fun piece _ => ?_)
  rw [Function.comp_apply, Bool.eq_iff_iff, Bool.not_eq_true', Bool.not_eq_true',
    List.isEmpty_eq_false_iff, List.isEmpty_eq_false_iff, ne_eq, escapeField_eq_nil]

theorem splitWhitespace_append (a b : List Char) :
    splitWhitespace (a ++ ' ' :: b) = splitWhitespace a ++ splitWhitespace b := by
  rw [splitWhitespace, List.splitOnP_append_cons a b (by decide), List.filter_append]
  rfl

/-- The pieces of a line. -/
def Mount.pieces (m : Mount) : List (List Char) :=
  fieldPieces m.device ++ fieldPieces m.point ++
    (fieldPieces m.fstype ++ fieldPieces m.options ++ [['0'], ['0']])

theorem splitWhitespace_line (m : Mount) :
    splitWhitespace m.line = m.pieces.map escapeField := by
  have hend : splitWhitespace (escapeField m.options ++ " 0 0".toList) =
      (fieldPieces m.options ++ [['0'], ['0']]).map escapeField := by
    change splitWhitespace (escapeField m.options ++ ' ' :: "0 0".toList) = _
    rw [splitWhitespace_append, splitWhitespace_escapeField, List.map_append]
    rfl
  rw [Mount.line, splitWhitespace_append, splitWhitespace_append, splitWhitespace_append, hend]
  simp only [splitWhitespace_escapeField, Mount.pieces, List.map_append, List.append_assoc]

theorem newline_not_mem_escapeField (field : List Char) : '\n' ∉ escapeField field := by
  intro h
  obtain ⟨c, -, hc⟩ := List.mem_flatMap.mp h
  unfold escapeChar at hc
  split_ifs at hc with h₁ h₂ h₃ h₄
  · exact absurd hc (by decide)
  · exact absurd hc (by decide)
  · exact absurd hc (by decide)
  · exact absurd hc (by decide)
  · exact h₃ (List.mem_singleton.mp hc).symm

theorem newline_not_mem_line (m : Mount) : '\n' ∉ m.line := by
  have hend : '\n' ∉ " 0 0".toList := by decide
  simp only [Mount.line, List.mem_append, List.mem_cons, newline_not_mem_escapeField, hend,
    or_false, show ¬ '\n' = ' ' by decide, not_false_eq_true]

/-- The reader sees a line for each mount. -/
theorem lines_procMounts (mounts : List Mount) : lines (procMounts mounts) =
    mounts.map Mount.line := by
  have hstrip : ∀ m : Mount, stripLineEnd (m.line ++ ['\n']) = m.line := fun m => by
    have hlast : stripSuffix ['\r'] m.line = none := by
      cases h : stripSuffix ['\r'] m.line with
      | none => rfl
      | some front =>
        -- a line ends in a digit
        have hend : m.line = (escapeField m.device ++ ' ' :: (escapeField m.point ++
            ' ' :: (escapeField m.fstype ++ ' ' :: (escapeField m.options ++ " 0 ".toList)))) ++
              ['0'] := by simp [Mount.line]
        have heq := (eq_append_of_stripSuffix h).symm.trans hend
        exact absurd (List.append_inj' heq rfl).2 (by decide)
    rw [stripLineEnd, stripSuffix_append]
    simp only [hlast, Option.getD_none]
  induction mounts with
  | nil => rfl
  | cons m mounts ih =>
    rw [procMounts, List.flatMap_cons, ← procMounts, lines,
      splitInclusive_append_of_ends (.inr (by simp)),
      splitInclusive_concat (newline_not_mem_line m), List.map_append, ← lines, ih,
      List.map_singleton, hstrip, List.map_cons]
    rfl

/-- What the reader takes for the mount point. -/
def Mount.second (m : Mount) : Option (List Char) := m.pieces[1]?

theorem unmountOrder_procMounts (mounts : List Mount) : unmountOrder (procMounts mounts) =
    ((mounts.filterMap Mount.second).filter fun point => point ≠ ['/']).reverse := by
  rw [unmountOrder, lines_procMounts, List.filterMap_map, List.map_filterMap]
  have hsecond : ∀ m : Mount,
      ((splitWhitespace m.line)[1]?).map unescapeMountField = m.second := fun m => by
    rw [splitWhitespace_line, List.getElem?_map, Option.map_map, Mount.second]
    cases m.pieces[1]? with
    | none => rfl
    | some piece => exact congrArg some (unescapeMountField_escape piece)
  exact congrArg (fun points => (List.filter (fun point => point ≠ ['/']) points).reverse)
    (List.filterMap_congr fun m _ => hsecond m)

/-! ## Plain mounts -/

theorem pieces_of_not_kept {field : List Char} (hne : field ≠ [])
    (h : ∀ c ∈ field, isKept c = false) : fieldPieces field = [field] := by
  rw [fieldPieces, List.splitOnP_eq_singleton h]
  simp [hne]

theorem forall_mem_splitOnP {α : Type*} {p : α → Bool} {field piece : List α}
    (h : piece ∈ field.splitOnP p) : ∀ c ∈ piece, p c = false := by
  induction field generalizing piece with
  | nil =>
    rw [List.splitOnP_nil, List.mem_singleton] at h
    rw [h]
    exact fun c hc => absurd hc List.not_mem_nil
  | cons d field ih =>
    rw [List.splitOnP_cons_eq_if_modifyHead] at h
    split at h
    · rcases List.mem_cons.mp h with rfl | h
      · exact fun c hc => absurd hc List.not_mem_nil
      · exact ih h
    · next hd =>
      cases hsplit : field.splitOnP p with
      | nil => exact absurd hsplit (List.splitOnP_ne_nil _ _)
      | cons first rest =>
        rw [hsplit] at h ih
        rcases List.mem_cons.mp h with rfl | h
        · intro c hc
          rcases List.mem_cons.mp hc with rfl | hc
          · simpa using hd
          · exact ih List.mem_cons_self c hc
        · exact ih (List.mem_cons_of_mem _ h)

/-- A piece has no white space that is kept. -/
theorem not_kept_of_mem_pieces {field piece : List Char} (h : piece ∈ fieldPieces field) :
    ∀ c ∈ piece, isKept c = false := forall_mem_splitOnP (List.mem_filter.mp h).1

/-- The second piece of a line is the mount point exactly if the mount is plain. -/
theorem Mount.second_eq_iff (m : Mount) : m.second = some m.point ↔ m.Plain := by
  have hplain : m.second = some m.point → ∀ c ∈ m.point, isKept c = false := fun h => by
    have hmem := List.mem_of_getElem? h
    simp only [Mount.pieces, List.mem_append, List.mem_cons, List.not_mem_nil, or_false] at hmem
    rcases hmem with (hmem | hmem) | (hmem | hmem) | hmem
    · exact not_kept_of_mem_pieces hmem
    · exact not_kept_of_mem_pieces hmem
    · exact not_kept_of_mem_pieces hmem
    · exact not_kept_of_mem_pieces hmem
    · rw [or_self] at hmem
      rw [hmem, List.forall_mem_singleton]
      decide
  refine (and_iff_right_of_imp hplain).symm.trans (and_congr_right fun hpoint => ?_)
  rw [Mount.second, Mount.pieces, pieces_of_not_kept m.point_ne hpoint]
  cases fieldPieces m.device with
  | nil =>
    have hhead : ∀ l : List (List Char), ([] ++ [m.point] ++ (l ++ [['0'], ['0']]))[1]? =
        (l ++ [['0']]).head? := fun l => by cases l <;> rfl
    rw [hhead]
    simp
  | cons first rest =>
    cases rest with
    | nil => exact iff_of_true rfl (.inl rfl)
    | cons second rest => simp

theorem Mount.exists_second (m : Mount) : ∃ piece, m.second = some piece := by
  have hlen : 1 < m.pieces.length := by
    simp only [Mount.pieces, List.length_append, List.length_cons, List.length_nil]
    omega
  exact ⟨_, List.getElem?_eq_getElem hlen⟩

/-- A device and a mount point without such white space make a plain mount. -/
theorem Mount.plain_of_not_kept {m : Mount} (hdevice : ∀ c ∈ m.device, isKept c = false)
    (hpoint : ∀ c ∈ m.point, isKept c = false) : m.Plain :=
  ⟨hpoint, .inl (by rw [pieces_of_not_kept m.device_ne hdevice]; rfl)⟩

/-- A table is read back, and so is every selection of its lines, exactly if every mount in it is
plain. -/
theorem unmount_order_iff (mounts : List Mount) :
    (∀ part, part.Sublist mounts → unmountOrder (procMounts part) = mountPoints part) ↔
      ∀ m ∈ mounts, m.Plain := by
  constructor
  · intro h m hm
    have hone := h [m] (List.singleton_sublist.mpr hm)
    obtain ⟨piece, hpiece⟩ := m.exists_second
    rw [unmountOrder_procMounts, mountPoints, List.filterMap_cons_some hpiece] at hone
    have heq : [piece].filter (fun point => point ≠ ['/']) =
        [m.point].filter (fun point => point ≠ ['/']) := List.reverse_injective hone
    refine m.second_eq_iff.mp (hpiece.trans (congrArg some ?_))
    by_cases hroot : piece = ['/']
    · rw [hroot] at heq ⊢
      by_contra hne
      rw [List.filter_cons_of_neg (by simp), List.filter_cons_of_pos (by simpa using Ne.symm hne)]
        at heq
      cases heq
    · rw [List.filter_cons_of_pos (by simpa using hroot)] at heq
      have hmem : piece ∈ [m.point].filter (fun point => point ≠ ['/']) :=
        heq ▸ List.mem_cons_self
      exact List.mem_singleton.mp (List.mem_filter.mp hmem).1
  · intro h part hpart
    have hmap : part.filterMap Mount.second = part.map Mount.point := by
      rw [← List.filterMap_eq_map]
      exact List.filterMap_congr fun m hm => m.second_eq_iff.mpr (h m (hpart.subset hm))
    rw [unmountOrder_procMounts, mountPoints, hmap]

/-- A mount point with a no-break space in its name. -/
def oddMount : Mount where
  device := "/dev/sda1".toList
  point := "/mnt/a".toList ++ [Char.ofNat 0xA0, 'b']
  fstype := "ext4".toList
  options := "rw".toList
  device_ne := by decide
  point_ne := by decide
  fstype_ne := by decide
  noNul := by decide

/-- What stands in front of it is taken for the mount point. -/
theorem unmountOrder_oddMount :
    unmountOrder (procMounts [oddMount]) ≠ mountPoints [oddMount] := by
  intro h
  rw [unmountOrder_procMounts] at h
  exact absurd h (by decide)

end Rinit
