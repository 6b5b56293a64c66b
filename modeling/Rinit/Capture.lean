import Mathlib.Data.List.DropRight
import Rinit.Lines
import Rinit.Logger
import Rinit.Lossy

/-!
# Capturing output

A task per service reads the pipe its output goes to (`pump`). Every read is decoded by itself,
what has a line feed is pushed line by line, and the rest waits for the next read. An unterminated
line is kept bounded (`capPending`). A line goes to the ring and to the queue of the log file.

The kernel chooses where a read ends. `pump_iff` : for a text whose lines are short enough, two
ways to read its bytes both push the lines of the text, so the same ones, exactly if no read ends
in the middle of a character. In the middle of one the pieces become replacement characters, more
than one, so the lines grow.
-/

namespace Rinit

open Codec Fitting

def readChunk : ℕ := 4096

def maxPendingLine : ℕ := 64 * 1024

/-- The calls that were made to the ring, and to the queue of the file. -/
structure Sinks where
  ring : List (UnitName × String)
  queue : List String
deriving DecidableEq

/-- Record one captured line. -/
def pushCaptured (unit : UnitName) (s : Sinks) (line : List Char) : Sinks where
  ring := s.ring ++ [(unit, String.ofList line)]
  queue := s.queue ++ [unit.canonical ++ ": " ++ String.ofList line ++ "\n"]

/-- Strip the line terminator from a captured line. -/
def trimLine (line : List Char) : List Char := line.rdropWhile fun c => c = '\n' || c = '\r'

/-- Keep an unterminated line bounded and tell the reader it was truncated. -/
def capPending (pending : List Char) : List Char :=
  if utf8Len pending ≤ maxPendingLine then pending
  else
    let bytes := utf8Bytes pending
    -- cut at a boundary, the bytes are text again
    (fromUtf8 (bytes.take (floorBoundary bytes maxPendingLine))).getD [] ++ "[truncated]\n".toList

/-- What is pending up to its last line feed, which is included. -/
def complete (pending : List Char) : List Char := pending.rdropWhile (· ≠ '\n')

/-- The task : what it keeps for the next read, and the lines it pushed. -/
structure Pump where
  pending : List Char := []
  pushed : List (List Char) := []
deriving DecidableEq

namespace Pump

/-- One read. -/
def read (p : Pump) (buf : List UInt8) : Pump :=
  let pending := p.pending ++ (fromUtf8Lossy buf).toList
  { pending := capPending (pending.drop (complete pending).length)
    pushed := p.pushed ++ (splitInclusive (complete pending)).map trimLine }

/-- The lines pushed until the end of the file, a final partial line included. -/
def finish (p : Pump) : List (List Char) :=
  if p.pending.isEmpty then p.pushed else p.pushed ++ [trimLine p.pending]

end Pump

/-- Read until the end of the file, and record every line. -/
def pump (unit : UnitName) (reads : List (List UInt8)) : Sinks :=
  (reads.foldl Pump.read {}).finish.foldl (pushCaptured unit) ⟨[], []⟩

/-- The lines of a text, recorded. -/
def captured (unit : UnitName) (text : List Char) : Sinks where
  ring := (splitInclusive text).map fun line => (unit, String.ofList (trimLine line))
  queue := (splitInclusive text).map fun line =>
    unit.canonical ++ ": " ++ String.ofList (trimLine line) ++ "\n"

/-- The bytes of the text are read in pieces of a possible length. -/
structure ReadsText (text : List Char) (reads : List (List UInt8)) : Prop where
  flatten_eq : reads.flatten = utf8Bytes text
  length : ∀ buf ∈ reads, 1 ≤ buf.length ∧ buf.length ≤ readChunk

/-- No read ends in the middle of a character. -/
def AtBoundaries (text : List Char) (reads : List (List UInt8)) : Prop :=
  ∀ done, done <+: reads → isCharBoundary (utf8Bytes text) done.flatten.length = true

/-! ## The lines -/

theorem foldl_pushCaptured (unit : UnitName) (lines : List (List Char)) (s : Sinks) :
    lines.foldl (pushCaptured unit) s =
      ⟨s.ring ++ lines.map fun line => (unit, String.ofList line),
        s.queue ++ lines.map fun line => unit.canonical ++ ": " ++ String.ofList line ++ "\n"⟩ := by
  induction lines generalizing s with
  | nil => simp
  | cons line lines ih =>
    rw [List.foldl_cons, ih]
    simp [pushCaptured]

/-- The calls tell which lines were pushed. -/
theorem pump_eq_captured_iff (unit : UnitName) (reads : List (List UInt8)) (text : List Char) :
    pump unit reads = captured unit text ↔
      (reads.foldl Pump.read {}).finish = (splitInclusive text).map trimLine := by
  rw [pump, foldl_pushCaptured]
  constructor
  · intro h
    have hring := congrArg Sinks.ring h
    rw [captured, List.nil_append] at hring
    have hring' : (reads.foldl Pump.read {}).finish.map (fun line => (unit, String.ofList line)) =
        ((splitInclusive text).map trimLine).map fun line => (unit, String.ofList line) := by
      rw [List.map_map]
      exact hring
    exact List.map_injective_iff.mpr
      (fun a b hab => String.ofList_inj.mp (Prod.mk.inj hab).2) hring'
  · intro h
    rw [h, List.map_map, List.map_map]
    rfl

theorem complete_spec (pending : List Char) : ∃ rest, pending = complete pending ++ rest ∧
    '\n' ∉ rest ∧ (complete pending = [] ∨ (complete pending).getLast? = some '\n') := by
  refine ⟨pending.rtakeWhile (· ≠ '\n'), (List.rdropWhile_append_rtakeWhile ..).symm,
    fun h => ?_, ?_⟩
  · have := List.mem_rtakeWhile_imp h
    simp at this
  · by_cases hnil : complete pending = []
    · exact .inl hnil
    · refine .inr ?_
      have hlast := List.rdropWhile_last_not (fun c : Char => decide (c ≠ '\n')) pending hnil
      rw [List.getLast?_eq_some_getLast hnil]
      exact congrArg some (of_not_not fun h => hlast (decide_eq_true h))

/-- What `read` keeps for the next read. -/
theorem drop_complete {pending rest : List Char} (h : pending = complete pending ++ rest) :
    pending.drop (complete pending).length = rest :=
  (congrArg (List.drop (complete pending).length) h).trans List.drop_left

theorem utf8Len_le_of_isPrefix {s t : List Char} (h : s <+: t) : utf8Len s ≤ utf8Len t := by
  obtain ⟨rest, rfl⟩ := h
  rw [utf8Len_append]
  exact Nat.le_add_right _ _

/-- A line with its line end. -/
theorem stripLineEnd_append (line : List Char) : ∃ lineEnd, line = stripLineEnd line ++ lineEnd ∧
    (lineEnd = [] ∨ lineEnd = ['\n'] ∨ lineEnd = ['\r', '\n']) := by
  cases h : stripSuffix ['\n'] line with
  | none => exact ⟨[], by rw [stripLineEnd, h, List.append_nil], .inl rfl⟩
  | some l =>
    have hl := eq_append_of_stripSuffix h
    cases h' : stripSuffix ['\r'] l with
    | none => exact ⟨['\n'], by simpa [stripLineEnd, h, h'] using hl, .inr (.inl rfl)⟩
    | some l' =>
      have hl' := eq_append_of_stripSuffix h'
      exact ⟨['\r', '\n'], by simpa [stripLineEnd, h, hl', stripSuffix_append] using hl,
        .inr (.inr rfl)⟩

/-- A trimmed line is the line without its line end, or less. -/
theorem trimLine_isPrefix (line : List Char) : trimLine line <+: stripLineEnd line := by
  obtain ⟨lineEnd, heq, hend⟩ := stripLineEnd_append line
  have htrim : trimLine line = trimLine (stripLineEnd line) := by
    conv_lhs => rw [heq]
    rcases hend with rfl | rfl | rfl
    · rw [List.append_nil]
    · rw [trimLine, List.rdropWhile_concat_pos _ _ _ (by decide), trimLine]
    · rw [trimLine, List.append_cons, List.rdropWhile_concat_pos _ _ _ (by decide),
        List.rdropWhile_concat_pos _ _ _ (by decide), trimLine]
  rw [htrim]
  exact List.rdropWhile_prefix _ _

/-- Text that stands unterminated in front of more of it is not longer than a line may be. -/
theorem utf8Len_pending {text whole rest more : List Char}
    (hshort : ∀ line ∈ lines text, utf8Len line < maxPendingLine)
    (htext : text = whole ++ rest ++ more) (hwhole : whole = [] ∨ whole.getLast? = some '\n')
    (hrest : '\n' ∉ rest) : utf8Len rest ≤ maxPendingLine := by
  by_cases hne : rest = []
  · rw [hne]
    exact Nat.zero_le _
  obtain ⟨l, ls, hsplit⟩ := exists_splitInclusive_append hne hrest more
  have hmem : rest ++ l ∈ splitInclusive text := by
    rw [htext, List.append_assoc, splitInclusive_append_of_ends hwhole, hsplit]
    exact List.mem_append_right _ List.mem_cons_self
  have hline := hshort _ (List.mem_map_of_mem hmem)
  obtain ⟨lineEnd, heq, hend⟩ := stripLineEnd_append (rest ++ l)
  -- the rest may hold the carriage return of its line end, but not the line feed
  have hpre : ∀ front, rest <+: front ++ ['\n'] → rest <+: front := fun front h => by
    rcases List.prefix_concat_iff.mp h with rfl | h
    · exact absurd (List.mem_append_right _ List.mem_cons_self) hrest
    · exact h
  have hrest' : rest <+: stripLineEnd (rest ++ l) ++ lineEnd := heq ▸ List.prefix_append rest l
  rcases hend with rfl | rfl | rfl
  · rw [List.append_nil] at hrest'
    exact (utf8Len_le_of_isPrefix hrest').trans hline.le
  · exact (utf8Len_le_of_isPrefix (hpre _ hrest')).trans hline.le
  · rw [List.append_cons] at hrest'
    have hle := utf8Len_le_of_isPrefix (hpre _ hrest')
    rw [utf8Len_append] at hle
    exact hle.trans hline

/-! ## Reads at boundaries -/

/-- Reads that end at boundaries are pieces of the text. -/
theorem AtBoundaries.exists_pieces {text : List Char} {reads : List (List UInt8)}
    (hflat : reads.flatten = utf8Bytes text) (h : AtBoundaries text reads) :
    ∃ pieces : List (List Char), reads = pieces.map utf8Bytes ∧ pieces.flatten = text := by
  induction reads generalizing text with
  | nil =>
    refine ⟨[], rfl, ?_⟩
    have hlen := congrArg fromUtf8 hflat
    rw [fromUtf8_utf8Bytes] at hlen
    exact Option.some.inj hlen
  | cons buf reads ih =>
    obtain ⟨piece, ⟨rest, rfl⟩, hlen⟩ :=
      (isCharBoundary_iff text _).mp (h [buf] (List.prefix_append [buf] reads))
    rw [List.flatten_cons, utf8Bytes_append] at hflat
    rw [List.flatten_singleton] at hlen
    obtain ⟨rfl, hreads⟩ := List.append_inj hflat hlen.symm
    obtain ⟨pieces, rfl, rfl⟩ := ih hreads fun done hdone => by
      have hb := h (utf8Bytes piece :: done) (List.cons_prefix_cons.mpr ⟨rfl, hdone⟩)
      rwa [List.flatten_cons, List.length_append, utf8Bytes_append, isCharBoundary_append] at hb
    exact ⟨piece :: pieces, rfl, rfl⟩

/-- The pump after the front of a text : what was pushed are its whole lines. -/
structure Pump.Read (p : Pump) (done : List Char) : Prop where
  exists_whole : ∃ whole, done = whole ++ p.pending ∧
    (whole = [] ∨ whole.getLast? = some '\n') ∧
    p.pushed = (splitInclusive whole).map trimLine
  pending : '\n' ∉ p.pending

theorem Pump.Read.read {p : Pump} {text done piece more : List Char} (h : p.Read done)
    (hshort : ∀ line ∈ lines text, utf8Len line < maxPendingLine)
    (htext : text = done ++ piece ++ more) :
    (p.read (utf8Bytes piece)).Read (done ++ piece) := by
  obtain ⟨⟨whole, hdone, hwhole, hpushed⟩, hpending⟩ := h
  obtain ⟨rest, heq, hrest, hends⟩ := complete_spec (p.pending ++ piece)
  have hends' : whole ++ complete (p.pending ++ piece) = [] ∨
      (whole ++ complete (p.pending ++ piece)).getLast? = some '\n' := by
    rcases hends with hnil | hlast
    · rw [hnil, List.append_nil]
      exact hwhole
    · exact .inr (by rw [List.getLast?_append, hlast]; rfl)
  have hsplit : done ++ piece = whole ++ complete (p.pending ++ piece) ++ rest := by
    rw [List.append_assoc, ← heq, hdone, List.append_assoc]
  have hcap : capPending rest = rest :=
    if_pos (utf8Len_pending hshort (htext.trans (by rw [hsplit])) hends' hrest)
  have hdecode : (fromUtf8Lossy (utf8Bytes piece)).toList = piece := by
    rw [fromUtf8Lossy, String.toList_ofList, decodeLossy_utf8Bytes]
  have hread : p.read (utf8Bytes piece) =
      ⟨rest, p.pushed ++ (splitInclusive (complete (p.pending ++ piece))).map trimLine⟩ := by
    rw [Pump.read, hdecode, drop_complete heq, hcap]
  rw [hread]
  refine ⟨⟨whole ++ complete (p.pending ++ piece), hsplit, hends', ?_⟩, hrest⟩
  rw [splitInclusive_append_of_ends hwhole, List.map_append, hpushed]

theorem Pump.Read.foldl {text : List Char}
    (hshort : ∀ line ∈ lines text, utf8Len line < maxPendingLine) (pieces : List (List Char)) :
    ∀ {p : Pump} {done more : List Char}, p.Read done →
      text = done ++ pieces.flatten ++ more →
        ((pieces.map utf8Bytes).foldl Pump.read p).Read (done ++ pieces.flatten) := by
  induction pieces with
  | nil =>
    intro p done more h _
    rwa [List.flatten_nil, List.append_nil]
  | cons piece pieces ih =>
    intro p done more h htext
    rw [List.flatten_cons, ← List.append_assoc]
    rw [List.flatten_cons, ← List.append_assoc] at htext
    exact ih (h.read hshort (htext.trans (List.append_assoc _ _ _))) htext

theorem Pump.Read.finish {p : Pump} {text : List Char} (h : p.Read text) :
    p.finish = (splitInclusive text).map trimLine := by
  obtain ⟨⟨whole, rfl, hwhole, hpushed⟩, hpending⟩ := h
  rw [splitInclusive_append_of_ends hwhole, List.map_append, ← hpushed, Pump.finish]
  by_cases hnil : p.pending = []
  · rw [hnil]
    exact (List.append_nil _).symm
  · rw [if_neg (by simpa using hnil), splitInclusive_of_not_mem hnil hpending]
    rfl

/-! ## Counting characters -/

theorem innerCount_append (s t : List Char) : innerCount (s ++ t) = innerCount s + innerCount t :=
  List.countP_append

theorem innerCount_trimLine (line : List Char) : innerCount (trimLine line) = innerCount line := by
  have hend : innerCount (line.rtakeWhile fun c => c = '\n' || c = '\r') = 0 :=
    List.countP_eq_zero.mpr fun c hc hinner => by
      have hc' := List.mem_rtakeWhile_imp hc
      simp [isInner] at hinner hc'
      exact hc'.elim hinner.1 hinner.2
  have hsplit := congrArg innerCount
    (List.rdropWhile_append_rtakeWhile (p := fun c => c = '\n' || c = '\r') (l := line))
  rw [innerCount_append, hend] at hsplit
  exact hsplit

theorem total_trimLine (ls : List (List Char)) :
    total innerCount (ls.map trimLine) = innerCount ls.flatten := by
  induction ls with
  | nil => rfl
  | cons l ls ih =>
    rw [List.map_cons, total_cons, ih, innerCount_trimLine, List.flatten_cons, innerCount_append]

theorem total_lines (text : List Char) :
    total innerCount ((splitInclusive text).map trimLine) = innerCount text := by
  rw [total_trimLine, flatten_splitInclusive]

/-- A line that was cut is longer than a line of the text may be. -/
structure IsCut (line : List Char) : Prop where
  newline : '\n' ∉ line
  long : maxPendingLine ≤ utf8Len line
  trim : trimLine (line ++ ['\n']) = line

theorem capPending_cases {pending : List Char} (h : '\n' ∉ pending) :
    capPending pending = pending ∨ ∃ line, capPending pending = line ++ ['\n'] ∧ IsCut line := by
  unfold capPending
  split_ifs with hle
  · exact .inl rfl
  refine .inr ?_
  obtain ⟨kept, ⟨hpre, hfits, hlongest⟩, htake⟩ :=
    Protocol.take_floorBoundary pending maxPendingLine
  rw [Protocol.length_utf8Bytes, min_eq_right (Nat.le_of_not_le hle)] at htake
  rw [Protocol.length_utf8Bytes] at hfits
  dsimp only
  rw [htake, fromUtf8_utf8Bytes, Option.getD_some]
  refine ⟨kept ++ "[truncated]".toList, by rw [List.append_assoc]; rfl, ?_, ?_, ?_⟩
  · intro hmem
    rcases List.mem_append.mp hmem with hmem | hmem
    · exact h (hpre.subset hmem)
    · revert hmem
      decide
  · -- one character more would not have fitted
    obtain ⟨rest, rfl⟩ := hpre
    cases rest with
    | nil => rw [List.append_nil] at hle; exact absurd hfits hle
    | cons c rest =>
      have hover : maxPendingLine < utf8Len (kept ++ [c]) := by
        by_contra hnot
        have hlen := (hlongest (kept ++ [c]) ⟨rest, by simp⟩
          (by rw [Protocol.length_utf8Bytes]; exact Nat.le_of_not_lt hnot)).length_le
        simp at hlen
      have hsize := Char.utf8Size_le_four c
      have hmark : utf8Len "[truncated]".toList = 11 := by decide
      rw [utf8Len_append, hmark]
      rw [utf8Len_append] at hover
      have hone : utf8Len [c] = c.utf8Size := by simp [utf8Len]
      omega
  · have hlast : kept ++ "[truncated]".toList = (kept ++ "[truncated".toList) ++ [']'] := by
      rw [List.append_assoc]
      rfl
    rw [trimLine, List.rdropWhile_concat_pos _ _ _ (by decide), hlast,
      List.rdropWhile_concat_neg _ _ _ (by decide)]

/-- A whole line is complete whatever comes after it. -/
theorem prefix_complete (line more : List Char) :
    line ++ ['\n'] <+: complete (line ++ ['\n'] ++ more) := by
  obtain ⟨rest, heq, hrest, -⟩ := complete_spec (line ++ ['\n'] ++ more)
  generalize complete (line ++ ['\n'] ++ more) = front at heq ⊢
  rcases List.prefix_or_prefix_of_prefix (List.prefix_append (line ++ ['\n']) more)
    (heq ▸ List.prefix_append _ rest) with h | h
  · exact h
  · obtain ⟨t, ht⟩ := h
    rcases List.eq_nil_or_concat' t with rfl | ⟨t, c, rfl⟩
    · rw [List.append_nil] at ht
      rw [ht]
    · -- the line feed would stand behind the last one
      have hc : c = '\n' := by
        rw [← List.append_assoc] at ht
        exact List.singleton_inj.mp (List.append_inj' ht rfl).2
      rw [← ht, List.append_assoc, List.append_right_inj] at heq
      exact absurd (by rw [← heq, hc]; simp) hrest

namespace Pump

/-- A cut line was pushed, or will be. -/
def HasCut (p : Pump) : Prop :=
  (∃ line ∈ p.pushed, IsCut line) ∨ ∃ line, p.pending = line ++ ['\n'] ∧ IsCut line

/-- The pump pushed or keeps `n` characters that end no line, unless it cut a line. -/
def Counts (p : Pump) (n : ℕ) : Prop :=
  total innerCount p.pushed + innerCount p.pending = n ∨ p.HasCut

theorem Counts.read {p : Pump} {n : ℕ} (h : p.Counts n) (buf : List UInt8) :
    (p.read buf).Counts (n + innerCount (decodeLossy 0 buf)) := by
  have hdecode : (fromUtf8Lossy buf).toList = decodeLossy 0 buf := by
    rw [fromUtf8Lossy, String.toList_ofList]
  obtain ⟨rest, heq, hrest, -⟩ := complete_spec (p.pending ++ decodeLossy 0 buf)
  have hread : p.read buf = ⟨capPending rest, p.pushed ++
      (splitInclusive (complete (p.pending ++ decodeLossy 0 buf))).map trimLine⟩ := by
    rw [Pump.read, hdecode, drop_complete heq]
  rw [hread]
  rcases h with hcount | ⟨line, hline, hcut⟩ | ⟨line, hpending, hcut⟩
  · rcases capPending_cases hrest with hcap | ⟨line, hcap, hcut⟩
    · refine .inl ?_
      have hall := congrArg innerCount heq
      rw [innerCount_append, innerCount_append] at hall
      dsimp only
      rw [hcap, total_append, total_lines]
      omega
    · exact .inr (.inr ⟨line, hcap, hcut⟩)
  · exact .inr (.inl ⟨line, List.mem_append_left _ hline, hcut⟩)
  · refine .inr (.inl ⟨line, List.mem_append_right _ (List.mem_map.mpr ⟨line ++ ['\n'], ?_,
      hcut.trim⟩), hcut⟩)
    obtain ⟨more, hmore⟩ := prefix_complete line (decodeLossy 0 buf)
    rw [hpending, ← hmore, splitInclusive_append_of_ends (.inr (by simp)),
      splitInclusive_concat hcut.newline]
    exact List.mem_cons_self

theorem Counts.foldl {p : Pump} {n : ℕ} (h : p.Counts n) (reads : List (List UInt8)) :
    (reads.foldl Pump.read p).Counts
      (n + total (fun buf => innerCount (decodeLossy 0 buf)) reads) := by
  induction reads generalizing p n with
  | nil => exact h
  | cons buf reads ih =>
    rw [total_cons, ← Nat.add_assoc]
    exact ih (h.read buf)

theorem Counts.finish {p : Pump} {n : ℕ} (h : p.Counts n) :
    total innerCount p.finish = n ∨ ∃ line ∈ p.finish, IsCut line := by
  rw [Pump.finish]
  by_cases hnil : p.pending = []
  · rw [hnil, List.isEmpty_nil, if_pos rfl]
    rcases h with hcount | hcut | ⟨line, hpending, -⟩
    · rw [hnil] at hcount
      exact .inl hcount
    · exact .inr hcut
    · rw [hnil] at hpending
      exact absurd hpending (by simp)
  · rw [if_neg (by simpa using hnil)]
    rcases h with hcount | ⟨line, hline, hcut⟩ | ⟨line, hpending, hcut⟩
    · refine .inl ?_
      rw [total_append, total_cons, total_nil, innerCount_trimLine]
      exact hcount
    · exact .inr ⟨line, List.mem_append_left _ hline, hcut⟩
    · refine .inr ⟨line, List.mem_append_right _ ?_, hcut⟩
      rw [hpending, hcut.trim]
      exact List.mem_cons_self

end Pump

/-! ## Reads inside characters -/

theorem startCount_flatten (reads : List (List UInt8)) :
    startCount reads.flatten = total startCount reads := by
  induction reads with
  | nil => rfl
  | cons buf reads ih =>
    rw [List.flatten_cons, startCount, List.countP_append, ← startCount, ← startCount, ih,
      total_cons]

/-- If no character more was made than there are, no read made one more. -/
theorem startCount_eq_of_total {reads : List (List UInt8)}
    (h : total (fun buf => innerCount (decodeLossy 0 buf)) reads ≤ total startCount reads) :
    ∀ buf ∈ reads, innerCount (decodeLossy 0 buf) ≤ startCount buf := by
  induction reads with
  | nil => exact fun _ h => absurd h List.not_mem_nil
  | cons buf reads ih =>
    have hle : total startCount reads ≤
        total (fun buf => innerCount (decodeLossy 0 buf)) reads :=
      List.sum_le_sum fun buf _ => startCount_le_decodeLossy 0 buf fun b hb => by simp at hb
    have hbuf := startCount_le_decodeLossy 0 buf fun b hb => by simp at hb
    rw [total_cons, total_cons] at h
    intro buf' hbuf'
    rcases List.mem_cons.mp hbuf' with rfl | hmem
    · omega
    · exact ih (by omega) buf' hmem

/-- Reads none of which starts inside a character end at boundaries. -/
theorem atBoundaries_of_starts {text : List Char} {reads : List (List UInt8)}
    (hflat : reads.flatten = utf8Bytes text)
    (h : ∀ buf ∈ reads, ∃ a rest, buf = a :: rest ∧ isContinuation a = false) :
    AtBoundaries text reads := by
  rintro done ⟨more, rfl⟩
  rw [← hflat, List.flatten_append, isCharBoundary]
  cases more with
  | nil => simp
  | cons buf more =>
    obtain ⟨a, rest, rfl, ha⟩ := h buf (List.mem_append_right _ List.mem_cons_self)
    rw [List.getElem?_append_right le_rfl, Nat.sub_self]
    simp [ha]

/-- The pump pushes the lines of the text exactly if no read ends inside a character. -/
theorem pump_eq_iff (unit : UnitName) {text : List Char} {reads : List (List UInt8)}
    (hshort : ∀ line ∈ lines text, utf8Len line < maxPendingLine)
    (hreads : ReadsText text reads) :
    pump unit reads = captured unit text ↔ AtBoundaries text reads := by
  rw [pump_eq_captured_iff]
  constructor
  · intro h
    have hzero : Pump.Counts {} 0 := .inl rfl
    rcases (Pump.Counts.foldl hzero reads).finish with hcount | ⟨line, hline, hcut⟩
    · refine atBoundaries_of_starts hreads.flatten_eq fun buf hbuf => ?_
      rw [h, total_lines, Nat.zero_add, ← startCount_utf8Bytes, ← hreads.flatten_eq,
        startCount_flatten] at hcount
      have hle := startCount_eq_of_total hcount.ge buf hbuf
      obtain ⟨a, rest, rfl⟩ := List.exists_cons_of_length_pos (hreads.length buf hbuf).1
      refine ⟨a, rest, rfl, ?_⟩
      by_contra hcont
      rw [Bool.not_eq_false] at hcont
      exact absurd hle (Nat.not_le.mpr (startCount_lt_decodeLossy hcont rest))
    · rw [h] at hline
      obtain ⟨piece, hpiece, rfl⟩ := List.mem_map.mp hline
      have hlt := hshort _ (List.mem_map_of_mem hpiece)
      exact absurd (hcut.long.trans (utf8Len_le_of_isPrefix (trimLine_isPrefix piece)))
        (Nat.not_le.mpr hlt)
  · intro h
    obtain ⟨pieces, rfl, hpieces⟩ := h.exists_pieces hreads.flatten_eq
    have hnil : Pump.Read {} [] := ⟨⟨[], rfl, .inl rfl, rfl⟩, List.not_mem_nil⟩
    have hread := Pump.Read.foldl hshort pieces hnil
      (show text = [] ++ pieces.flatten ++ [] by rw [hpieces, List.append_nil]; rfl)
    rw [List.nil_append, hpieces] at hread
    exact hread.finish

/-- Two ways to read a text push the same lines, those of the text, exactly if no read of either
ends inside a character. -/
theorem pump_iff (unit : UnitName) {text : List Char} {reads reads' : List (List UInt8)}
    (hshort : ∀ line ∈ lines text, utf8Len line < maxPendingLine)
    (hreads : ReadsText text reads) (hreads' : ReadsText text reads') :
    (pump unit reads = pump unit reads' ∧ pump unit reads = captured unit text) ↔
      AtBoundaries text reads ∧ AtBoundaries text reads' := by
  rw [← pump_eq_iff unit hshort hreads, ← pump_eq_iff unit hshort hreads']
  exact ⟨fun ⟨heq, h⟩ => ⟨h, heq ▸ h⟩, fun ⟨h, h'⟩ => ⟨h.trans h'.symm, h⟩⟩

theorem pump_iff_accent :
    (∀ line ∈ lines ['é', '\n'], utf8Len line < maxPendingLine) ∧
      ReadsText ['é', '\n'] [[0xC3, 0xA9, 0x0A]] ∧ ReadsText ['é', '\n'] [[0xC3, 0xA9], [0x0A]] ∧
      ((pump serviceA [[0xC3, 0xA9, 0x0A]] = pump serviceA [[0xC3, 0xA9], [0x0A]] ∧
          pump serviceA [[0xC3, 0xA9, 0x0A]] = captured serviceA ['é', '\n']) ↔
        AtBoundaries ['é', '\n'] [[0xC3, 0xA9, 0x0A]] ∧
          AtBoundaries ['é', '\n'] [[0xC3, 0xA9], [0x0A]]) :=
  have hshort : ∀ line ∈ lines ['é', '\n'], utf8Len line < maxPendingLine := by decide
  have hreads : ReadsText ['é', '\n'] [[0xC3, 0xA9, 0x0A]] := ⟨by decide, by decide⟩
  have hreads' : ReadsText ['é', '\n'] [[0xC3, 0xA9], [0x0A]] := ⟨by decide, by decide⟩
  ⟨hshort, hreads, hreads', pump_iff serviceA hshort hreads hreads'⟩

/-- Read byte by byte the letter becomes two replacement characters. -/
theorem not_pump_accent :
    (∀ line ∈ lines ['é', '\n'], utf8Len line < maxPendingLine) ∧
      ReadsText ['é', '\n'] [[0xC3, 0xA9, 0x0A]] ∧ ReadsText ['é', '\n'] [[0xC3], [0xA9, 0x0A]] ∧
      pump serviceA [[0xC3, 0xA9, 0x0A]] = captured serviceA ['é', '\n'] ∧
      pump serviceA [[0xC3], [0xA9, 0x0A]] ≠ captured serviceA ['é', '\n'] := by
  refine ⟨by decide, ⟨by decide, by decide⟩, ⟨by decide, by decide⟩,
    (pump_eq_captured_iff ..).mpr (by decide), fun h => ?_⟩
  exact absurd ((pump_eq_captured_iff ..).mp h) (by decide)

end Rinit
