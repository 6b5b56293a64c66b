import Rinit.Codec
import Rinit.Lines
import Rinit.Rotation

/-!
# The log file

Records are appended to the log file chunk by chunk. A full file makes room first : it becomes
`path.1` and the older files move up, or, if none is kept, it is emptied and left with a marker
(`LogFile.makeRoom`). On the disk of `Rotation`, file `0` is `path` and file `i` is `path.i`.

The room that is left is a `u64` and is cut to a `usize` (`LogFile.room`). On a target with 32
bits the cut room can be zero where the file is not full, and then the loop writes nothing and
never ends.

`log_file_iff` : appending returns, the file keeps its bound, `written` is its length, and rotation
loses the oldest bytes only (`StaysBounded`), all exactly when no record meets such a room
(`LogFile.Flows`). `staysBounded_of_lt` : none does if the bound fits a `usize`.
-/

namespace Rinit

open Codec Rotation

/-- The line an emptied file starts with. -/
def truncateMarker : String := "log truncated: the previous contents were dropped\n"

def truncateMarkerBytes : Bytes := utf8Bytes truncateMarker.toList

structure LogFile where
  written : ℕ
  maxBytes : ℕ
  keep : ℕ
deriving DecidableEq

/-- Renaming `path.n`, ..., `path.1` to one number higher. -/
def shiftFiles : ℕ → List FileOp
  | 0 => []
  | n + 1 => .rename (n + 1) (n + 2) :: shiftFiles n

namespace LogFile

/-- Open or create the file, to append to whatever is there. -/
def «open» (disk : Disk) (maxBytes keep : ℕ) : LogFile × List FileOp :=
  (⟨(contents disk 0).length, max maxBytes 1, keep⟩, [.create])

/-- Drop what is there. The marker is written if the file then has room for the `needed`
bytes too. -/
def truncate (f : LogFile) (needed : ℕ) : LogFile × List FileOp :=
  if truncateMarkerBytes.length + needed ≤ f.maxBytes then
    ({ f with written := truncateMarkerBytes.length }, [.clear, .write truncateMarkerBytes])
  else ({ f with written := 0 }, [.clear])

def rotate (f : LogFile) (needed : ℕ) : LogFile × List FileOp :=
  if f.keep = 0 then f.truncate needed
  else
    ({ f with written := 0 },
      .remove f.keep :: shiftFiles (f.keep - 1) ++ [.rename 0 1, .create])

/-- The file that the next chunk goes to. -/
def makeRoom (f : LogFile) (needed : ℕ) : LogFile × List FileOp :=
  if f.maxBytes ≤ f.written then f.rotate needed else (f, [])

/-- The room that is left, as a `usize` of `bits` bits. -/
def room (bits : ℕ) (f : LogFile) : ℕ := (f.maxBytes - f.written) % 2 ^ bits

/-- Append one record, in as many chunks as it takes but no more than `fuel` : the file, what was
done to the disk, and the bytes still to be written. There is no value where the subtraction
`maxBytes - written` would underflow. -/
def appendRecord (bits : ℕ) : ℕ → LogFile → Bytes → Option (LogFile × List FileOp × Bytes)
  | 0, f, rest => some (f, [], rest)
  | fuel + 1, f, rest =>
    if rest = [] then some (f, [], [])
    else
      let (f, made) := f.makeRoom rest.length
      if f.maxBytes < f.written then none
      else
        let take := min (f.room bits) rest.length
        (appendRecord bits fuel { f with written := f.written + take } (rest.drop take)).map
          fun (f, ops, left) => (f, made ++ .write (rest.take take) :: ops, left)

/-- Append records until one cannot be finished : the file, what was done to the disk, and the
records that are not finished. -/
def appendRecords (bits fuel : ℕ) :
    LogFile → List Bytes → Option (LogFile × List FileOp × List Bytes)
  | f, [] => some (f, [], [])
  | f, record :: records =>
    match appendRecord bits fuel f record with
    | none => none
    | some (f, ops, []) =>
      (appendRecords bits fuel f records).map fun (f, ops', left) => (f, ops ++ ops', left)
    | some (f, ops, rest) => some (f, ops, rest :: records)

/-- The records of a text : its lines, each with its line feed. -/
def recordsOf (text : String) : List Bytes := (splitInclusive text.toList).map utf8Bytes

/-- Append texts one after another, each record by record. -/
def appendTexts (bits fuel : ℕ) (f : LogFile) (texts : List String) :
    Option (LogFile × List FileOp × List Bytes) :=
  f.appendRecords bits fuel (texts.flatMap recordsOf)

end LogFile

namespace LogFile

variable {bits fuel : ℕ} {f g : LogFile} {d : Disk} {rest record : Bytes} {records : List Bytes}

/-! ## Making room -/

/-- File `0` is there and as long as the file says. -/
def Names (f : LogFile) (d : Disk) : Prop :=
  ∃ bytes, d 0 = some bytes ∧ bytes.length = f.written

theorem names_open (disk : Disk) (maxBytes keep : ℕ) :
    (LogFile.open disk maxBytes keep).1.Names
      (runOps disk (LogFile.open disk maxBytes keep).2) :=
  ⟨_, apply_create_zero disk, rfl⟩

theorem Names.write (h : f.Names d) (bytes : Bytes) :
    ({ f with written := f.written + bytes.length } : LogFile).Names
      (FileOp.apply d (.write bytes)) := by
  obtain ⟨held, hd, hlen⟩ := h
  refine ⟨held ++ bytes, ?_, by rw [List.length_append, hlen]⟩
  rw [apply_write_zero, contents, hd]
  rfl

/-- How long the file is right after room was made in it. -/
def freshLength (f : LogFile) (needed : ℕ) : ℕ :=
  if f.keep = 0 ∧ truncateMarkerBytes.length + needed ≤ f.maxBytes then
    truncateMarkerBytes.length
  else 0

theorem freshLength_lt {needed : ℕ} (hmax : 0 < f.maxBytes) (hneeded : 0 < needed) :
    f.freshLength needed < f.maxBytes := by
  unfold freshLength
  split
  · omega
  · exact hmax

theorem rotate_fst (f : LogFile) (needed : ℕ) :
    (f.rotate needed).1 = { f with written := f.freshLength needed } := by
  unfold rotate truncate freshLength
  by_cases hkeep : f.keep = 0
  · by_cases hfits : truncateMarkerBytes.length + needed ≤ f.maxBytes
    · rw [if_pos hkeep, if_pos hfits, if_pos ⟨hkeep, hfits⟩]
    · rw [if_pos hkeep, if_neg hfits, if_neg fun h => hfits h.2]
  · rw [if_neg hkeep, if_neg fun h => hkeep h.1]

/-- With number `n + 1` free, the files up to `n` move up one by one, each to a free number. -/
theorem safeRun_shiftFiles {n k : ℕ} (hn : n < k) (hfree : d (n + 1) = none) :
    SafeRun k d (shiftFiles n) ∧ runOps d (shiftFiles n) 1 = none := by
  induction n generalizing d with
  | zero => exact ⟨trivial, hfree⟩
  | succ n ih =>
    obtain ⟨hsafe, hone⟩ := ih (Nat.lt_of_succ_lt hn) (apply_rename_self _ _)
    exact ⟨⟨⟨rfl, hn, hfree⟩, hsafe⟩, hone⟩

theorem rotate_snd {needed n : ℕ} (hkeep : f.keep = n + 1) : (f.rotate needed).2 =
    .remove f.keep :: (shiftFiles n ++ [.rename 0 1, .create]) := by
  rw [rotate, if_neg (hkeep ▸ Nat.succ_ne_zero n), hkeep]
  rfl

/-- The operations of a rotation are safe, and leave an empty file. -/
theorem rotate_keep {needed : ℕ} (hkeep : f.keep ≠ 0) (d : Disk) :
    SafeRun f.keep d (f.rotate needed).2 ∧ runOps d (f.rotate needed).2 0 = some [] := by
  obtain ⟨n, hn⟩ := Nat.exists_eq_succ_of_ne_zero hkeep
  have hfree : FileOp.apply d (.remove f.keep) (n + 1) = none := by
    rw [hn]
    exact apply_remove_self d (n + 1)
  obtain ⟨hsafe, hone⟩ := safeRun_shiftFiles (k := f.keep) (hn ▸ Nat.lt_succ_self n) hfree
  rw [rotate_snd hn]
  refine ⟨⟨rfl, safeRun_append.mpr ⟨hsafe, ⟨rfl, Nat.pos_of_ne_zero hkeep, hone⟩, trivial,
    trivial⟩⟩, ?_⟩
  set d' := runOps (FileOp.apply d (.remove f.keep)) (shiftFiles n)
  have hzero := apply_rename_self d' 0
  have hrun : runOps d (.remove f.keep :: (shiftFiles n ++ [.rename 0 1, .create])) =
      FileOp.apply (FileOp.apply d' (.rename 0 1)) .create := runOps_append _ (shiftFiles n) _
  rw [hrun, apply_create_zero, contents, hzero]
  rfl

theorem names_rotate (f : LogFile) (needed : ℕ) (d : Disk) :
    (f.rotate needed).1.Names (runOps d (f.rotate needed).2) := by
  by_cases hkeep : f.keep = 0
  · unfold rotate truncate
    rw [if_pos hkeep]
    split
    · refine ⟨truncateMarkerBytes, ?_, rfl⟩
      change FileOp.apply (FileOp.apply d .clear) (.write truncateMarkerBytes) 0 = _
      rw [apply_write_zero, contents, apply_clear_zero]
      rfl
    · exact ⟨[], apply_clear_zero d, rfl⟩
  · refine ⟨[], (rotate_keep hkeep d).2, ?_⟩
    rw [rotate, if_neg hkeep]
    rfl

/-! ## One record -/

/-- What holds of a file that was appended to : its bounds are as before, it has the length it
says, and with files to keep the operations are safe and append the bytes that are not left. -/
structure Appended (f g : LogFile) (ops : List FileOp) (bytes left : Bytes) : Prop where
  maxBytes_eq : g.maxBytes = f.maxBytes
  keep_eq : g.keep = f.keep
  names : ∀ d, f.Names d → g.Names (runOps d ops)
  safeRun : f.keep ≠ 0 → ∀ d, SafeRun f.keep d ops
  bytes_eq : f.keep ≠ 0 → bytes = appended ops ++ left

theorem appended_nil (f : LogFile) (bytes : Bytes) : Appended f f [] bytes bytes where
  maxBytes_eq := rfl
  keep_eq := rfl
  names _ h := h
  safeRun _ _ := trivial
  bytes_eq _ := rfl

theorem Appended.trans {h : LogFile} {ops ops' : List FileOp} {bytes left left' : Bytes}
    (hfg : Appended f g ops bytes left) (hgh : Appended g h ops' left left') :
    Appended f h (ops ++ ops') bytes left' where
  maxBytes_eq := hgh.maxBytes_eq.trans hfg.maxBytes_eq
  keep_eq := hgh.keep_eq.trans hfg.keep_eq
  names d hd := by
    rw [runOps_append]
    exact hgh.names _ (hfg.names d hd)
  safeRun hkeep d := safeRun_append.mpr
    ⟨hfg.safeRun hkeep d, hfg.keep_eq ▸ hgh.safeRun (hfg.keep_eq ▸ hkeep) _⟩
  bytes_eq hkeep := by
    rw [hfg.bytes_eq hkeep, hgh.bytes_eq (hfg.keep_eq ▸ hkeep), appended_append,
      List.append_assoc]

theorem Appended.append {ops : List FileOp} {bytes left : Bytes} (h : Appended f g ops bytes left)
    (more : Bytes) : Appended f g ops (bytes ++ more) (left ++ more) where
  maxBytes_eq := h.maxBytes_eq
  keep_eq := h.keep_eq
  names := h.names
  safeRun := h.safeRun
  bytes_eq hkeep := by rw [h.bytes_eq hkeep, List.append_assoc]

theorem appended_shiftFiles (n : ℕ) : appended (shiftFiles n) = [] := by
  induction n with
  | zero => rfl
  | succ n ih => exact ih

theorem makeRoom_spec {needed : ℕ} (hmax : 0 < f.maxBytes) (hneeded : 0 < needed)
    (bytes : Bytes) : Appended f (f.makeRoom needed).1 (f.makeRoom needed).2 bytes bytes ∧
      (f.makeRoom needed).1.written < f.maxBytes := by
  unfold makeRoom
  split
  case isFalse hlt => exact ⟨appended_nil f bytes, Nat.not_le.mp hlt⟩
  refine ⟨⟨?_, ?_, fun d _ => names_rotate f needed d, fun hkeep d => (rotate_keep hkeep d).1,
    fun hkeep => ?_⟩, ?_⟩
  · rw [rotate_fst]
  · rw [rotate_fst]
  · rw [rotate, if_neg hkeep, appended_append]
    change bytes = (appended (shiftFiles _) ++ []) ++ bytes
    rw [appended_shiftFiles]
    rfl
  · rw [rotate_fst]
    exact freshLength_lt hmax hneeded

/-- The bytes of the next chunk. -/
def take (bits : ℕ) (f : LogFile) (n : ℕ) : ℕ := min ((f.makeRoom n).1.room bits) n

/-- The file after the next chunk. -/
def afterChunk (bits : ℕ) (f : LogFile) (n : ℕ) : LogFile :=
  { (f.makeRoom n).1 with written := (f.makeRoom n).1.written + f.take bits n }

/-- One pass of the loop. -/
theorem appendRecord_succ (hmax : 0 < f.maxBytes) (hrest : rest ≠ []) :
    f.appendRecord bits (fuel + 1) rest =
      ((f.afterChunk bits rest.length).appendRecord bits fuel
        (rest.drop (f.take bits rest.length))).map fun (g, ops, left) =>
          (g, (f.makeRoom rest.length).2 ++ .write (rest.take (f.take bits rest.length)) :: ops,
            left) := by
  obtain ⟨hroom, hlt⟩ := makeRoom_spec hmax (List.length_pos_of_ne_nil hrest) rest
  have hbound : ¬(f.makeRoom rest.length).1.maxBytes < (f.makeRoom rest.length).1.written := by
    rw [hroom.maxBytes_eq]
    exact hlt.not_gt
  rw [appendRecord, if_neg hrest]
  simp only [if_neg hbound]
  rfl

theorem room_le (bits : ℕ) (f : LogFile) : f.room bits ≤ f.maxBytes - f.written :=
  Nat.mod_le _ _

theorem appended_afterChunk (bits : ℕ) (hmax : 0 < f.maxBytes) (hrest : rest ≠ []) :
    Appended f (f.afterChunk bits rest.length)
        ((f.makeRoom rest.length).2 ++ [.write (rest.take (f.take bits rest.length))]) rest
        (rest.drop (f.take bits rest.length)) ∧
      (f.afterChunk bits rest.length).written ≤ f.maxBytes := by
  obtain ⟨hroom, hlt⟩ := makeRoom_spec hmax (List.length_pos_of_ne_nil hrest) rest
  have htake : f.take bits rest.length ≤ rest.length := Nat.min_le_right ..
  refine ⟨hroom.trans ⟨rfl, rfl, fun d hd => ?_, fun _ d => ⟨trivial, trivial⟩, fun _ => ?_⟩, ?_⟩
  · have hwrite := hd.write (rest.take (f.take bits rest.length))
    rwa [List.length_take_of_le htake] at hwrite
  · rw [appended, List.flatMap_singleton]
    exact (List.take_append_drop _ rest).symm
  · have hle := room_le bits (f.makeRoom rest.length).1
    rw [hroom.maxBytes_eq] at hle
    change (f.makeRoom rest.length).1.written + min _ _ ≤ _
    omega

/-- The loop on one record always has a value, and once nothing is left the file is within its
bound. -/
theorem appendRecord_spec (bits fuel : ℕ) (hmax : 0 < f.maxBytes) (rest : Bytes)
    (hwithin : rest = [] → f.written ≤ f.maxBytes) :
    ∃ g ops left, f.appendRecord bits fuel rest = some (g, ops, left) ∧
      Appended f g ops rest left ∧ (left = [] → g.written ≤ f.maxBytes) := by
  induction fuel generalizing f rest with
  | zero => exact ⟨f, [], rest, rfl, appended_nil f rest, hwithin⟩
  | succ fuel ih =>
    by_cases hrest : rest = []
    · subst hrest
      exact ⟨f, [], [], rfl, appended_nil f [], hwithin⟩
    obtain ⟨hchunk, hle⟩ := appended_afterChunk bits hmax hrest
    obtain ⟨g, ops, left, heq, happended, hleft⟩ := ih (hchunk.maxBytes_eq ▸ hmax)
      (rest.drop (f.take bits rest.length)) fun _ => hchunk.maxBytes_eq ▸ hle
    refine ⟨g, _, left, ?_, hchunk.trans happended, hchunk.maxBytes_eq ▸ hleft⟩
    rw [appendRecord_succ hmax hrest, heq]
    simp

/-! ## When a record is finished -/

/-- `n` bytes behind the `written` ones do not meet a room that is cut to zero : the room is no
more than a `usize`, or the bytes end where the room is a multiple of its size, or before. -/
def Clear (bits maxBytes written n : ℕ) : Prop :=
  maxBytes - written < 2 ^ bits ∨ n ≤ (maxBytes - written) % 2 ^ bits

instance (bits maxBytes written n : ℕ) : Decidable (Clear bits maxBytes written n) :=
  inferInstanceAs (Decidable (_ ∨ _))

/-- A record of `n` bytes does not meet a room that is cut to zero, neither in the file as it is
nor, if it does not fit, in the file after a rotation. -/
def Flows (bits : ℕ) (f : LogFile) (n : ℕ) : Prop :=
  Clear bits f.maxBytes f.written n ∧
    (f.maxBytes - f.written < n →
      Clear bits f.maxBytes (f.freshLength (n - (f.maxBytes - f.written)))
        (n - (f.maxBytes - f.written)))

/-- With a bound that fits a `usize` every record is finished. -/
theorem flows_of_lt (h : f.maxBytes < 2 ^ bits) (n : ℕ) : f.Flows bits n :=
  ⟨.inl (lt_of_le_of_lt (Nat.sub_le _ _) h), fun _ => .inl (lt_of_le_of_lt (Nat.sub_le _ _) h)⟩

/-- Some number of passes finishes the record. -/
def Returns (bits : ℕ) (f : LogFile) (rest : Bytes) : Prop :=
  ∃ fuel g ops, f.appendRecord bits fuel rest = some (g, ops, [])

theorem returns_nil (bits : ℕ) (f : LogFile) : f.Returns bits [] := ⟨0, f, [], rfl⟩

theorem returns_iff_afterChunk (bits : ℕ) (hmax : 0 < f.maxBytes) (hrest : rest ≠ []) :
    f.Returns bits rest ↔
      (f.afterChunk bits rest.length).Returns bits (rest.drop (f.take bits rest.length)) := by
  constructor
  · rintro ⟨fuel, g, ops, h⟩
    cases fuel with
    | zero => exact absurd (congrArg (fun r => r.2.2) (Option.some.inj h)) hrest
    | succ fuel =>
      rw [appendRecord_succ hmax hrest, Option.map_eq_some_iff] at h
      obtain ⟨⟨g', ops', left⟩, h, heq⟩ := h
      obtain rfl : left = [] := congrArg (fun r => r.2.2) heq
      exact ⟨fuel, g', ops', h⟩
  · rintro ⟨fuel, g, ops, h⟩
    exact ⟨fuel + 1, g, _, (appendRecord_succ hmax hrest).trans (congrArg _ h)⟩

theorem makeRoom_of_lt (h : f.written < f.maxBytes) (n : ℕ) : f.makeRoom n = (f, []) :=
  if_neg (Nat.not_le.mpr h)

theorem take_of_lt (h : f.written < f.maxBytes) (n : ℕ) : f.take bits n = min (f.room bits) n := by
  rw [take, makeRoom_of_lt h]

theorem afterChunk_of_lt (h : f.written < f.maxBytes) (n : ℕ) :
    f.afterChunk bits n = { f with written := f.written + min (f.room bits) n } := by
  rw [afterChunk, take_of_lt h, makeRoom_of_lt h]

/-- With the room cut to zero every pass leaves everything as it is. -/
theorem not_returns_of_room (hlt : f.written < f.maxBytes) (hroom : f.room bits = 0)
    (hrest : rest ≠ []) : ¬f.Returns bits rest := by
  rintro ⟨fuel, g, ops, h⟩
  induction fuel generalizing g ops with
  | zero => exact hrest (congrArg (fun r => r.2.2) (Option.some.inj h))
  | succ fuel ih =>
    rw [appendRecord_succ (Nat.zero_lt_of_lt hlt) hrest, afterChunk_of_lt hlt, take_of_lt hlt,
      hroom, Nat.zero_min, Nat.add_zero, List.drop_zero, Option.map_eq_some_iff] at h
    obtain ⟨⟨g', ops', left⟩, h, heq⟩ := h
    obtain rfl : left = [] := congrArg (fun r => r.2.2) heq
    exact ih g' ops' h

/-- Making room first changes nothing. -/
theorem returns_makeRoom (bits : ℕ) (hmax : 0 < f.maxBytes) (hrest : rest ≠ []) :
    (f.makeRoom rest.length).1.Returns bits rest ↔ f.Returns bits rest := by
  obtain ⟨hroom, hlt⟩ := makeRoom_spec hmax (List.length_pos_of_ne_nil hrest) rest
  rw [← hroom.maxBytes_eq] at hlt
  rw [returns_iff_afterChunk bits hmax hrest,
    returns_iff_afterChunk bits (Nat.zero_lt_of_lt hlt) hrest, afterChunk_of_lt hlt,
    take_of_lt hlt]
  rfl

theorem freshLength_eq_or (f : LogFile) (n : ℕ) : f.freshLength n = 0 ∨
    f.freshLength n + n ≤ f.maxBytes := by
  unfold freshLength
  split
  case isTrue h => exact .inr h.2
  case isFalse => exact .inl rfl

theorem flows_makeRoom {n : ℕ} (hn : 0 < n) (hfull : f.maxBytes ≤ f.written) :
    (f.makeRoom n).1.Flows bits n ↔ f.Flows bits n := by
  have hroom : (f.makeRoom n).1 = { f with written := f.freshLength n } := by
    rw [makeRoom, if_pos hfull, rotate_fst]
  have hzero : f.maxBytes - f.written = 0 := Nat.sub_eq_zero_of_le hfull
  have hsize : 0 < 2 ^ bits := Nat.two_pow_pos bits
  rw [hroom, Flows, Flows, hzero, Nat.sub_zero]
  refine ⟨fun h => ⟨.inl (hzero ▸ hsize), fun _ => h.1⟩, fun h => ⟨h.2 hn, fun hover => ?_⟩⟩
  -- a record that does not fit even now has no marker in front, so the bound fits a `usize`
  rcases freshLength_eq_or f n with hfresh | hfresh
  · have hlt : f.maxBytes < 2 ^ bits := by
      change f.maxBytes - f.freshLength n < n at hover
      rcases h.2 hn with h | h
      · rwa [hfresh, Nat.sub_zero] at h
      · have := Nat.mod_le (f.maxBytes - f.freshLength n) (2 ^ bits)
        omega
    exact .inl (lt_of_le_of_lt (Nat.sub_le _ _) hlt)
  · change f.maxBytes - f.freshLength n < n at hover
    omega

/-- After a chunk the rest of a record flows exactly if the record does. -/
theorem flows_write {n : ℕ} :
    ({ f with written := f.written + min (f.room bits) n } : LogFile).Flows bits
      (n - min (f.room bits) n) ↔ f.Flows bits n := by
  have hle := room_le bits f
  rcases Nat.le_total n (f.room bits) with hfits | hover
  · rw [Nat.min_eq_right hfits, Nat.sub_self]
    refine iff_of_true ⟨.inr (Nat.zero_le _), fun h => absurd h (Nat.not_lt_zero _)⟩
      ⟨.inr hfits, fun h => ?_⟩
    omega
  rw [Nat.min_eq_left hover]
  by_cases hsmall : f.maxBytes - f.written < 2 ^ bits
  · -- the chunk fills the file
    have heq : f.room bits = f.maxBytes - f.written := Nat.mod_eq_of_lt hsmall
    have hzero : f.maxBytes - (f.written + (f.maxBytes - f.written)) = 0 := by omega
    simp only [Flows, heq, hzero, Nat.sub_zero, Nat.sub_pos_iff_lt]
    exact and_congr_left' (iff_of_true (.inl (hzero ▸ Nat.two_pow_pos bits)) (.inl hsmall))
  · rcases Nat.eq_or_lt_of_le hover with heq | hlt
    · rw [← heq, Nat.sub_self]
      exact iff_of_true ⟨.inr (Nat.zero_le _), fun h => absurd h (Nat.not_lt_zero _)⟩
        ⟨.inr le_rfl, fun h => by omega⟩
    · -- the chunk ends where the room is a multiple of the size of a `usize`
      have hdvd : 2 ^ bits ∣ f.maxBytes - (f.written + f.room bits) := by
        rw [Nat.sub_add_eq]
        exact Nat.dvd_sub_mod _
      have hpos : 0 < f.maxBytes - (f.written + f.room bits) := by
        have := Nat.mod_lt (f.maxBytes - f.written) (Nat.two_pow_pos bits)
        rw [← room] at this
        omega
      refine iff_of_false (fun h => ?_) fun h => ?_
      · rcases h.1 with h | h
        · exact absurd (Nat.le_of_dvd hpos hdvd) (Nat.not_le.mpr h)
        · rw [Nat.mod_eq_zero_of_dvd hdvd] at h
          omega
      · exact h.1.elim hsmall fun h => absurd h (Nat.not_le.mpr hlt)

/-- A record is finished exactly if it does not meet a room that is cut to zero. -/
theorem returns_iff (bits : ℕ) (hmax : 0 < f.maxBytes) (rest : Bytes) :
    f.Returns bits rest ↔ f.Flows bits rest.length := by
  induction hlen : rest.length using Nat.strong_induction_on generalizing f rest with
  | _ n ih =>
    by_cases hrest : rest = []
    · subst hrest
      subst hlen
      exact ⟨fun _ => ⟨.inr (Nat.zero_le _), fun h => absurd h (Nat.not_lt_zero _)⟩,
        fun _ => returns_nil bits f⟩
    subst hlen
    have hpos := List.length_pos_of_ne_nil hrest
    -- first with a file that is not full
    have hopen : ∀ f : LogFile, f.written < f.maxBytes →
        (f.Returns bits rest ↔ f.Flows bits rest.length) := fun f hlt => by
      by_cases hroom : f.room bits = 0
      · refine iff_of_false (not_returns_of_room hlt hroom hrest) fun h => ?_
        rcases h.1 with h | h
        · rw [room, Nat.mod_eq_of_lt h] at hroom
          omega
        · rw [room] at hroom
          omega
      · have htake : 0 < min (f.room bits) rest.length := by omega
        have hdrop : (rest.drop (min (f.room bits) rest.length)).length =
            rest.length - min (f.room bits) rest.length := List.length_drop
        rw [returns_iff_afterChunk bits (Nat.zero_lt_of_lt hlt) hrest, afterChunk_of_lt hlt,
          take_of_lt hlt, ← flows_write]
        exact ih _ (by omega) (f := { f with written := f.written + min (f.room bits) rest.length })
          (Nat.zero_lt_of_lt hlt) _ hdrop
    rcases Nat.lt_or_ge f.written f.maxBytes with hlt | hfull
    · exact hopen f hlt
    · obtain ⟨hroom, hlt⟩ := makeRoom_spec hmax hpos rest
      rw [← hroom.maxBytes_eq] at hlt
      rw [← returns_makeRoom bits hmax hrest, hopen _ hlt, flows_makeRoom hpos hfull]

/-! ## Records and texts -/

/-- More passes than it takes make no difference. -/
theorem appendRecord_mono {fuel' : ℕ} {ops : List FileOp} (hmax : 0 < f.maxBytes)
    (hle : fuel ≤ fuel') (h : f.appendRecord bits fuel rest = some (g, ops, [])) :
    f.appendRecord bits fuel' rest = some (g, ops, []) := by
  by_cases hrest : rest = []
  · subst hrest
    rw [← h]
    cases fuel <;> cases fuel' <;> rfl
  induction fuel generalizing f g rest ops fuel' with
  | zero => exact absurd (congrArg (fun r => r.2.2) (Option.some.inj h)) hrest
  | succ fuel ih =>
    obtain ⟨fuel', rfl⟩ := Nat.exists_eq_add_one.mpr (Nat.zero_lt_of_lt hle)
    have hbound := (appended_afterChunk bits hmax hrest).1.maxBytes_eq
    rw [appendRecord_succ hmax hrest, Option.map_eq_some_iff] at h ⊢
    obtain ⟨⟨g', ops', left⟩, h, heq⟩ := h
    obtain rfl : left = [] := congrArg (fun r => r.2.2) heq
    refine ⟨(g', ops', []), ?_, heq⟩
    by_cases hdrop : rest.drop (f.take bits rest.length) = []
    · rw [hdrop] at h ⊢
      rw [← h]
      cases fuel <;> cases fuel' <;> rfl
    · exact ih (hbound ▸ hmax) (Nat.le_of_succ_le_succ hle) h hdrop

theorem appendRecords_cons {ops : List FileOp}
    (h : f.appendRecord bits fuel record = some (g, ops, [])) (records : List Bytes) :
    f.appendRecords bits fuel (record :: records) =
      (g.appendRecords bits fuel records).map fun (k, ops', left) => (k, ops ++ ops', left) := by
  rw [appendRecords, h]

theorem appendRecords_spec (bits fuel : ℕ) (hmax : 0 < f.maxBytes) (records : List Bytes) :
    ∃ g ops left, f.appendRecords bits fuel records = some (g, ops, left) ∧
      Appended f g ops records.flatten left.flatten ∧
      (left = [] → (records = [] → f.written ≤ f.maxBytes) → [] ∉ records →
        g.written ≤ f.maxBytes) := by
  induction records generalizing f with
  | nil => exact ⟨f, [], [], rfl, appended_nil f [], fun _ h _ => h rfl⟩
  | cons record records ih =>
    by_cases hrecord : record = []
    · subst hrecord
      have h : f.appendRecord bits fuel [] = some (f, [], []) := by cases fuel <;> rfl
      obtain ⟨g, ops, left, heq, happended, -⟩ := ih hmax
      refine ⟨g, ops, left, ?_, happended, fun _ _ hmem => absurd List.mem_cons_self hmem⟩
      rw [appendRecords_cons h, heq]
      rfl
    obtain ⟨g, ops, left, heq, happended, hle⟩ := appendRecord_spec bits fuel hmax record
      fun h => absurd h hrecord
    cases left with
    | nil =>
      obtain ⟨k, ops', left', heq', happended', hle'⟩ := ih (happended.maxBytes_eq ▸ hmax)
      refine ⟨k, ops ++ ops', left', ?_, ?_, fun hleft _ hmem => ?_⟩
      · rw [appendRecords_cons heq, heq']
        rfl
      · exact (happended.append records.flatten).trans happended'
      · rw [← happended.maxBytes_eq]
        exact hle' hleft (fun _ => happended.maxBytes_eq ▸ hle rfl)
          fun h => hmem (List.mem_cons_of_mem _ h)
    | cons b left =>
      refine ⟨g, ops, (b :: left) :: records, ?_, happended.append records.flatten,
        fun h => absurd h (List.cons_ne_nil _ _)⟩
      rw [appendRecords, heq]

theorem appendRecords_cons_iff {ops : List FileOp} :
    f.appendRecords bits fuel (record :: records) = some (g, ops, []) ↔
      ∃ h ops₁ ops₂, f.appendRecord bits fuel record = some (h, ops₁, []) ∧
        h.appendRecords bits fuel records = some (g, ops₂, []) ∧ ops = ops₁ ++ ops₂ := by
  constructor
  · intro h
    cases hrecord : f.appendRecord bits fuel record with
    | none => rw [appendRecords, hrecord] at h; cases h
    | some r =>
      obtain ⟨k, ops₁, left⟩ := r
      cases left with
      | nil =>
        rw [appendRecords_cons hrecord, Option.map_eq_some_iff] at h
        obtain ⟨⟨g', ops₂, left⟩, h, heq⟩ := h
        obtain ⟨rfl, rfl, rfl⟩ : g' = g ∧ ops₁ ++ ops₂ = ops ∧ left = [] := by simpa using heq
        exact ⟨k, ops₁, ops₂, rfl, h, rfl⟩
      | cons b left =>
        rw [appendRecords, hrecord] at h
        exact absurd (congrArg (fun r => r.2.2) (Option.some.inj h)) (List.cons_ne_nil _ _)
  · rintro ⟨h, ops₁, ops₂, hrecord, hrest, rfl⟩
    rw [appendRecords_cons hrecord, hrest]
    rfl

theorem appendRecord_maxBytes {ops : List FileOp} {left : Bytes} (hmax : 0 < f.maxBytes)
    (h : f.appendRecord bits fuel record = some (g, ops, left)) : g.maxBytes = f.maxBytes := by
  by_cases hrecord : record = []
  · subst hrecord
    have hnil : f.appendRecord bits fuel [] = some (f, [], []) := by cases fuel <;> rfl
    exact congrArg (fun r => r.1.maxBytes) (Option.some.inj (h.symm.trans hnil))
  · obtain ⟨g', ops', left', heq, happended, -⟩ := appendRecord_spec bits fuel hmax record
      fun h => absurd h hrecord
    rw [heq] at h
    exact (congrArg (fun r => r.1.maxBytes) (Option.some.inj h)).symm.trans happended.maxBytes_eq

theorem appendRecords_mono {fuel' : ℕ} {ops : List FileOp} (hmax : 0 < f.maxBytes)
    (hle : fuel ≤ fuel') (h : f.appendRecords bits fuel records = some (g, ops, [])) :
    f.appendRecords bits fuel' records = some (g, ops, []) := by
  induction records generalizing f ops with
  | nil => exact h
  | cons record records ih =>
    obtain ⟨k, ops₁, ops₂, hrecord, hrest, rfl⟩ := appendRecords_cons_iff.mp h
    exact appendRecords_cons_iff.mpr ⟨k, ops₁, ops₂, appendRecord_mono hmax hle hrecord,
      ih (appendRecord_maxBytes hmax hrecord ▸ hmax) hrest, rfl⟩

/-- Every record meets a file of the kind `P` for its length, left by the records before it. -/
def RecordsMeet (P : LogFile → ℕ → Prop) (bits : ℕ) (f : LogFile) (records : List Bytes) : Prop :=
  ∀ done record, done ++ [record] <+: records → ∀ fuel g ops,
    f.appendRecords bits fuel done = some (g, ops, []) → P g record.length

section Meet

variable {P : LogFile → ℕ → Prop}

theorem recordsMeet_nil (bits : ℕ) (f : LogFile) : f.RecordsMeet P bits [] :=
  fun done record h => absurd (List.prefix_nil.mp h) (by simp)

theorem recordsMeet_cons (hmax : 0 < f.maxBytes) : f.RecordsMeet P bits (record :: records) ↔
    P f record.length ∧ ∀ fuel g ops,
      f.appendRecord bits fuel record = some (g, ops, []) → g.RecordsMeet P bits records := by
  constructor
  · intro h
    refine ⟨h [] record ⟨records, rfl⟩ 0 f [] rfl, fun fuel g ops hrecord done next hnext fuel' k
      ops' hdone => ?_⟩
    obtain ⟨rest, hrest⟩ := hnext
    refine h (record :: done) next ⟨rest, congrArg (record :: ·) hrest⟩ (max fuel fuel') k
      (ops ++ ops') (appendRecords_cons_iff.mpr ⟨g, ops, ops', ?_, ?_, rfl⟩)
    · exact appendRecord_mono hmax (Nat.le_max_left ..) hrecord
    · exact appendRecords_mono (appendRecord_maxBytes hmax hrecord ▸ hmax) (Nat.le_max_right ..)
        hdone
  · rintro ⟨hfirst, hlater⟩ done next ⟨rest, hrest⟩ fuel g ops hdone
    cases done with
    | nil =>
      obtain rfl : next = record := (List.cons.inj hrest).1
      obtain rfl : f = g := congrArg Prod.fst (Option.some.inj hdone)
      exact hfirst
    | cons first done =>
      obtain ⟨rfl, htail⟩ := List.cons.inj hrest
      obtain ⟨k, ops₁, ops₂, hrecord, hdone, -⟩ := appendRecords_cons_iff.mp hdone
      exact hlater fuel k ops₁ hrecord done next ⟨rest, htail⟩ fuel g ops₂ hdone

end Meet

/-- No record meets a room that is cut to zero in the file that the records before it left. -/
def RecordsFlow (bits : ℕ) (f : LogFile) (records : List Bytes) : Prop :=
  ∀ done record, done ++ [record] <+: records → ∀ fuel g ops,
    f.appendRecords bits fuel done = some (g, ops, []) → g.Flows bits record.length

theorem recordsFlow_iff_meet (bits : ℕ) (f : LogFile) (records : List Bytes) :
    f.RecordsFlow bits records ↔
      f.RecordsMeet (fun g n => g.Flows bits n) bits records := Iff.rfl

/-- Some number of passes for each finishes the records. -/
def RecordsReturn (bits : ℕ) (f : LogFile) (records : List Bytes) : Prop :=
  ∃ fuel g ops, f.appendRecords bits fuel records = some (g, ops, [])

theorem recordsReturn_cons (hmax : 0 < f.maxBytes) : f.RecordsReturn bits (record :: records) ↔
    f.Returns bits record ∧ ∀ fuel g ops,
      f.appendRecord bits fuel record = some (g, ops, []) → g.RecordsReturn bits records := by
  constructor
  · rintro ⟨fuel, g, ops, h⟩
    obtain ⟨k, ops₁, ops₂, hrecord, hrest, -⟩ := appendRecords_cons_iff.mp h
    refine ⟨⟨fuel, k, ops₁, hrecord⟩, fun fuel' k' ops' hrecord' => ?_⟩
    have heq := (appendRecord_mono hmax (Nat.le_max_left fuel fuel') hrecord).symm.trans
      (appendRecord_mono hmax (Nat.le_max_right fuel fuel') hrecord')
    obtain rfl : k = k' := congrArg Prod.fst (Option.some.inj heq)
    exact ⟨fuel, g, ops₂, hrest⟩
  · rintro ⟨⟨fuel, g, ops, hrecord⟩, hlater⟩
    obtain ⟨fuel', k, ops', hrest⟩ := hlater fuel g ops hrecord
    refine ⟨max fuel fuel', k, ops ++ ops', appendRecords_cons_iff.mpr ⟨g, ops, ops', ?_, ?_, rfl⟩⟩
    · exact appendRecord_mono hmax (Nat.le_max_left ..) hrecord
    · exact appendRecords_mono (appendRecord_maxBytes hmax hrecord ▸ hmax) (Nat.le_max_right ..)
        hrest

theorem recordsReturn_iff (bits : ℕ) (hmax : 0 < f.maxBytes) (records : List Bytes) :
    f.RecordsReturn bits records ↔ f.RecordsFlow bits records := by
  induction records generalizing f with
  | nil => exact iff_of_true ⟨0, f, [], rfl⟩ (recordsMeet_nil bits f)
  | cons record records ih =>
    rw [recordsReturn_cons hmax, recordsFlow_iff_meet, recordsMeet_cons hmax, returns_iff bits hmax]
    refine and_congr_right' (forall_congr' fun fuel => forall_congr' fun g =>
      forall_congr' fun ops => imp_congr_right fun hrecord => ?_)
    exact ih (appendRecord_maxBytes hmax hrecord ▸ hmax)

end LogFile

theorem nil_not_mem_records (texts : List String) : [] ∉ texts.flatMap LogFile.recordsOf := by
  intro h
  obtain ⟨text, -, h⟩ := List.mem_flatMap.mp h
  obtain ⟨l, hl, hnil⟩ := List.mem_map.mp h
  obtain ⟨c, s, rfl⟩ := List.exists_cons_of_ne_nil (ne_nil_of_mem_splitInclusive hl)
  have hlen := congrArg List.length hnil
  rw [utf8Bytes, List.flatMap_cons, List.length_append, String.length_utf8EncodeChar] at hlen
  have := Char.utf8Size_pos c
  rw [List.length_nil] at hlen
  omega

/-- The bytes of all the texts. -/
def textBytes (texts : List String) : Bytes := texts.flatMap fun text => utf8Bytes text.toList

theorem flatten_recordsOf (texts : List String) :
    (texts.flatMap LogFile.recordsOf).flatten = textBytes texts := by
  have hjoin : ∀ ls : List (List Char), (ls.map utf8Bytes).flatten = utf8Bytes ls.flatten :=
    fun ls => by rw [utf8Bytes, List.flatMap_def, List.map_flatten, List.flatten_flatten,
      List.map_map]; rfl
  rw [List.flatMap_def, List.flatten_flatten, List.map_map, textBytes, List.flatMap_def]
  refine congrArg List.flatten (List.map_congr_left fun text _ => ?_)
  exact (hjoin _).trans (congrArg utf8Bytes (flatten_splitInclusive _))

/-- A log file on a disk, opened with its bounds and given texts : appending them returns and
nothing underflows. Between two records the file has the length that is written down, and after
each it is within its bound. With files to keep and none rotated before, what the files hold
together is at every moment the newest part of what was there and what was appended, and all of
it until a file is removed. -/
structure StaysBounded (bits maxBytes keep : ℕ) (disk : Disk) (texts : List String) : Prop where
  returns : (LogFile.open disk maxBytes keep).1.RecordsReturn bits
    (texts.flatMap LogFile.recordsOf)
  no_underflow : ∀ fuel, (LogFile.open disk maxBytes keep).1.appendTexts bits fuel texts ≠ none
  within : ∀ fuel done f ops, done <+: texts.flatMap LogFile.recordsOf →
    (LogFile.open disk maxBytes keep).1.appendRecords bits fuel done = some (f, ops, []) →
      f.Names (runOps disk ((LogFile.open disk maxBytes keep).2 ++ ops)) ∧
        (done ≠ [] → f.written ≤ max maxBytes 1)
  newest : 1 ≤ keep → (∀ i, 1 ≤ i → i ≤ keep → disk i = none) → ∀ fuel f ops left,
    (LogFile.open disk maxBytes keep).1.appendTexts bits fuel texts = some (f, ops, left) →
      appended ops ++ left.flatten = textBytes texts ∧
      ∀ now, now <+: (LogFile.open disk maxBytes keep).2 ++ ops →
        joined (runOps disk now) keep <:+ contents disk 0 ++ appended now ∧
        (¬Loses disk now → joined (runOps disk now) keep = contents disk 0 ++ appended now)

section

variable (bits maxBytes keep : ℕ) (disk : Disk) (texts : List String)

theorem open_maxBytes_pos : 0 < (LogFile.open disk maxBytes keep).1.maxBytes :=
  Nat.lt_of_lt_of_le Nat.zero_lt_one (Nat.le_max_right ..)

/-- What every run keeps, whether it returns or not. -/
theorem staysBounded_iff_returns : StaysBounded bits maxBytes keep disk texts ↔
    (LogFile.open disk maxBytes keep).1.RecordsReturn bits
      (texts.flatMap LogFile.recordsOf) := by
  refine ⟨StaysBounded.returns, fun hreturns => ⟨hreturns, fun fuel h => ?_,
    fun fuel done f ops hdone h => ?_, fun hkeep hnone fuel f ops left h => ?_⟩⟩
  · obtain ⟨g, ops, left, heq, -⟩ := LogFile.appendRecords_spec bits fuel
      (open_maxBytes_pos maxBytes keep disk) (texts.flatMap LogFile.recordsOf)
    exact Option.some_ne_none _ (heq.symm.trans h)
  · obtain ⟨g, ops', left, heq, happended, hle⟩ := LogFile.appendRecords_spec bits fuel
      (open_maxBytes_pos maxBytes keep disk) done
    obtain ⟨rfl, rfl, rfl⟩ : g = f ∧ ops' = ops ∧ left = [] := by
      simpa using heq.symm.trans h
    rw [runOps_append]
    refine ⟨happended.names _ (LogFile.names_open disk maxBytes keep), fun hne => ?_⟩
    exact hle rfl (fun hnil => absurd hnil hne)
      fun hmem => nil_not_mem_records texts (hdone.subset hmem)
  · obtain ⟨g, ops', left', heq, happended, -⟩ := LogFile.appendRecords_spec bits fuel
      (open_maxBytes_pos maxBytes keep disk) (texts.flatMap LogFile.recordsOf)
    obtain ⟨rfl, rfl, rfl⟩ : g = f ∧ ops' = ops ∧ left' = left := by
      simpa using heq.symm.trans h
    have hne : (LogFile.open disk maxBytes keep).1.keep ≠ 0 := Nat.one_le_iff_ne_zero.mp hkeep
    have hsafe : SafeRun keep disk ((LogFile.open disk maxBytes keep).2 ++ ops') :=
      ⟨trivial, happended.safeRun hne _⟩
    refine ⟨?_, fun now hnow => ?_⟩
    · rw [← happended.bytes_eq hne, flatten_recordsOf]
    · rw [← joined_eq_zero hnone]
      exact ⟨hsafe.suffix hkeep hnow, hsafe.joined_eq hkeep hnow⟩

/-- A log file is bounded in a run exactly if no record meets a room that is not zero and is cut
to zero. -/
theorem log_file_iff : StaysBounded bits maxBytes keep disk texts ↔
    (LogFile.open disk maxBytes keep).1.RecordsFlow bits
      (texts.flatMap LogFile.recordsOf) :=
  (staysBounded_iff_returns bits maxBytes keep disk texts).trans
    (LogFile.recordsReturn_iff bits (open_maxBytes_pos maxBytes keep disk) _)

/-- A bound that fits a `usize`, as every bound does on a target with 64 bits, is kept. -/
theorem staysBounded_of_lt (h : max maxBytes 1 < 2 ^ bits) :
    StaysBounded bits maxBytes keep disk texts := by
  refine (staysBounded_iff_returns ..).mpr ((LogFile.recordsReturn_iff bits
    (open_maxBytes_pos maxBytes keep disk) _).mpr fun done record _ fuel f ops hdone =>
    LogFile.flows_of_lt ?_ _)
  obtain ⟨g, ops', left, heq, happended, -⟩ := LogFile.appendRecords_spec bits fuel
    (open_maxBytes_pos maxBytes keep disk) done
  obtain rfl : g = f := congrArg Prod.fst (Option.some.inj (heq.symm.trans hdone))
  exact happended.maxBytes_eq ▸ h

end

/-- With 32 bits and a bound of 4 GiB the first record is never finished. -/
theorem not_staysBounded_armv7 : ¬StaysBounded 32 (2 ^ 32) 0 (fun _ => none) ["a
"] := by
  intro h
  have hflow := (LogFile.recordsReturn_iff 32 (open_maxBytes_pos _ _ _) _).mp h.returns
  have hfirst := hflow [] (utf8Bytes "a
".toList) (by decide) 0 _ [] rfl
  exact absurd hfirst.1 (by decide)

end Rinit
