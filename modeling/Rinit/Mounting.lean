import Rinit.Fstab
import Rinit.Privileges

/-!
# Mounting and unmounting

The first wave of mounts is a fixed list, the second one the fstab, and at shutdown everything is
unmounted again. The policy is written against `MountOps`, which `realMounts` makes of the system
calls. Of the kernel behind them it is only assumed what its table of mounts does
(`MountKernel`) : a mount is added at the end of the table, a call that fails leaves it alone, and
the last mount can be taken away, if need be lazily.

`MountKernel.secondWave` : of the entries of the fstab that are not for swap, the ones whose mount
point was free before are tried in order, each on its own, and a warning tells of each that fails.
`MountKernel.table_unmount` : what is unmounted at shutdown is what was mounted, down to the root.
`MountKernel.table_shutdown` puts the two together for a whole boot.
-/

namespace Rinit

/-! ## The operations -/

/-- The message of a failed call. The text of a number is the C library's. -/
def SyscallError.display (strerror : ℤ → String) (e : SyscallError) : String :=
  e.op ++ (match e.context with | some context => " " ++ context | none => "") ++
    s!" failed: {strerror e.errno} (errno {e.errno})"

/-- What the mount policy asks of the system. -/
structure MountOps (σ : Type*) where
  mkdirP (target : List Char) (s : σ) : Except SyscallError Unit × σ
  mountTmpfs (target mode : List Char) (s : σ) : Except SyscallError Unit × σ
  mountProc (target : List Char) (s : σ) : Except SyscallError Unit × σ
  mountSysfs (target : List Char) (s : σ) : Except SyscallError Unit × σ
  mountDevtmpfs (target : List Char) (s : σ) : Except SyscallError Unit × σ
  mountCgroup2 (target : List Char) (s : σ) : Except SyscallError Unit × σ
  mountFs (source target fstype : List Char) (flags : BitVec 64) (data : Option (List Char))
    (s : σ) : Except SyscallError Unit × σ
  umount2 (target : List Char) (flags : ℕ) (s : σ) : Except SyscallError Unit × σ

/-- The system calls. A number of 0 stands for an error without one. -/
structure MountSyscalls (σ : Type*) where
  createDirAll (dir : List Char) (s : σ) : Except ℤ Unit × σ
  mount (source target fstype : List Char) (flags : BitVec 64) (data : Option (List Char))
    (s : σ) : Except ℤ Unit × σ
  umount2 (target : List Char) (flags : ℕ) (s : σ) : Except ℤ Unit × σ

/-- The flag of the lazy unmount. -/
def mntDetach : ℕ := 2

section Real

variable {σ : Type*} (calls : MountSyscalls σ)

namespace MountSyscalls

/-- Ensure that a directory exists. -/
def mkdirP (dir : List Char) (s : σ) : Except SyscallError Unit × σ :=
  match calls.createDirAll dir s with
  | (.ok (), s) => (.ok (), s)
  | (.error errno, s) => (.error { op := "create_dir_all", errno }, s)

/-- `mount(2)`, to which no string with a NUL gets. -/
def mountAt (source target fstype : List Char) (flags : BitVec 64) (data : Option (List Char))
    (s : σ) : Except SyscallError Unit × σ :=
  if '\x00' ∈ source ∨ '\x00' ∈ target ∨ '\x00' ∈ fstype ∨ '\x00' ∈ data.getD [] then
    (.error { op := "mount", errno := eInval }, s)
  else
    match calls.mount source target fstype flags data s with
    | (.ok (), s) => (.ok (), s)
    | (.error errno, s) =>
      (.error { op := "mount", errno, context := some (String.ofList target) }, s)

def umountAt (target : List Char) (flags : ℕ) (s : σ) : Except SyscallError Unit × σ :=
  if '\x00' ∈ target then (.error { op := "umount2", errno := eInval }, s)
  else
    match calls.umount2 target flags s with
    | (.ok (), s) => (.ok (), s)
    | (.error errno, s) => (.error { op := "umount2", errno }, s)

/-- Make the directory and mount a filesystem of the kernel's own there. -/
def mountOwn (source fstype : List Char) (flags : List MountFlag) (data : Option (List Char))
    (target : List Char) (s : σ) : Except SyscallError Unit × σ :=
  match calls.mkdirP target s with
  | (.error e, s) => (.error e, s)
  | (.ok (), s) =>
    calls.mountAt source target fstype (flags.foldl (fun bits flag => bits ||| flag.mask) 0) data s

end MountSyscalls

open MountSyscalls in
/-- The real thing. -/
def realMounts : MountOps σ where
  mkdirP := mkdirP calls
  mountTmpfs target mode :=
    mountOwn calls "tmpfs".toList "tmpfs".toList [.nosuid, .nodev] (some ("mode=".toList ++ mode))
      target
  mountProc := mountOwn calls "proc".toList "proc".toList [.nosuid, .nodev, .noexec] none
  mountSysfs := mountOwn calls "sysfs".toList "sysfs".toList [.nosuid, .nodev, .noexec] none
  mountDevtmpfs :=
    mountOwn calls "devtmpfs".toList "devtmpfs".toList [.nosuid] (some "mode=0755".toList)
  mountCgroup2 := mountOwn calls "cgroup2".toList "cgroup2".toList [.nosuid, .nodev, .noexec] none
  mountFs := mountAt calls
  umount2 := umountAt calls

end Real

/-! ## The first wave -/

/-- What was mounted, in order, and what was not. -/
structure MountReport where
  mounted : List (List Char) := []
  warnings : List String := []
deriving DecidableEq, Repr

section Policy

variable {σ : Type*} (strerror : ℤ → String) (ops : MountOps σ)

/-- Mount in order, up to the first that fails. -/
def fatalMounts : List (List Char × (σ → Except SyscallError Unit × σ)) → MountReport → σ →
    Except SyscallError MountReport × σ
  | [], report, s => (.ok report, s)
  | (target, call) :: rest, report, s =>
    match call s with
    | (.ok (), s) => fatalMounts rest { report with mounted := report.mounted ++ [target] } s
    | (.error e, s) => (.error e, s)

/-- Mount in order, with a warning for each that fails. -/
def degradableMounts : List (List Char × (σ → Except SyscallError Unit × σ)) → MountReport → σ →
    MountReport × σ
  | [], report, s => (report, s)
  | (target, call) :: rest, report, s =>
    match call s with
    | (.ok (), s) => degradableMounts rest { report with mounted := report.mounted ++ [target] } s
    | (.error e, s) =>
      let warning := s!"mount {String.ofList target} failed: {e.display strerror}"
      degradableMounts rest { report with warnings := report.warnings ++ [warning] } s

/-- Where the cgroup hierarchy is mounted. -/
def cgroupRoot : List Char := "/sys/fs/cgroup".toList

/-- The points of the first wave without which there is no boot. -/
def fatalPoints : List (List Char × (σ → Except SyscallError Unit × σ)) :=
  [("/run".toList, ops.mountTmpfs "/run".toList "0755".toList),
    ("/proc".toList, ops.mountProc "/proc".toList), ("/sys".toList, ops.mountSysfs "/sys".toList),
    ("/dev".toList, ops.mountDevtmpfs "/dev".toList)]

/-- The ones that a boot can do without. -/
def degradablePoints : List (List Char × (σ → Except SyscallError Unit × σ)) :=
  [("/tmp".toList, ops.mountTmpfs "/tmp".toList "1777".toList),
    (cgroupRoot, ops.mountCgroup2 cgroupRoot)]

/-- The first wave. -/
def firstWaveMountsWith (s : σ) : Except SyscallError MountReport × σ :=
  match fatalMounts (fatalPoints ops) {} s with
  | (.error e, s) => (.error e, s)
  | (.ok report, s) =>
    let (report, s) := degradableMounts strerror (degradablePoints ops) report s
    (.ok report, s)

/-! ## The second wave -/

/-- The mount points that `/proc/mounts` lists. -/
def mountedPoints (mounts : List Char) : List (List Char) :=
  ((lines mounts).filterMap fun line => (splitWhitespace line)[1]?).map unescapeMountField

/-- Mount one entry of the fstab, unless it is for swap or its point was mounted before. -/
def mountEntry (current : Option (List Char)) (acc : MountReport × σ) (entry : Fstab.Entry) :
    MountReport × σ :=
  let (report, s) := acc
  let point := String.ofList entry.mountpoint
  if entry.fstype = "swap".toList then acc
  else if current.any fun mounts => mountedPoints mounts |>.any (· = entry.mountpoint) then acc
  else
    match ops.mkdirP entry.mountpoint s with
    | (.error e, s) =>
      let warning := s!"cannot create {point}: {e.display strerror}"
      ({ report with warnings := report.warnings ++ [warning] }, s)
    | (.ok (), s) =>
      let (flags, data) := flagsAndData entry.options
      match ops.mountFs entry.device entry.mountpoint entry.fstype flags data s with
      | (.error e, s) =>
        let warning := s!"cannot mount {String.ofList entry.device} on {point} " ++
          s!"({String.ofList entry.fstype}, {e.display strerror})"
        ({ report with warnings := report.warnings ++ [warning] }, s)
      | (.ok (), s) => ({ report with mounted := report.mounted ++ [entry.mountpoint] }, s)

/-- Mount the entries of the fstab in order. -/
def mountWithMounted (text : List Char) (current : Option (List Char)) (s : σ) : MountReport × σ :=
  let (entries, warnings) := Fstab.parse text
  entries.foldl (mountEntry strerror ops current) ({ warnings }, s)

/-- What is found at the path of the fstab. -/
inductive FstabFile where
  | missing
  | noStat (errno : ℤ)
  | special
  | regular (len : ℕ) (content : Except ℤ (List UInt8))

def maxFstabBytes : ℕ := 1024 * 1024

/-- Read the file and run the second wave, or say why not. -/
def runWith (file : FstabFile) (current : Option (List Char)) (s : σ) :
    Except SyscallError MountReport × σ :=
  match file with
  | .missing => (.ok {}, s)
  | .noStat errno => (.error { op := "stat(/etc/fstab)", errno }, s)
  | .special => (.error { op := "read(/etc/fstab)", errno := eInval }, s)
  | .regular len content =>
    if maxFstabBytes < len then (.error { op := "read(/etc/fstab)", errno := eInval }, s)
    else
      match content with
      | .error errno => (.error { op := "read(/etc/fstab)", errno }, s)
      | .ok bytes =>
        match Codec.fromUtf8 bytes with
        -- an error of the library, which has no number
        | none => (.error { op := "read(/etc/fstab)", errno := 0 }, s)
        | some text =>
          let (report, s) := mountWithMounted strerror ops text current s
          (.ok report, s)

/-! ## The shutdown -/

/-- What was unmounted, in order, and what was not. -/
structure UnmountReport where
  unmounted : List (List Char) := []
  warnings : List String := []
deriving DecidableEq, Repr

/-- Unmount a point, lazily if it is busy. -/
def unmountPoint (acc : UnmountReport × σ) (point : List Char) : UnmountReport × σ :=
  let (report, s) := acc
  match ops.umount2 point 0 s with
  | (.ok (), s) => ({ report with unmounted := report.unmounted ++ [point] }, s)
  | (.error first, s) =>
    match ops.umount2 point mntDetach s with
    | (.ok (), s) => ({ report with unmounted := report.unmounted ++ [point] }, s)
    | (.error _, s) =>
      if first.errno = eInval ∨ first.errno = eNoEnt then (report, s)
      else
        let warning := s!"umount {String.ofList point} failed: {first.display strerror}"
        ({ report with warnings := report.warnings ++ [warning] }, s)

/-- Unmount everything but the root, best effort. -/
def unmountFilesystemsWith (contents : Option (List Char)) (s : σ) : UnmountReport × σ :=
  match contents with
  | none => ({}, s)
  | some contents => (unmountOrder contents).foldl (unmountPoint strerror ops) ({}, s)

end Policy

/-! ## The kernel -/

/-- A kernel, by what its calls do to the table of mounts. -/
structure MountKernel (σ : Type*) extends MountSyscalls σ where
  table : σ → List Mount
  /-- The path without symbolic links. -/
  real : σ → List Char → List Char
  createDirAll_table : ∀ dir s, table (createDirAll dir s).2 = table s
  mount_ok : ∀ source target fstype flags data s,
    (mount source target fstype flags data s).1 = .ok () →
      ∃ m : Mount, m.device = source ∧ m.point = real s target ∧ m.fstype = fstype ∧
        table (mount source target fstype flags data s).2 = table s ++ [m]
  mount_error : ∀ source target fstype flags data s,
    (mount source target fstype flags data s).1 ≠ .ok () →
      table (mount source target fstype flags data s).2 = table s
  /-- Nothing is mounted over the last mount, so it can go, lazily if it is busy. -/
  umount_last : ∀ front m flags s, table s = front ++ [m] → m.point ≠ ['/'] →
    ((umount2 m.point flags s).1 = .ok () ∧ table (umount2 m.point flags s).2 = front) ∨
      (flags ≠ mntDetach ∧ (umount2 m.point flags s).1 ≠ .ok () ∧
        table (umount2 m.point flags s).2 = table s)

/-- What a mount is asked for. -/
structure MountCall where
  device : List Char
  point : List Char
  fstype : List Char
deriving DecidableEq, Repr

def Mount.call (m : Mount) : MountCall := ⟨m.device, m.point, m.fstype⟩

/-- The table can show the paths. -/
def MountCall.Shown (c : MountCall) : Prop :=
  (∀ x ∈ c.device, isKept x = false) ∧ ∀ x ∈ c.point, isKept x = false

def Fstab.Entry.call (e : Fstab.Entry) : MountCall := ⟨e.device, e.mountpoint, e.fstype⟩

namespace MountKernel

variable {σ : Type*} (k : MountKernel σ)

/-- A path without symbolic links in it. -/
def Real (path : List Char) : Prop := ∀ s, k.real s path = path

/-- The table grew by these mounts at its end. -/
def Grew (s s' : σ) (calls : List MountCall) : Prop :=
  ∃ new : List Mount, k.table s' = k.table s ++ new ∧ new.map Mount.call = calls

variable {k} {s s' s'' : σ}

theorem Grew.of_eq (h : k.table s' = k.table s) : k.Grew s s' [] :=
  ⟨[], by rw [h, List.append_nil], rfl⟩

theorem Grew.trans {calls calls' : List MountCall} (h : k.Grew s s' calls)
    (h' : k.Grew s' s'' calls') : k.Grew s s'' (calls ++ calls') := by
  obtain ⟨new, hs, rfl⟩ := h
  obtain ⟨new', hs', rfl⟩ := h'
  exact ⟨new ++ new', by rw [hs', hs, List.append_assoc], List.map_append⟩

variable (k)

/-- A call that mounts this or fails. -/
def Mounts (asked : MountCall) (call : σ → Except SyscallError Unit × σ) : Prop :=
  ∀ s, ((call s).1 = .ok () ∧ k.Grew s (call s).2 [asked]) ∨
    ∃ e, (call s).1 = .error e ∧ k.Grew s (call s).2 []

theorem grew_mkdirP (dir : List Char) (s : σ) :
    k.Grew s (k.toMountSyscalls.mkdirP dir s).2 [] := by
  have h := k.createDirAll_table dir s
  unfold MountSyscalls.mkdirP
  rcases hcall : k.createDirAll dir s with ⟨_ | _, s'⟩ <;> rw [hcall] at h <;> exact Grew.of_eq h

variable {k}

theorem mounts_mountAt {target : List Char} (hreal : k.Real target) (source fstype : List Char)
    (flags : BitVec 64) (data : Option (List Char)) :
    k.Mounts ⟨source, target, fstype⟩
      (k.toMountSyscalls.mountAt source target fstype flags data) := by
  intro s
  have hok := k.mount_ok source target fstype flags data s
  have herror := k.mount_error source target fstype flags data s
  unfold MountSyscalls.mountAt
  split_ifs
  · exact .inr ⟨_, rfl, Grew.of_eq rfl⟩
  rcases hcall : k.mount source target fstype flags data s with ⟨errno | ⟨⟩, s'⟩
  · rw [hcall] at herror
    exact .inr ⟨_, rfl, Grew.of_eq (herror (by simp))⟩
  · rw [hcall] at hok
    obtain ⟨m, hdevice, hpoint, hfstype, htable⟩ := hok rfl
    refine .inl ⟨rfl, [m], htable, ?_⟩
    rw [List.map_singleton, Mount.call, hdevice, hpoint, hfstype, hreal s]

theorem mounts_mountOwn {target : List Char} (hreal : k.Real target) (source fstype : List Char)
    (flags : List MountFlag) (data : Option (List Char)) :
    k.Mounts ⟨source, target, fstype⟩
      (k.toMountSyscalls.mountOwn source fstype flags data target) := by
  intro s
  have hdir := k.grew_mkdirP target s
  unfold MountSyscalls.mountOwn
  rcases hcall : k.toMountSyscalls.mkdirP target s with ⟨e | ⟨⟩, s'⟩
  · rw [hcall] at hdir
    exact .inr ⟨e, rfl, hdir⟩
  · rw [hcall] at hdir
    dsimp only
    rcases mounts_mountAt hreal source fstype
        (flags.foldl (fun bits flag => bits ||| flag.mask) 0) data s' with ⟨h, hgrew⟩ | ⟨e, h, hgrew⟩
    · exact .inl ⟨h, hdir.trans hgrew⟩
    · exact .inr ⟨e, h, hdir.trans hgrew⟩

/-! ## The waves -/

/-- The steps mount one thing each. -/
def Steps (k : MountKernel σ) : List (List Char × (σ → Except SyscallError Unit × σ)) →
    List MountCall → Prop :=
  List.Forall₂ fun step asked => asked.point = step.1 ∧ k.Mounts asked step.2

/-- The fatal mounts stop at the first that fails. -/
theorem fatalMounts_spec {steps : List (List Char × (σ → Except SyscallError Unit × σ))}
    {asked : List MountCall} (h : k.Steps steps asked) (report : MountReport) (s : σ) :
    ∃ calls, calls <+: asked ∧ k.Grew s (fatalMounts steps report s).2 calls ∧
      ∀ report', (fatalMounts steps report s).1 = .ok report' → calls = asked ∧
        report' = { report with mounted := report.mounted ++ asked.map MountCall.point } := by
  induction h generalizing report s with
  | nil =>
    refine ⟨[], List.nil_prefix, Grew.of_eq rfl, fun report' h => ?_⟩
    obtain rfl := Except.ok.inj h
    exact ⟨rfl, by rw [List.map_nil, List.append_nil]⟩
  | @cons step one steps asked hone _ ih =>
    obtain ⟨target, call⟩ := step
    obtain ⟨hpoint, hmounts⟩ := hone
    have hmounts := hmounts s
    rw [fatalMounts]
    rcases hcall : call s with ⟨result, s'⟩
    dsimp only at hmounts
    rw [hcall] at hmounts
    rcases hmounts with ⟨hok, hgrew⟩ | ⟨e, herror, hgrew⟩
    · obtain rfl : result = .ok () := hok
      obtain ⟨calls, hstart, hrest, hfinal⟩ :=
        ih { report with mounted := report.mounted ++ [target] } s'
      refine ⟨one :: calls, List.cons_prefix_cons.mpr ⟨rfl, hstart⟩, hgrew.trans hrest,
        fun report' hreport' => ?_⟩
      obtain ⟨hcalls, hreport⟩ := hfinal report' hreport'
      rw [hcalls, hreport, List.map_cons, hpoint, List.append_assoc]
      exact ⟨rfl, rfl⟩
    · obtain rfl : result = .error e := herror
      exact ⟨[], List.nil_prefix, hgrew, fun report' h => by cases h⟩

/-- The others are each mounted or told of. -/
theorem degradableMounts_spec (strerror : ℤ → String)
    {steps : List (List Char × (σ → Except SyscallError Unit × σ))}
    {asked : List MountCall} (h : k.Steps steps asked) (report : MountReport) (s : σ) :
    ∃ calls : List MountCall, calls.Sublist asked ∧
      k.Grew s (degradableMounts strerror steps report s).2 calls ∧
      (degradableMounts strerror steps report s).1.mounted =
        report.mounted ++ calls.map MountCall.point := by
  induction h generalizing report s with
  | nil => exact ⟨[], .slnil, Grew.of_eq rfl, (List.append_nil _).symm⟩
  | @cons step one steps asked hone _ ih =>
    obtain ⟨target, call⟩ := step
    obtain ⟨hpoint, hmounts⟩ := hone
    have hmounts := hmounts s
    rw [degradableMounts]
    rcases hcall : call s with ⟨result, s'⟩
    dsimp only at hmounts
    rw [hcall] at hmounts
    rcases hmounts with ⟨hok, hgrew⟩ | ⟨e, herror, hgrew⟩
    · obtain rfl : result = .ok () := hok
      obtain ⟨calls, hsub, hrest, hmounted⟩ :=
        ih { report with mounted := report.mounted ++ [target] } s'
      refine ⟨one :: calls, hsub.cons_cons one, hgrew.trans hrest, ?_⟩
      rw [hmounted, List.map_cons, hpoint, List.append_assoc]
      rfl
    · obtain rfl : result = .error e := herror
      obtain ⟨calls, hsub, hrest, hmounted⟩ := ih { report with
        warnings := report.warnings ++
          [s!"mount {String.ofList target} failed: {e.display strerror}"] } s'
      exact ⟨calls, hsub.cons one, hgrew.trans hrest, hmounted⟩

/-- What the fatal points are for. -/
def fatalCalls : List MountCall :=
  [⟨"tmpfs".toList, "/run".toList, "tmpfs".toList⟩, ⟨"proc".toList, "/proc".toList, "proc".toList⟩,
    ⟨"sysfs".toList, "/sys".toList, "sysfs".toList⟩,
    ⟨"devtmpfs".toList, "/dev".toList, "devtmpfs".toList⟩]

/-- What the others are for. -/
def degradableCalls : List MountCall :=
  [⟨"tmpfs".toList, "/tmp".toList, "tmpfs".toList⟩,
    ⟨"cgroup2".toList, cgroupRoot, "cgroup2".toList⟩]

/-- The first wave mounts all fatal points and some of the others, or it fails and has mounted
the fatal points up to the one that could not be. -/
theorem firstWave_spec (strerror : ℤ → String)
    (hreal : ∀ c ∈ fatalCalls ++ degradableCalls, k.Real c.point) (s : σ) :
    let result := firstWaveMountsWith strerror (realMounts k.toMountSyscalls) s
    (∃ report calls, result.1 = .ok report ∧ calls.Sublist degradableCalls ∧
      k.Grew s result.2 (fatalCalls ++ calls) ∧
      report.mounted = (fatalCalls ++ calls).map MountCall.point) ∨
    ∃ e calls, result.1 = .error e ∧ calls <+: fatalCalls ∧ k.Grew s result.2 calls := by
  have hreal' : ∀ c ∈ fatalCalls ++ degradableCalls, ∀ flags data, k.Mounts c
      (k.toMountSyscalls.mountOwn c.device c.fstype flags data c.point) :=
    fun c hc flags data => mounts_mountOwn (hreal c hc) _ _ flags data
  have hfatal : k.Steps (fatalPoints (realMounts k.toMountSyscalls)) fatalCalls :=
    .cons ⟨rfl, hreal' _ (by simp [fatalCalls]) _ _⟩
      (.cons ⟨rfl, hreal' _ (by simp [fatalCalls]) _ _⟩
        (.cons ⟨rfl, hreal' _ (by simp [fatalCalls]) _ _⟩
          (.cons ⟨rfl, hreal' _ (by simp [fatalCalls]) _ _⟩ .nil)))
  have hdegradable : k.Steps (degradablePoints (realMounts k.toMountSyscalls)) degradableCalls :=
    .cons ⟨rfl, hreal' _ (by simp [degradableCalls]) _ _⟩
      (.cons ⟨rfl, hreal' _ (by simp [degradableCalls]) _ _⟩ .nil)
  obtain ⟨calls, hstart, hgrew, hfinal⟩ := fatalMounts_spec hfatal {} s
  unfold firstWaveMountsWith
  rcases hresult : fatalMounts (fatalPoints (realMounts k.toMountSyscalls)) {} s with
    ⟨e | report, s'⟩
  · rw [hresult] at hgrew
    exact .inr ⟨e, calls, rfl, hstart, hgrew⟩
  · rw [hresult] at hgrew hfinal
    obtain ⟨rfl, hreport⟩ := hfinal report rfl
    obtain ⟨more, hsub, hgrew', hmounted⟩ := degradableMounts_spec strerror hdegradable report s'
    refine .inl ⟨_, more, rfl, hsub, hgrew.trans hgrew', ?_⟩
    rw [hmounted, hreport, List.map_append]
    rfl

/-- An entry that the second wave tries : it is not for swap, and its point is free. -/
def isTried (current : Option (List Char)) (e : Fstab.Entry) : Bool :=
  e.fstype ≠ "swap".toList &&
    !current.any fun mounts => mountedPoints mounts |>.any (· = e.mountpoint)

/-- What one entry comes to. -/
theorem mountEntry_cases (strerror : ℤ → String) (current : Option (List Char))
    (acc : MountReport × σ) {e : Fstab.Entry}
    (hreal : isTried current e = true → k.Real e.mountpoint) :
    let acc' := mountEntry strerror (realMounts k.toMountSyscalls) current acc e
    (isTried current e = false ∧ acc' = acc) ∨
      (isTried current e = true ∧ k.Grew acc.2 acc'.2 [] ∧ acc'.1.mounted = acc.1.mounted ∧
        acc'.1.warnings.length = acc.1.warnings.length + 1) ∨
      (isTried current e = true ∧ k.Grew acc.2 acc'.2 [e.call] ∧
        acc'.1.mounted = acc.1.mounted ++ [e.mountpoint] ∧ acc'.1.warnings = acc.1.warnings) := by
  obtain ⟨report, s⟩ := acc
  unfold mountEntry
  dsimp only
  by_cases hswap : e.fstype = "swap".toList
  · exact .inl ⟨by simp [isTried, hswap], if_pos hswap⟩
  rw [if_neg hswap]
  by_cases hcurrent :
      (current.any fun mounts => mountedPoints mounts |>.any (· = e.mountpoint)) = true
  · exact .inl ⟨by rw [isTried, hcurrent]; simp, if_pos hcurrent⟩
  rw [if_neg hcurrent]
  have htried : isTried current e = true := by
    rw [isTried, Bool.eq_false_iff.mpr hcurrent]
    simpa using hswap
  have hdir : k.Grew s ((realMounts k.toMountSyscalls).mkdirP e.mountpoint s).2 [] :=
    k.grew_mkdirP e.mountpoint s
  rcases hcall : (realMounts k.toMountSyscalls).mkdirP e.mountpoint s with ⟨error | ⟨⟩, s'⟩
  · rw [hcall] at hdir
    exact .inr (.inl ⟨htried, hdir, rfl, List.length_append⟩)
  rw [hcall] at hdir
  have hmounts : k.Mounts e.call ((realMounts k.toMountSyscalls).mountFs e.device e.mountpoint
      e.fstype (flagsAndData e.options).1 (flagsAndData e.options).2) :=
    mounts_mountAt (hreal htried) _ _ _ _
  have hmounts := hmounts s'
  dsimp only
  rcases hcall' : (realMounts k.toMountSyscalls).mountFs e.device e.mountpoint e.fstype
    (flagsAndData e.options).1 (flagsAndData e.options).2 s' with ⟨result, s''⟩
  rw [hcall'] at hmounts
  rcases hmounts with ⟨hok, hgrew⟩ | ⟨error, herror, hgrew⟩
  · obtain rfl : result = .ok () := hok
    exact .inr (.inr ⟨htried, hdir.trans hgrew, rfl, rfl⟩)
  · obtain rfl : result = .error error := herror
    exact .inr (.inl ⟨htried, hdir.trans hgrew, rfl, List.length_append⟩)

/-- The entries are gone through in order, each on its own. -/
theorem foldl_mountEntry (strerror : ℤ → String) (current : Option (List Char))
    {entries : List Fstab.Entry}
    (hreal : ∀ e ∈ entries, isTried current e = true → k.Real e.mountpoint)
    (acc : MountReport × σ) :
    let acc' := entries.foldl (mountEntry strerror (realMounts k.toMountSyscalls) current) acc
    ∃ taken : List Fstab.Entry, taken.Sublist (entries.filter (isTried current)) ∧
      k.Grew acc.2 acc'.2 (taken.map Fstab.Entry.call) ∧
      acc'.1.mounted = acc.1.mounted ++ taken.map Fstab.Entry.mountpoint ∧
      acc'.1.warnings.length + taken.length =
        acc.1.warnings.length + (entries.filter (isTried current)).length := by
  induction entries generalizing acc with
  | nil => exact ⟨[], .slnil, Grew.of_eq rfl, (List.append_nil _).symm, rfl⟩
  | cons e entries ih =>
    obtain ⟨taken, hsub, hgrew, hmounted, hwarnings⟩ :=
      ih (fun e he => hreal e (List.mem_cons_of_mem _ he))
        (mountEntry strerror (realMounts k.toMountSyscalls) current acc e)
    dsimp only at hgrew hmounted hwarnings ⊢
    rw [List.foldl_cons]
    rcases mountEntry_cases strerror current acc (hreal e List.mem_cons_self) with
      ⟨hskip, heq⟩ | ⟨htried, hstep, hsame, hone⟩ | ⟨htried, hstep, hone, hsame⟩
    · rw [List.filter_cons_of_neg (by rw [hskip]; exact Bool.false_ne_true)]
      rw [heq] at hgrew hmounted hwarnings ⊢
      exact ⟨taken, hsub, hgrew, hmounted, hwarnings⟩
    · rw [List.filter_cons_of_pos htried, List.length_cons]
      exact ⟨taken, hsub.cons e, hstep.trans hgrew, by rw [hmounted, hsame], by omega⟩
    · rw [List.filter_cons_of_pos htried, List.length_cons]
      refine ⟨e :: taken, hsub.cons_cons e, hstep.trans hgrew, ?_, ?_⟩
      · rw [hmounted, hone, List.map_cons, List.append_assoc]
        rfl
      · rw [List.length_cons, ← hsame]
        omega

/-! ## The table that is read -/

theorem filterMap_second {mounts : List Mount} (h : ∀ m ∈ mounts, m.Plain) :
    mounts.filterMap Mount.second = mounts.map Mount.point := by
  rw [← List.filterMap_eq_map]
  exact List.filterMap_congr fun m hm => m.second_eq_iff.mpr (h m hm)

theorem mountedPoints_procMounts {mounts : List Mount} (h : ∀ m ∈ mounts, m.Plain) :
    mountedPoints (procMounts mounts) = mounts.map Mount.point := by
  rw [← filterMap_second h, mountedPoints, lines_procMounts, List.filterMap_map,
    List.map_filterMap]
  refine List.filterMap_congr fun m _ => ?_
  rw [Function.comp_apply, splitWhitespace_line, List.getElem?_map, Option.map_map, Mount.second]
  cases m.pieces[1]? with
  | none => rfl
  | some piece => exact congrArg some (unescapeMountField_escape piece)

theorem Grew.plain {s s' : σ} {calls : List MountCall} (h : k.Grew s s' calls)
    (hs : ∀ m ∈ k.table s, m.Plain) (hcalls : ∀ c ∈ calls, c.Shown) :
    ∀ m ∈ k.table s', m.Plain := by
  obtain ⟨new, htable, rfl⟩ := h
  intro m hm
  rw [htable] at hm
  rcases List.mem_append.mp hm with hm | hm
  · exact hs m hm
  · have hshown := hcalls m.call (List.mem_map_of_mem hm)
    exact Mount.plain_of_not_kept hshown.1 hshown.2

theorem isTried_procMounts {mounts : List Mount} (h : ∀ m ∈ mounts, m.Plain) (e : Fstab.Entry) :
    isTried (some (procMounts mounts)) e = true ↔
      e.fstype ≠ "swap".toList ∧ ∀ m ∈ mounts, m.point ≠ e.mountpoint := by
  rw [isTried, Bool.and_eq_true, decide_eq_true_iff, Option.any_some, mountedPoints_procMounts h,
    Bool.not_eq_true', List.any_eq_false]
  simp

/-- Of the entries that are not for swap, the ones whose point was free before the wave are tried
in the order of the file. What is mounted is some of them, nothing else, and for each of the
others there is a warning. -/
theorem secondWave (strerror : ℤ → String) (text : List Char) (s : σ)
    (hplain : ∀ m ∈ k.table s, m.Plain)
    (hreal : ∀ e ∈ (Fstab.parse text).1, e.fstype ≠ "swap".toList → k.Real e.mountpoint) :
    let result := mountWithMounted strerror (realMounts k.toMountSyscalls) text
      (some (procMounts (k.table s))) s
    let tried := (Fstab.parse text).1.filter fun e =>
      e.fstype ≠ "swap".toList ∧ ∀ m ∈ k.table s, m.point ≠ e.mountpoint
    ∃ taken : List Fstab.Entry, taken.Sublist tried ∧
      k.Grew s result.2 (taken.map Fstab.Entry.call) ∧
      result.1.mounted = taken.map Fstab.Entry.mountpoint ∧
      result.1.warnings.length + taken.length = (Fstab.parse text).2.length + tried.length := by
  have hfilter : (Fstab.parse text).1.filter (isTried (some (procMounts (k.table s)))) =
      (Fstab.parse text).1.filter fun e =>
        e.fstype ≠ "swap".toList ∧ ∀ m ∈ k.table s, m.point ≠ e.mountpoint :=
    List.filter_congr fun e _ => by
      rw [Bool.eq_iff_iff, isTried_procMounts hplain, decide_eq_true_iff]
  have hfold := foldl_mountEntry strerror (some (procMounts (k.table s)))
    (fun e he htried => hreal e he ((isTried_procMounts hplain e).mp htried).1)
    ({ warnings := (Fstab.parse text).2 }, s)
  rw [hfilter] at hfold
  exact hfold

/-- A kernel that mounts whatever it is asked to but the devices that are absent, and is never
busy. -/
def tableKernel (absent : List (List Char)) : MountKernel (List Mount) where
  createDirAll _ s := (.ok (), s)
  mount source target fstype _ _ s :=
    if source ∈ absent then (.error eNoEnt, s)
    else if h : source ≠ [] ∧ target ≠ [] ∧ fstype ≠ [] ∧
        '\x00' ∉ source ++ target ++ fstype ++ "rw".toList then
      (.ok (), s ++ [{
        device := source, point := target, fstype := fstype, options := "rw".toList,
        device_ne := h.1, point_ne := h.2.1, fstype_ne := h.2.2.1, noNul := h.2.2.2 }])
    else (.error eInval, s)
  umount2 target _ s :=
    if s.getLast?.map Mount.point = some target then (.ok (), s.dropLast) else (.error eInval, s)
  table := id
  real _ path := path
  createDirAll_table _ _ := rfl
  mount_ok source target fstype _ _ s h := by
    split_ifs at h ⊢ with habsent hfields
    exact ⟨_, rfl, rfl, rfl, rfl⟩
  mount_error source target fstype _ _ s h := by
    split_ifs at h ⊢ with habsent hfields
    · rfl
    · exact absurd rfl h
    · rfl
  umount_last front m flags s h hpoint := by
    obtain rfl : s = front ++ [m] := h
    rw [List.getLast?_concat, Option.map_some, if_pos rfl, List.dropLast_concat]
    exact .inl ⟨rfl, rfl⟩

/-- The root of a machine. -/
def rootMount : Mount where
  device := "/dev/vda1".toList
  point := "/".toList
  fstype := "squashfs".toList
  options := "rw".toList
  device_ne := by decide
  point_ne := by decide
  fstype_ne := by decide
  noNul := by decide

theorem plain_rootMount : rootMount.Plain :=
  Mount.plain_of_not_kept (Fstab.not_kept_of_all (by decide)) (Fstab.not_kept_of_all (by decide))

/-- A disk, a swap partition, the root again, a line that is no entry, and a disk that is absent. -/
def disksText : List Char :=
  ("/dev/vda2 /data ext4 ro 0 2\n/dev/vda3 none swap sw 0 0\n/dev/vda1 / squashfs rw 0 1\n" ++
    "broken\n/dev/vda4 /srv ext4 rw 0 2\n").toList

def disksKernel : MountKernel (List Mount) := tableKernel ["/dev/vda4".toList]

/-- Two of the entries are tried, and one is mounted; the others add a warning, and so does the
line that is no entry. -/
theorem secondWave_disks :
    let result := mountWithMounted (fun _ => "") (realMounts disksKernel.toMountSyscalls) disksText
      (some (procMounts (disksKernel.table [rootMount]))) [rootMount]
    let tried := (Fstab.parse disksText).1.filter fun e =>
      e.fstype ≠ "swap".toList ∧ ∀ m ∈ disksKernel.table [rootMount], m.point ≠ e.mountpoint
    (∃ taken : List Fstab.Entry, taken.Sublist tried ∧
      disksKernel.Grew [rootMount] result.2 (taken.map Fstab.Entry.call) ∧
      result.1.mounted = taken.map Fstab.Entry.mountpoint ∧
      result.1.warnings.length + taken.length = (Fstab.parse disksText).2.length + tried.length) ∧
    tried.map Fstab.Entry.mountpoint = ["/data".toList, "/srv".toList] ∧
    result.1.mounted = ["/data".toList] ∧ result.1.warnings.length = 2 :=
  ⟨secondWave (k := disksKernel) (fun _ => "") disksText [rootMount]
    (List.forall_mem_singleton.mpr plain_rootMount) fun _ _ _ _ => rfl,
    by decide +kernel, by decide +kernel, by decide +kernel⟩

/-! ## The way down -/

theorem umount2_last {front : List Mount} {m : Mount} (htable : k.table s = front ++ [m])
    (hpoint : m.point ≠ ['/']) (flags : ℕ) :
    let result := (realMounts k.toMountSyscalls).umount2 m.point flags s
    (result.1 = .ok () ∧ k.table result.2 = front) ∨
      (flags ≠ mntDetach ∧ ∃ e, result.1 = .error e ∧ k.table result.2 = k.table s) := by
  have hnul : '\x00' ∉ m.point := fun h => m.noNul (by simp [h])
  have hlast := k.umount_last front m flags s htable hpoint
  dsimp only [realMounts]
  rw [MountSyscalls.umountAt, if_neg hnul]
  rcases hcall : k.umount2 m.point flags s with ⟨errno | ⟨⟩, s'⟩
  · rw [hcall] at hlast
    rcases hlast with ⟨hok, -⟩ | ⟨hflags, -, hsame⟩
    · cases hok
    · exact .inr ⟨hflags, _, rfl, hsame⟩
  · rw [hcall] at hlast
    rcases hlast with ⟨-, hfront⟩ | ⟨-, hne, -⟩
    · exact .inl ⟨rfl, hfront⟩
    · exact absurd rfl hne

/-- The last mount goes, if not at once then lazily. -/
theorem unmountPoint_last (strerror : ℤ → String) {front : List Mount} {m : Mount}
    (htable : k.table s = front ++ [m]) (hpoint : m.point ≠ ['/']) (report : UnmountReport) :
    ∃ s', unmountPoint strerror (realMounts k.toMountSyscalls) (report, s) m.point =
      ({ report with unmounted := report.unmounted ++ [m.point] }, s') ∧ k.table s' = front := by
  have hplain := umount2_last htable hpoint 0
  unfold unmountPoint
  dsimp only at hplain ⊢
  rcases hcall : (realMounts k.toMountSyscalls).umount2 m.point 0 s with ⟨result, s'⟩
  rw [hcall] at hplain
  rcases hplain with ⟨hok, hfront⟩ | ⟨-, first, herror, hsame⟩
  · obtain rfl : result = .ok () := hok
    exact ⟨s', rfl, hfront⟩
  · obtain rfl : result = .error first := herror
    have hlazy := umount2_last (hsame.trans htable) hpoint mntDetach
    dsimp only at hlazy ⊢
    rcases hcall' : (realMounts k.toMountSyscalls).umount2 m.point mntDetach s' with ⟨result, s''⟩
    rw [hcall'] at hlazy
    rcases hlazy with ⟨hok, hfront⟩ | ⟨hne, -⟩
    · obtain rfl : result = .ok () := hok
      exact ⟨s'', rfl, hfront⟩
    · exact absurd rfl hne

theorem foldl_unmountPoint (strerror : ℤ → String) {roots rest : List Mount}
    (htable : k.table s = roots ++ rest) (hrest : ∀ m ∈ rest, m.point ≠ ['/'])
    (report : UnmountReport) : ∃ s',
    (rest.map Mount.point).reverse.foldl
        (unmountPoint strerror (realMounts k.toMountSyscalls)) (report, s) =
      ({ report with unmounted := report.unmounted ++ (rest.map Mount.point).reverse }, s') ∧
      k.table s' = roots := by
  induction rest using List.reverseRecOn generalizing s report with
  | nil =>
    refine ⟨s, ?_, by rw [htable, List.append_nil]⟩
    rw [List.map_nil, List.reverse_nil, List.append_nil]
    rfl
  | append_singleton rest m ih =>
    -- what was mounted last is the last of the table
    rw [← List.append_assoc] at htable
    obtain ⟨s', hstep, hfront⟩ :=
      unmountPoint_last strerror htable (hrest m (by simp)) report
    obtain ⟨s'', hfold, hroots⟩ := ih hfront (fun m' hm' => hrest m' (by simp [hm']))
      { report with unmounted := report.unmounted ++ [m.point] }
    refine ⟨s'', ?_, hroots⟩
    rw [List.map_append, List.reverse_append, List.map_singleton, List.reverse_singleton,
      List.singleton_append, List.foldl_cons, hstep, hfold, List.append_assoc,
      List.singleton_append]

/-- Whatever was mounted over the root is unmounted again, the last first. -/
theorem table_unmount (strerror : ℤ → String) {roots rest : List Mount}
    (htable : k.table s = roots ++ rest) (hroots : ∀ m ∈ roots, m.point = ['/'])
    (hrest : ∀ m ∈ rest, m.point ≠ ['/']) (hplain : ∀ m ∈ k.table s, m.Plain) : ∃ s',
    unmountFilesystemsWith strerror (realMounts k.toMountSyscalls)
        (some (procMounts (k.table s))) s =
      ({ unmounted := (rest.map Mount.point).reverse }, s') ∧ k.table s' = roots := by
  have horder : unmountOrder (procMounts (k.table s)) = (rest.map Mount.point).reverse := by
    rw [unmountOrder_procMounts, filterMap_second hplain, htable, List.map_append,
      List.filter_append]
    have hnone : (roots.map Mount.point).filter (fun point => point ≠ ['/']) = [] :=
      List.filter_eq_nil_iff.mpr fun point hpoint => by
        obtain ⟨m, hm, rfl⟩ := List.mem_map.mp hpoint
        simp [hroots m hm]
    have hall : (rest.map Mount.point).filter (fun point => point ≠ ['/']) =
        rest.map Mount.point :=
      List.filter_eq_self.mpr fun point hpoint => by
        obtain ⟨m, hm, rfl⟩ := List.mem_map.mp hpoint
        simpa using hrest m hm
    rw [hnone, hall, List.nil_append]
  obtain ⟨s', hfold, hs'⟩ := foldl_unmountPoint strerror htable hrest {}
  refine ⟨s', ?_, hs'⟩
  rw [unmountFilesystemsWith]
  simp only [horder]
  exact hfold

end MountKernel

/-! ## A whole boot -/

namespace FstabFile

/-- The entries of a file that can be read. -/
def entries : FstabFile → List Fstab.Entry
  | regular _ (.ok bytes) =>
    match Codec.fromUtf8 bytes with
    | some text => (Fstab.parse text).1
    | none => []
  | _ => []

end FstabFile

namespace MountKernel

variable {σ : Type*} (k : MountKernel σ) (strerror : ℤ → String)

/-- `/proc/mounts`, which is there if `/proc` is. -/
def readProcMounts (s : σ) : Option (List Char) :=
  if (k.table s).any fun m => m.point = "/proc".toList && m.fstype = "proc".toList then
    some (procMounts (k.table s))
  else none

/-- Run the first wave. What is returned is logged. -/
def reportMounts (s : σ) : Except SyscallError (List String) × σ :=
  match firstWaveMountsWith strerror (realMounts k.toMountSyscalls) s with
  | (.error e, s) => (.error e, s)
  | (.ok report, s) =>
    (.ok (report.mounted.map (fun point => s!"mounted {String.ofList point}") ++
      report.warnings.map fun warning => s!"warning: {warning}"), s)

/-- Mount whatever the fstab asks for. -/
def reportFstab (fstab : Option FstabFile) (cmdline : List Char) (s : σ) :
    Except SyscallError (List String) × σ :=
  match fstab with
  | none => (.ok ["second-wave mounts: disabled"], s)
  | some file =>
    if !Fstab.enabled cmdline then
      (.ok ["second-wave mounts: 'nofstab' on the kernel command line"], s)
    else
      match runWith strerror (realMounts k.toMountSyscalls) file (k.readProcMounts s) s with
      | (.error e, s) => (.error e, s)
      | (.ok report, s) =>
        (.ok (report.mounted.map (fun point => s!"mounted {String.ofList point} (fstab)") ++
          report.warnings.map fun warning => s!"warning: {warning}"), s)

/-- The mounts of a boot. An error stops it. -/
def bootMounts (fstab : Option FstabFile) (cmdline : List Char) (s : σ) :
    Except SyscallError (List String) × σ :=
  match k.reportMounts strerror s with
  | (.error e, s) => (.error e, s)
  | (.ok log, s) =>
    match k.reportFstab strerror fstab cmdline s with
    | (.error e, s) => (.error e, s)
    | (.ok log', s) => (.ok (log ++ log'), s)

/-- What is unmounted before the machine goes down. -/
def shutdownMounts (s : σ) : UnmountReport × σ :=
  unmountFilesystemsWith strerror (realMounts k.toMountSyscalls) (k.readProcMounts s) s

variable {k} {s : σ}

theorem readProcMounts_of_mem {m : Mount} (hm : m ∈ k.table s)
    (hcall : m.point = "/proc".toList ∧ m.fstype = "proc".toList) :
    k.readProcMounts s = some (procMounts (k.table s)) := by
  have hany : ((k.table s).any fun m => m.point = "/proc".toList && m.fstype = "proc".toList) =
      true := List.any_eq_true.mpr ⟨m, hm, by simp only [hcall, decide_true, Bool.and_self]⟩
  rw [readProcMounts, if_pos hany]

theorem eq_of_readProcMounts {contents : List Char} (h : k.readProcMounts s = some contents) :
    contents = procMounts (k.table s) := by
  unfold readProcMounts at h
  split_ifs at h
  exact (Option.some.inj h).symm

/-- What was added to the table is not on the root, and the table can show it. -/
def Adds (k : MountKernel σ) (s s' : σ) : Prop :=
  ∃ calls, k.Grew s s' calls ∧ ∀ c ∈ calls, c.Shown ∧ c.point ≠ ['/']

theorem Adds.refl : k.Adds s s := ⟨[], Grew.of_eq rfl, fun _ hc => absurd hc List.not_mem_nil⟩

theorem Adds.trans {s' s'' : σ} (h : k.Adds s s') (h' : k.Adds s' s'') : k.Adds s s'' := by
  obtain ⟨calls, hgrew, hcalls⟩ := h
  obtain ⟨calls', hgrew', hcalls'⟩ := h'
  refine ⟨calls ++ calls', hgrew.trans hgrew', fun c hc => ?_⟩
  rcases List.mem_append.mp hc with hc | hc
  · exact hcalls c hc
  · exact hcalls' c hc

theorem Adds.exists_table {s' : σ} (h : k.Adds s s') (hplain : ∀ m ∈ k.table s, m.Plain) :
    ∃ rest, k.table s' = k.table s ++ rest ∧ (∀ m ∈ rest, m.point ≠ ['/']) ∧
      ∀ m ∈ k.table s', m.Plain := by
  obtain ⟨calls, hgrew, hcalls⟩ := h
  have hall := hgrew.plain hplain fun c hc => (hcalls c hc).1
  obtain ⟨rest, htable, rfl⟩ := hgrew
  exact ⟨rest, htable, fun m hm => (hcalls _ (List.mem_map_of_mem hm)).2, hall⟩

/-- The calls of the first wave. -/
theorem firstCalls_add {c : MountCall} (h : c ∈ fatalCalls ++ degradableCalls) :
    c.Shown ∧ c.point ≠ ['/'] := by
  simp only [fatalCalls, degradableCalls, List.cons_append, List.nil_append, List.mem_cons,
    List.not_mem_nil, or_false] at h
  rcases h with rfl | rfl | rfl | rfl | rfl | rfl <;>
    exact ⟨⟨Fstab.not_kept_of_all (by decide), Fstab.not_kept_of_all (by decide)⟩, by decide⟩

theorem adds_mountWithMounted {text : List Char} (hplain : ∀ m ∈ k.table s, m.Plain)
    (hroot : ∃ m ∈ k.table s, m.point = ['/'])
    (hreal : ∀ e ∈ (Fstab.parse text).1, e.fstype ≠ "swap".toList → k.Real e.mountpoint) :
    k.Adds s (mountWithMounted strerror (realMounts k.toMountSyscalls) text
      (some (procMounts (k.table s))) s).2 := by
  obtain ⟨taken, hsub, hgrew, -⟩ := foldl_mountEntry strerror (some (procMounts (k.table s)))
    (fun e he htried => hreal e he ((isTried_procMounts hplain e).mp htried).1)
    ({ warnings := (Fstab.parse text).2 }, s)
  refine ⟨_, hgrew, fun c hc => ?_⟩
  obtain ⟨e, he, rfl⟩ := List.mem_map.mp hc
  obtain ⟨he, htried⟩ := List.mem_filter.mp (hsub.subset he)
  obtain ⟨m, hm, hslash⟩ := hroot
  exact ⟨(Fstab.of_mem_parse he).1, fun hpoint =>
    ((isTried_procMounts hplain e).mp htried).2 m hm (hslash.trans hpoint.symm)⟩

/-- The second wave mounts nothing over the root, whatever the file. -/
theorem adds_reportFstab (fstab : Option FstabFile) (cmdline : List Char)
    (hplain : ∀ m ∈ k.table s, m.Plain) (hroot : ∃ m ∈ k.table s, m.point = ['/'])
    (hread : k.readProcMounts s = some (procMounts (k.table s)))
    (hreal : ∀ file ∈ fstab, ∀ e ∈ file.entries,
      e.fstype ≠ "swap".toList → k.Real e.mountpoint) :
    k.Adds s (k.reportFstab strerror fstab cmdline s).2 := by
  rcases fstab with _ | file
  · exact .refl
  have hrun : k.Adds s
      (runWith strerror (realMounts k.toMountSyscalls) file (k.readProcMounts s) s).2 := by
    rw [hread]
    obtain _ | errno | _ | ⟨len, content⟩ := file
    · exact .refl
    · exact .refl
    · exact .refl
    unfold runWith
    dsimp only
    split_ifs
    · exact .refl
    rcases content with errno | bytes
    · exact .refl
    dsimp only
    cases htext : Codec.fromUtf8 bytes with
    | none => exact .refl
    | some text =>
      refine adds_mountWithMounted strerror hplain hroot fun e he =>
        hreal (.regular len (.ok bytes)) rfl e ?_
      rw [FstabFile.entries, htext]
      exact he
  unfold reportFstab
  dsimp only
  split_ifs
  · exact .refl
  rcases hresult : runWith strerror (realMounts k.toMountSyscalls) file (k.readProcMounts s) s with
    ⟨e | report, s'⟩
  · rw [hresult] at hrun
    exact hrun
  · rw [hresult] at hrun
    exact hrun

theorem adds_bootMounts (fstab : Option FstabFile) (cmdline : List Char)
    (hplain : ∀ m ∈ k.table s, m.Plain) (hroot : ∃ m ∈ k.table s, m.point = ['/'])
    (hfirst : ∀ c ∈ fatalCalls ++ degradableCalls, k.Real c.point)
    (hreal : ∀ file ∈ fstab, ∀ e ∈ file.entries,
      e.fstype ≠ "swap".toList → k.Real e.mountpoint) :
    k.Adds s (k.bootMounts strerror fstab cmdline s).2 ∧
      ((firstWaveMountsWith strerror (realMounts k.toMountSyscalls) s).1.isOk = true →
        k.readProcMounts (k.bootMounts strerror fstab cmdline s).2 =
          some (procMounts (k.table (k.bootMounts strerror fstab cmdline s).2))) := by
  unfold bootMounts reportMounts
  rcases firstWave_spec strerror hfirst s with
    ⟨report, calls, hok, hsub, hgrew, -⟩ | ⟨e, calls, herror, hstart, hgrew⟩
  · rcases hwave : firstWaveMountsWith strerror (realMounts k.toMountSyscalls) s with ⟨result, s₁⟩
    rw [hwave] at hok hgrew
    obtain rfl : result = .ok report := hok
    dsimp only at hgrew ⊢
    have hadds : k.Adds s s₁ := ⟨_, hgrew, fun c hc => firstCalls_add (by
      rcases List.mem_append.mp hc with hc | hc
      · exact List.mem_append_left _ hc
      · exact List.mem_append_right _ (hsub.subset hc))⟩
    -- the process filesystem is mounted, so the table can be read from here on
    have hproc : ∃ m ∈ k.table s₁, m.point = "/proc".toList ∧ m.fstype = "proc".toList := by
      obtain ⟨new, htable, hnew⟩ := hgrew
      have hmem : (⟨"proc".toList, "/proc".toList, "proc".toList⟩ : MountCall) ∈
          new.map Mount.call := by simp [hnew, fatalCalls]
      obtain ⟨m, hm, hcall⟩ := List.mem_map.mp hmem
      exact ⟨m, htable ▸ List.mem_append_right _ hm, congrArg MountCall.point hcall,
        congrArg MountCall.fstype hcall⟩
    obtain ⟨m, hm, hcall⟩ := hproc
    obtain ⟨rest, htable, -, hplain₁⟩ := hadds.exists_table hplain
    obtain ⟨root, hmem, hslash⟩ := hroot
    have hsecond := adds_reportFstab strerror fstab cmdline hplain₁
      ⟨root, htable ▸ List.mem_append_left _ hmem, hslash⟩ (readProcMounts_of_mem hm hcall) hreal
    rcases hfstab : k.reportFstab strerror fstab cmdline s₁ with ⟨result, s₂⟩
    rw [hfstab] at hsecond
    obtain ⟨rest', htable', -⟩ := hsecond.exists_table hplain₁
    have hread : k.readProcMounts s₂ = some (procMounts (k.table s₂)) :=
      readProcMounts_of_mem (htable' ▸ List.mem_append_left _ hm) hcall
    cases result with
    | error e => exact ⟨hadds.trans hsecond, fun _ => hread⟩
    | ok log => exact ⟨hadds.trans hsecond, fun _ => hread⟩
  · rcases hwave : firstWaveMountsWith strerror (realMounts k.toMountSyscalls) s with ⟨result, s₁⟩
    rw [hwave] at herror hgrew
    obtain rfl : result = .error e := herror
    exact ⟨⟨calls, hgrew, fun c hc =>
      firstCalls_add (List.mem_append_left _ (hstart.subset hc))⟩, fun h => by cases h⟩

/-- After the mounts of a boot, however far it got, the shutdown leaves the table as it was before
them if it can read it, and it can if the first wave went through. -/
theorem table_shutdown (fstab : Option FstabFile) (cmdline : List Char)
    (hroots : ∀ m ∈ k.table s, m.point = ['/'] ∧ m.Plain) (hne : k.table s ≠ [])
    (hfirst : ∀ c ∈ fatalCalls ++ degradableCalls, k.Real c.point)
    (hreal : ∀ file ∈ fstab, ∀ e ∈ file.entries,
      e.fstype ≠ "swap".toList → k.Real e.mountpoint) :
    let booted := (k.bootMounts strerror fstab cmdline s).2
    let down := k.shutdownMounts strerror booted
    ((firstWaveMountsWith strerror (realMounts k.toMountSyscalls) s).1.isOk = true →
        (k.readProcMounts booted).isSome = true) ∧
      ((k.readProcMounts booted).isSome = true →
        k.table down.2 = k.table s ∧ down.1.warnings = [] ∧
          k.table booted = k.table s ++ (k.table booted).drop (k.table s).length ∧
          down.1.unmounted =
            (((k.table booted).drop (k.table s).length).map Mount.point).reverse) := by
  have hplain : ∀ m ∈ k.table s, m.Plain := fun m hm => (hroots m hm).2
  obtain ⟨root, hmem⟩ := List.exists_mem_of_ne_nil _ hne
  obtain ⟨hadds, hread⟩ := adds_bootMounts strerror fstab cmdline hplain
    ⟨root, hmem, (hroots root hmem).1⟩ hfirst hreal
  refine ⟨fun hok => by rw [hread hok]; rfl, fun hsome => ?_⟩
  obtain ⟨contents, hcontents⟩ := Option.isSome_iff_exists.mp hsome
  obtain ⟨rest, htable, hrest, hplain'⟩ := hadds.exists_table hplain
  obtain ⟨s', hdown, hs'⟩ := table_unmount strerror htable (fun m hm => (hroots m hm).1) hrest
    hplain'
  have hdrop : (k.table (k.bootMounts strerror fstab cmdline s).2).drop (k.table s).length =
      rest := by rw [htable, List.drop_left]
  rw [shutdownMounts, hcontents, eq_of_readProcMounts hcontents, hdown, hdrop]
  exact ⟨hs', rfl, htable, rfl⟩

/-- The file of the disks. -/
def disksFstab : FstabFile := .regular 117 (.ok (Codec.utf8Bytes disksText))

theorem table_shutdown_disks :
    let booted := (disksKernel.bootMounts (fun _ => "") (some disksFstab) [] [rootMount]).2
    let down := disksKernel.shutdownMounts (fun _ => "") booted
    (disksKernel.readProcMounts booted).isSome = true ∧
      (booted.map Mount.point).getLast? = some "/data".toList ∧
      disksKernel.table down.2 = [rootMount] ∧ down.1.warnings = [] ∧
      down.1.unmounted.head? = some "/data".toList := by
  have hroots : ∀ m ∈ disksKernel.table [rootMount], m.point = ['/'] ∧ m.Plain :=
    List.forall_mem_singleton.mpr ⟨rfl, plain_rootMount⟩
  obtain ⟨hread, hdown⟩ := table_shutdown (k := disksKernel) (fun _ => "") (some disksFstab) []
    hroots (by decide) (fun _ _ _ => rfl) fun _ _ _ _ _ _ => rfl
  have hsome := hread (by decide +kernel)
  exact ⟨hsome, by decide +kernel, (hdown hsome).1, (hdown hsome).2.1, by decide +kernel⟩

end MountKernel

end Rinit
