import Mathlib.Data.Finset.Lattice.Fold
import Rinit.Config
import Rinit.Kernel
import Rinit.Runs

/-!
# The privilege drop of a service

`Sandbox.steps` is the order in which a child gives its privileges up, and the functions of the
credentials module carry a step out. What a call does to the credentials of a process, and
whether it is let through, is up to the kernel (`CredentialKernel`). It is assumed that a call
that is let through does what its manual page says (`Effects`), that the kernel refuses what a
process has no privilege for (`Rules`), and that it calls no capability invalid that it knows.

`runSteps_eq_applied` : a drop that goes through leaves exactly the credentials the sandbox asks
for, whatever the kernel and the process before. `runSteps_of_privileged` : a privileged process
gets through. `order_of_runSteps` : in every order of the steps that goes through and grants the
ambient capabilities, the group steps and the bounding set come before the user, what keeps the
capabilities as well, and the ambient capabilities after it.
-/

namespace Rinit

/-! ## The plan -/

/-- One step of a privilege drop. -/
inductive SandboxStep where
  | noNewPrivileges
  | keepCapabilities
  | setInheritable
  | setBoundingSet
  | setGroup
  | setGroups
  | setUser
  | raiseAmbient
deriving DecidableEq, Repr

/-- How a unit's process is set up between `fork` and `exec`. User and group 0 stay as they are;
the lists are left alone when there is none, and cleared by an empty one. -/
structure Sandbox where
  uid : ℕ := 0
  gid : ℕ := 0
  groups : Option (List ℕ) := none
  noNewPrivileges : Bool := false
  boundingSet : Option (List ℕ) := none
  ambient : Option (List ℕ) := none
deriving DecidableEq, Repr

namespace Sandbox

/-- A sandbox that changes nothing. -/
def inherit : Sandbox := {}

/-- The steps the sandbox needs, in the order they must run. -/
def steps (s : Sandbox) : List SandboxStep :=
  (if s.noNewPrivileges then [SandboxStep.noNewPrivileges] else []) ++
  (if s.ambient.isSome then [SandboxStep.keepCapabilities, .setInheritable] else []) ++
  (if s.boundingSet.isSome then [SandboxStep.setBoundingSet] else []) ++
  (if s.gid ≠ 0 then [SandboxStep.setGroup] else []) ++
  (if s.groups.isSome then [SandboxStep.setGroups] else []) ++
  (if s.uid ≠ 0 then [SandboxStep.setUser] else []) ++
  if s.ambient.isSome then [SandboxStep.raiseAmbient] else []

/-- Whether the child runs exactly as rinit does. -/
def isInherited (s : Sandbox) : Bool :=
  !s.noNewPrivileges && s.ambient.isNone && s.boundingSet.isNone && s.gid = 0 && s.groups.isNone &&
    s.uid = 0

/-- Whether the child ends up as another user or group. -/
def dropsPrivileges (s : Sandbox) : Bool := s.uid ≠ 0 || s.gid ≠ 0

/-- A child that needs no step is the one that needs no `fork`. -/
theorem isInherited_iff (s : Sandbox) : s.isInherited = true ↔ s.steps = [] := by
  obtain ⟨uid, gid, groups, nnp, bounding, ambient⟩ := s
  cases groups <;> cases nnp <;> cases bounding <;> cases ambient <;>
    by_cases hu : uid = 0 <;> by_cases hg : gid = 0 <;> simp [isInherited, steps, hu, hg]

theorem isInherited_iff_eq (s : Sandbox) : s.isInherited = true ↔ s = inherit := by
  obtain ⟨uid, gid, groups, nnp, bounding, ambient⟩ := s
  cases groups <;> cases nnp <;> cases bounding <;> cases ambient <;>
    simp [isInherited, inherit, and_comm]

/-- The plan keeps to the order in which the steps are declared. -/
theorem steps_sublist (s : Sandbox) : s.steps.Sublist [.noNewPrivileges, .keepCapabilities,
    .setInheritable, .setBoundingSet, .setGroup, .setGroups, .setUser, .raiseAmbient] := by
  have hpart (p : Prop) [Decidable p] (l : List SandboxStep) :
      (if p then l else []).Sublist l := by
    split
    · exact .refl l
    · exact List.nil_sublist l
  exact (((((((hpart _ [_]).append (hpart _ [_, _])).append (hpart _ [_])).append
    (hpart _ [_])).append (hpart _ [_])).append (hpart _ [_])).append (hpart _ [_]))

theorem sorted_steps (s : Sandbox) : s.steps.Pairwise (·.ctorIdx < ·.ctorIdx) :=
  .sublist s.steps_sublist (by decide)

end Sandbox

/-! ## The kernel -/

/-- A system call that failed. The number comes from a 32-bit integer. -/
structure SyscallError where
  op : String
  errno : ℤ
  context : Option String := none
deriving DecidableEq, Repr

/-- The credentials of a process. Its real, effective and saved ids are one. -/
structure Credentials where
  uid : ℕ
  gid : ℕ
  groups : List ℕ
  noNewPrivs : Bool
  keepCaps : Bool
  permitted : Finset ℕ
  effective : Finset ℕ
  inheritable : Finset ℕ
  bounding : Finset ℕ
  ambient : Finset ℕ
deriving DecidableEq

/-- A call that reads or changes credentials. -/
inductive CredentialCall where
  | setNoNewPrivs
  | setKeepCaps
  | capget
  | capset (inheritable : Finset ℕ)
  | capbsetDrop (cap : ℕ)
  | setgid (gid : ℕ)
  | setgroups (gids : List ℕ)
  | setuid (uid : ℕ)
  | ambientRaise (cap : ℕ)
  | ambientClearAll
deriving DecidableEq

/-- The highest capability number of the kernel's interface. -/
def maxCapability : ℕ := 63

/-- The number of 32-bit words in a capability set. -/
def capWords : ℕ := 2

def capSetgid : ℕ := 6

def capSetuid : ℕ := 7

def capSetpcap : ℕ := 8

namespace CredentialCall

/-- What a call is documented to do that is let through. Leaving root clears the effective and the
ambient set, and the permitted set unless it is kept; a process that becomes root gets back what
it is permitted. The inheritable set of `capset` is an extension of the one before, so the
ambient set stays inside of it. -/
structure Effects (effect : CredentialCall → Credentials → Credentials) : Prop where
  setNoNewPrivs : ∀ c, effect .setNoNewPrivs c = { c with noNewPrivs := true }
  setKeepCaps : ∀ c, effect .setKeepCaps c = { c with keepCaps := true }
  capget : ∀ c, effect .capget c = c
  capset : ∀ inheritable c, c.inheritable ⊆ inheritable →
    effect (.capset inheritable) c = { c with inheritable := inheritable }
  capbsetDrop : ∀ cap c, effect (.capbsetDrop cap) c = { c with bounding := c.bounding.erase cap }
  setgid : ∀ gid c, effect (.setgid gid) c = { c with gid := gid }
  setgroups : ∀ gids c, effect (.setgroups gids) c = { c with groups := gids }
  leave_root : ∀ uid c, c.uid = 0 → uid ≠ 0 → effect (.setuid uid) c = { c with
    uid := uid
    permitted := if c.keepCaps then c.permitted else ∅
    effective := ∅
    ambient := ∅ }
  become_root : ∀ c, c.uid ≠ 0 →
    effect (.setuid 0) c = { c with uid := 0, effective := c.permitted }
  setuid : ∀ uid c, (c.uid = 0 ↔ uid = 0) → effect (.setuid uid) c = { c with uid := uid }
  ambientRaise : ∀ cap c, effect (.ambientRaise cap) c = { c with ambient := insert cap c.ambient }
  ambientClearAll : ∀ c, effect .ambientClearAll c = { c with ambient := ∅ }

/-- What a process is documented to be able to ask for. -/
structure Rules (Allowed : CredentialCall → Credentials → Prop) : Prop where
  setNoNewPrivs : ∀ c, Allowed .setNoNewPrivs c
  setKeepCaps : ∀ c, Allowed .setKeepCaps c
  capget : ∀ c, Allowed .capget c
  ambientClearAll : ∀ c, Allowed .ambientClearAll c
  capset : ∀ inheritable c, Allowed (.capset inheritable) c ↔
    inheritable ⊆ c.inheritable ∪ c.bounding ∧
      (capSetpcap ∈ c.effective ∨ inheritable ⊆ c.inheritable ∪ c.permitted)
  capbsetDrop : ∀ cap c, Allowed (.capbsetDrop cap) c ↔ capSetpcap ∈ c.effective
  setgid : ∀ gid c, Allowed (.setgid gid) c ↔ capSetgid ∈ c.effective ∨ gid = c.gid
  setgroups : ∀ gids c, Allowed (.setgroups gids) c ↔ capSetgid ∈ c.effective
  setuid : ∀ uid c, Allowed (.setuid uid) c ↔ capSetuid ∈ c.effective ∨ uid = c.uid
  ambientRaise : ∀ cap c, Allowed (.ambientRaise cap) c ↔ cap ∈ c.permitted ∧ cap ∈ c.inheritable

/-- The effects of a call, worked out. -/
def effect (c : Credentials) : CredentialCall → Credentials
  | .setNoNewPrivs => { c with noNewPrivs := true }
  | .setKeepCaps => { c with keepCaps := true }
  | .capget => c
  | .capset inheritable => { c with inheritable := inheritable }
  | .capbsetDrop cap => { c with bounding := c.bounding.erase cap }
  | .setgid gid => { c with gid := gid }
  | .setgroups gids => { c with groups := gids }
  | .setuid uid =>
    if c.uid = 0 ∧ uid ≠ 0 then
      { c with
        uid := uid
        permitted := if c.keepCaps then c.permitted else ∅
        effective := ∅
        ambient := ∅ }
    else if c.uid ≠ 0 ∧ uid = 0 then { c with uid := uid, effective := c.permitted }
    else { c with uid := uid }
  | .ambientRaise cap => { c with ambient := insert cap c.ambient }
  | .ambientClearAll => { c with ambient := ∅ }

/-- The rules, worked out. -/
def Allowed (c : Credentials) : CredentialCall → Prop
  | .setNoNewPrivs | .setKeepCaps | .capget | .ambientClearAll => True
  | .capset inheritable => inheritable ⊆ c.inheritable ∪ c.bounding ∧
    (capSetpcap ∈ c.effective ∨ inheritable ⊆ c.inheritable ∪ c.permitted)
  | .capbsetDrop _ => capSetpcap ∈ c.effective
  | .setgid gid => capSetgid ∈ c.effective ∨ gid = c.gid
  | .setgroups _ => capSetgid ∈ c.effective
  | .setuid uid => capSetuid ∈ c.effective ∨ uid = c.uid
  | .ambientRaise cap => cap ∈ c.permitted ∧ cap ∈ c.inheritable

instance (c : Credentials) : (call : CredentialCall) → Decidable (call.Allowed c)
  | .setNoNewPrivs | .setKeepCaps | .capget | .ambientClearAll => inferInstanceAs (Decidable True)
  | .capset inheritable => inferInstanceAs (Decidable (inheritable ⊆ c.inheritable ∪ c.bounding ∧
      (capSetpcap ∈ c.effective ∨ inheritable ⊆ c.inheritable ∪ c.permitted)))
  | .capbsetDrop _ | .setgroups _ => inferInstanceAs (Decidable (_ ∈ c.effective))
  | .setgid gid => inferInstanceAs (Decidable (capSetgid ∈ c.effective ∨ gid = c.gid))
  | .setuid uid => inferInstanceAs (Decidable (capSetuid ∈ c.effective ∨ uid = c.uid))
  | .ambientRaise cap => inferInstanceAs (Decidable (cap ∈ c.permitted ∧ cap ∈ c.inheritable))

theorem effects : Effects fun call c => call.effect c where
  setNoNewPrivs _ := rfl
  setKeepCaps _ := rfl
  capget _ := rfl
  capset _ _ _ := rfl
  capbsetDrop _ _ := rfl
  setgid _ _ := rfl
  setgroups _ _ := rfl
  leave_root _ _ hroot huid := if_pos ⟨hroot, huid⟩
  become_root _ hroot := (if_neg fun h => hroot h.1).trans (if_pos ⟨hroot, rfl⟩)
  setuid _ _ h := (if_neg fun hl => hl.2 (h.mp hl.1)).trans (if_neg fun hb => hb.1 (h.mpr hb.2))
  ambientRaise _ _ := rfl
  ambientClearAll _ := rfl

theorem rules : Rules fun call c => call.Allowed c where
  setNoNewPrivs _ := trivial
  setKeepCaps _ := trivial
  capget _ := trivial
  ambientClearAll _ := trivial
  capset _ _ := .rfl
  capbsetDrop _ _ := .rfl
  setgid _ _ := .rfl
  setgroups _ _ := .rfl
  setuid _ _ := .rfl
  ambientRaise _ _ := .rfl

end CredentialCall

/-- The answers of a kernel, `none` for a call that is let through, what such a call does, and
what a process may ask for. A call without the privilege for it is refused, and only a capability
past the last one is invalid. -/
structure CredentialKernel where
  lastCap : ℕ
  answer : CredentialCall → Credentials → Option Errno
  effect : CredentialCall → Credentials → Credentials
  Allowed : CredentialCall → Credentials → Prop
  lastCap_le : lastCap ≤ maxCapability
  effects : CredentialCall.Effects effect
  rules : CredentialCall.Rules Allowed
  refuses : ∀ call c, ¬Allowed call c → answer call c = some ePerm
  invalid : ∀ cap c, answer (.capbsetDrop cap) c = some eInval → lastCap < cap

/-- Whether a call is about a capability that a kernel does not have. -/
def CredentialCall.isUnknown (lastCap : ℕ) : CredentialCall → Bool
  | .capbsetDrop cap => lastCap < cap
  | _ => false

/-- The kernel's own rules : it refuses for no other reason. -/
def CredentialKernel.commoncap (lastCap : ℕ) (h : lastCap ≤ maxCapability) : CredentialKernel where
  lastCap := lastCap
  answer call c :=
    if call.Allowed c then if call.isUnknown lastCap then some eInval else none else some ePerm
  effect call c := call.effect c
  Allowed call c := call.Allowed c
  lastCap_le := h
  effects := CredentialCall.effects
  rules := CredentialCall.rules
  refuses _ _ hd := if_neg hd
  invalid cap c h := by
    split_ifs at h with hallowed hcap
    · exact of_decide_eq_true hcap
    · exact absurd (Option.some.inj h) (by decide)

/-! ## The calls -/

namespace CredentialKernel

variable (k : CredentialKernel)

/-- A call under the name it is reported by. -/
def call (op : String) (call : CredentialCall) (c : Credentials) :
    Except SyscallError Credentials :=
  match k.answer call c with
  | some errno => .error { op := op, errno := errno }
  | none => .ok (k.effect call c)

def setNoNewPrivs : Credentials → Except SyscallError Credentials :=
  k.call "prctl(PR_SET_NO_NEW_PRIVS)" .setNoNewPrivs

def setGid (gid : ℕ) : Credentials → Except SyscallError Credentials :=
  k.call "setgid" (.setgid gid)

def setGroups (gids : List ℕ) : Credentials → Except SyscallError Credentials :=
  k.call "setgroups" (.setgroups gids)

def setUid (uid : ℕ) : Credentials → Except SyscallError Credentials :=
  k.call "setuid" (.setuid uid)

def keepCapabilities : Credentials → Except SyscallError Credentials :=
  k.call "prctl(PR_SET_KEEPCAPS)" .setKeepCaps

/-- Drop each of the capabilities that is not kept; the first invalid one ends the loop. -/
def dropOthers (keep : List ℕ) : List ℕ → Credentials → Except SyscallError Credentials
  | [], c => .ok c
  | cap :: caps, c =>
    if keep.contains cap then dropOthers keep caps c
    else
      match k.answer (.capbsetDrop cap) c with
      | none => dropOthers keep caps (k.effect (.capbsetDrop cap) c)
      | some errno =>
        if errno = eInval then .ok c
        else .error { op := "prctl(PR_CAPBSET_DROP)", errno := errno }

def setBoundingSet (keep : List ℕ) : Credentials → Except SyscallError Credentials :=
  dropOthers k keep (List.range (maxCapability + 1))

/-- The inheritable set with the capabilities added, which have to fit the words of a set. -/
def addInheritable (caps : List ℕ) (inheritable : Finset ℕ) : Except SyscallError (Finset ℕ) :=
  caps.foldlM (fun inheritable cap =>
    if cap / 32 < capWords then .ok (insert cap inheritable)
    else .error { op := "capset", errno := eInval }) inheritable

def setInheritable (caps : List ℕ) (c : Credentials) : Except SyscallError Credentials := do
  let c ← k.call "capget" .capget c
  let inheritable ← addInheritable caps c.inheritable
  k.call "capset" (.capset inheritable) c

/-- Raise the capabilities in the ambient set; none at all clears it. -/
def setAmbient (caps : List ℕ) (c : Credentials) : Except SyscallError Credentials :=
  if caps.isEmpty then k.call "prctl(PR_CAP_AMBIENT_CLEAR_ALL)" .ambientClearAll c
  else caps.foldlM (fun c cap => k.call "prctl(PR_CAP_AMBIENT_RAISE)" (.ambientRaise cap) c) c

/-- Carry out one step of a privilege drop. -/
def runStep (s : Sandbox) (step : SandboxStep) : Credentials → Except SyscallError Credentials :=
  match step with
  | .noNewPrivileges => k.setNoNewPrivs
  | .keepCapabilities => k.keepCapabilities
  | .setInheritable => k.setInheritable (s.ambient.getD [])
  | .setBoundingSet => k.setBoundingSet (s.boundingSet.getD [])
  | .setGroup => k.setGid s.gid
  | .setGroups => k.setGroups (s.groups.getD [])
  | .setUser => k.setUid s.uid
  | .raiseAmbient => k.setAmbient (s.ambient.getD [])

/-- Carry out steps until one fails. -/
def runSteps (s : Sandbox) (steps : List SandboxStep) (c : Credentials) :
    Except SyscallError Credentials :=
  steps.foldlM (fun c step => k.runStep s step c) c

/-! ### What a step leaves -/

variable {k} {c c' : Credentials} {op : String}

/-- The only inheritable sets that are asked for are extensions. -/
def Extends (c : Credentials) : CredentialCall → Prop
  | .capset inheritable => c.inheritable ⊆ inheritable
  | _ => True

theorem effect_eq (k : CredentialKernel) {q : CredentialCall} (hq : Extends c q) :
    k.effect q c = q.effect c := by
  cases q with
  | setNoNewPrivs => exact k.effects.setNoNewPrivs c
  | setKeepCaps => exact k.effects.setKeepCaps c
  | capget => exact k.effects.capget c
  | capset inheritable => exact k.effects.capset inheritable c hq
  | capbsetDrop cap => exact k.effects.capbsetDrop cap c
  | setgid gid => exact k.effects.setgid gid c
  | setgroups gids => exact k.effects.setgroups gids c
  | setuid uid =>
    by_cases hleave : c.uid = 0 ∧ uid ≠ 0
    · exact (k.effects.leave_root uid c hleave.1 hleave.2).trans (if_pos hleave).symm
    by_cases hbecome : c.uid ≠ 0 ∧ uid = 0
    · obtain ⟨hc, rfl⟩ := hbecome
      exact (k.effects.become_root c hc).trans ((if_neg hleave).trans (if_pos ⟨hc, rfl⟩)).symm
    · have hsame : c.uid = 0 ↔ uid = 0 :=
        ⟨fun hroot => by_contra fun huid => hleave ⟨hroot, huid⟩,
          fun huid => by_contra fun hroot => hbecome ⟨hroot, huid⟩⟩
      exact (k.effects.setuid uid c hsame).trans ((if_neg hleave).trans (if_neg hbecome)).symm
  | ambientRaise cap => exact k.effects.ambientRaise cap c
  | ambientClearAll => exact k.effects.ambientClearAll c

theorem allowed_iff (k : CredentialKernel) {q : CredentialCall} : k.Allowed q c ↔ q.Allowed c := by
  cases q with
  | setNoNewPrivs => exact iff_true_intro (k.rules.setNoNewPrivs c)
  | setKeepCaps => exact iff_true_intro (k.rules.setKeepCaps c)
  | capget => exact iff_true_intro (k.rules.capget c)
  | ambientClearAll => exact iff_true_intro (k.rules.ambientClearAll c)
  | capset inheritable => exact k.rules.capset inheritable c
  | capbsetDrop cap => exact k.rules.capbsetDrop cap c
  | setgid gid => exact k.rules.setgid gid c
  | setgroups gids => exact k.rules.setgroups gids c
  | setuid uid => exact k.rules.setuid uid c
  | ambientRaise cap => exact k.rules.ambientRaise cap c

theorem call_eq_ok {q : CredentialCall} (h : k.call op q c = .ok c') (hq : Extends c q) :
    c' = q.effect c ∧ q.Allowed c := by
  unfold call at h
  split at h
  · cases h
  · next hn =>
    refine ⟨(Except.ok.inj h).symm.trans (k.effect_eq hq), ?_⟩
    by_contra hd
    cases hn.symm.trans (k.refuses q c (mt k.allowed_iff.mp hd))

/-- No capability is in the bounding set that the kernel does not know. -/
def Fits (k : CredentialKernel) (c : Credentials) : Prop := ∀ cap ∈ c.bounding, cap ≤ k.lastCap

/-- The loop takes every capability out of the bounding set that is not kept. -/
theorem dropOthers_eq_ok {keep : List ℕ} : ∀ {caps : List ℕ} {c : Credentials}, k.Fits c →
    caps.Pairwise (· < ·) → k.dropOthers keep caps c = .ok c' →
      c' = { c with bounding := c.bounding.filter fun cap => cap ∈ keep ∨ cap ∉ caps }
  | [], c, _, _, h => by
    obtain rfl := Except.ok.inj h
    simp
  | cap :: caps, c, hfit, hs, h => by
    obtain ⟨hlt, hs⟩ := List.pairwise_cons.mp hs
    unfold dropOthers at h
    split at h
    · next hk =>
      have hk : cap ∈ keep := List.contains_iff_mem.mp hk
      rw [dropOthers_eq_ok hfit hs h]
      congr 1
      refine Finset.filter_congr fun x _ => ?_
      by_cases hx : x = cap
      · simp [hx, hk]
      · simp [hx]
    · next hk =>
      have hk : cap ∉ keep := fun hm => hk (List.contains_iff_mem.mpr hm)
      split at h
      · rw [k.effect_eq (q := .capbsetDrop cap) trivial] at h
        have hfit' : k.Fits (CredentialCall.effect c (.capbsetDrop cap)) :=
          fun x hx => hfit x (Finset.mem_of_mem_erase hx)
        rw [dropOthers_eq_ok hfit' hs h]
        simp only [CredentialCall.effect, Credentials.mk.injEq, true_and, and_true]
        ext x
        simp only [Finset.mem_filter, Finset.mem_erase, List.mem_cons]
        by_cases hx : x = cap
        · simp [hx, hk]
        · simp [hx]
      · next errno ha =>
        split at h
        · next he =>
          -- no capability from the invalid one on is in the bounding set
          obtain rfl := Except.ok.inj h
          have hlast : k.lastCap < cap := k.invalid cap c (he ▸ ha)
          have hall : c.bounding.filter (fun x => x ∈ keep ∨ x ∉ cap :: caps) = c.bounding := by
            refine Finset.filter_true_of_mem fun x hx => .inr fun hm => ?_
            have hx := hfit x hx
            rcases List.mem_cons.mp hm with rfl | hm
            · omega
            · have := hlt x hm
              omega
          rw [hall]
        · cases h

theorem setBoundingSet_eq_ok {keep : List ℕ} (hfit : k.Fits c)
    (h : k.setBoundingSet keep c = .ok c') :
    c' = { c with bounding := c.bounding.filter (· ∈ keep) } := by
  rw [dropOthers_eq_ok hfit List.pairwise_lt_range h]
  congr 1
  refine Finset.filter_congr fun x hx => ?_
  have hlast : x < maxCapability + 1 := Nat.lt_succ_of_le ((hfit x hx).trans k.lastCap_le)
  simp [hlast]

theorem addInheritable_eq_ok : ∀ {caps : List ℕ} {inheritable inheritable' : Finset ℕ},
    addInheritable caps inheritable = .ok inheritable' ↔
      (∀ cap ∈ caps, cap / 32 < capWords) ∧ inheritable' = inheritable ∪ caps.toFinset
  | [], inheritable, inheritable' => by
    change Except.ok _ = _ ↔ _
    simp [eq_comm]
  | cap :: caps, inheritable, inheritable' => by
    unfold addInheritable
    rw [List.foldlM_cons]
    split
    · next hcap =>
      change addInheritable caps _ = _ ↔ _
      rw [addInheritable_eq_ok, List.forall_mem_cons, List.toFinset_cons, Finset.insert_union,
        Finset.union_insert]
      simp [hcap]
    · next hcap =>
      rw [List.forall_mem_cons]
      simp [hcap, bind, Except.bind]

theorem setInheritable_eq_ok {caps : List ℕ} (h : k.setInheritable caps c = .ok c') :
    c' = { c with inheritable := c.inheritable ∪ caps.toFinset } ∧
      (∀ cap ∈ caps, cap / 32 < capWords) ∧
      CredentialCall.Allowed c (.capset (c.inheritable ∪ caps.toFinset)) := by
  unfold setInheritable at h
  rw [Runs.bind_eq_ok] at h
  obtain ⟨read, hread, h⟩ := h
  obtain ⟨rfl, -⟩ := call_eq_ok hread trivial
  rw [Runs.bind_eq_ok] at h
  obtain ⟨inheritable, hadd, h⟩ := h
  obtain ⟨hfits, rfl⟩ := addInheritable_eq_ok.mp hadd
  obtain ⟨rfl, hallowed⟩ := call_eq_ok h Finset.subset_union_left
  exact ⟨rfl, hfits, hallowed⟩

/-- Raising is a loop that adds to the ambient set. -/
theorem foldlM_raise : ∀ {caps : List ℕ} {c : Credentials},
    caps.foldlM (fun c cap => k.call op (.ambientRaise cap) c) c = .ok c' →
      c' = { c with ambient := c.ambient ∪ caps.toFinset } ∧
        ∀ cap ∈ caps, cap ∈ c.permitted ∧ cap ∈ c.inheritable
  | [], c, h => by
    obtain rfl := Except.ok.inj h
    simp
  | cap :: caps, c, h => by
    rw [List.foldlM_cons, Runs.bind_eq_ok] at h
    obtain ⟨next, hcap, h⟩ := h
    obtain ⟨rfl, hallowed⟩ := call_eq_ok hcap trivial
    obtain ⟨rfl, hall⟩ := foldlM_raise h
    refine ⟨?_, ?_⟩
    · simp [CredentialCall.effect, Finset.insert_union, Finset.union_insert]
    · rintro x (_ | ⟨_, hx⟩)
      · exact hallowed
      · exact hall x hx

/-- What the ambient set is after a request for capabilities : an empty one clears it. -/
def ambientAfter (caps : List ℕ) (ambient : Finset ℕ) : Finset ℕ :=
  if caps.isEmpty then ∅ else ambient ∪ caps.toFinset

theorem setAmbient_eq_ok {caps : List ℕ} (h : k.setAmbient caps c = .ok c') :
    c' = { c with ambient := ambientAfter caps c.ambient } ∧
      ∀ cap ∈ caps, cap ∈ c.permitted ∧ cap ∈ c.inheritable := by
  unfold setAmbient at h
  unfold ambientAfter
  split at h
  · next he =>
    obtain ⟨rfl, -⟩ := call_eq_ok h trivial
    rw [if_pos he, List.isEmpty_iff.mp he]
    simp [CredentialCall.effect]
  · next he =>
    rw [if_neg he]
    exact foldlM_raise h

/-! ## The drop as a whole -/

/-- What a step leaves of the credentials. -/
def leaves (s : Sandbox) (c : Credentials) : SandboxStep → Credentials
  | .noNewPrivileges => CredentialCall.effect c .setNoNewPrivs
  | .keepCapabilities => CredentialCall.effect c .setKeepCaps
  | .setInheritable => { c with inheritable := c.inheritable ∪ (s.ambient.getD []).toFinset }
  | .setBoundingSet => { c with bounding := c.bounding.filter (· ∈ s.boundingSet.getD []) }
  | .setGroup => CredentialCall.effect c (.setgid s.gid)
  | .setGroups => CredentialCall.effect c (.setgroups (s.groups.getD []))
  | .setUser => CredentialCall.effect c (.setuid s.uid)
  | .raiseAmbient => { c with ambient := ambientAfter (s.ambient.getD []) c.ambient }

/-- What the credentials have to be for a step to go through. -/
def Grants (s : Sandbox) (c : Credentials) : SandboxStep → Prop
  | .noNewPrivileges | .keepCapabilities => True
  | .setInheritable => (∀ cap ∈ s.ambient.getD [], cap / 32 < capWords) ∧
    CredentialCall.Allowed c (.capset (c.inheritable ∪ (s.ambient.getD []).toFinset))
  | .setBoundingSet => capSetpcap ∈ c.effective ∨ ∀ cap ≤ maxCapability, cap ∈ s.boundingSet.getD []
  | .setGroup => CredentialCall.Allowed c (.setgid s.gid)
  | .setGroups => CredentialCall.Allowed c (.setgroups (s.groups.getD []))
  | .setUser => CredentialCall.Allowed c (.setuid s.uid)
  | .raiseAmbient => ∀ cap ∈ s.ambient.getD [], CredentialCall.Allowed c (.ambientRaise cap)

theorem fits_leaves {s : Sandbox} (hfit : k.Fits c) (step : SandboxStep) :
    k.Fits (leaves s c step) := by
  cases step with
  | setBoundingSet => exact fun x hx => hfit x (Finset.mem_of_mem_filter x hx)
  | setUser =>
    simp only [leaves, CredentialCall.effect]
    split_ifs <;> exact hfit
  | noNewPrivileges | keepCapabilities | setInheritable | setGroup | setGroups | raiseAmbient =>
    exact hfit

/-- A process that may not drop capabilities gets through the loop only if none is dropped. -/
theorem kept_of_dropOthers {keep : List ℕ} : ∀ {caps : List ℕ} {c : Credentials},
    k.dropOthers keep caps c = .ok c' → capSetpcap ∈ c.effective ∨ ∀ cap ∈ caps, cap ∈ keep
  | [], _, _ => .inr fun _ h => nomatch h
  | cap :: caps, c, h => by
    unfold dropOthers at h
    split at h
    · next hk =>
      refine (kept_of_dropOthers h).imp_right fun hall x hx => ?_
      rcases List.mem_cons.mp hx with rfl | hx
      · exact List.contains_iff_mem.mp hk
      · exact hall x hx
    · refine .inl ?_
      by_contra hd
      rw [k.refuses (.capbsetDrop cap) c (mt (k.rules.capbsetDrop cap c).mp hd)] at h
      cases h

theorem runStep_eq_ok {s : Sandbox} {step : SandboxStep} (hfit : k.Fits c)
    (h : k.runStep s step c = .ok c') : c' = leaves s c step ∧ Grants s c step := by
  cases step with
  | noNewPrivileges | keepCapabilities => exact ⟨(call_eq_ok h trivial).1, trivial⟩
  | setInheritable => exact setInheritable_eq_ok h
  | setBoundingSet =>
    refine ⟨setBoundingSet_eq_ok hfit h, (kept_of_dropOthers h).imp_right fun hall cap hc => ?_⟩
    exact hall cap (List.mem_range.mpr (Nat.lt_succ_of_le hc))
  | setGroup | setGroups | setUser => exact call_eq_ok h trivial
  | raiseAmbient => exact setAmbient_eq_ok h

theorem runSteps_eq_ok {s : Sandbox} : ∀ {l : List SandboxStep} {c : Credentials}, k.Fits c →
    k.runSteps s l c = .ok c' → c' = l.foldl (leaves s) c ∧
      ∀ before step after, l = before ++ step :: after →
        Grants s (before.foldl (leaves s) c) step
  | [], c, _, h => by
    obtain rfl := Except.ok.inj h
    exact ⟨rfl, fun before step after h => by simp at h⟩
  | step :: l, c, hfit, h => by
    unfold runSteps at h
    rw [List.foldlM_cons, Runs.bind_eq_ok] at h
    obtain ⟨next, hstep, h⟩ := h
    obtain ⟨rfl, hgrants⟩ := runStep_eq_ok hfit hstep
    obtain ⟨rfl, hall⟩ := runSteps_eq_ok (fits_leaves hfit step) h
    refine ⟨rfl, fun before step' after hsplit => ?_⟩
    cases before with
    | nil =>
      obtain ⟨rfl, -⟩ := List.cons.inj hsplit
      exact hgrants
    | cons first before =>
      obtain ⟨rfl, hrest⟩ := List.cons.inj hsplit
      exact hall before step' after hrest

end CredentialKernel

/-- The credentials that a sandbox asks for, of a process with these. -/
def Sandbox.applied (s : Sandbox) (c : Credentials) : Credentials where
  uid := if s.uid ≠ 0 then s.uid else c.uid
  gid := if s.gid ≠ 0 then s.gid else c.gid
  groups := s.groups.getD c.groups
  noNewPrivs := s.noNewPrivileges || c.noNewPrivs
  keepCaps := s.ambient.isSome || c.keepCaps
  permitted :=
    if c.uid = 0 ∧ s.uid ≠ 0 then if s.ambient.isSome || c.keepCaps then c.permitted else ∅
    else c.permitted
  effective := if c.uid = 0 ∧ s.uid ≠ 0 then ∅ else c.effective
  inheritable := c.inheritable ∪ (s.ambient.getD []).toFinset
  bounding := match s.boundingSet with
    | none => c.bounding
    | some keep => c.bounding.filter (· ∈ keep)
  ambient :=
    let kept := if c.uid = 0 ∧ s.uid ≠ 0 then ∅ else c.ambient
    match s.ambient with
    | none => kept
    | some [] => ∅
    | some caps => kept ∪ caps.toFinset

namespace CredentialKernel

variable {k : CredentialKernel} {c c' : Credentials} {s : Sandbox}

/-- The steps in their order leave what is asked for : each part of the plan has fields of its
own, but for the user, who takes the sets along. -/
theorem foldl_leaves_steps : s.steps.foldl (leaves s) c = s.applied c := by
  have hprivs : ∀ c, (if s.noNewPrivileges then [.noNewPrivileges] else []).foldl (leaves s) c =
      { c with noNewPrivs := s.noNewPrivileges || c.noNewPrivs } := by
    intro c
    cases s.noNewPrivileges <;> rfl
  have hkeep : ∀ c, (if s.ambient.isSome then [.keepCapabilities, .setInheritable] else []).foldl
      (leaves s) c = { c with
        keepCaps := s.ambient.isSome || c.keepCaps
        inheritable := c.inheritable ∪ (s.ambient.getD []).toFinset } := by
    intro c
    cases h : s.ambient <;> simp [leaves, CredentialCall.effect, h]
  have hbounding : ∀ c, (if s.boundingSet.isSome then [.setBoundingSet] else []).foldl
      (leaves s) c = { c with bounding := (s.applied c).bounding } := by
    intro c
    cases h : s.boundingSet <;> simp [leaves, Sandbox.applied, h]
  have hgroup : ∀ c, (if s.gid ≠ 0 then [.setGroup] else []).foldl (leaves s) c =
      { c with gid := (s.applied c).gid } := by
    intro c
    by_cases h : s.gid = 0 <;> simp [leaves, CredentialCall.effect, Sandbox.applied, h]
  have hgroups : ∀ c, (if s.groups.isSome then [.setGroups] else []).foldl (leaves s) c =
      { c with groups := s.groups.getD c.groups } := by
    intro c
    cases h : s.groups <;> simp [leaves, CredentialCall.effect, h]
  have huser : ∀ c, (if s.uid ≠ 0 then [.setUser] else []).foldl (leaves s) c =
      if s.uid ≠ 0 then CredentialCall.effect c (.setuid s.uid) else c := by
    intro c
    by_cases h : s.uid = 0 <;> simp [leaves, h]
  have hambient : ∀ c, (if s.ambient.isSome then [.raiseAmbient] else []).foldl (leaves s) c =
      { c with ambient := s.ambient.elim c.ambient (ambientAfter · c.ambient) } := by
    intro c
    cases h : s.ambient <;> simp [leaves, h]
  unfold Sandbox.steps
  simp only [List.foldl_append, hprivs, hkeep, hbounding, hgroup, hgroups, huser, hambient]
  by_cases hu : s.uid = 0
  · rcases h : s.ambient with _ | _ | ⟨cap, caps⟩ <;> simp [Sandbox.applied, hu, h, ambientAfter]
  · by_cases hroot : c.uid = 0
    · rcases h : s.ambient with _ | _ | ⟨cap, caps⟩ <;>
        simp [Sandbox.applied, CredentialCall.effect, hu, hroot, h, ambientAfter]
    · rcases h : s.ambient with _ | _ | ⟨cap, caps⟩ <;>
        simp [Sandbox.applied, CredentialCall.effect, hu, hroot, h, ambientAfter]

/-- A drop that goes through does what is asked and nothing else. -/
theorem runSteps_eq_applied (hfit : k.Fits c) (h : k.runSteps s s.steps c = .ok c') :
    c' = s.applied c :=
  (runSteps_eq_ok hfit h).1.trans foldl_leaves_steps

/-! ### A privileged process gets through -/

/-- A kernel that lets through what it does not have to refuse. -/
def Lenient (k : CredentialKernel) : Prop :=
  ∀ call c, k.Allowed call c → k.answer call c = none ∨
    ∃ cap, call = .capbsetDrop cap ∧ k.answer call c = some eInval

theorem call_of_allowed {q : CredentialCall} (hk : k.Lenient) (h : q.Allowed c)
    (hext : Extends c q) (hq : ∀ cap, q ≠ .capbsetDrop cap) (op : String) :
    k.call op q c = .ok (q.effect c) := by
  unfold call
  rcases hk q c (k.allowed_iff.mpr h) with hn | ⟨cap, rfl, -⟩
  · rw [hn]
    exact congrArg Except.ok (k.effect_eq hext)
  · exact absurd rfl (hq cap)

theorem dropOthers_of_allowed (hk : k.Lenient) {keep : List ℕ} : ∀ {caps : List ℕ}
    {c : Credentials}, (capSetpcap ∈ c.effective ∨ ∀ cap ∈ caps, cap ∈ keep) →
      ∃ c', k.dropOthers keep caps c = .ok c'
  | [], c, _ => ⟨c, rfl⟩
  | cap :: caps, c, h => by
    unfold dropOthers
    split
    · exact dropOthers_of_allowed hk (h.imp_right fun hall x hx => hall x (.tail _ hx))
    · next hkept =>
      have hcap : capSetpcap ∈ c.effective :=
        h.resolve_right fun hall => hkept (List.contains_iff_mem.mpr (hall cap List.mem_cons_self))
      rcases hk (.capbsetDrop cap) c ((k.rules.capbsetDrop cap c).mpr hcap) with
        hn | ⟨cap', hq, hn⟩
      · rw [hn, k.effect_eq (q := .capbsetDrop cap) trivial]
        exact dropOthers_of_allowed hk (.inl hcap)
      · rw [hn]
        exact ⟨c, if_pos rfl⟩

theorem runStep_of_grants (hk : k.Lenient) {step : SandboxStep} (h : Grants s c step) :
    ∃ c', k.runStep s step c = .ok c' := by
  cases step with
  | noNewPrivileges => exact ⟨_, call_of_allowed hk (q := .setNoNewPrivs) trivial trivial nofun _⟩
  | keepCapabilities => exact ⟨_, call_of_allowed hk (q := .setKeepCaps) trivial trivial nofun _⟩
  | setGroup => exact ⟨_, call_of_allowed hk (q := .setgid s.gid) h trivial nofun _⟩
  | setGroups =>
    exact ⟨_, call_of_allowed hk (q := .setgroups (s.groups.getD [])) h trivial nofun _⟩
  | setUser => exact ⟨_, call_of_allowed hk (q := .setuid s.uid) h trivial nofun _⟩
  | setInheritable =>
    change ∃ c', k.setInheritable _ c = _
    unfold setInheritable
    rw [call_of_allowed hk (q := .capget) trivial trivial nofun]
    change ∃ c', (addInheritable _ c.inheritable >>= _) = _
    rw [addInheritable_eq_ok.mpr ⟨h.1, rfl⟩]
    exact ⟨_, call_of_allowed hk (q := .capset _) h.2 Finset.subset_union_left nofun _⟩
  | setBoundingSet =>
    refine dropOthers_of_allowed hk (h.imp_right fun hall cap hc => hall cap ?_)
    exact Nat.le_of_lt_succ (List.mem_range.mp hc)
  | raiseAmbient =>
    change ∃ c', k.setAmbient _ c = _
    unfold setAmbient
    split
    · exact ⟨_, call_of_allowed hk (q := .ambientClearAll) trivial trivial nofun _⟩
    · obtain ⟨c', hc', -⟩ := Runs.foldlM_ok
        (f := fun c cap => k.call "prctl(PR_CAP_AMBIENT_RAISE)" (.ambientRaise cap) c)
        (P := fun _ c' => c'.permitted = c.permitted ∧ c'.inheritable = c.inheritable)
        (l := s.ambient.getD []) (s := c) ⟨rfl, rfl⟩ fun done cap rest c₁ hl hc₁ => by
          have hcap := h cap (by rw [hl]; simp)
          have hallowed : CredentialCall.Allowed c₁ (.ambientRaise cap) :=
            ⟨hc₁.1 ▸ hcap.1, hc₁.2 ▸ hcap.2⟩
          exact ⟨_, call_of_allowed hk hallowed trivial nofun _, hc₁⟩
      exact ⟨c', hc'⟩

/-- A run of steps goes through if each of them does, on what the ones before it leave. -/
theorem runSteps_of_grants (hk : k.Lenient) : ∀ {l : List SandboxStep} {c : Credentials},
    k.Fits c → (∀ before step after, l = before ++ step :: after →
      Grants s (before.foldl (leaves s) c) step) → ∃ c', k.runSteps s l c = .ok c'
  | [], c, _, _ => ⟨c, rfl⟩
  | step :: l, c, hfit, h => by
    obtain ⟨c₁, hc₁⟩ := runStep_of_grants (c := c) hk (h [] step l rfl)
    obtain ⟨rfl, -⟩ := runStep_eq_ok hfit hc₁
    obtain ⟨c', hc'⟩ := runSteps_of_grants hk (l := l) (fits_leaves hfit step)
      fun before step' after hl => h (step :: before) step' after (congrArg (step :: ·) hl)
    refine ⟨c', ?_⟩
    unfold runSteps
    rw [List.foldlM_cons, hc₁]
    exact hc'

/-- What no step of a list changes is as before. -/
theorem foldl_leaves_eq {α : Type*} {f : Credentials → α} {l : List SandboxStep}
    (h : ∀ step ∈ l, ∀ c, f (leaves s c step) = f c) (c : Credentials) :
    f (l.foldl (leaves s) c) = f c := by
  refine Runs.foldl_induction (P := fun _ c' => f c' = f c) rfl
    fun done step rest c' hl hc' => ?_
  rw [h step (by rw [hl]; simp), hc']

/-- A process that may change its ids and its capability sets, and has the capabilities that
the sandbox hands on. -/
structure Privileged (s : Sandbox) (c : Credentials) : Prop where
  setgid : capSetgid ∈ c.effective
  setuid : capSetuid ∈ c.effective
  setpcap : capSetpcap ∈ c.effective
  ambient : ∀ cap ∈ s.ambient.getD [],
    cap ≤ maxCapability ∧ cap ∈ c.permitted ∧ cap ∈ c.inheritable ∪ c.bounding

theorem effective_leaves {step : SandboxStep} (h : step.ctorIdx < SandboxStep.setUser.ctorIdx)
    (c : Credentials) : (leaves s c step).effective = c.effective := by
  cases step with
  | setUser | raiseAmbient => exact absurd h (by decide)
  | _ => rfl

/-- A privileged process gets through, and ends up with what is asked for. -/
theorem runSteps_of_privileged (hk : k.Lenient) (hfit : k.Fits c) (hc : Privileged s c) :
    k.runSteps s s.steps c = .ok (s.applied c) := by
  suffices h : ∃ c', k.runSteps s s.steps c = .ok c' by
    obtain ⟨c', hc'⟩ := h
    rw [hc', runSteps_eq_applied hfit hc']
  refine runSteps_of_grants hk hfit fun before step after hsplit => ?_
  have hsorted := s.sorted_steps
  rw [hsplit, List.pairwise_append] at hsorted
  obtain ⟨-, hafter, hbefore⟩ := hsorted
  have hbefore : ∀ x ∈ before, x.ctorIdx < step.ctorIdx :=
    fun x hx => hbefore x hx step List.mem_cons_self
  -- up to the user, the effective set is the one of the process
  have heff (hle : step.ctorIdx ≤ SandboxStep.setUser.ctorIdx) :
      (before.foldl (leaves s) c).effective = c.effective :=
    foldl_leaves_eq (fun x hx => effective_leaves ((hbefore x hx).trans_le hle)) c
  cases step with
  | noNewPrivileges | keepCapabilities => trivial
  | setInheritable =>
    have hcaps : ∀ cap ∈ s.ambient.getD [], cap ∈ c.inheritable ∪ c.bounding :=
      fun cap hcap => (hc.ambient cap hcap).2.2
    have hsets {α : Type} {f : Credentials → α}
        (hf : ∀ step, step.ctorIdx < SandboxStep.setInheritable.ctorIdx →
          ∀ c, f (leaves s c step) = f c) : f (before.foldl (leaves s) c) = f c :=
      foldl_leaves_eq (fun x hx => hf x (hbefore x hx)) c
    refine ⟨fun cap hcap => ?_, ?_, .inl (heff (by decide) ▸ hc.setpcap)⟩
    · have hle := (hc.ambient cap hcap).1
      simp only [maxCapability] at hle
      simp only [capWords]
      omega
    · rw [hsets (f := Credentials.inheritable), hsets (f := Credentials.bounding)]
      · refine Finset.union_subset Finset.subset_union_left fun cap hcap => ?_
        exact hcaps cap (List.mem_toFinset.mp hcap)
      · rintro (_ | _) h c <;> first | rfl | exact absurd h (by decide)
      · rintro (_ | _) h c <;> first | rfl | exact absurd h (by decide)
  | setBoundingSet => exact .inl (heff (by decide) ▸ hc.setpcap)
  | setGroup => exact .inl (heff (by decide) ▸ hc.setgid)
  | setGroups =>
    change capSetgid ∈ (before.foldl (leaves s) c).effective
    exact heff (by decide) ▸ hc.setgid
  | setUser => exact .inl (heff (by decide) ▸ hc.setuid)
  | raiseAmbient =>
    intro cap hcap
    -- the step is the last one, and takes from nothing but the ambient set
    obtain rfl : after = [] := by
      refine List.eq_nil_iff_forall_not_mem.mpr fun x hx => ?_
      have hlt := (List.pairwise_cons.mp hafter).1 x hx
      cases x <;> exact absurd hlt (by decide)
    have hlast : leaves s (before.foldl (leaves s) c) .raiseAmbient = s.applied c := by
      rw [← foldl_leaves_steps, hsplit, List.foldl_append]
      rfl
    have hsome : s.ambient.isSome := by
      cases h : s.ambient with
      | none => simp [h] at hcap
      | some caps => rfl
    have hpermitted := congrArg Credentials.permitted hlast
    have hinheritable := congrArg Credentials.inheritable hlast
    simp only [leaves, Sandbox.applied, hsome, Bool.true_or, if_true, ite_self]
      at hpermitted hinheritable
    refine ⟨hpermitted ▸ (hc.ambient cap hcap).2.1, hinheritable ▸ ?_⟩
    exact Finset.mem_union_right _ (List.mem_toFinset.mpr hcap)

/-- A drop does what is asked and nothing else if it goes through, and goes through for a
privileged process. -/
theorem runSteps_applied (hfit : k.Fits c) :
    (∀ c', k.runSteps s s.steps c = .ok c' → c' = s.applied c) ∧
    (k.Lenient → Privileged s c → k.runSteps s s.steps c = .ok (s.applied c)) :=
  ⟨fun _ => runSteps_eq_applied hfit, fun hk => runSteps_of_privileged hk hfit⟩

end CredentialKernel

/-! ## The order is the only one -/

/-- Whenever the later step comes, the earlier one has come before. -/
def Precedes (earlier later : SandboxStep) (l : List SandboxStep) : Prop :=
  ∀ before after, l = before ++ later :: after → earlier ∈ before

/-- What the order of the steps has to be to get a process of root to another user with the
ambient capabilities asked for. -/
structure InOrder (s : Sandbox) (c c' : Credentials) (l : List SandboxStep) : Prop where
  group : s.gid ≠ 0 → s.gid ≠ c.gid → Precedes .setGroup .setUser l
  groups : s.groups.isSome → Precedes .setGroups .setUser l
  bounding : (∃ keep, s.boundingSet = some keep ∧ ∃ cap ≤ maxCapability, cap ∉ keep) →
    Precedes .setBoundingSet .setUser l
  keep : c.keepCaps = false → (∃ cap ∈ s.ambient.getD [], cap ∈ c'.ambient) →
    Precedes .keepCapabilities .setUser l
  raise : (∃ cap ∈ s.ambient.getD [], cap ∈ c'.ambient) → Precedes .setUser .raiseAmbient l
  inheritable : (∃ cap ∈ s.ambient.getD [], cap ∉ c.inheritable) →
    Precedes .setInheritable .raiseAmbient l
  wide : (∃ cap ∈ s.ambient.getD [], cap ∉ c.inheritable ∧
    ∃ keep, s.boundingSet = some keep ∧ cap ∉ keep) → Precedes .setInheritable .setBoundingSet l

namespace CredentialKernel

variable {k : CredentialKernel} {c c' : Credentials} {s : Sandbox}

/-- Without the privileges of root, and not about to get them back. -/
def Dropped (c : Credentials) : Prop := c.uid ≠ 0 ∧ c.effective = ∅

theorem dropped_leaves (hu : s.uid ≠ 0) (h : Dropped c) (step : SandboxStep) :
    Dropped (leaves s c step) := by
  cases step with
  | setUser => simpa [leaves, CredentialCall.effect, Dropped, h.1, hu] using h.2
  | _ => exact h

theorem dropped_setUser (hu : s.uid ≠ 0) (h : c.uid = 0) : Dropped (leaves s c .setUser) := by
  simp [leaves, CredentialCall.effect, Dropped, h, hu]

theorem uid_foldl {l : List SandboxStep} (hl : .setUser ∉ l) :
    (l.foldl (leaves s) c).uid = c.uid := by
  refine foldl_leaves_eq (f := Credentials.uid) (fun step hstep c => ?_) c
  cases step with
  | setUser => exact absurd hstep hl
  | _ => rfl

/-- What comes after the user finds no privileges. -/
theorem dropped_foldl (hu : s.uid ≠ 0) (hroot : c.uid = 0) {l : List SandboxStep}
    (hnodup : l.Nodup) (hmem : .setUser ∈ l) : Dropped (l.foldl (leaves s) c) := by
  obtain ⟨before, after, rfl⟩ := List.append_of_mem hmem
  have hbefore : .setUser ∉ before := fun hb =>
    List.disjoint_of_nodup_append hnodup hb List.mem_cons_self
  rw [List.foldl_append, List.foldl_cons]
  have huid := (uid_foldl (s := s) (c := c) hbefore).trans hroot
  exact Runs.foldl_induction (P := fun _ c' => Dropped c') (dropped_setUser hu huid)
    fun _ step _ _ _ hd => dropped_leaves hu hd step

section Orders

variable {l : List SandboxStep} (hl : l.Perm s.steps) (hfit : k.Fits c)
  (h : k.runSteps s l c = .ok c')

include hl in
theorem nodup_of_perm : l.Nodup :=
  hl.nodup_iff.mpr (s.sorted_steps.imp fun hlt heq => by
    rw [heq] at hlt
    exact lt_irrefl _ hlt)

include hl hfit h in
/-- A step that would be refused after another one comes before it. -/
theorem precedes_of_refused {a b : SandboxStep} (hne : a ≠ b) (ha : a ∈ s.steps)
    (hrefused : ∀ first : List SandboxStep, first.Nodup → a ∉ first → b ∈ first →
      ¬Grants s (first.foldl (leaves s) c) a) : Precedes a b l := by
  rintro before after hsplit
  by_contra hbefore
  have hnodup := nodup_of_perm hl
  have hmem : a ∈ after := by
    have hmem := hl.mem_iff.mpr ha
    rw [hsplit] at hmem
    exact List.mem_of_ne_of_mem hne ((List.mem_append.mp hmem).resolve_left hbefore)
  obtain ⟨between, rest, rfl⟩ := List.append_of_mem hmem
  have hsplit : l = (before ++ b :: between) ++ a :: rest := by rw [hsplit]; simp
  rw [hsplit] at hnodup
  refine hrefused (before ++ b :: between) hnodup.of_append_left ?_ (by simp) ?_
  · exact fun hm => List.disjoint_of_nodup_append hnodup hm List.mem_cons_self
  · exact (runSteps_eq_ok hfit h).2 _ a rest hsplit

/-! ### One field at a time -/

theorem gid_foldl (hl : .setGroup ∉ l) : (l.foldl (leaves s) c).gid = c.gid := by
  refine foldl_leaves_eq (f := Credentials.gid) (fun step hstep c => ?_) c
  cases step with
  | setGroup => exact absurd hstep hl
  | setUser =>
    simp only [leaves, CredentialCall.effect]
    split_ifs <;> rfl
  | _ => rfl

theorem inheritable_foldl (hl : .setInheritable ∉ l) :
    (l.foldl (leaves s) c).inheritable = c.inheritable := by
  refine foldl_leaves_eq (f := Credentials.inheritable) (fun step hstep c => ?_) c
  cases step with
  | setInheritable => exact absurd hstep hl
  | setUser =>
    simp only [leaves, CredentialCall.effect]
    split_ifs <;> rfl
  | _ => rfl

theorem keepCaps_foldl (hl : .keepCapabilities ∉ l) :
    (l.foldl (leaves s) c).keepCaps = c.keepCaps := by
  refine foldl_leaves_eq (f := Credentials.keepCaps) (fun step hstep c => ?_) c
  cases step with
  | keepCapabilities => exact absurd hstep hl
  | setUser =>
    simp only [leaves, CredentialCall.effect]
    split_ifs <;> rfl
  | _ => rfl

theorem permitted_foldl (hl : .setUser ∉ l) :
    (l.foldl (leaves s) c).permitted = c.permitted := by
  refine foldl_leaves_eq (f := Credentials.permitted) (fun step hstep c => ?_) c
  cases step with
  | setUser => exact absurd hstep hl
  | _ => rfl

theorem ambient_foldl (hl : .raiseAmbient ∉ l) (hc : c.ambient = ∅) :
    (l.foldl (leaves s) c).ambient = ∅ := by
  refine Runs.foldl_induction (P := fun _ (c' : Credentials) => c'.ambient = ∅) hc
    fun done step rest c' hsplit hc' => ?_
  cases step with
  | raiseAmbient => exact absurd (by rw [hsplit]; simp) hl
  | setUser =>
    simp only [leaves, CredentialCall.effect]
    split_ifs <;> first | rfl | exact hc'
  | _ => exact hc'

/-- Once the bounding set is set, it has nothing that is not kept. -/
theorem bounding_foldl (hl : .setBoundingSet ∈ l) :
    ∀ cap ∈ (l.foldl (leaves s) c).bounding, cap ∈ s.boundingSet.getD [] := by
  obtain ⟨before, after, rfl⟩ := List.append_of_mem hl
  rw [List.foldl_append, List.foldl_cons]
  refine Runs.foldl_induction
    (P := fun _ (c' : Credentials) => ∀ cap ∈ c'.bounding, cap ∈ s.boundingSet.getD [])
    (fun cap hcap => by simpa using (Finset.mem_filter.mp hcap).2)
    fun _ step _ c' _ hc' => ?_
  cases step with
  | setBoundingSet => exact fun cap hcap => hc' cap (Finset.mem_of_mem_filter cap hcap)
  | setUser =>
    simp only [leaves, CredentialCall.effect]
    split_ifs <;> exact hc'
  | _ => exact hc'

include hl hfit h in
/-- The capabilities are raised once the user is there, who would lose them, and from what was
kept for this. -/
theorem raised_of_granted (hroot : c.uid = 0) (hu : s.uid ≠ 0)
    (hgranted : ∃ cap ∈ s.ambient.getD [], cap ∈ c'.ambient)
    {before after : List SandboxStep} (hsplit : l = before ++ .setUser :: after) :
    .raiseAmbient ∈ after ∧ (c.keepCaps = false → .keepCapabilities ∈ before) := by
  obtain ⟨cap, hcap, hgranted⟩ := hgranted
  have hnodup := nodup_of_perm hl
  rw [hsplit] at hnodup
  have hbefore : .setUser ∉ before := fun hm =>
    List.disjoint_of_nodup_append hnodup hm List.mem_cons_self
  have huid := (uid_foldl (s := s) (c := c) hbefore).trans hroot
  set c₁ := leaves s (before.foldl (leaves s) c) .setUser with hc₁
  have hambient : c₁.ambient = ∅ := by simp [hc₁, leaves, CredentialCall.effect, huid, hu]
  obtain ⟨rfl, hgrants⟩ := runSteps_eq_ok hfit h
  have hraise : .raiseAmbient ∈ after := by
    by_contra hraise
    rw [hsplit, List.foldl_append, List.foldl_cons, ← hc₁, ambient_foldl hraise hambient] at hgranted
    exact Finset.notMem_empty cap hgranted
  refine ⟨hraise, fun hkeep => ?_⟩
  by_contra hnot
  obtain ⟨between, rest, rfl⟩ := List.append_of_mem hraise
  have hbetween : .setUser ∉ between := fun hm => by
    have hafter := (List.nodup_cons.mp hnodup.of_append_right).1
    exact hafter (List.mem_append_left _ hm)
  have hraised := hgrants (before ++ .setUser :: between) .raiseAmbient rest (by rw [hsplit]; simp)
    cap hcap
  have hempty : c₁.permitted = ∅ := by
    simp [hc₁, leaves, CredentialCall.effect, huid, hu, keepCaps_foldl hnot, hkeep]
  have hpermitted := hraised.1
  rw [List.foldl_append, List.foldl_cons, ← hc₁, permitted_foldl hbetween, hempty] at hpermitted
  exact Finset.notMem_empty cap hpermitted

end Orders

/-- Every order that works is an order with these steps before those. -/
theorem order_of_runSteps {l : List SandboxStep} (hl : l.Perm s.steps) (hfit : k.Fits c)
    (hroot : c.uid = 0) (hu : s.uid ≠ 0) (h : k.runSteps s l c = .ok c') :
    InOrder s c c' l where
  group hgid hne := by
    refine precedes_of_refused hl hfit h (by decide) (by simp [Sandbox.steps, hgid])
      fun first hnodup hnot hmem hgrants => ?_
    have heff := (dropped_foldl (s := s) hu hroot hnodup hmem).2
    rcases hgrants with hgrants | hgrants
    · rw [heff] at hgrants
      exact Finset.notMem_empty _ hgrants
    · exact hne (hgrants.trans (gid_foldl hnot))
  groups hgroups := by
    refine precedes_of_refused hl hfit h (by decide) (by simp [Sandbox.steps, hgroups])
      fun first hnodup _ hmem hgrants => ?_
    have heff := (dropped_foldl (s := s) hu hroot hnodup hmem).2
    change capSetgid ∈ (first.foldl (leaves s) c).effective at hgrants
    rw [heff] at hgrants
    exact Finset.notMem_empty _ hgrants
  bounding hbounding := by
    obtain ⟨keep, hkeep, cap, hle, hcap⟩ := hbounding
    refine precedes_of_refused hl hfit h (by decide) (by simp [Sandbox.steps, hkeep])
      fun first hnodup _ hmem hgrants => ?_
    have heff := (dropped_foldl (s := s) hu hroot hnodup hmem).2
    rcases hgrants with hgrants | hgrants
    · rw [heff] at hgrants
      exact Finset.notMem_empty _ hgrants
    · exact hcap (by simpa [hkeep] using hgrants cap hle)
  keep hkeep hgranted before after hsplit :=
    (raised_of_granted hl hfit h hroot hu hgranted hsplit).2 hkeep
  raise hgranted before after hsplit := by
    by_contra hbefore
    have huser : .setUser ∈ after := by
      have hmem : SandboxStep.setUser ∈ l := hl.mem_iff.mpr (by simp [Sandbox.steps, hu])
      rw [hsplit] at hmem
      exact List.mem_of_ne_of_mem (by decide) ((List.mem_append.mp hmem).resolve_left hbefore)
    obtain ⟨between, rest, rfl⟩ := List.append_of_mem huser
    have hsplit' : l = (before ++ .raiseAmbient :: between) ++ .setUser :: rest := by
      rw [hsplit]
      simp
    have hraise := (raised_of_granted hl hfit h hroot hu hgranted hsplit').1
    have hnodup := nodup_of_perm hl
    rw [hsplit'] at hnodup
    exact List.disjoint_of_nodup_append hnodup (List.mem_append_right _ List.mem_cons_self)
      (List.mem_cons_of_mem _ hraise)
  inheritable hcap before after hsplit := by
    obtain ⟨cap, hcap, hnot⟩ := hcap
    by_contra hbefore
    have hgrants := (runSteps_eq_ok hfit h).2 before _ after hsplit cap hcap
    exact hnot (inheritable_foldl hbefore ▸ hgrants.2)
  wide hcap := by
    obtain ⟨cap, hcap, hnot, keep, hkeep, hdropped⟩ := hcap
    have hsome : s.ambient.isSome := by
      cases h : s.ambient with
      | none => simp [h] at hcap
      | some caps => rfl
    refine precedes_of_refused hl hfit h (by decide) (by simp [Sandbox.steps, hsome])
      fun first _ hfirst hmem hgrants => ?_
    have hsub := hgrants.2.1 (Finset.mem_union_right _ (List.mem_toFinset.mpr hcap))
    rcases Finset.mem_union.mp hsub with hinh | hbound
    · exact hnot (inheritable_foldl hfirst ▸ hinh)
    · exact hdropped (by simpa [hkeep] using bounding_foldl hmem cap hbound)

/-! ### A web server -/

theorem lenient_commoncap {lastCap : ℕ} (h : lastCap ≤ maxCapability) :
    (commoncap lastCap h).Lenient := by
  intro call c hallowed
  have hanswer : (commoncap lastCap h).answer call c =
      if call.isUnknown lastCap then some eInval else none := if_pos hallowed
  rw [hanswer]
  cases call with
  | capbsetDrop cap =>
    split
    · exact .inr ⟨cap, rfl, rfl⟩
    · exact .inl rfl
  | _ => exact .inl rfl

/-- A server that binds a privileged port as a user of its own. -/
def www : Sandbox :=
  { uid := 33, gid := 33, groups := some [33], noNewPrivileges := true, boundingSet := some [10],
    ambient := some [10] }

/-- The credentials of rinit itself, with the capabilities it needs here. -/
def rootCredentials : Credentials where
  uid := 0
  gid := 0
  groups := [0]
  noNewPrivs := false
  keepCaps := false
  permitted := {5, 6, 7, 8, 10}
  effective := {5, 6, 7, 8, 10}
  inheritable := ∅
  bounding := {5, 6, 7, 8, 10}
  ambient := ∅

theorem fits_root : (commoncap 40 (by decide)).Fits rootCredentials := by
  change ∀ cap ∈ ({5, 6, 7, 8, 10} : Finset ℕ), cap ≤ 40
  decide

theorem privileged_root : Privileged www rootCredentials where
  setgid := by decide
  setuid := by decide
  setpcap := by decide
  ambient := by decide

theorem runSteps_www : (commoncap 40 (by decide)).runSteps www www.steps rootCredentials =
    .ok (www.applied rootCredentials) :=
  runSteps_of_privileged (lenient_commoncap _) fits_root privileged_root

theorem applied_www : (commoncap 40 (by decide)).runSteps www www.steps rootCredentials =
    .ok (www.applied rootCredentials) :=
  (runSteps_applied fits_root).2 (lenient_commoncap _) privileged_root

theorem inOrder_www :
    InOrder www rootCredentials (www.applied rootCredentials) www.steps :=
  order_of_runSteps (.refl _) fits_root rfl (by decide) runSteps_www

end CredentialKernel

end Rinit
