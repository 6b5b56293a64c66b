import Rinit.Books
import Rinit.Notify

/-!
# Whose readiness it is

The main loop gives a message to the unit it names, and a unit that is starting takes a
`READY=1` for its own. `Notified` is the manager with its hub, and a run is any order of
datagrams, steps of the tasks, deliveries, spawns, disarmings and other operations of the
manager. `Owned` says that a delivery makes a notify unit active only with a `READY=1` that
was sent on a socket armed for the start the unit is in.

Arming a unit leaves the queue as it is. What an earlier process said is taken for the word
of the next one if it is still queued then (`not_owned_restarted`). In a run in which no
`READY=1` of a unit is queued whenever the unit is spawned (`Unread`), every readiness is
owned (`owned_of_unread`). The invariant is `Since` : whatever of a starting unit is queued
or can be queued was sent on a socket no older than its start.
-/

namespace Rinit

open UnitRuntime (NotifyMessage)

/-- The manager with its notify hub. `begun` holds the socket that was armed for the start a
unit's process comes from, `sent` every datagram that arrived and the socket it arrived on. -/
structure Notified where
  manager : UnitManager := {}
  hub : NotifyHub := {}
  begun : Std.ExtTreeMap UnitName ℕ compare := ∅
  sent : List (ℕ × List UInt8) := []

/-- What happens around the hub. -/
inductive Traffic where
  | arrive (unit : UnitName) (datagram : List UInt8)
  | read (unit : UnitName)
  | post (unit : UnitName)
  | recv
  | spawn (unit : UnitName)
  | disarm (unit : UnitName)
  | disarmAll
  | manage (op : Op)

namespace Notified

/-- A spawn made a process. -/
def begins (m m' : UnitManager) (unit : UnitName) : Bool :=
  (m.get unit).any (·.pid.isNone) && (m'.get unit).any (·.pid.isSome)

/-- Arm the socket of a notify unit, and spawn. -/
def spawn (k : Kernel) (s : Notified) (unit : UnitName) : Notified :=
  let arms := (s.manager.get unit).any fun rt => rt.config.serviceKind = .notify
  let m := (StartFlow.beginSpawn k s.manager unit).1
  { s with
    manager := m
    hub := if arms then (s.hub.arm k unit).1 else s.hub
    begun :=
      if begins s.manager m unit then
        if arms then s.begun.insert unit s.hub.sockets else s.begun.erase unit
      else s.begun }

/-- The main loop takes the next message and gives it to its unit. -/
def recv (k : Kernel) (s : Notified) : Notified :=
  match s.hub.recv with
  | none => s
  | some (p, hub) => { s with manager := (s.manager.onNotify k p.unit p.message).1, hub }

def arrive (s : Notified) (unit : UnitName) (datagram : List UInt8) : Notified :=
  { s with
    hub := s.hub.arrive unit datagram
    sent := ((s.hub.armed[unit]?).map fun r => (r.socket, datagram)).toList ++ s.sent }

def step (k : Kernel) (s : Notified) : Traffic → Notified
  | .arrive unit datagram => s.arrive unit datagram
  | .read unit => { s with hub := s.hub.read unit }
  | .post unit => { s with hub := s.hub.post unit }
  | .recv => s.recv k
  | .spawn unit => s.spawn k unit
  | .disarm unit => { s with hub := s.hub.disarm unit }
  | .disarmAll => { s with hub := s.hub.disarmAll }
  | .manage op => { s with manager := s.manager.apply k op }

end Notified

/-- Operations of the manager other than the ones that go with the hub, as their callers
promise. -/
def Traffic.Promised : Traffic → Prop
  | .manage op =>
    op.Promised ∧ (∀ u, op ≠ .beginSpawnUnit u) ∧ ∀ u message, op ≠ .onNotify u message
  | _ => True

/-- The states a run gets into whose steps meet `G`. -/
inductive Notified.Reached (G : Notified → Traffic → Prop) : Notified → Prop
  | new : Reached G {}
  | step {s : Notified} (k : Kernel) (t : Traffic) : Reached G s → t.Promised → G s t →
    Reached G (s.step k t)

/-- The message came as a datagram on the socket. -/
def SentOn (sent : List (ℕ × List UInt8)) (socket : ℕ) (message : NotifyMessage) : Prop :=
  ∃ datagram, (socket, datagram) ∈ sent ∧
    parseNotify (datagram.take maxDatagram) = .ok message

/-- The message was sent for the start its unit is in : on the socket that was armed for it, or
on one that has replaced that since. -/
def Notified.Answers (s : Notified) (p : Posted) : Prop :=
  ∃ first datagram, s.begun[p.unit]? = some first ∧ first ≤ p.socket ∧
    (p.socket, datagram) ∈ s.sent ∧ SaysReady (datagram.take maxDatagram)

/-- The next delivery makes a notify unit active only with a `READY=1` of its current start. -/
def Notified.Owned (s : Notified) : Prop :=
  ∀ (k : Kernel) (u : UnitName) (rt rt' : UnitRuntime), s.manager.get u = some rt →
    rt.config.serviceKind = .notify → rt.state = .starting →
    (s.step k .recv).manager.get u = some rt' → rt'.state = .active →
    ∃ p hub, s.hub.recv = some (p, hub) ∧ p.unit = u ∧ s.Answers p

/-- When a notify unit without a process is spawned, no `READY=1` of it is queued. -/
def Notified.Unread (s : Notified) : Traffic → Prop
  | .spawn u => ∀ rt, s.manager.get u = some rt → rt.pid = none →
      rt.config.serviceKind = .notify → ∀ p ∈ s.hub.ready, p.unit ≠ u
  | _ => True

/-! ## The sockets of a start -/

/-- What of `u` is queued, and what its task can still queue, was sent on `first` or on a later
socket. -/
structure Since (h : NotifyHub) (u : UnitName) (first : ℕ) : Prop where
  sockets : first ≤ h.sockets
  ready : ∀ p ∈ h.ready, p.unit = u → first ≤ p.socket
  armed : ∀ r : Reader, h.armed[u]? = some r → first ≤ r.socket

/-- A step of the hub : a task keeps its socket or has a new one, and what is queued was queued
or comes from a task. -/
structure NotifyHub.Moves (h h' : NotifyHub) : Prop where
  sockets : h.sockets ≤ h'.sockets
  armed : ∀ (u : UnitName) (r' : Reader), h'.armed[u]? = some r' →
    (∃ r : Reader, h.armed[u]? = some r ∧ r.socket = r'.socket) ∨ r'.socket = h.sockets
  ready : ∀ p ∈ h'.ready, p ∈ h.ready ∨
    ∃ r : Reader, h.armed[p.unit]? = some r ∧ r.socket = p.socket

theorem Since.of_moves {h h' : NotifyHub} {u : UnitName} {first : ℕ} (hs : Since h u first)
    (hm : h.Moves h') : Since h' u first := by
  refine ⟨hs.sockets.trans hm.sockets, fun p hp hu => ?_, fun r' hr' => ?_⟩
  · rcases hm.ready p hp with hp | ⟨r, hr, hsock⟩
    · exact hs.ready p hp hu
    · exact hsock ▸ hs.armed r (hu ▸ hr)
  · rcases hm.armed u r' hr' with ⟨r, hr, hsock⟩ | hsock
    · exact hsock ▸ hs.armed r hr
    · exact hsock ▸ hs.sockets

namespace NotifyHub

variable {h h' : NotifyHub}

theorem Moves.refl (h : NotifyHub) : h.Moves h :=
  ⟨le_rfl, fun _ r' hr' => .inl ⟨r', hr', rfl⟩, fun _ hp => .inl hp⟩

/-- The hub puts a task in the place of the one a unit has, which reads the same socket. -/
theorem moves_insert {u : UnitName} {r : Reader} (hr : h.armed[u]? = some r) (r' : Reader)
    (hsock : r.socket = r'.socket) : h.Moves { h with armed := h.armed.insert u r' } := by
  refine ⟨le_rfl, fun v r₁ hr₁ => .inl ?_, fun p hp => .inl hp⟩
  rw [Std.ExtTreeMap.getElem?_insert] at hr₁
  split at hr₁
  · next huv =>
    obtain rfl := compare_eq_iff_eq.mp huv
    obtain rfl := Option.some.inj hr₁
    exact ⟨r, hr, hsock⟩
  · exact ⟨r₁, hr₁, rfl⟩

theorem moves_arm (k : Kernel) (u : UnitName) : h.Moves (h.arm k u).1 := by
  unfold arm
  split
  · exact .refl h
  · refine ⟨Nat.le_succ _, fun v r' hr' => ?_, fun p hp => .inl hp⟩
    rw [Std.ExtTreeMap.getElem?_insert] at hr'
    split at hr'
    · obtain rfl := Option.some.inj hr'
      exact .inr rfl
    · exact .inl ⟨r', hr', rfl⟩

/-- Tasks end, and nothing else changes. -/
structure Drops (h h' : NotifyHub) : Prop where
  ready : h'.ready = h.ready
  status : h'.status = h.status
  sockets : h'.sockets = h.sockets
  armed : ∀ (u : UnitName) (r : Reader), h'.armed[u]? = some r → h.armed[u]? = some r

theorem Drops.moves (hd : h.Drops h') : h.Moves h' :=
  ⟨hd.sockets.ge, fun u r' hr' => .inl ⟨r', hd.armed u r' hr', rfl⟩, fun _ hp =>
    .inl (hd.ready ▸ hp)⟩

theorem drops_disarm (u : UnitName) : h.Drops (h.disarm u) := by
  refine ⟨rfl, rfl, rfl, fun v r hr => ?_⟩
  unfold disarm at hr
  rw [Std.ExtTreeMap.getElem?_erase] at hr
  split at hr
  · cases hr
  · exact hr

theorem drops_disarmAll (h : NotifyHub) : h.Drops h.disarmAll := by
  refine Runs.foldl_induction (P := fun _ h' => h.Drops h') ⟨rfl, rfl, rfl, fun _ _ hr => hr⟩ ?_
  intro done u rest h' _ hd
  have hu := h'.drops_disarm u
  exact ⟨hu.ready.trans hd.ready, hu.status.trans hd.status, hu.sockets.trans hd.sockets,
    fun v r hr => hd.armed v r (hu.armed v r hr)⟩

theorem moves_arrive (u : UnitName) (datagram : List UInt8) : h.Moves (h.arrive u datagram) := by
  unfold arrive
  split
  · exact .refl h
  · next r hr => exact moves_insert hr _ rfl

theorem moves_read (u : UnitName) : h.Moves (h.read u) := by
  unfold read
  split
  · next hr => exact moves_insert hr _ rfl
  · exact .refl h

theorem moves_post (u : UnitName) : h.Moves (h.post u) := by
  unfold post
  split
  · next socket inbox message hr =>
    have hmoves := moves_insert hr { socket, inbox } rfl
    dsimp only
    split
    · split
      · refine ⟨hmoves.sockets, hmoves.armed, fun p hp => ?_⟩
        rcases List.mem_append.mp hp with hp | hp
        · exact .inl hp
        · rw [List.mem_singleton.mp hp]
          exact .inr ⟨_, hr, rfl⟩
      · exact .refl h
    · split
      · exact ⟨hmoves.sockets, hmoves.armed, hmoves.ready⟩
      · exact .refl h
  · exact .refl h

theorem recv_cases {p : Posted} (hr : h.recv = some (p, h')) :
    h.ready = p :: h'.ready ∧ h' = { h with ready := h'.ready } ∨
      h.status = p :: h'.status ∧ h' = { h with status := h'.status } := by
  unfold recv at hr
  split at hr
  · next hq =>
    cases hr
    exact .inl ⟨hq, rfl⟩
  · next hq =>
    cases hr
    exact .inr ⟨hq, rfl⟩
  · cases hr

theorem moves_recv {p : Posted} (hr : h.recv = some (p, h')) : h.Moves h' := by
  rcases recv_cases hr with ⟨hq, heq⟩ | ⟨-, heq⟩
  · rw [heq]
    refine ⟨le_rfl, fun u r' hr' => .inl ⟨r', hr', rfl⟩, fun p' hp' => .inl ?_⟩
    rw [hq]
    exact List.mem_cons_of_mem _ hp'
  · rw [heq]
    exact ⟨le_rfl, fun u r' hr' => .inl ⟨r', hr', rfl⟩, fun p' hp' => .inl hp'⟩

end NotifyHub

/-- A socket that was just armed, for a unit of which nothing is queued. -/
theorem Since.of_arm {k : Kernel} {h : NotifyHub} {u : UnitName} (ha : (k.armNotify u).isOk = true)
    (hq : ∀ p ∈ h.ready, p.unit ≠ u) : Since (h.arm k u).1 u h.sockets := by
  unfold NotifyHub.arm
  cases he : k.armNotify u with
  | error e =>
    rw [he] at ha
    cases ha
  | ok _ =>
    refine ⟨Nat.le_succ _, fun p hp hu => absurd hu (hq p hp), fun r hr => ?_⟩
    simp only [Std.ExtTreeMap.getElem?_insert_self, Option.some.injEq] at hr
    rw [← hr]

/-! ## Where messages come from -/

/-- What a task has came on its own socket. -/
structure Reader.Sourced (sent : List (ℕ × List UInt8)) (r : Reader) : Prop where
  inbox : ∀ datagram ∈ r.inbox, (r.socket, datagram) ∈ sent
  held : ∀ message, r.held = some message → SentOn sent r.socket message

/-- What is queued came on the socket it is marked with, and each queue has its own kind of
message. -/
structure NotifyHub.Sourced (sent : List (ℕ × List UInt8)) (h : NotifyHub) : Prop where
  armed : ∀ (u : UnitName) (r : Reader), h.armed[u]? = some r → r.Sourced sent
  ready : ∀ p ∈ h.ready, SentOn sent p.socket p.message
  status : ∀ p ∈ h.status, p.message.ready = false

namespace NotifyHub

variable {h h' : NotifyHub} {sent : List (ℕ × List UInt8)}

theorem Sourced.insert (hs : h.Sourced sent) {r : Reader} (hr : r.Sourced sent) (u : UnitName) :
    ({ h with armed := h.armed.insert u r } : NotifyHub).Sourced sent := by
  refine ⟨fun v r' hr' => ?_, hs.ready, hs.status⟩
  rw [Std.ExtTreeMap.getElem?_insert] at hr'
  split at hr'
  · rw [← Option.some.inj hr']
    exact hr
  · exact hs.armed v r' hr'

theorem Sourced.arm (hs : h.Sourced sent) (k : Kernel) (u : UnitName) :
    (h.arm k u).1.Sourced sent := by
  unfold NotifyHub.arm
  split
  · exact hs
  · have hnew : Reader.Sourced sent { socket := h.sockets } :=
      ⟨fun _ hd => absurd hd List.not_mem_nil, fun _ hm => by cases hm⟩
    have hins := hs.insert hnew u
    exact ⟨hins.armed, hins.ready, hins.status⟩

theorem Sourced.of_drops (hs : h.Sourced sent) (hd : h.Drops h') : h'.Sourced sent :=
  ⟨fun u r hr => hs.armed u r (hd.armed u r hr), hd.ready ▸ hs.ready, hd.status ▸ hs.status⟩

theorem Sourced.mono (hs : h.Sourced sent) (more : List (ℕ × List UInt8))
    (hsub : ∀ e ∈ sent, e ∈ more) : h.Sourced more := by
  have sentOn {socket : ℕ} {message : NotifyMessage} (hc : SentOn sent socket message) :
      SentOn more socket message := by
    obtain ⟨datagram, hmem, hparse⟩ := hc
    exact ⟨datagram, hsub _ hmem, hparse⟩
  refine ⟨fun u r hr => ?_, fun p hp => sentOn (hs.ready p hp), hs.status⟩
  have hsr := hs.armed u r hr
  exact ⟨fun d hd => hsub _ (hsr.inbox d hd), fun message hm => sentOn (hsr.held message hm)⟩

theorem Sourced.arrive (hs : h.Sourced sent) (u : UnitName) (datagram : List UInt8) :
    (h.arrive u datagram).Sourced
      (((h.armed[u]?).map fun r => (r.socket, datagram)).toList ++ sent) := by
  unfold NotifyHub.arrive
  cases hr : h.armed[u]? with
  | none => exact hs
  | some r =>
    have hmore := hs.mono ((r.socket, datagram) :: sent) fun e he =>
      List.mem_cons_of_mem _ he
    have hsr := hmore.armed u r hr
    refine hmore.insert (r := { r with inbox := r.inbox ++ [datagram] })
      ⟨fun d hd => ?_, hsr.held⟩ u
    rcases List.mem_append.mp hd with hd | hd
    · exact hsr.inbox d hd
    · rw [List.mem_singleton.mp hd]
      exact List.mem_cons_self

theorem Sourced.read (hs : h.Sourced sent) (u : UnitName) : (h.read u).Sourced sent := by
  unfold NotifyHub.read
  split
  · next socket datagram inbox hr =>
    have hsr := hs.armed u _ hr
    refine hs.insert (r := { socket, inbox, held := _ }) ⟨fun d hd => ?_, fun message hm => ?_⟩ u
    · exact hsr.inbox d (List.mem_cons_of_mem _ hd)
    · exact ⟨datagram, hsr.inbox datagram List.mem_cons_self, Runs.eq_ok_of_toOption hm⟩
  · exact hs

theorem Sourced.post (hs : h.Sourced sent) (u : UnitName) : (h.post u).Sourced sent := by
  unfold NotifyHub.post
  split
  · next socket inbox message hr =>
    have hsr := hs.armed u _ hr
    have hins := hs.insert (r := { socket, inbox }) ⟨hsr.inbox, fun _ hm => by cases hm⟩ u
    dsimp only
    split
    · split
      · refine ⟨hins.armed, fun p hp => ?_, hs.status⟩
        rcases List.mem_append.mp hp with hp | hp
        · exact hs.ready p hp
        · rw [List.mem_singleton.mp hp]
          exact hsr.held message rfl
      · exact hs
    · next hready =>
      split
      · refine ⟨hins.armed, hs.ready, fun p hp => ?_⟩
        rcases List.mem_append.mp hp with hp | hp
        · exact hs.status p hp
        · rw [List.mem_singleton.mp hp]
          simpa using hready
      · exact hs
  · exact hs

theorem Sourced.recv {p : Posted} (hs : h.Sourced sent) (hr : h.recv = some (p, h')) :
    h'.Sourced sent := by
  rcases recv_cases hr with ⟨hq, heq⟩ | ⟨hq, heq⟩
  · rw [heq]
    exact ⟨hs.armed, fun p' hp' => hs.ready p' (hq ▸ List.mem_cons_of_mem _ hp'), hs.status⟩
  · rw [heq]
    exact ⟨hs.armed, hs.ready, fun p' hp' => hs.status p' (hq ▸ List.mem_cons_of_mem _ hp')⟩

end NotifyHub

/-! ## The units -/

section

variable {k : Kernel} {m : UnitManager} {u : UnitName} {op : Op} {rt rt' : UnitRuntime}

/-- A unit that is up keeps its type. -/
theorem serviceKind_of_touch (ht : Touch k m u op rt rt') (hup : rt.isUp = true) :
    rt'.config.serviceKind = rt.config.serviceKind := by
  cases redefined_of_touch ht with
  | kept hc | retired _ hc => rw [hc]
  | redefined => rw [rt.redefine_config _ _ hup]
  | adopted => rw [rt.adoptPendingConfig_config hup]
  | compressed => rfl

/-- Only a spawn leaves a unit starting that was not. -/
theorem starting_of_touch (ht : Touch k m u op rt rt') (hop : op ≠ .beginSpawnUnit u)
    (hs : rt'.state = .starting) : rt.state = .starting ∧ rt'.pid = rt.pid := by
  cases move_of_touch ht with
  | quiet hst hp => exact ⟨hst ▸ hs, hp⟩
  | settled _ _ hst | cleared _ _ hst | reached _ _ hst | noProcess _ _ hst | waiting _ _ hst
  | daemon _ _ _ hst | killed _ _ _ hst => cases hst.symm.trans hs
  | stopped _ _ hst | unhealthy _ _ _ hst =>
    rcases hst with ⟨hst, -⟩ | ⟨hst, -⟩ <;> cases hst.symm.trans hs
  | flagged _ hd hst => cases (hst.trans hd).symm.trans hs
  | failed _ _ hf | dragged _ _ _ _ _ hf =>
    rw [hs] at hf
    cases hf
  | spawned hspawn => exact absurd hspawn hop
  | ready _ hst => rcases hst with hst | hst <;> cases hst.symm.trans hs
  | exited hexit hpid _ hp => exact absurd hs (state_of_exit ht hexit hpid hp).1

/-- A unit that is starting has a process, and a notify unit a socket for its start that is no
younger than what is queued of it. -/
structure Timely (h : NotifyHub) (begun : Std.ExtTreeMap UnitName ℕ compare) (u : UnitName)
    (rt : UnitRuntime) : Prop where
  pid : rt.state = .starting → rt.pid.isSome = true
  since : rt.state = .starting → rt.config.serviceKind = .notify →
    ∃ first, begun[u]? = some first ∧ Since h u first

variable {h : NotifyHub} {begun : Std.ExtTreeMap UnitName ℕ compare}

theorem Timely.of_ne (hs : rt.state ≠ .starting) : Timely h begun u rt :=
  ⟨fun h => absurd h hs, fun h => absurd h hs⟩

theorem Timely.of_moves {h' : NotifyHub} {begun' : Std.ExtTreeMap UnitName ℕ compare}
    (ht : Timely h begun u rt) (hm : h.Moves h') (hb : begun'[u]? = begun[u]?) :
    Timely h' begun' u rt := by
  refine ⟨ht.pid, fun hs hk => ?_⟩
  obtain ⟨first, hfirst, hsince⟩ := ht.since hs hk
  exact ⟨first, hb.trans hfirst, hsince.of_moves hm⟩

theorem timely_touch (ht : Touch k m u op rt rt') (hop : op ≠ .beginSpawnUnit u)
    (htm : Timely h begun u rt) : Timely h begun u rt' := by
  by_cases hs : rt'.state = .starting
  · obtain ⟨hs₀, hp⟩ := starting_of_touch ht hop hs
    have hup : rt.isUp = true := by simp [UnitRuntime.isUp, htm.pid hs₀]
    refine ⟨fun _ => hp ▸ htm.pid hs₀, fun _ hk => htm.since hs₀ ?_⟩
    rw [← serviceKind_of_touch ht hup]
    exact hk
  · exact .of_ne hs

theorem timely_apply (op : Op) (hm : ∀ u rt, m.get u = some rt → Timely h begun u rt)
    (hop : ∀ u, op ≠ .beginSpawnUnit u) (hrt : (m.apply k op).get u = some rt) :
    Timely h begun u rt :=
  UnitManager.inv_apply hm (fun _ _ _ => .of_ne (by simp [UnitRuntime.new]))
    (fun u _ _ ht htm => timely_touch ht (hop u) htm) u rt hrt

end

/-- A spawn leaves the manager as it is, or takes its unit through a start; a notify unit is
then armed. -/
theorem StartFlow.beginSpawn_cases (k : Kernel) (m : UnitManager) (u : UnitName) :
    (beginSpawn k m u).1 = m ∨ ∃ rt rt', m.get u = some rt ∧ UnitRuntime.Spawned rt rt' ∧
      (rt.config.serviceKind = .notify → (k.armNotify u).isOk = true) ∧
      ∀ v, (beginSpawn k m u).1.get v = if u = v then some rt' else m.get v := by
  have spawned (harm : ∀ rt, m.get u = some rt → rt.config.serviceKind = .notify →
      (k.armNotify u).isOk = true) :
      (m.beginSpawnUnit k u).1 = m ∨ ∃ rt rt', m.get u = some rt ∧ UnitRuntime.Spawned rt rt' ∧
        (rt.config.serviceKind = .notify → (k.armNotify u).isOk = true) ∧
        ∀ v, (m.beginSpawnUnit k u).1.get v = if u = v then some rt' else m.get v := by
    unfold UnitManager.beginSpawnUnit
    cases hrt : m.get u with
    | none => exact .inl rfl
    | some rt =>
      refine .inr ⟨rt, _, rfl, rt.spawned_beginSpawn k m.cgroup u, harm rt hrt, fun v => ?_⟩
      exact UnitManager.get_put ..
  unfold beginSpawn
  split
  · cases ha : k.armNotify u with
    | error e => exact .inl rfl
    | ok _ =>
      rw [ha] at spawned
      exact spawned fun _ _ _ => rfl
  · next hn =>
    refine spawned fun rt hrt hk => absurd ?_ hn
    simp [hrt, hk]

namespace Notified

variable {k : Kernel} {s : Notified} {u v : UnitName} {rt : UnitRuntime}

theorem moves_spawn (k : Kernel) (s : Notified) (u : UnitName) : s.hub.Moves (s.spawn k u).hub := by
  unfold spawn
  dsimp only
  split
  · exact NotifyHub.moves_arm k u
  · exact .refl _

/-- A spawn has a say only in the start of its own unit. -/
theorem begun_spawn (h : begins s.manager (s.spawn k u).manager u = false ∨ u ≠ v) :
    (s.spawn k u).begun[v]? = s.begun[v]? := by
  unfold spawn at h ⊢
  dsimp only at h ⊢
  rcases h with h | h
  · rw [if_neg (by simp [h])]
  · split
    · split
      · rw [Std.ExtTreeMap.getElem?_insert, if_neg (by simpa using h)]
      · rw [Std.ExtTreeMap.getElem?_erase, if_neg (by simpa using h)]
    · rfl

theorem begun_spawn_self (hb : begins s.manager (s.spawn k u).manager u = true)
    (hrt : s.manager.get u = some rt) (hk : rt.config.serviceKind = .notify) :
    (s.spawn k u).begun[u]? = some s.hub.sockets := by
  unfold spawn at hb ⊢
  dsimp only at hb ⊢
  rw [if_pos hb, if_pos (by simp [hrt, hk])]
  exact Std.ExtTreeMap.getElem?_insert_self

/-- A spawn of a unit of which no readiness is queued begins its start in time. -/
theorem timely_spawn
    (hm : ∀ u rt, s.manager.get u = some rt → Timely s.hub s.begun u rt)
    (hu : s.Unread (.spawn u)) (hrt : (s.spawn k u).manager.get v = some rt) :
    Timely (s.spawn k u).hub (s.spawn k u).begun v rt := by
  have hmoves := s.moves_spawn k u
  have hman : (s.spawn k u).manager = (StartFlow.beginSpawn k s.manager u).1 := rfl
  rcases StartFlow.beginSpawn_cases k s.manager u with hsame | ⟨rt₀, rt₁, hrt₀, hsp, harm, hget⟩
  · rw [← hman] at hsame
    refine (hm v rt (hsame ▸ hrt)).of_moves hmoves (begun_spawn (.inl ?_))
    rw [hsame]
    unfold begins
    cases s.manager.get u with
    | none => rfl
    | some rt => cases hp : rt.pid <;> simp [hp]
  rw [← hman] at hget
  by_cases huv : u = v
  swap
  · rw [hget, if_neg huv] at hrt
    exact (hm v rt hrt).of_moves hmoves (begun_spawn (.inr huv))
  subst huv
  rw [hget, if_pos rfl, Option.some.injEq] at hrt
  subst hrt
  have hbefore := hm u rt₀ hrt₀
  cases hsp with
  | running hp =>
    refine hbefore.of_moves hmoves (begun_spawn (.inl ?_))
    unfold begins
    simp [hrt₀, Option.isSome_iff_ne_none.mp hp]
  | kept hp =>
    refine .of_ne fun hs => ?_
    have hpid := hbefore.pid hs
    rw [hp] at hpid
    cases hpid
  | noProcess => exact .of_ne (by simp)
  | spawned hp _ hp' _ _ _ _ hc =>
    refine ⟨fun _ => by rw [hp']; rfl, fun _ hk => ?_⟩
    rw [hc] at hk
    refine ⟨s.hub.sockets, ?_, ?_⟩
    · refine begun_spawn_self ?_ hrt₀ hk
      unfold begins
      simp [hrt₀, hget, hp, hp']
    · unfold spawn
      dsimp only
      rw [if_pos (by simp [hrt₀, hk])]
      exact .of_arm (harm hk) (hu rt₀ hrt₀ hp hk)

/-! ## Runs -/

/-- What every run keeps : messages carry the socket they came on, and what is queued of a unit
that is starting belongs to its start. -/
structure Kept (s : Notified) : Prop where
  sourced : s.hub.Sourced s.sent
  timely : ∀ u rt, s.manager.get u = some rt → Timely s.hub s.begun u rt

theorem Kept.of_moves {hub : NotifyHub} {sent : List (ℕ × List UInt8)} (h : s.Kept)
    (hs : hub.Sourced sent) (hm : s.hub.Moves hub) : Kept { s with hub, sent } :=
  ⟨hs, fun u rt hrt => (h.timely u rt hrt).of_moves hm rfl⟩

theorem Kept.recv (h : s.Kept) (k : Kernel) : (s.recv k).Kept := by
  unfold Notified.recv
  cases hr : s.hub.recv with
  | none => exact h
  | some r =>
    obtain ⟨p, hub⟩ := r
    refine ⟨h.sourced.recv hr, fun u rt hrt => ?_⟩
    have hm := NotifyHub.moves_recv hr
    exact (timely_apply (.onNotify p.unit p.message) h.timely (fun _ => by simp)
      hrt).of_moves hm rfl

theorem Kept.step (h : s.Kept) (k : Kernel) {t : Traffic} (ht : t.Promised) (hu : s.Unread t) :
    (s.step k t).Kept := by
  cases t with
  | arrive unit datagram =>
    exact h.of_moves (h.sourced.arrive unit datagram) (NotifyHub.moves_arrive unit datagram)
  | read unit => exact h.of_moves (h.sourced.read unit) (NotifyHub.moves_read unit)
  | post unit => exact h.of_moves (h.sourced.post unit) (NotifyHub.moves_post unit)
  | recv => exact h.recv k
  | spawn unit =>
    refine ⟨?_, fun u rt hrt => timely_spawn h.timely hu hrt⟩
    change (ite _ _ _ : NotifyHub).Sourced s.sent
    split
    · exact h.sourced.arm k unit
    · exact h.sourced
  | disarm unit =>
    have hd := NotifyHub.drops_disarm (h := s.hub) unit
    exact h.of_moves (h.sourced.of_drops hd) hd.moves
  | disarmAll =>
    have hd := s.hub.drops_disarmAll
    exact h.of_moves (h.sourced.of_drops hd) hd.moves
  | manage op => exact ⟨h.sourced, fun u rt hrt => timely_apply op h.timely ht.2.1 hrt⟩

theorem Reached.kept (h : s.Reached Unread) : s.Kept := by
  induction h with
  | new =>
    refine ⟨⟨fun u r hr => ?_, fun p hp => ?_, fun p hp => ?_⟩, fun u rt hrt => ?_⟩
    · simp at hr
    · cases hp
    · cases hp
    · simp [UnitManager.get] at hrt
  | step k t _ ht hu ih => exact ih.step k ht hu

/-- A message that makes a unit active says that it is ready, and finds it starting. -/
theorem ready_of_onNotify {message : NotifyMessage} (hs : rt.state = .starting)
    (ha : (rt.onNotify k message).1.state = .active) : message.ready = true := by
  by_contra hr
  have hsame : (rt.onNotify k message).1.state = rt.state := by
    unfold UnitRuntime.onNotify
    dsimp only
    rw [if_pos (by simp [hr])]
  cases (hsame.trans hs).symm.trans ha

theorem Kept.owned (h : s.Kept) : s.Owned := by
  intro k u rt rt' hrt hk hs hrt' ha
  change (s.recv k).manager.get u = some rt' at hrt'
  unfold Notified.recv at hrt'
  cases hr : s.hub.recv with
  | none =>
    rw [hr] at hrt'
    cases hrt.symm.trans hrt'
    cases hs.symm.trans ha
  | some r =>
    obtain ⟨p, hub⟩ := r
    rw [hr] at hrt'
    change (s.manager.onNotify k p.unit p.message).1.get u = some rt' at hrt'
    rw [UnitManager.get_onNotify] at hrt'
    split at hrt'
    · next hpu =>
      rw [hpu, hrt, Option.map_some, Option.some.injEq] at hrt'
      subst hrt'
      have hready := ready_of_onNotify hs ha
      obtain ⟨first, hfirst, hsince⟩ := (h.timely u rt hrt).since hs hk
      refine ⟨p, hub, rfl, hpu, ?_⟩
      rcases NotifyHub.recv_cases hr with ⟨hq, -⟩ | ⟨hq, -⟩
      · have hmem : p ∈ s.hub.ready := hq ▸ List.mem_cons_self
        obtain ⟨datagram, hsent, hparse⟩ := h.sourced.ready p hmem
        exact ⟨first, datagram, hpu ▸ hfirst, hsince.ready p hmem hpu, hsent,
          saysReady_of_parseNotify hparse hready⟩
      · have hstatus := h.sourced.status p (hq ▸ List.mem_cons_self)
        cases hready.symm.trans hstatus
    · cases hrt.symm.trans hrt'
      cases hs.symm.trans ha

/-- In a run in which no `READY=1` of a notify unit is queued whenever the unit is spawned, every
readiness belongs to the start it is taken for. -/
theorem owned_of_unread (h : s.Reached Unread) : s.Owned := h.kept.owned

/-! ## Concrete runs -/

/-- A notify service that is restarted at once. -/
def notifyConfig : UnitConfig :=
  { UnitConfig.new serviceA with serviceKind := .notify, restart := .always, restartSec := 0 }

def promptStarted : Notified :=
  ({} : Notified).step (.granting 0 10) (.manage (.addWithInFlight notifyConfig false))
    |>.step (.granting 0 10) (.spawn serviceA)

/-- The service has said that it is ready, and the message is queued. -/
def promptSaid : Notified :=
  promptStarted.step (.granting 1 10) (.arrive serviceA (asciiBytes "READY=1"))
    |>.step (.granting 1 10) (.read serviceA)
    |>.step (.granting 1 10) (.post serviceA)

theorem reached_promptSaid {G : Notified → Traffic → Prop}
    (h₁ : ∀ t, (∀ u, t ≠ .spawn u) → ∀ s, G s t)
    (h₂ : G (({} : Notified).step (.granting 0 10)
      (.manage (.addWithInFlight notifyConfig false))) (.spawn serviceA)) :
    promptSaid.Reached G := by
  refine .step _ _ (.step _ _ (.step _ _ (.step _ _ (.step _ _ .new ?_ ?_) ?_ h₂) ?_ ?_)
    ?_ ?_) ?_ ?_
  all_goals first | exact trivial | exact h₁ _ (by simp) _ | exact ⟨rfl, by simp, by simp⟩

theorem owned_promptSaid : promptSaid.Reached Unread ∧
    (promptSaid.manager.get serviceA).map UnitRuntime.state = some .starting ∧
    ((promptSaid.step (.granting 2 10) .recv).manager.get serviceA).map UnitRuntime.state =
      some .active ∧ promptSaid.Owned := by
  have hreached : promptSaid.Reached Unread := by
    refine reached_promptSaid (fun t ht s => ?_) fun rt hrt hp hk p hpm => ?_
    · cases t with
      | spawn u => exact absurd rfl (ht u)
      | _ => exact trivial
    · cases hpm
  exact ⟨hreached, by decide +kernel, by decide +kernel, owned_of_unread hreached⟩

/-- The process exits before its message is taken, and the service is restarted. -/
def restarted : Notified :=
  promptSaid.step (.granting 2 10) (.manage (.onChildExit 10 .success))
    |>.step (.granting 2 10) (.manage .dueRestarts)
    |>.step (.granting 2 11) (.spawn serviceA)

/-- The second process is taken for ready on the word of the first one : its `READY=1` came on
socket 0, and the start is that of socket 1. -/
theorem not_owned_restarted : restarted.Reached (fun _ _ => True) ∧ ¬restarted.Owned := by
  constructor
  · have hsaid : promptSaid.Reached (fun _ _ => True) :=
      reached_promptSaid (fun _ _ _ => trivial) trivial
    refine .step _ _ (.step _ _ (.step _ _ hsaid ?_ trivial) ?_ trivial) trivial trivial
    all_goals exact ⟨trivial, by simp, by simp⟩
  · intro h
    have hbefore : (restarted.manager.get serviceA).map (fun rt =>
        (rt.config.serviceKind, rt.state)) = some (.notify, .starting) := by decide +kernel
    have hafter : ((restarted.step (.granting 2 11) .recv).manager.get serviceA).map
        UnitRuntime.state = some .active := by decide +kernel
    have hsocket : restarted.hub.recv.map (fun r => r.1.socket) = some 0 := by decide +kernel
    have hbegun : restarted.begun[serviceA]? = some 1 := by decide +kernel
    obtain ⟨rt, hrt, hstate⟩ := Option.map_eq_some_iff.mp hbefore
    obtain ⟨rt', hrt', ha⟩ := Option.map_eq_some_iff.mp hafter
    obtain ⟨hk, hs⟩ := Prod.mk.inj hstate
    obtain ⟨p, hub, hr, hu, first, _, hfirst, hle, -⟩ := h _ serviceA rt rt' hrt hk hs hrt' ha
    rw [hu, hbegun, Option.some.injEq] at hfirst
    have hzero : p.socket = 0 := by simpa [hr] using hsocket
    omega

end Notified

end Rinit
