import BeanKey.Library.Interleaving

/-! The lock and the socket of the daemon: processes reserve, bind and drop the one endpoint of a
runtime directory, in any order of their system calls, and may stop at any of them. -/
namespace BeanKey.Daemon
open Interleaving

structure Entry where
  isSocket : Bool
  uid : Nat
  mode : Nat
  /-- The device and the inode. -/
  inode : Nat
  deriving DecidableEq

/-- The runtime directory. The lock file is never removed, so its holder is all there is to it. -/
structure Runtime (Process : Type) where
  lock : Option Process
  socket : Option Entry
  /-- The process with a listener on the socket of an inode. -/
  listening : Nat → Option Process

inductive ServerError where
  | runtimeDirectory | unsafeRuntimeDirectory | lock | lockBusy | alreadyRunning | invalidSocketPath
  | unsafeSocket | socket | unsupportedPlatform | workerPanicked
  deriving DecidableEq

inductive Phase where
  | prepareDirectory
  | acquireLock
  /-- The lock was busy: the socket is tried, to tell why. -/
  | lockBusy
  | inspectSocket
  /-- An owned socket is there: it is tried, and then it is removed. -/
  | connectStale
  | removeStale
  | reserved
  | setPermissions (inode : Nat)
  | checkMetadata (inode : Nat)
  /-- The listener, and the inode that was read at its path. -/
  | serving (inode socketInode : Nat)
  | inspectDropped (inode socketInode : Nat)
  | removeDropped (inode : Nat)
  | closeListener (inode : Nat) (result : Except ServerError Unit)
  | releaseLock (result : Except ServerError Unit)
  | ended (result : Except ServerError Unit)
  | crashed

section
variable {Process : Type} [DecidableEq Process]

namespace Runtime

/-- A client reaches a process through the path. -/
def Answers (runtime : Runtime Process) (process : Process) : Prop :=
  ∃ entry, runtime.socket = some entry ∧ entry.isSocket = true ∧
    runtime.listening entry.inode = some process

def close (runtime : Runtime Process) (inode : Nat) : Runtime Process :=
  { runtime with listening := Function.update runtime.listening inode none }

/-- What the end of a process leaves: its lock and its listeners are gone, its socket stays. -/
def killed (runtime : Runtime Process) (process : Process) : Runtime Process :=
  { runtime with
    lock := if runtime.lock = some process then none else runtime.lock
    listening := fun inode =>
      if runtime.listening inode = some process then none else runtime.listening inode }

end Runtime

/-- One system call of a process of the user `uid`. A call may fail at any time; where connecting
fails, a listener may yet be there. -/
inductive Step (uid : Nat) (process : Process) :
    Phase × Runtime Process → Phase × Runtime Process → Prop
  | prepared {runtime : Runtime Process} :
      Step uid process (.prepareDirectory, runtime) (.acquireLock, runtime)
  | notPrepared {runtime : Runtime Process} (error : ServerError)
      (herror : error = .runtimeDirectory ∨ error = .unsafeRuntimeDirectory ∨ error = .lock) :
      Step uid process (.prepareDirectory, runtime) (.ended (.error error), runtime)
  | lock {runtime : Runtime Process} : runtime.lock = none →
      Step uid process (.acquireLock, runtime)
        (.inspectSocket, { runtime with lock := some process })
  | busy {runtime : Runtime Process} : runtime.lock ≠ none →
      Step uid process (.acquireLock, runtime) (.lockBusy, runtime)
  | lockFails {runtime : Runtime Process} :
      Step uid process (.acquireLock, runtime) (.ended (.error .lock), runtime)
  | alreadyRunning {runtime : Runtime Process} {other : Process} : runtime.Answers other →
      Step uid process (.lockBusy, runtime) (.ended (.error .alreadyRunning), runtime)
  | unavailable {runtime : Runtime Process} :
      Step uid process (.lockBusy, runtime) (.ended (.error .lockBusy), runtime)
  | noSocket {runtime : Runtime Process} : runtime.socket = none →
      Step uid process (.inspectSocket, runtime) (.reserved, runtime)
  | unsafeSocket {runtime : Runtime Process} {entry : Entry} : runtime.socket = some entry →
      ¬ (entry.isSocket = true ∧ entry.uid = uid) →
      Step uid process (.inspectSocket, runtime) (.releaseLock (.error .unsafeSocket), runtime)
  | ownedSocket {runtime : Runtime Process} {entry : Entry} : runtime.socket = some entry →
      entry.isSocket = true → entry.uid = uid →
      Step uid process (.inspectSocket, runtime) (.connectStale, runtime)
  | staleAnswers {runtime : Runtime Process} {other : Process} : runtime.Answers other →
      Step uid process (.connectStale, runtime) (.releaseLock (.error .alreadyRunning), runtime)
  | stale {runtime : Runtime Process} :
      Step uid process (.connectStale, runtime) (.removeStale, runtime)
  | removeStale {runtime : Runtime Process} : runtime.socket ≠ none →
      Step uid process (.removeStale, runtime) (.reserved, { runtime with socket := none })
  /-- The reservation is dropped where the engine does not open. -/
  | abandon {runtime : Runtime Process} :
      Step uid process (.reserved, runtime) (.releaseLock (.ok ()), runtime)
  | bind {runtime : Runtime Process} {inode mode : Nat} : runtime.socket = none →
      runtime.listening inode = none →
      Step uid process (.reserved, runtime)
        (.setPermissions inode,
          { runtime with
            socket := some ⟨true, uid, mode, inode⟩
            listening := Function.update runtime.listening inode (some process) })
  | addressInUse {runtime : Runtime Process} : runtime.socket ≠ none →
      Step uid process (.reserved, runtime) (.releaseLock (.error .socket), runtime)
  | setPermissions {runtime : Runtime Process} {inode : Nat} {entry : Entry} :
      runtime.socket = some entry →
      Step uid process (.setPermissions inode, runtime)
        (.checkMetadata inode, { runtime with socket := some { entry with mode := 0o600 } })
  | checked {runtime : Runtime Process} {inode : Nat} {entry : Entry} :
      runtime.socket = some entry →
      entry.isSocket = true ∧ entry.uid = uid ∧ entry.mode = 0o600 →
      Step uid process (.checkMetadata inode, runtime) (.serving inode entry.inode, runtime)
  | refused {runtime : Runtime Process} {inode : Nat} {entry : Entry} :
      runtime.socket = some entry →
      ¬ (entry.isSocket = true ∧ entry.uid = uid ∧ entry.mode = 0o600) →
      Step uid process (.checkMetadata inode, runtime)
        (.closeListener inode (.error .unsafeSocket), runtime)
  /-- The server's loop is over. -/
  | stop {runtime : Runtime Process} {inode socketInode : Nat} :
      Step uid process (.serving inode socketInode, runtime)
        (.inspectDropped inode socketInode, runtime)
  | own {runtime : Runtime Process} {inode socketInode : Nat} {entry : Entry} :
      runtime.socket = some entry → entry.isSocket = true → entry.inode = socketInode →
      Step uid process (.inspectDropped inode socketInode, runtime) (.removeDropped inode, runtime)
  | notOwn {runtime : Runtime Process} {inode socketInode : Nat} :
      (∀ entry, runtime.socket = some entry →
        ¬ (entry.isSocket = true ∧ entry.inode = socketInode)) →
      Step uid process (.inspectDropped inode socketInode, runtime)
        (.closeListener inode (.ok ()), runtime)
  | removeDropped {runtime : Runtime Process} {inode : Nat} : runtime.socket ≠ none →
      Step uid process (.removeDropped inode, runtime)
        (.closeListener inode (.ok ()), { runtime with socket := none })
  | closeListener {runtime : Runtime Process} {inode : Nat} {result : Except ServerError Unit} :
      Step uid process (.closeListener inode result, runtime)
        (.releaseLock result, runtime.close inode)
  | releaseLock {runtime : Runtime Process} {result : Except ServerError Unit} :
      Step uid process (.releaseLock result, runtime)
        (.ended result, { runtime with lock := none })
  /-- A call of `remove_stale_socket` or of the reservation fails. -/
  | reserveFails {runtime : Runtime Process} {phase : Phase}
      (hphase : phase = .inspectSocket ∨ phase = .removeStale ∨ phase = .reserved) :
      Step uid process (phase, runtime) (.releaseLock (.error .socket), runtime)
  /-- A call of `RuntimeEndpoint::bind` fails after the listener is there. -/
  | bindFails {runtime : Runtime Process} {inode : Nat} {phase : Phase}
      (hphase : phase = .setPermissions inode ∨ phase = .checkMetadata inode) :
      Step uid process (phase, runtime) (.closeListener inode (.error .socket), runtime)
  /-- A call of `drop` fails, and the error is ignored. -/
  | dropFails {runtime : Runtime Process} {inode socketInode : Nat} {phase : Phase}
      (hphase : phase = .inspectDropped inode socketInode ∨ phase = .removeDropped inode) :
      Step uid process (phase, runtime) (.closeListener inode (.ok ()), runtime)
  | crash {runtime : Runtime Process} {phase : Phase} :
      Step uid process (phase, runtime) (.crashed, runtime.killed process)

/-! ### What a process says of the directory -/

/-- There is one listener, that of the process on `own`, or there is none. -/
def Runtime.Listens (runtime : Runtime Process) (process : Process) (own : Option Nat) : Prop :=
  ∀ inode, runtime.listening inode = if own = some inode then some process else none

/-- The socket of the process is at its path. -/
def Runtime.Published (runtime : Runtime Process) (uid inode : Nat) (Mode : Nat → Prop) : Prop :=
  ∃ mode, Mode mode ∧ runtime.socket = some ⟨true, uid, mode, inode⟩

/-- The lock is the process's, and so are all listeners. -/
def Runtime.Held (runtime : Runtime Process) (process : Process) (own : Option Nat) : Prop :=
  runtime.lock = some process ∧ runtime.Listens process own

/-- What a process knows of the directory by where it stands: listener and socket are business of
the holder of the lock. -/
def Knows (uid : Nat) (process : Process) (phase : Phase) (runtime : Runtime Process) : Prop :=
  match phase with
  | .prepareDirectory | .acquireLock | .lockBusy | .ended _ | .crashed =>
    runtime.lock ≠ some process ∧ ∀ inode, runtime.listening inode ≠ some process
  | .inspectSocket | .connectStale | .removeStale => runtime.Held process none
  | .releaseLock result => runtime.Held process none ∧ result ≠ .error .alreadyRunning
  | .reserved => runtime.Held process none ∧ runtime.socket = none
  | .setPermissions inode =>
    runtime.Held process (some inode) ∧ runtime.Published uid inode fun _ => True
  | .checkMetadata inode | .removeDropped inode =>
    runtime.Held process (some inode) ∧ runtime.Published uid inode fun mode => mode = 0o600
  | .serving inode socketInode | .inspectDropped inode socketInode =>
    runtime.Held process (some inode) ∧ (runtime.Published uid inode fun mode => mode = 0o600) ∧
      socketInode = inode
  | .closeListener inode result => runtime.Held process (some inode) ∧
      (result = .ok () ∨ result = .error .socket)

structure Own (uid : Nat) (process : Process) (phase : Phase)
    (runtime : Runtime Process) : Prop where
  free : runtime.lock = none → ∀ inode, runtime.listening inode = none
  knows : Knows uid process phase runtime

end

section
variable {Process : Type} [DecidableEq Process] {uid : Nat} {process other : Process}
  {before after : Phase × Runtime Process} {runtime : Runtime Process}

omit [DecidableEq Process] in
theorem Runtime.Held.free {own : Option Nat} (h : runtime.Held process own) :
    runtime.lock = none → ∀ inode, runtime.listening inode = none := by
  simp [h.1]

theorem killed_silent (runtime : Runtime Process) (process : Process) :
    (runtime.killed process).lock ≠ some process ∧
      ∀ inode, (runtime.killed process).listening inode ≠ some process := by
  refine ⟨?_, fun inode => ?_⟩
  all_goals
    simp only [Runtime.killed]
    split <;> simp_all

omit [DecidableEq Process] in
/-- Where a process stands, it holds the lock with its listeners, or has neither. -/
theorem Own.held (h : Own uid process before.1 before.2) :
    (∃ own, before.2.Held process own) ∨
      before.2.lock ≠ some process ∧ ∀ inode, before.2.listening inode ≠ some process := by
  obtain ⟨phase, runtime⟩ := before
  have hknows := h.knows
  cases phase with
  | prepareDirectory | acquireLock | lockBusy | ended | crashed => exact .inr hknows
  | inspectSocket | connectStale | removeStale => exact .inl ⟨none, hknows⟩
  | reserved | setPermissions | checkMetadata | removeDropped | serving | inspectDropped
  | closeListener | releaseLock => exact .inl ⟨_, hknows.1⟩

/-- Whoever dies with the lock takes its listener along, and others have none. -/
theorem Own.killed_free (h : Own uid process before.1 before.2) :
    (before.2.killed process).lock = none →
      ∀ inode, (before.2.killed process).listening inode = none := by
  intro hfree inode
  simp only [Runtime.killed] at *
  cases h.held with
  | inl hheld =>
    obtain ⟨own, hheld⟩ := hheld
    rw [hheld.2 inode]
    split <;> simp_all
  | inr hsilent =>
    rw [if_neg hsilent.1] at hfree
    simp [h.free hfree inode]

/-- A process keeps its word. -/
theorem Step.keeps (h : Step uid process before after) (hown : Own uid process before.1 before.2) :
    Own uid process after.1 after.2 := by
  have hknows := hown.knows
  cases h with
  | prepared => exact ⟨hown.free, hknows⟩
  | notPrepared => exact ⟨hown.free, hknows⟩
  | lock hfree =>
    have hnobody := hown.free hfree
    exact ⟨fun hnone => (by cases hnone), rfl, fun inode => by simpa using hnobody inode⟩
  | busy => exact ⟨hown.free, hknows⟩
  | lockFails => exact ⟨hown.free, hknows⟩
  | alreadyRunning => exact ⟨hown.free, hknows⟩
  | unavailable => exact ⟨hown.free, hknows⟩
  | noSocket hnone => exact ⟨hown.free, hknows, hnone⟩
  | unsafeSocket => exact ⟨hown.free, hknows, by simp⟩
  | ownedSocket => exact ⟨hown.free, hknows⟩
  | staleAnswers hanswers =>
    -- With the lock held there is no listener that could answer.
    obtain ⟨entry, -, -, hlistening⟩ := hanswers
    have hnone := hknows.2 entry.inode
    rw [hlistening] at hnone
    cases hnone
  | stale => exact ⟨hown.free, hknows⟩
  | removeStale => exact ⟨hown.free, hknows, rfl⟩
  | abandon => exact ⟨hown.free, hknows.1, by simp⟩
  | @bind runtime inode mode =>
    have hheld : Runtime.Held (⟨runtime.lock, some ⟨true, uid, mode, inode⟩,
        Function.update runtime.listening inode (some process)⟩ : Runtime Process) process
          (some inode) := by
      refine ⟨hknows.1.1, fun place => ?_⟩
      by_cases hsame : place = inode
      · simp [hsame]
      · have hnone : runtime.listening place = none := by simpa using hknows.1.2 place
        simp [hsame, hnone, Ne.symm hsame]
    exact ⟨hheld.free, hheld, mode, trivial, rfl⟩
  | addressInUse => exact ⟨hown.free, hknows.1, by simp⟩
  | setPermissions hentry =>
    obtain ⟨hheld, mode, -, hsocket⟩ := hknows
    cases hentry.symm.trans hsocket
    exact ⟨hown.free, hheld, _, rfl, rfl⟩
  | checked hentry =>
    obtain ⟨hheld, mode, hmode, hsocket⟩ := hknows
    cases hentry.symm.trans hsocket
    exact ⟨hown.free, hheld, ⟨mode, hmode, hsocket⟩, rfl⟩
  | refused hentry hbad =>
    obtain ⟨hheld, mode, hmode, hsocket⟩ := hknows
    cases hentry.symm.trans hsocket
    exact absurd ⟨rfl, rfl, hmode⟩ hbad
  | stop => exact ⟨hown.free, hknows⟩
  | own => exact ⟨hown.free, hknows.1, hknows.2.1⟩
  | notOwn => exact ⟨hown.free, hknows.1, .inl rfl⟩
  | removeDropped => exact ⟨hown.free, hknows.1, .inl rfl⟩
  | @closeListener runtime inode result =>
    have hheld : (runtime.close inode).Held process none := by
      refine ⟨hknows.1.1, fun place => ?_⟩
      by_cases hsame : place = inode
      · simp [Runtime.close, hsame]
      · have hnone : runtime.listening place = none := by
          simpa [Ne.symm hsame] using hknows.1.2 place
        simp [Runtime.close, hsame, hnone]
    refine ⟨hheld.free, hheld, ?_⟩
    rcases hknows.2 with rfl | rfl <;> simp
  | @releaseLock runtime =>
    have hnobody (inode : Nat) : runtime.listening inode = none := by simpa using hknows.1.2 inode
    exact ⟨fun _ => hnobody, by simp, fun inode => by simp [hnobody inode]⟩
  | reserveFails hphase =>
    rcases hphase with rfl | rfl | rfl
    · exact ⟨hown.free, hknows, by simp⟩
    · exact ⟨hown.free, hknows, by simp⟩
    · exact ⟨hown.free, hknows.1, by simp⟩
  | bindFails hphase => rcases hphase with rfl | rfl <;> exact ⟨hown.free, hknows.1, .inr rfl⟩
  | dropFails hphase => rcases hphase with rfl | rfl <;> exact ⟨hown.free, hknows.1, .inl rfl⟩
  | crash => exact ⟨hown.killed_free, killed_silent _ _⟩

/-- What a step is for another process. Without the lock a process changes neither the socket nor
any listener. -/
theorem Step.frame (h : Step uid process before after) (hown : Own uid process before.1 before.2)
    (hother : other ≠ process) :
    (after.2.lock = some other ↔ before.2.lock = some other) ∧
      (∀ inode, after.2.listening inode = some other → before.2.listening inode = some other) ∧
      (after.2.socket = before.2.socket ∧ after.2.listening = before.2.listening ∨
        before.2.lock = some process) := by
  have hknows := hown.knows
  cases h with
  | lock hfree => simp [hfree, hother.symm]
  | removeStale => exact ⟨Iff.rfl, fun _ => id, .inr hknows.1⟩
  | removeDropped => exact ⟨Iff.rfl, fun _ => id, .inr hknows.1.1⟩
  | setPermissions => exact ⟨Iff.rfl, fun _ => id, .inr hknows.1.1⟩
  | @bind runtime inode mode hempty hfree =>
    refine ⟨Iff.rfl, fun place => ?_, .inr hknows.1.1⟩
    by_cases hsame : place = inode
    · simp [hsame, hother.symm]
    · simp [hsame]
  | @closeListener runtime inode =>
    refine ⟨Iff.rfl, fun place => ?_, .inr hknows.1.1⟩
    by_cases hsame : place = inode
    · simp [Runtime.close, hsame]
    · simp [Runtime.close, hsame]
  | @releaseLock runtime =>
    have hlock : runtime.lock = some process := hknows.1.1
    simp [hlock, hother.symm]
  | @crash runtime phase =>
    refine ⟨?_, fun place => ?_, ?_⟩
    · simp only [Runtime.killed]
      split
      · next hmine => simp [hmine, hother.symm]
      · exact Iff.rfl
    · simp only [Runtime.killed]
      split <;> simp
    · cases hown.held with
      | inl hheld => exact .inr hheld.choose_spec.1
      | inr hsilent => exact .inl ⟨rfl, funext fun place => if_neg (hsilent.2 place)⟩
  | _ => exact ⟨Iff.rfl, fun _ => id, .inl ⟨rfl, rfl⟩⟩

/-- A process does not break the word of another. -/
theorem Step.spares {place : Phase} (h : Step uid process before after) (hother : other ≠ process)
    (hown : Own uid process before.1 before.2) (hsaid : Own uid other place before.2) :
    Own uid other place after.2 := by
  obtain ⟨hlock, hsilent, hkept⟩ := h.frame hown hother
  refine ⟨(h.keeps hown).free, ?_⟩
  have hsame : before.2.lock = some other →
      after.2.socket = before.2.socket ∧ after.2.listening = before.2.listening := by
    intro hheld
    refine hkept.resolve_right fun hmine => hother ?_
    rw [hheld] at hmine
    exact Option.some.inj hmine
  have hheld {own : Option Nat} (hheld : before.2.Held other own) : after.2.Held other own := by
    refine ⟨hlock.mpr hheld.1, ?_⟩
    unfold Runtime.Listens
    rw [(hsame hheld.1).2]
    exact hheld.2
  have hpublished {inode : Nat} {Mode : Nat → Prop} (hheld : before.2.lock = some other) :
      before.2.Published uid inode Mode → after.2.Published uid inode Mode := by
    unfold Runtime.Published
    rw [(hsame hheld).1]
    exact id
  have hknows := hsaid.knows
  cases place with
  | prepareDirectory | acquireLock | lockBusy | ended | crashed =>
    exact ⟨fun hmine => hknows.1 (hlock.mp hmine), fun inode hmine =>
      hknows.2 inode (hsilent inode hmine)⟩
  | inspectSocket | connectStale | removeStale => exact hheld hknows
  | releaseLock | closeListener => exact ⟨hheld hknows.1, hknows.2⟩
  | reserved => exact ⟨hheld hknows.1, (hsame hknows.1.1).1.trans hknows.2⟩
  | setPermissions | checkMetadata | removeDropped =>
    exact ⟨hheld hknows.1, hpublished hknows.1.1 hknows.2⟩
  | serving | inspectDropped =>
    exact ⟨hheld hknows.1, hpublished hknows.1.1 hknows.2.1, hknows.2.2⟩

/-! ### Over all interleavings -/

/-- No daemon runs yet; anything can stand at the socket path. -/
def Untouched (runtime : Runtime Process) : Prop :=
  runtime.lock = none ∧ ∀ inode, runtime.listening inode = none

/-- The worlds that the processes of a user lead to, in any order of their calls. -/
def Reaches (uid : Nat) : World Process Phase (Runtime Process) → Prop :=
  Reachable .prepareDirectory Untouched (Step uid)

variable {world : World Process Phase (Runtime Process)}

theorem Reaches.own (h : Reaches uid world) (process : Process) :
    Own uid process (world.locals process) world.shared :=
  h.invariant
    (fun process runtime hbegins => ⟨fun _ => hbegins.2, by simp [hbegins.1], fun inode => by
      simp [hbegins.2 inode]⟩)
    (fun hstep hown => hstep.keeps hown)
    (fun hstep hother hown hsaid => hstep.spares hother hown hsaid) process

omit [DecidableEq Process] in
theorem Runtime.Published.answers {inode : Nat} {Mode : Nat → Prop}
    (h : runtime.Published uid inode Mode) (hheld : runtime.Held process (some inode)) :
    runtime.Answers process := by
  obtain ⟨mode, -, hsocket⟩ := h
  exact ⟨_, hsocket, rfl, by simpa using hheld.2 inode⟩

/-- A process that is not disturbed comes to serve, over the socket that another one left. -/
theorem serves_alone (process : Process) (hlock : runtime.lock = none)
    (hlistening : ∀ inode, runtime.listening inode = none)
    (hsafe : ∀ entry, runtime.socket = some entry → entry.isSocket = true ∧ entry.uid = uid) :
    Relation.ReflTransGen (Step uid process) (.prepareDirectory, runtime)
      (.serving 0 0,
        { lock := some process
          socket := some ⟨true, uid, 0o600, 0⟩
          listening := Function.update runtime.listening 0 (some process) }) := by
  obtain ⟨lock, socket, listening⟩ := runtime
  cases hlock
  have hinspect : Relation.ReflTransGen (Step uid process)
      (.prepareDirectory, ⟨none, socket, listening⟩)
      (.inspectSocket, ⟨some process, socket, listening⟩) :=
    .tail (.single .prepared) (.lock rfl)
  have hreserved : Relation.ReflTransGen (Step uid process)
      (.inspectSocket, ⟨some process, socket, listening⟩)
      (.reserved, ⟨some process, none, listening⟩) := by
    cases socket with
    | none => exact .single (.noSocket rfl)
    | some entry =>
      have hentry := hsafe entry rfl
      have howned : Step uid process (.inspectSocket, ⟨some process, some entry, listening⟩)
          (.connectStale, ⟨some process, some entry, listening⟩) :=
        .ownedSocket rfl hentry.1 hentry.2
      exact .tail (.tail (.single howned) .stale) (.removeStale (by simp))
  have hbind : Step uid process (.reserved, ⟨some process, none, listening⟩)
      (.setPermissions 0, ⟨some process, some ⟨true, uid, 0, 0⟩,
        Function.update listening 0 (some process)⟩) :=
    .bind rfl (hlistening 0)
  have hpermissions : Step uid process
      (.setPermissions 0, ⟨some process, some ⟨true, uid, 0, 0⟩,
        Function.update listening 0 (some process)⟩)
      (.checkMetadata 0, ⟨some process, some ⟨true, uid, 0o600, 0⟩,
        Function.update listening 0 (some process)⟩) :=
    @Step.setPermissions _ _ uid process _ 0 ⟨true, uid, 0, 0⟩ rfl
  have hchecked : Step uid process
      (.checkMetadata 0, ⟨some process, some ⟨true, uid, 0o600, 0⟩,
        Function.update listening 0 (some process)⟩)
      (.serving 0 0, ⟨some process, some ⟨true, uid, 0o600, 0⟩,
        Function.update listening 0 (some process)⟩) :=
    @Step.checked _ _ uid process _ 0 ⟨true, uid, 0o600, 0⟩ rfl ⟨rfl, rfl, rfl⟩
  exact (((hinspect.trans hreserved).tail hbind).tail hpermissions).tail hchecked

def fresh : World Bool Phase (Runtime Bool) :=
  ⟨fun _ => .prepareDirectory, ⟨none, none, fun _ => none⟩⟩

theorem fresh_reaches : Reaches 0 fresh := .start ⟨rfl, fun _ => rfl⟩

theorem fresh_serves :
    Relation.ReflTransGen (Step 0 true) (.prepareDirectory, fresh.shared)
      (.serving 0 0, ⟨some true, some ⟨true, 0, 0o600, 0⟩,
        Function.update fresh.shared.listening 0 (some true)⟩) :=
  serves_alone true rfl (fun _ => rfl) (by simp [fresh])

/-- While one daemon serves, another one finds the lock held and is told so over the socket. -/
theorem crowded_reaches : ∃ world, Reaches 0 world ∧ world.locals true = .serving 0 0 ∧
    world.locals false = .ended (.error .alreadyRunning) := by
  have hserving := fresh_reaches.alone (Alone.of_steps fresh_serves rfl)
  have hrefused : Relation.ReflTransGen (Step 0 false)
      (.prepareDirectory, ⟨some true, some ⟨true, 0, 0o600, 0⟩,
        Function.update fresh.shared.listening 0 (some true)⟩)
      (.ended (.error .alreadyRunning), ⟨some true, some ⟨true, 0, 0o600, 0⟩,
        Function.update fresh.shared.listening 0 (some true)⟩) :=
    .tail (.tail (.single .prepared) (.busy (by simp)))
      (@Step.alreadyRunning _ _ 0 false _ true ⟨_, rfl, rfl, by simp⟩)
  exact ⟨_, hserving.alone (Alone.of_steps hrefused (by simp [fresh])), by simp, by simp⟩

/-- The daemon is killed while it serves; its socket is left. -/
theorem crashed_reaches : ∃ world, Reaches 0 world ∧ world.locals true = .crashed ∧
    world.locals false = .prepareDirectory ∧
    world.shared.socket = some ⟨true, 0, 0o600, 0⟩ :=
  ⟨_, fresh_reaches.alone (Alone.of_steps (fresh_serves.tail .crash) rfl), by simp, by simp [fresh],
    rfl⟩

/-- The daemon after it is about to remove that socket. -/
theorem removing_reaches : ∃ world, Reaches 0 world ∧ world.locals true = .crashed ∧
    world.locals false = .removeStale := by
  have hcrashed := fresh_reaches.alone (Alone.of_steps (fresh_serves.tail .crash) rfl)
  have hremoving {runtime : Runtime Bool} (hlock : runtime.lock = none)
      (hsocket : runtime.socket = some ⟨true, 0, 0o600, 0⟩) :
      Relation.ReflTransGen (Step 0 false) (.prepareDirectory, runtime)
        (.removeStale, { runtime with lock := some false }) :=
    (((Relation.ReflTransGen.single .prepared).tail (.lock hlock)).tail
      (.ownedSocket hsocket rfl rfl)).tail .stale
  refine ⟨_, hcrashed.alone (Alone.of_steps (hremoving ?_ ?_) rfl), by simp, by simp⟩
  · simp [Runtime.killed]
  · rfl

/-- A daemon that was told to stop is about to remove its own. -/
theorem dropping_reaches : ∃ world, Reaches 0 world ∧ world.locals true = .removeDropped 0 := by
  have hdropping := (fresh_serves.tail .stop).tail (.own rfl rfl rfl)
  exact ⟨_, fresh_reaches.alone (Alone.of_steps hdropping rfl), by simp⟩

/-- Of all the daemons of a user at most one serves. Its socket is at the path, for its user alone,
and leads to it whatever the others have tried or are trying; who can be reached holds the lock. -/
theorem one_daemon (h : Reaches uid world) :
    (∀ process inode socketInode, world.locals process = .serving inode socketInode →
      world.shared.Answers process ∧ ∃ entry, world.shared.socket = some entry ∧
        entry.uid = uid ∧ entry.mode = 0o600) ∧
    (∀ process, world.shared.Answers process → world.shared.lock = some process) ∧
    ∀ first second inode socketInode otherInode otherSocketInode,
      world.locals first = .serving inode socketInode →
      world.locals second = .serving otherInode otherSocketInode → first = second := by
  have hserves : ∀ process inode socketInode, world.locals process = .serving inode socketInode →
      Knows uid process (.serving inode socketInode) world.shared := by
    intro process inode socketInode hserving
    exact hserving ▸ (h.own process).knows
  refine ⟨?_, ?_, ?_⟩
  · intro process inode socketInode hserving
    obtain ⟨hheld, hpublished, -⟩ := hserves process inode socketInode hserving
    refine ⟨hpublished.answers hheld, ?_⟩
    obtain ⟨mode, hmode, hsocket⟩ := hpublished
    exact ⟨_, hsocket, rfl, hmode⟩
  · intro process hanswers
    obtain ⟨entry, -, -, hlistening⟩ := hanswers
    have hown := h.own process
    have hheld := @Own.held _ uid process (world.locals process, world.shared) hown
    rcases hheld with hheld | hsilent
    · exact hheld.choose_spec.1
    · exact absurd hlistening (hsilent.2 entry.inode)
  · intro first second inode socketInode otherInode otherSocketInode hfirst hsecond
    have hlock := (hserves first inode socketInode hfirst).1.1
    rw [(hserves second otherInode otherSocketInode hsecond).1.1] at hlock
    exact (Option.some.inj hlock).symm

theorem one_daemon_crowded : ∃ world, Reaches 0 world ∧
    world.locals false = .ended (.error .alreadyRunning) ∧ world.shared.Answers true ∧
    world.shared.lock = some true := by
  obtain ⟨world, hreaches, hserving, hrefused⟩ := crowded_reaches
  have hone := one_daemon hreaches
  have hanswers := (hone.1 true 0 0 hserving).1
  exact ⟨world, hreaches, hrefused, hanswers, hone.2.1 true hanswers⟩

/-- What a process removes from the path has no listener of another one: a stale socket has none,
and a dropped one is its own. A reservation finds the path free, so that of the checks behind the
lock none ever speaks of another daemon. -/
theorem removes_own (h : Reaches uid world) (process : Process) :
    (world.locals process = .removeStale → ∀ inode, world.shared.listening inode = none) ∧
    (∀ inode, world.locals process = .removeDropped inode → ∃ entry,
      world.shared.socket = some entry ∧ world.shared.listening entry.inode = some process) ∧
    (world.locals process = .reserved → world.shared.socket = none) ∧
    world.locals process ≠ .releaseLock (.error .alreadyRunning) ∧
    ∀ inode, world.locals process ≠ .closeListener inode (.error .unsafeSocket) := by
  have hknows := (h.own process).knows
  refine ⟨?_, ?_, ?_, ?_, ?_⟩
  · intro hphase inode
    rw [hphase] at hknows
    simpa using hknows.2 inode
  · intro inode hphase
    rw [hphase] at hknows
    obtain ⟨hheld, mode, -, hsocket⟩ := hknows
    exact ⟨_, hsocket, by simpa using hheld.2 inode⟩
  · intro hphase
    rw [hphase] at hknows
    exact hknows.2
  · intro hphase
    rw [hphase] at hknows
    exact hknows.2 rfl
  · intro inode hphase
    rw [hphase] at hknows
    rcases hknows.2 with hno | hno <;> cases hno

theorem removes_own_left :
    (∃ world, Reaches 0 world ∧ world.locals true = .crashed ∧
      world.locals false = .removeStale ∧ ∀ inode, world.shared.listening inode = none) ∧
    ∃ world, Reaches 0 world ∧ world.locals true = .removeDropped 0 ∧ ∃ entry,
      world.shared.socket = some entry ∧ world.shared.listening entry.inode = some true := by
  constructor
  · obtain ⟨world, hreaches, hcrashed, hremoving⟩ := removing_reaches
    exact ⟨world, hreaches, hcrashed, hremoving, (removes_own hreaches false).1 hremoving⟩
  · obtain ⟨world, hreaches, hdropping⟩ := dropping_reaches
    exact ⟨world, hreaches, hdropping, (removes_own hreaches true).2.1 0 hdropping⟩

/-- However the daemons before it ended, a new one can serve: once no process is under way any more,
only a foreign file at the path can be in its way. -/
theorem starts_again (h : Reaches uid world) {process : Process}
    (hquiet : ∀ other, world.locals other = .prepareDirectory ∨ world.locals other = .crashed ∨
      ∃ result, world.locals other = .ended result)
    (hnew : world.locals process = .prepareDirectory)
    (hsafe : ∀ entry, world.shared.socket = some entry →
      entry.isSocket = true ∧ entry.uid = uid) :
    ∃ after, Alone (Step uid) process world after ∧ after.locals process = .serving 0 0 ∧
      after.shared.Answers process := by
  have hlock : world.shared.lock = none := by
    by_contra hsome
    obtain ⟨holder, hholder⟩ := Option.ne_none_iff_exists'.mp hsome
    have hknows := (h.own holder).knows
    rcases hquiet holder with hphase | hphase | ⟨result, hphase⟩
    all_goals
      rw [hphase] at hknows
      exact hknows.1 hholder
  have hsteps := serves_alone process hlock ((h.own process).free hlock) hsafe
  refine ⟨_, Alone.of_steps hsteps (by rw [hnew]), by simp, ?_⟩
  exact ⟨_, rfl, rfl, by simp⟩

theorem starts_again_crashed : ∃ world, Reaches 0 world ∧ world.locals false = .serving 0 0 := by
  obtain ⟨world, hreaches, hcrashed, hnew, hsocket⟩ := crashed_reaches
  obtain ⟨after, halone, hserving, -⟩ := starts_again hreaches
    (by rintro (_ | _) <;> simp [hcrashed, hnew]) hnew (by simp [hsocket])
  exact ⟨after, hreaches.alone halone, hserving⟩

end
end BeanKey.Daemon
