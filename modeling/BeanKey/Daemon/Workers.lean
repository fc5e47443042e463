import BeanKey.Daemon.Endpoint
import BeanKey.Daemon.Serve

/-! The accepting loop of the server: every connection has a thread of its own, finished threads are
joined, and the loop ends once no client is left. -/
namespace BeanKey.Daemon
open Packing Engine

inductive Thread where
  | serving (connection : Connection)
  /-- `serve_connection` is over; its client still counts as active. -/
  | served (connection : Connection) (panicked : Bool)
  | finishing (panicked : Bool)
  | finished (panicked : Bool)

namespace Thread

def connection : Thread → Option Connection
  | serving connection | served connection _ => some connection
  | finishing _ | finished _ => none

def active (thread : Thread) : Bool := thread.connection.isSome

end Thread

inductive Loop where
  | head
  | reap (index : Nat)
  | accept
  | wouldBlock
  | join
  | ended (result : Except ServerError Unit)

inductive Accepted where
  | stream (peer : Except ServerError Nat)
  | wouldBlock
  | fails

structure Server where
  terminating : Bool := false
  acceptedClient : Bool := false
  activeClients : Nat := 0
  /-- The threads that are not joined yet. -/
  workers : List Nat := []
  threads : List Thread := []
  loop : Loop := .head

/-- The last element takes the place of the one that is removed. -/
def swapRemove {α : Type} (values : List α) (index : Nat) : List α :=
  match values.getLast? with
  | none => []
  | some last => (values.set index last).dropLast

namespace Server

def spawn (server : Server) : Server :=
  { server with
    acceptedClient := true
    activeClients := server.activeClients + 1
    workers := server.workers ++ [server.threads.length]
    threads := server.threads ++ [.serving {}]
    loop := .head }

def joined (server : Server) (workers : List Nat) (panicked : Bool) : Server :=
  { server with
    workers
    loop := if panicked then .ended (.error .workerPanicked) else server.loop }

/-- What the loop does next, where it does not wait for a thread. -/
def next (uid : Nat) (accepted : Accepted) (server : Server) : Option Server :=
  match server.loop with
  | .head => some { server with loop := if server.terminating then .join else .reap 0 }
  | .reap index =>
    match server.workers[index]? with
    | none => some { server with loop := .accept }
    | some worker =>
      match server.threads[worker]? with
      | some (.finished panicked) => some (server.joined (swapRemove server.workers index) panicked)
      | _ => some { server with loop := .reap (index + 1) }
  | .accept =>
    match accepted with
    | .stream (.ok peer) =>
        some (if peer = uid then server.spawn else { server with loop := .head })
    | .stream (.error error) => some { server with loop := .ended (.error error) }
    | .wouldBlock => some { server with loop := .wouldBlock }
    | .fails => some { server with loop := .ended (.error .socket) }
  | .wouldBlock =>
    let idle := server.acceptedClient && server.activeClients == 0
    some { server with loop := if idle then .join else .head }
  | .join =>
    match server.workers with
    | [] => some { server with loop := .ended (.ok ()) }
    | worker :: workers =>
      match server.threads[worker]? with
      | some (.finished panicked) => some (server.joined workers panicked)
      | _ => none
  | .ended _ => none

def move (server : Server) (worker : Nat) (thread : Thread) : Server :=
  { server with threads := server.threads.set worker thread }

def leave (server : Server) (worker : Nat) (panicked : Bool) : Server :=
  { server with
    activeClients := server.activeClients - 1
    threads := server.threads.set worker (.finishing panicked) }

end Server

section
variable (config : EngineConfig) (prost : Prost Protocol.Payload)

inductive Thread.Step : Thread → Thread → Prop
  | receive {connection : Connection} (bytes : Bytes) :
      Step (.serving connection)
        (.serving { connection with reader := connection.reader ++ bytes })
  | serve {connection : Connection} (services : Services) : connection.serving →
      Step (.serving connection) (.serving (Daemon.serve config prost services connection))
  | stop {connection : Connection} (panicked : Bool) :
      Step (.serving connection) (.served { connection with serving := false } panicked)
  | finish {panicked : Bool} : Step (.finishing panicked) (.finished panicked)

/-- The loop and the threads take turns, and the signal may come at any time. -/
inductive Server.Step (uid : Nat) : Server → Server → Prop
  | loop {before after : Server} (accepted : Accepted) : before.next uid accepted = some after →
      Step uid before after
  | thread {server : Server} {worker : Nat} {thread moved : Thread} :
      server.threads[worker]? = some thread → Thread.Step config prost thread moved →
      Step uid server (server.move worker moved)
  | leave {server : Server} {worker : Nat} {connection : Connection} {panicked : Bool} :
      server.threads[worker]? = some (.served connection panicked) →
      Step uid server (server.leave worker panicked)
  | terminate {server : Server} : Step uid server { server with terminating := true }

def Server.Run (uid : Nat) : Server → Prop :=
  Relation.ReflTransGen (Server.Step config prost uid) {}

end

/-! ### The last element in the place of another -/

theorem swapRemove_concat {α : Type} (values : List α) (last : α) (index : Nat) :
    swapRemove (values ++ [last]) index =
      if index < values.length then values.set index last else values := by
  have hlast : (values ++ [last]).getLast? = some last := by simp
  rw [swapRemove, hlast]
  dsimp only
  split
  · next hindex => rw [List.set_append_left _ _ hindex, List.dropLast_concat]
  · next hindex =>
    rw [List.set_append_right _ _ (Nat.not_lt.mp hindex)]
    cases index - values.length <;> simp

theorem swapRemove_perm {α : Type} {values : List α} {index : Nat} {value : α}
    (h : values[index]? = some value) : values.Perm (value :: swapRemove values index) := by
  induction values using List.reverseRecOn with
  | nil => simp at h
  | append_singleton values last =>
    rw [swapRemove_concat]
    obtain ⟨hindex, rfl⟩ := List.getElem?_eq_some_iff.mp h
    split
    · next hbefore =>
      rw [List.getElem_append_left hbefore]
      have hset := List.set_perm_cons_eraseIdx hbefore last
      have herase := List.getElem_cons_eraseIdx_perm hbefore
      calc (values ++ [last]).Perm (last :: values) := List.perm_append_singleton _ _
        _ |>.Perm (last :: values[index] :: values.eraseIdx index) := herase.symm.cons last
        _ |>.Perm (values[index] :: last :: values.eraseIdx index) := .swap _ _ _
        _ |>.Perm (values[index] :: values.set index last) := hset.symm.cons _
    · next hafter =>
      have hlast : index = values.length := by
        rw [List.length_append, List.length_singleton] at hindex
        omega
      subst hlast
      simp

/-! ### What the loop keeps count of -/

/-- The clients that are counted are those with a connection, and a thread is joined only after its
connection. -/
structure Server.Accounts (config : EngineConfig) (prost : Prost Protocol.Payload)
    (server : Server) : Prop where
  counted : server.activeClients = server.threads.countP Thread.active
  connections : ∀ thread ∈ server.threads, ∀ connection ∈ thread.connection,
    Served config prost connection
  accepted : server.acceptedClient = true ↔ server.threads ≠ []
  handles : ∀ worker ∈ server.workers, worker < server.threads.length
  joined : (∀ error, server.loop ≠ .ended (.error error)) → ∀ worker < server.threads.length,
    worker ∈ server.workers ∨ server.threads[worker]? = some (.finished false)
  ending : server.loop = .join ∨ server.loop = .ended (.ok ()) →
    server.terminating = true ∨ server.threads ≠ [] ∧ server.activeClients = 0
  ended : server.loop = .ended (.ok ()) → server.workers = []

section
variable {config : EngineConfig} {prost : Prost Protocol.Payload} {uid : Nat}
  {server after : Server} {worker : Nat} {thread moved : Thread}

namespace Server.Accounts

theorem start : Accounts config prost {} where
  counted := rfl
  connections := by simp
  accepted := by simp
  handles := by simp
  joined := by simp
  ending := by simp
  ended := by simp

theorem goto (h : Accounts config prost server) {loop : Loop}
    (hloop : ∀ error, server.loop ≠ .ended (.error error))
    (hending : loop = .join ∨ loop = .ended (.ok ()) →
      server.terminating = true ∨ server.threads ≠ [] ∧ server.activeClients = 0)
    (hended : loop = .ended (.ok ()) → server.workers = []) :
    Accounts config prost { server with loop } where
  counted := h.counted
  connections := h.connections
  accepted := h.accepted
  handles := h.handles
  joined _ := h.joined hloop
  ending := hending
  ended := hended

theorem spawn (h : Accounts config prost server)
    (hloop : ∀ error, server.loop ≠ .ended (.error error)) :
    Accounts config prost server.spawn where
  counted := by simp [Server.spawn, h.counted, Thread.active, Thread.connection]
  connections := by
    intro thread hthread connection hconnection
    rcases List.mem_append.mp hthread with hold | hnew
    · exact h.connections thread hold connection hconnection
    · rw [List.mem_singleton.mp hnew] at hconnection
      cases hconnection
      exact .accepted
  accepted := by simp [Server.spawn]
  handles := by
    intro worker hin
    simp only [Server.spawn, List.length_append, List.length_singleton]
    rcases List.mem_append.mp hin with hold | hnew
    · exact Nat.lt_succ_of_lt (h.handles worker hold)
    · exact Nat.lt_succ_of_le (List.mem_singleton.mp hnew).le
  joined _ := by
    intro worker hworker
    simp only [Server.spawn, List.length_append, List.length_singleton] at hworker ⊢
    by_cases hnew : worker = server.threads.length
    · simp [hnew]
    · have hold : worker < server.threads.length := by omega
      rw [List.getElem?_append_left hold]
      exact (h.joined hloop worker hold).imp_left fun hin => List.mem_append_left _ hin
  ending := by simp [Server.spawn]
  ended := by simp [Server.spawn]

theorem join (h : Accounts config prost server) {workers : List Nat} {panicked : Bool}
    (hloop : server.loop = .join ∨ ∃ index, server.loop = .reap index)
    (hthread : server.threads[worker]? = some (.finished panicked))
    (hworkers : server.workers.Perm (worker :: workers)) :
    Accounts config prost (server.joined workers panicked) where
  counted := h.counted
  connections := h.connections
  accepted := h.accepted
  handles other hin := h.handles other (hworkers.mem_iff.mpr (List.mem_cons_of_mem _ hin))
  joined := by
    intro hafter other hother
    cases panicked with
    | true => exact absurd rfl (hafter _)
    | false =>
      have hclean (error : ServerError) : server.loop ≠ .ended (.error error) := by
        rcases hloop with hloop | ⟨_, hloop⟩ <;> simp [hloop]
      rcases h.joined hclean other hother with hin | hfinished
      · rcases List.mem_cons.mp (hworkers.mem_iff.mp hin) with rfl | hin
        · exact .inr hthread
        · exact .inl hin
      · exact .inr hfinished
  ending := by
    cases panicked with
    | true => simp [Server.joined]
    | false => exact h.ending
  ended := by
    rcases hloop with hloop | ⟨_, hloop⟩ <;> cases panicked <;> simp [Server.joined, hloop]

theorem next (h : Accounts config prost server) {accepted : Accepted}
    (hnext : server.next uid accepted = some after) : Accounts config prost after := by
  have hgoes {place : Loop} (hplace : server.loop = place)
      (hgoing : ∀ result, place ≠ .ended result) :
      ∀ error, server.loop ≠ .ended (.error error) := by
    intro error
    rw [hplace]
    exact hgoing _
  unfold Server.next at hnext
  split at hnext
  · next hloop =>
    cases hnext
    refine h.goto (hgoes hloop (by simp)) ?_ (by split <;> simp)
    split
    · next hterminating => exact fun _ => .inl hterminating
    · simp
  · next index hloop =>
    split at hnext
    · cases hnext
      exact h.goto (hgoes hloop (by simp)) (by simp) (by simp)
    · next worker hworker =>
      split at hnext
      · next panicked hthread =>
        cases hnext
        exact h.join (.inr ⟨index, hloop⟩) hthread (swapRemove_perm hworker)
      · cases hnext
        exact h.goto (hgoes hloop (by simp)) (by simp) (by simp)
  · next hloop =>
    have hgoing := hgoes hloop (by simp)
    split at hnext
    · cases hnext
      split
      · exact h.spawn hgoing
      · exact h.goto hgoing (by simp) (by simp)
    · cases hnext
      exact h.goto hgoing (by simp) (by simp)
    · cases hnext
      exact h.goto hgoing (by simp) (by simp)
    · cases hnext
      exact h.goto hgoing (by simp) (by simp)
  · next hloop =>
    cases hnext
    refine h.goto (hgoes hloop (by simp)) ?_ (by split <;> simp)
    split
    · next hidle =>
      -- No client is active, and there has been one.
      simp only [Bool.and_eq_true, beq_iff_eq] at hidle
      exact fun _ => .inr ⟨h.accepted.mp hidle.1, hidle.2⟩
    · simp
  · next hloop =>
    split at hnext
    · next hnone =>
      cases hnext
      exact h.goto (hgoes hloop (by simp)) (fun _ => h.ending (.inl hloop)) (fun _ => hnone)
    · next worker workers hworkers =>
      split at hnext
      · next panicked hthread =>
        cases hnext
        exact h.join (.inl hloop) hthread (by rw [hworkers])
      · cases hnext
  · cases hnext

theorem move (h : Accounts config prost server) {activeClients : Nat}
    (hthread : server.threads[worker]? = some thread)
    (hmoving : thread ≠ .finished false)
    (hcounted : activeClients + (if thread.active then 1 else 0) =
      server.activeClients + if moved.active then 1 else 0)
    (hconnection : ∀ connection ∈ moved.connection, Served config prost connection)
    (hleaves : moved.active = true → thread.active = true) :
    Accounts config prost
      { server with activeClients, threads := server.threads.set worker moved } := by
  obtain ⟨hworker, hat⟩ := List.getElem?_eq_some_iff.mp hthread
  have hone : (if thread.active then 1 else 0) ≤ server.threads.countP Thread.active := by
    split
    · next hactive =>
      exact List.countP_pos_iff.mpr ⟨thread, List.mem_of_getElem? hthread, hactive⟩
    · exact Nat.zero_le _
  refine ⟨?_, ?_, ?_, ?_, ?_, ?_, h.ended⟩
  · dsimp only
    rw [List.countP_set hworker, hat, ← h.counted]
    have hcount := h.counted
    omega
  · intro other hother connection hin
    rcases List.mem_or_eq_of_mem_set hother with hold | rfl
    · exact h.connections other hold connection hin
    · exact hconnection connection hin
  · simpa using h.accepted
  · simpa using h.handles
  · intro hloop other hother
    simp only [List.length_set] at hother ⊢
    refine (h.joined hloop other hother).imp_right fun hfinished => ?_
    rw [List.getElem?_set_ne, hfinished]
    intro hsame
    rw [hsame, hfinished] at hthread
    exact hmoving (Option.some.inj hthread).symm
  · intro hloop
    refine (h.ending hloop).imp_right fun hquiet => ⟨by simpa using hquiet.1, ?_⟩
    -- With no active client the thread has none either, and gets none.
    have hpassive : ¬ thread.active = true := by
      intro hactive
      rw [if_pos hactive, ← h.counted, hquiet.2] at hone
      exact absurd hone (by decide)
    rw [if_neg hpassive, if_neg fun hactive => hpassive (hleaves hactive)] at hcounted
    simpa [hquiet.2] using hcounted

theorem step (h : Accounts config prost server)
    (hstep : Server.Step config prost uid server after) :
    Accounts config prost after := by
  cases hstep with
  | loop accepted hnext => exact h.next hnext
  | thread hthread hmoves =>
    have hmember := List.mem_of_getElem? hthread
    cases hmoves with
    | receive bytes =>
      refine h.move hthread (by simp) rfl ?_ (fun _ => rfl)
      rintro _ ⟨⟩
      exact .receive bytes (h.connections _ hmember _ rfl)
    | serve services hserving =>
      refine h.move hthread (by simp) rfl ?_ (fun _ => rfl)
      rintro _ ⟨⟩
      exact .serve services (h.connections _ hmember _ rfl) hserving
    | stop panicked =>
      refine h.move hthread (by simp) rfl ?_ (fun _ => rfl)
      rintro _ ⟨⟩
      exact .stop (h.connections _ hmember _ rfl)
    | finish => exact h.move hthread (by simp) rfl (by simp [Thread.connection]) id
  | leave hthread =>
    refine h.move hthread (by simp) ?_ (by simp [Thread.connection])
      (by simp [Thread.active, Thread.connection])
    have hpositive : 0 < server.activeClients := by
      rw [h.counted]
      exact List.countP_pos_iff.mpr ⟨_, List.mem_of_getElem? hthread, rfl⟩
    simp only [Thread.active, Thread.connection, Option.isSome_some, Option.isSome_none]
    exact Nat.sub_add_cancel hpositive
  | terminate =>
    exact ⟨h.counted, h.connections, h.accepted, h.handles, h.joined, fun _ => .inl rfl, h.ended⟩

end Server.Accounts

theorem Server.Run.accounts (h : Server.Run config prost uid server) :
    Server.Accounts config prost server := by
  induction h with
  | refl => exact .start
  | tail _ hstep ih => exact ih.step hstep

def afterClient : Server :=
  { acceptedClient := true, workers := [0], threads := [.finished false] }

theorem afterClient_run : Server.Run config prost uid afterClient :=
  .head (.loop .wouldBlock rfl) <| .head (.loop .wouldBlock rfl) <|
    .head (.loop (.stream (.ok uid)) (by simp [Server.next]; rfl)) <|
    .head (@Server.Step.thread _ _ _ _ 0 _ _ rfl (.stop false)) <|
    .head (@Server.Step.leave _ _ _ _ 0 _ _ rfl) <|
    .single (@Server.Step.thread _ _ _ _ 0 _ _ rfl .finish)

/-- Every connection is served as if it were alone, whatever the others do; a client counts as
active as long as it has a connection. The loop ends, but for a signal, only after there has been a
client and once none is connected, and `run` returns without an error only after every thread has
come to its end. -/
theorem run_ends (h : Server.Run config prost uid server) :
    (∀ thread ∈ server.threads, ∀ connection ∈ thread.connection,
      Served config prost connection) ∧
    server.activeClients = server.threads.countP Thread.active ∧
    (server.loop = .join → server.terminating = true ∨
      server.threads ≠ [] ∧ ∀ thread ∈ server.threads, thread.connection = none) ∧
    (server.loop = .ended (.ok ()) → (server.terminating = true ∨ server.threads ≠ []) ∧
      ∀ thread ∈ server.threads, thread = .finished false) := by
  have haccounts := h.accounts
  refine ⟨haccounts.connections, haccounts.counted, ?_, ?_⟩
  · intro hjoin
    refine (haccounts.ending (.inl hjoin)).imp_right fun hquiet => ⟨hquiet.1, fun thread hin => ?_⟩
    have hnone := hquiet.2
    rw [haccounts.counted, List.countP_eq_zero] at hnone
    simpa [Thread.active] using hnone thread hin
  · intro hended
    refine ⟨(haccounts.ending (.inr hended)).imp_right And.left, fun thread hin => ?_⟩
    obtain ⟨worker, hworker, rfl⟩ := List.mem_iff_getElem.mp hin
    have hjoined := haccounts.joined (by simp [hended]) worker hworker
    rw [haccounts.ended hended, List.getElem?_eq_getElem hworker] at hjoined
    simpa using hjoined

theorem run_ends_afterClient :
    Server.Run plainConfig (resettingProst (longId 1)) 0
      { afterClient with workers := [], loop := .ended (.ok ()) } ∧
    ∀ thread ∈ afterClient.threads, thread = .finished false := by
  have hrun : Server.Run plainConfig (resettingProst (longId 1)) 0
      { afterClient with workers := [], loop := .ended (.ok ()) } :=
    afterClient_run.trans <| .head (.loop .wouldBlock rfl) <| .head (.loop .wouldBlock rfl) <|
      .head (.loop .wouldBlock rfl) <| .head (.loop .wouldBlock rfl) <|
      .head (.loop .wouldBlock rfl) <| .single (.loop .wouldBlock rfl)
  exact ⟨hrun, ((run_ends hrun).2.2.2 rfl).2⟩

/-! ### The way out -/

/-- The clients are gone, and the loop has reason to end. -/
structure Server.Quiet (server : Server) : Prop where
  finished : ∀ thread ∈ server.threads, thread = .finished false
  handles : ∀ worker ∈ server.workers, worker < server.threads.length
  inactive : server.activeClients = 0
  stopping : server.terminating = true ∨ server.acceptedClient = true
  clean : ∀ error, server.loop ≠ .ended (.error error)

/-- How far the loop is from its end, where no client comes. -/
def Server.distance (server : Server) : Nat :=
  let count := server.workers.length
  match server.loop with
  | .ended _ => 0
  | .join => 1 + count
  | .wouldBlock => if server.terminating then 3 + count else 2 + count
  | .accept => 4 + count
  | .reap index => 5 + count + (count - index)
  | .head => if server.terminating then 2 + count else 6 + 2 * count

theorem Server.Quiet.finished_at (h : server.Quiet) (hworker : worker ∈ server.workers) :
    server.threads[worker]? = some (.finished false) := by
  have hlt := h.handles worker hworker
  rw [List.getElem?_eq_getElem hlt, h.finished _ (List.getElem_mem hlt)]

theorem Server.Quiet.goto (h : server.Quiet) {loop : Loop}
    (hclean : ∀ error, loop ≠ .ended (.error error)) : ({ server with loop } : Server).Quiet :=
  ⟨h.finished, h.handles, h.inactive, h.stopping, hclean⟩

theorem Server.Quiet.join (h : server.Quiet) {workers : List Nat}
    (hworkers : server.workers.Perm (worker :: workers)) : (server.joined workers false).Quiet :=
  ⟨h.finished, fun other hin => h.handles other (hworkers.mem_iff.mpr (List.mem_cons_of_mem _ hin)),
    h.inactive, h.stopping, h.clean⟩

/-- The loop does not wait, and comes closer to its end. -/
theorem Server.Quiet.next (h : server.Quiet) (hloop : ∀ result, server.loop ≠ .ended result) :
    ∃ after, server.next uid .wouldBlock = some after ∧ after.Quiet ∧
      after.distance < server.distance := by
  cases hplace : server.loop with
  | head =>
    cases hterminating : server.terminating with
    | true =>
      refine ⟨{ server with loop := .join }, ?_, h.goto (by simp), ?_⟩
      · simp [Server.next, hplace, hterminating]
      · simp [Server.distance, hplace, hterminating]
    | false =>
      refine ⟨{ server with loop := .reap 0 }, ?_, h.goto (by simp), ?_⟩
      · simp [Server.next, hplace, hterminating]
      · simp only [Server.distance, hplace, hterminating]
        simp
        omega
  | reap index =>
    cases hworker : server.workers[index]? with
    | none =>
      refine ⟨{ server with loop := .accept }, ?_, h.goto (by simp), ?_⟩
      · simp [Server.next, hplace, hworker]
      · simp only [Server.distance, hplace]
        omega
    | some worker =>
      have hperm := swapRemove_perm hworker
      have hlength := hperm.length_eq
      rw [List.length_cons] at hlength
      have hindex := (List.getElem?_eq_some_iff.mp hworker).choose
      refine ⟨server.joined (swapRemove server.workers index) false, ?_, h.join hperm, ?_⟩
      · simp [Server.next, hplace, hworker, h.finished_at (List.mem_of_getElem? hworker)]
      · simp only [Server.distance, Server.joined, hplace, Bool.false_eq_true, if_false]
        omega
  | accept =>
    refine ⟨{ server with loop := .wouldBlock }, ?_, h.goto (by simp), ?_⟩
    · simp [Server.next, hplace]
    · simp only [Server.distance, hplace]
      split <;> omega
  | wouldBlock =>
    cases haccepted : server.acceptedClient with
    | true =>
      refine ⟨{ server with loop := .join }, ?_, h.goto (by simp), ?_⟩
      · simp [Server.next, hplace, haccepted, h.inactive]
      · simp only [Server.distance, hplace]
        split <;> omega
    | false =>
      have hterminating : server.terminating = true :=
        h.stopping.resolve_right (by simp [haccepted])
      refine ⟨{ server with loop := .head }, ?_, h.goto (by simp), ?_⟩
      · simp [Server.next, hplace, haccepted]
      · simp [Server.distance, hplace, hterminating]
  | join =>
    cases hworkers : server.workers with
    | nil =>
      refine ⟨{ server with loop := .ended (.ok ()) }, ?_, h.goto (by simp), ?_⟩
      · simp [Server.next, hplace, hworkers]
      · simp [Server.distance, hplace]
    | cons worker workers =>
      have hin : worker ∈ server.workers := by simp [hworkers]
      refine ⟨server.joined workers false, ?_, h.join (by rw [hworkers]), ?_⟩
      · simp [Server.next, hplace, hworkers, h.finished_at hin]
      · simp [Server.distance, Server.joined, hplace, hworkers]
  | ended result => exact absurd hplace (hloop result)

theorem Server.Quiet.ends (h : server.Quiet) :
    ∃ after, Relation.ReflTransGen (fun before after => before.next uid .wouldBlock = some after)
      server after ∧ after.loop = .ended (.ok ()) := by
  induction hdistance : server.distance using Nat.strong_induction_on generalizing server with
  | _ distance ih =>
    by_cases hended : ∃ result, server.loop = .ended result
    · obtain ⟨result, hresult⟩ := hended
      cases result with
      | error error => exact absurd hresult (h.clean error)
      | ok => exact ⟨server, .refl, hresult⟩
    · have hgoing (result : Except ServerError Unit) : server.loop ≠ .ended result :=
        fun hresult => hended ⟨result, hresult⟩
      obtain ⟨closer, hnext, hquiet, hlt⟩ := @Server.Quiet.next uid server h hgoing
      obtain ⟨after, hturns, hafter⟩ := ih closer.distance (hdistance ▸ hlt) hquiet rfl
      exact ⟨after, .head hnext hturns, hafter⟩

/-- The daemon does not outlive its clients: once they are all gone without a panic, the loop comes
to its end by itself, from wherever it stands; so it does after a signal, also where no client ever
was. -/
theorem run_returns (h : Server.Run config prost uid server)
    (hclean : ∀ error, server.loop ≠ .ended (.error error))
    (hstopping : server.terminating = true ∨ server.threads ≠ [])
    (hfinished : ∀ thread ∈ server.threads, thread = .finished false) :
    ∃ after, Relation.ReflTransGen (fun before after => before.next uid .wouldBlock = some after)
      server after ∧ after.loop = .ended (.ok ()) := by
  have haccounts := h.accounts
  have hquiet : server.Quiet := by
    refine ⟨hfinished, haccounts.handles, ?_, hstopping.imp_right haccounts.accepted.mpr, hclean⟩
    rw [haccounts.counted, List.countP_eq_zero]
    intro thread hin
    simp [hfinished thread hin, Thread.active, Thread.connection]
  exact hquiet.ends

theorem run_returns_afterClient : ∃ after,
    Relation.ReflTransGen (fun before after => before.next 0 .wouldBlock = some after)
      afterClient after ∧ after.loop = .ended (.ok ()) := by
  have hrun : Server.Run plainConfig (resettingProst (longId 1)) 0 afterClient := afterClient_run
  exact run_returns hrun (by simp [afterClient]) (.inr (by simp [afterClient]))
    (by simp [afterClient])

end

end BeanKey.Daemon
