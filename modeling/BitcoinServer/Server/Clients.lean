import BitcoinServer.Client.Bounds
import BitcoinServer.Client.Outcome
import BitcoinServer.Server.WorkCount

/-!
Contract: the clients of the whole server, each as if it were alone.

Owns the refinement between the two levels: a step of the server is a step of one client's own
model, in which `global_work_count` has some value, or moves no client at all. So a run of the
server is for each client a run of its own model where others set the counter, and whatever holds
in all of those holds in every client at once.
-/

namespace BitcoinServer.Server.GlobalWork

open BitcoinServer.Command BitcoinServer.Work Transition

/-- The client takes one step of its own model, some value being in the counter. -/
def OwnStep (jobOf : Nat → List UInt8 → Job) (client next : Client.State) : Prop :=
  ∃ value label, Client.step jobOf { client with globalWorkCount := value } label = some next

section Steps

variable {jobOf : Nat → Nat → List UInt8 → Job} {s next : State} {label : Label}

theorem ownStep_setClient {i : Nat} {after : Client.State}
    (own : OwnStep (jobOf i) (s.clients i) after) :
    OwnStep (jobOf i) (s.clients i) (Function.update s.clients i after i) ∧
      ∀ j, j ≠ i → Function.update s.clients i after j = s.clients j := by
  rw [Function.update_self]
  exact ⟨own, fun j other => Function.update_of_ne other ..⟩

/-- A step moves one client by a step of its own, or none. -/
theorem step_own (taken : step jobOf s label = some next) :
    next.clients = s.clients ∨
      ∃ i, OwnStep (jobOf i) (s.clients i) (next.clients i) ∧
        ∀ j, j ≠ i → next.clients j = s.clients j := by
  cases step_row taken with
  | client i label after apart unlocked clientStep =>
      exact .inr ⟨i, ownStep_setClient ⟨(s.clients i).globalWorkCount, label, clientStep⟩⟩
  | admitStore i c value atAdmission loaded =>
      have atDispatch : (s.withValue i value).reader = .dispatch c :=
        (admission_eq_some atAdmission).1
      have chosen : Client.step (jobOf i) (s.withValue i value) (.reader .move) =
          some ((s.withValue i value).choose c) := by
        rw [Client.step, Client.readerStep, atDispatch]
      rw [countUp_clients]
      exact .inr ⟨i, ownStep_setClient ⟨value, .reader .move, chosen⟩⟩
  | countStore i c value after atCount loaded clientStep =>
      exact .inr ⟨i, ownStep_setClient ⟨value, .handler c .move, clientStep⟩⟩
  | lock | admitLoad | unlock | countLoad => exact .inl rfl

end Steps

/-- In every run of the server with any number of clients: each step is a step of one client's own
model or moves no client, each client is in a state that its own model reaches when others set the
counter, and a reader that has loaded the counter and not stored it is the one that holds
`global_work_mutex`. So every client has at most `CLIENT_THREAD_COUNT` live handler threads, and
answers no WORK command twice. -/
theorem server_refines_clients (jobOf : Nat → Nat → List UInt8 → Job) {s : State}
    (reached : Reachable (step jobOf) State.initial s) :
    (∀ label next, step jobOf s label = some next → next.clients = s.clients ∨
      ∃ i, OwnStep (jobOf i) (s.clients i) (next.clients i) ∧
        ∀ j, j ≠ i → next.clients j = s.clients j) ∧
    (∀ i, Reachable (Client.step (jobOf i)) Client.State.initial (s.clients i)) ∧
    (∀ i value, s.valueOf (.reader i) = some value → s.globalWorkMutex = some i) ∧
    (∀ i, (s.clients i).live.card ≤ Client.clientThreadCount) ∧
    (∀ i c, ((s.clients i).sent.map Prod.fst).count c ≤ 1) := by
  have alone := client_reachable reached
  refine ⟨fun label next => step_own, alone, ?_, ?_, ?_⟩
  · exact fun i value loaded => (excluded_of_reachable reached i value loaded).1
  · exact fun i => Client.card_live_le (Client.clientInv_of_reachable (alone i)).pool
      (Client.shutInv_of_reachable (alone i))
  · exact fun i c => List.nodup_iff_count_le_one.mp
      (Client.outcomeInv_of_reachable (alone i)).once c

/-- Client 1 is admitted after client 0 has gone. -/
theorem server_refines_clients_two : ∃ s : State, s.active = [(1, 0)] ∧
    ∀ i, Reachable (Client.step Client.easyJob) Client.State.initial (s.clients i) := by
  obtain ⟨s, reached, active⟩ :=
    exists_reachable_of_run (step fun _ => Client.easyJob) State.initial twoClients
      (fun s => decide (s.active = [(1, 0)])) (by decide +kernel)
  exact ⟨s, of_decide_eq_true active,
    (server_refines_clients (fun _ => Client.easyJob) reached).2.1⟩

end BitcoinServer.Server.GlobalWork
